import Mathlib.Data.List.Induction
import Mathlib.Tactic.Choose

/-!
Loops of programs that have a state and may fail, over effects `M` that do not
see the state. A `for` loop that reads the elements of a list does what the
fold of the list does; one that writes keeps an invariant of the elements
written so far.
-/

namespace Loops

abbrev Program (σ ε : Type) (M : Type → Type) := StateT σ (ExceptT ε M)

variable {σ ε : Type} {M : Type → Type} [Monad M] {α β γ : Type}

/-- `for i = start to start + count - 1`; what the body assigns is passed on. -/
def forUp (body : Nat → β → Program σ ε M β) : (start count : Nat) → β → Program σ ε M β
  | _, 0, b => pure b
  | i, n + 1, b => do forUp body (i + 1) n (← body i b)

/-- `for i = count - 1 downto 0`. -/
def forDown (body : Nat → β → Program σ ε M β) : (count : Nat) → β → Program σ ε M β
  | 0, b => pure b
  | i + 1, b => do forDown body i (← body i b)

/-- `List.iteri`, with the index to start from. -/
def iteri (f : Nat → α → Program σ ε M Unit) : Nat → List α → Program σ ε M Unit
  | _, [] => pure ()
  | i, a :: l => do
      f i a
      iteri f (i + 1) l

/-- From `s` the program has the effects of `y` and ends with the value and
the state that `k` gives. -/
def Performs (x : Program σ ε M α) (s : σ) (y : M β) (k : β → α × σ) : Prop :=
  x s = (fun b => Except.ok (k b)) <$> y

/-- From `s` the program has no effects and ends with `a` in the state `s'`. -/
def Ends (x : Program σ ε M α) (s : σ) (a : α) (s' : σ) : Prop :=
  x s = pure (Except.ok (a, s'))

/-- From `s` the program fails. -/
def Fails (x : Program σ ε M α) (s : σ) (e : ε) : Prop := x s = pure (Except.error e)

theorem ends_pure (a : α) (s : σ) : Ends (pure a : Program σ ε M α) s a s := rfl

theorem foldlM_unit {α : Type} (f : α → M Unit) (l : List α) :
    l.foldlM (fun _ a => f a) () = l.forM f := by
  induction l with
  | nil => rfl
  | cons a l ih =>
      rw [List.foldlM_cons]
      exact congrArg (f a >>= ·) (funext fun _ => ih)

variable [LawfulMonad M] {x : Program σ ε M α} {f : α → Program σ ε M γ} {s s' : σ} {a : α}

/-! ### Composition -/

theorem Performs.bind_run {y : M β} {k : β → α × σ} (h : Performs x s y k) :
    (x >>= f) s = y >>= fun b => f (k b).1 (k b).2 := by
  have hbind : (x >>= f) s = (x s : ExceptT ε M (α × σ)) >>= fun p => f p.1 p.2 := rfl
  have hexcept : ((x s : ExceptT ε M (α × σ)) >>= fun p => f p.1 p.2) =
      ((x s : M (Except ε (α × σ))) >>= ExceptT.bindCont fun p => f p.1 p.2 : M _) := rfl
  rw [hbind, hexcept, h, bind_map_left]
  rfl

theorem Ends.performs (h : Ends x s a s') :
    Performs x s (pure () : M Unit) fun _ => (a, s') := by
  rw [Performs, h, map_pure]

theorem Ends.bind_run (h : Ends x s a s') : (x >>= f) s = f a s' := by
  rw [h.performs.bind_run, pure_bind]

theorem Performs.bind {y : M β} {k : β → α × σ} {δ : Type} {z : β → M δ}
    {k' : δ → γ × σ} (h : Performs x s y k)
    (hf : ∀ b, Performs (f (k b).1) (k b).2 (z b) k') :
    Performs (x >>= f) s (y >>= z) k' := by
  rw [Performs, h.bind_run, map_bind]
  exact congrArg _ (funext hf)

theorem Performs.bind_ends {y : M β} {k : β → α × σ} {c : β → γ} {s' : β → σ}
    (h : Performs x s y k) (hf : ∀ b, Ends (f (k b).1) (k b).2 (c b) (s' b)) :
    Performs (x >>= f) s y fun b => (c b, s' b) := by
  rw [Performs, h.bind_run, ← bind_pure_comp]
  exact congrArg _ (funext hf)

theorem Ends.bind {c : γ} {s'' : σ} (h : Ends x s a s') (hf : Ends (f a) s' c s'') :
    Ends (x >>= f) s c s'' := h.bind_run.trans hf

theorem Ends.bind_performs {y : M β} {k : β → γ × σ} (h : Ends x s a s')
    (hf : Performs (f a) s' y k) : Performs (x >>= f) s y k := h.bind_run.trans hf

theorem Fails.bind {e : ε} (h : Fails x s e) : Fails (x >>= f) s e := by
  have hbind : (x >>= f) s =
      ((x s : M (Except ε (α × σ))) >>= ExceptT.bindCont fun p => f p.1 p.2 : M _) := rfl
  rw [Fails, hbind, h, pure_bind]
  rfl

/-- The value of a program without effects comes from its parts. -/
theorem Ends.of_bind {x : Program σ ε Id α} {f : α → Program σ ε Id γ} {s s'' : σ} {c : γ}
    (h : Ends (x >>= f) s c s'') : ∃ a s', Ends x s a s' ∧ Ends (f a) s' c s'' := by
  cases hx : (x s : Except ε (α × σ)) with
  | error e =>
      have hfails : (x >>= f) s = pure (Except.error e) := Fails.bind hx
      rw [Ends, hfails] at h
      cases h
  | ok r =>
      have hends : Ends x s r.1 r.2 := hx
      exact ⟨r.1, r.2, hends, hends.bind_run.symm.trans h⟩

/-! ### Loops that read -/

/-- A loop upwards whose body handles the elements of a list is the left fold. -/
theorem forUp_foldlM {body : Nat → β → Program σ ε M β} {g : β → α → M β} {l : List α}
    {i : Nat} (h : ∀ (j : Nat) (hj : j < l.length) b,
      Performs (body (i + j) b) s (g b l[j]) fun b' => (b', s)) (b : β) :
    Performs (forUp body i l.length b) s (l.foldlM g b) fun b' => (b', s) := by
  induction l generalizing i b with
  | nil => exact (ends_pure b s).performs.trans (by simp)
  | cons a l ih =>
      rw [List.foldlM_cons, List.length_cons, forUp]
      refine (h 0 (Nat.zero_lt_succ _) b).bind fun b' => ih (fun j hj b => ?_) b'
      have hbody := h (j + 1) (Nat.succ_lt_succ hj) b
      rwa [← Nat.add_assoc, Nat.add_right_comm] at hbody

/-- A loop downwards is the right fold. -/
theorem forDown_foldrM {body : Nat → β → Program σ ε M β} {g : α → β → M β} {l : List α}
    (h : ∀ (j : Nat) (hj : j < l.length) b,
      Performs (body j b) s (g l[j] b) fun b' => (b', s)) (b : β) :
    Performs (forDown body l.length b) s (l.foldrM g b) fun b' => (b', s) := by
  induction l using List.reverseRecOn generalizing b with
  | nil => exact (ends_pure b s).performs.trans (by simp)
  | append_singleton l a ih =>
      have hlast := h l.length (by simp) b
      rw [List.getElem_append_right (Nat.le_refl _)] at hlast
      rw [List.length_append, List.length_singleton, forDown, List.foldrM_append]
      refine Performs.bind (y := [a].foldrM g b) (k := fun c => (c, s)) ?_
        fun b' => ih (fun j hj b => ?_) b'
      · simpa using hlast
      · have hbody := h j (by rw [List.length_append]; omega) b
        rwa [List.getElem_append_left hj] at hbody

/-! ### Loops that write -/

/-- What each round keeps, the whole loop keeps. -/
theorem forUp_ends {body : Nat → Unit → Program σ ε M Unit} {I : Nat → σ → Prop} {n : Nat}
    (h : ∀ j < n, ∀ s, I j s → ∃ s', Ends (body j ()) s () s' ∧ I (j + 1) s') (hs : I 0 s) :
    ∃ s', Ends (forUp body 0 n ()) s () s' ∧ I n s' := by
  suffices hgen : ∀ k i s, i + k = n → I i s →
      ∃ s', Ends (forUp body i k ()) s () s' ∧ I n s' from hgen n 0 s (by omega) hs
  intro k
  induction k with
  | zero =>
      rintro i s rfl hs
      exact ⟨s, ends_pure () s, hs⟩
  | succ k ih =>
      intro i s hi hs
      obtain ⟨s1, hbody, hs1⟩ := h i (by omega) s hs
      obtain ⟨s2, hrest, hs2⟩ := ih (i + 1) s1 (by omega) hs1
      exact ⟨s2, hbody.bind hrest, hs2⟩

/-- `List.iteri` keeps an invariant of the elements that it has passed. -/
theorem iteri_ends {g : Nat → α → Program σ ε M Unit} {I : List α → σ → Prop} {l : List α}
    (h : ∀ us a vs, l = us ++ a :: vs → ∀ s, I us s →
      ∃ s', Ends (g us.length a) s () s' ∧ I (us ++ [a]) s') (hs : I [] s) :
    ∃ s', Ends (iteri g 0 l) s () s' ∧ I l s' := by
  suffices hgen : ∀ us vs, l = us ++ vs → ∀ s, I us s →
      ∃ s', Ends (iteri g us.length vs) s () s' ∧ I l s' from hgen [] l rfl s hs
  intro us vs hl s hs
  induction vs generalizing us s with
  | nil =>
      rw [List.append_nil] at hl
      exact ⟨s, ends_pure () s, hl ▸ hs⟩
  | cons a vs ih =>
      obtain ⟨s1, hbody, hs1⟩ := h us a vs hl s hs
      obtain ⟨s2, hrest, hs2⟩ := ih (us ++ [a]) (by simpa using hl) s1 hs1
      rw [List.length_append, List.length_singleton] at hrest
      exact ⟨s2, hbody.bind hrest, hs2⟩

/-- A loop that computes a value with effects and stores it in every round: it
has the effects of `mapM`, and its invariant holds of the values. -/
theorem forUp_mapM {body : Nat → Unit → Program σ ε M Unit} {g : Nat → α → M β}
    {I : List β → σ → Prop} {l : List α}
    (h : ∀ (j : Nat) (hj : j < l.length) us s, us.length = j → I us s →
      ∃ k : β → σ, Performs (body j ()) s (g j l[j]) (fun b => ((), k b)) ∧
        ∀ b, I (us ++ [b]) (k b)) (hs : I [] s) :
    ∃ k : List β → σ,
      Performs (forUp body 0 l.length ()) s (l.zipIdx.mapM fun a => g a.2 a.1)
        (fun bs => ((), k bs)) ∧
      ∀ bs, bs.length = l.length → I bs (k bs) := by
  suffices hgen : ∀ (vs : List α) i us s, l.drop i = vs → us.length = i → I us s →
      ∃ k : List β → σ,
        Performs (forUp body i vs.length ()) s ((vs.zipIdx i).mapM fun a => g a.2 a.1)
          (fun bs => ((), k bs)) ∧
        ∀ bs, bs.length = vs.length → I (us ++ bs) (k bs) from
    hgen l 0 [] s rfl rfl hs
  intro vs
  induction vs with
  | nil =>
      intro i us s _ _ hus
      refine ⟨fun _ => s, ?_, fun bs hbs => ?_⟩
      · exact (ends_pure () s).performs.trans (by simp)
      · rwa [List.eq_nil_of_length_eq_zero hbs, List.append_nil]
  | cons a vs ih =>
      intro i us s hdrop hlen hus
      have hi : i < l.length := by
        by_contra hle
        rw [List.drop_eq_nil_of_le (by omega)] at hdrop
        cases hdrop
      obtain ⟨hget, hrest⟩ : l[i] = a ∧ l.drop (i + 1) = vs := by
        rw [List.drop_eq_getElem_cons hi, List.cons.injEq] at hdrop
        exact hdrop
      obtain ⟨k, hbody, hk⟩ := h i hi us s hlen hus
      have hlater : ∀ b, ∃ k' : List β → σ,
          Performs (forUp body (i + 1) vs.length ()) (k b)
            ((vs.zipIdx (i + 1)).mapM fun a => g a.2 a.1) (fun bs => ((), k' bs)) ∧
          ∀ bs, bs.length = vs.length → I ((us ++ [b]) ++ bs) (k' bs) := fun b =>
        ih (i + 1) (us ++ [b]) (k b) hrest (by rw [List.length_append, hlen]; rfl) (hk b)
      choose k' hk' hI using hlater
      refine ⟨fun bs => match bs with
        | [] => s
        | b :: bs => k' b bs, ?_, ?_⟩
      · rw [List.zipIdx_cons, List.mapM_cons, List.length_cons, forUp]
        rw [hget] at hbody
        refine hbody.bind fun b => ?_
        rw [Performs, hk' b]
        simp
      · intro bs hbs
        cases bs with
        | nil => cases hbs
        | cons b bs =>
            have hlast := hI b bs (by simpa using hbs)
            rwa [List.append_assoc] at hlast

end Loops
