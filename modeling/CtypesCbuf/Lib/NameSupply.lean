import Mathlib.Data.List.Forall2

/-!
Generators that draw numbered names from a supply and may fail.

A generator reads the number of names drawn so far and either fails or
returns a result together with the new number. The rules below turn the
success of a compound generator into the success of its parts, which is how
every proof about a generator takes it apart.
-/

namespace NameSupply

/-- Numbers written in decimal are told apart. -/
theorem repr_inj {m n : Nat} : Nat.repr m = Nat.repr n ↔ m = n := by
  constructor
  · intro h
    have hd := congrArg (fun s : String => Nat.ofDigitChars 10 s.toList 0) h
    simpa [Nat.toList_repr] using hd
  · rintro rfl
    rfl

/-- A computation that starts with `n` names drawn: it fails with an `ε`, or
returns its result and the number of names drawn at its end. -/
def Supply (ε α : Type) : Type := Nat → Except ε (α × Nat)

namespace Supply

variable {ε α β : Type}

def bind (x : Supply ε α) (f : α → Supply ε β) : Supply ε β := fun n =>
  match x n with
  | .ok (a, n') => f a n'
  | .error e => .error e

instance : Monad (Supply ε) where
  pure a := fun n => .ok (a, n)
  bind := bind

def fresh (name : Nat → α) : Supply ε α := fun n => .ok (name (n + 1), n + 1)

def fail (e : ε) : Supply ε α := fun _ => .error e

def lift (r : Except ε α) : Supply ε α := fun n => r.map fun a => (a, n)

@[simp] theorem pure_apply (a : α) (n : Nat) :
    (pure a : Supply ε α) n = .ok (a, n) := rfl

@[simp] theorem fresh_apply (name : Nat → α) (n : Nat) :
    (fresh name : Supply ε α) n = .ok (name (n + 1), n + 1) := rfl

@[simp] theorem fail_apply (e : ε) (n : Nat) :
    (fail e : Supply ε α) n = .error e := rfl

@[simp] theorem lift_ok (a : α) (n : Nat) :
    (lift (.ok a) : Supply ε α) n = .ok (a, n) := rfl

@[simp] theorem lift_error (e : ε) (n : Nat) :
    (lift (.error e) : Supply ε α) n = .error e := rfl

theorem bind_apply (x : Supply ε α) (f : α → Supply ε β) (n : Nat) :
    (x >>= f) n = match x n with
      | .ok (a, n') => f a n'
      | .error e => .error e := rfl

theorem bind_assoc {γ : Type} (x : Supply ε α) (f : α → Supply ε β)
    (g : β → Supply ε γ) : x >>= f >>= g = x >>= fun a => f a >>= g := by
  funext n
  rw [bind_apply, bind_apply, bind_apply]
  cases x n <;> rfl

theorem bind_pure (x : Supply ε α) : x >>= pure = x := by
  funext n
  rw [bind_apply]
  cases x n <;> rfl

instance : LawfulMonad (Supply ε) :=
  LawfulMonad.mk' (Supply ε) (fun x => bind_pure x) (fun _ _ => rfl)
    (fun x f g => bind_assoc x f g)

/-- The rule that takes a successful sequence apart. -/
theorem bind_eq_ok {x : Supply ε α} {f : α → Supply ε β} {n : Nat}
    {r : β × Nat} :
    (x >>= f) n = .ok r ↔ ∃ a n', x n = .ok (a, n') ∧ f a n' = .ok r := by
  rw [bind_apply]
  cases hx : x n with
  | error e => simp
  | ok p =>
      obtain ⟨a, n'⟩ := p
      simp only [Except.ok.injEq, Prod.mk.injEq]
      constructor
      · intro h
        exact ⟨a, n', ⟨rfl, rfl⟩, h⟩
      · rintro ⟨_, _, ⟨rfl, rfl⟩, h⟩
        exact h

theorem bind_of_ok {x : Supply ε α} {n n' : Nat} {a : α}
    (hx : x n = .ok (a, n')) (f : α → Supply ε β) : (x >>= f) n = f a n' := by
  rw [bind_apply, hx]

theorem bind_of_error {x : Supply ε α} {n : Nat} {e : ε}
    (hx : x n = .error e) (f : α → Supply ε β) :
    (x >>= f) n = .error e := by
  rw [bind_apply, hx]

@[simp] theorem fresh_bind (name : Nat → α) (f : α → Supply ε β) (n : Nat) :
    (fresh name >>= f) n = f (name (n + 1)) (n + 1) := rfl

@[simp] theorem pure_bind (a : α) (f : α → Supply ε β) (n : Nat) :
    ((pure a : Supply ε α) >>= f) n = f a n := rfl

@[simp] theorem fail_bind (e : ε) (f : α → Supply ε β) (n : Nat) :
    ((fail e : Supply ε α) >>= f) n = .error e := rfl

@[simp] theorem lift_ok_bind (a : α) (f : α → Supply ε β) (n : Nat) :
    ((lift (.ok a) : Supply ε α) >>= f) n = f a n := rfl

theorem lift_eq_ok {r : Except ε α} {n n' : Nat} {a : α} :
    (lift r : Supply ε α) n = .ok (a, n') ↔ r = .ok a ∧ n' = n := by
  cases r with
  | error e => simp
  | ok b => simp [eq_comm]

/-- What is generated for the elements of a list, one after the other. -/
theorem mapM_eq_ok {f : α → Supply ε β} {xs : List α} {ys : List β} {n n' : Nat}
    (h : xs.mapM f n = .ok (ys, n')) :
    List.Forall₂ (fun x y => ∃ k k', f x k = .ok (y, k')) xs ys := by
  induction xs generalizing ys n n' with
  | nil =>
      rw [List.mapM_nil] at h
      cases h
      exact .nil
  | cons x xs ih =>
      rw [List.mapM_cons] at h
      obtain ⟨y, n1, hy, h⟩ := bind_eq_ok.mp h
      obtain ⟨ys, n2, hys, h⟩ := bind_eq_ok.mp h
      cases h
      exact .cons ⟨n, n1, hy⟩ (ih hys)

/-- The generator succeeds when started with `n` names drawn. -/
def Succeeds (x : Supply ε α) (n : Nat) : Prop := ∃ r, x n = .ok r

@[simp] theorem succeeds_pure (a : α) (n : Nat) :
    Succeeds (pure a : Supply ε α) n := ⟨_, rfl⟩

@[simp] theorem not_succeeds_fail (e : ε) (n : Nat) :
    ¬ Succeeds (fail e : Supply ε α) n := by
  rintro ⟨r, hr⟩
  simp at hr

theorem succeeds_bind {x : Supply ε α} {f : α → Supply ε β} {n : Nat} :
    Succeeds (x >>= f) n ↔ ∃ a n', x n = .ok (a, n') ∧ Succeeds (f a) n' := by
  simp only [Succeeds, bind_eq_ok]
  constructor
  · rintro ⟨r, a, n', hx, hf⟩
    exact ⟨a, n', hx, r, hf⟩
  · rintro ⟨a, n', hx, r, hf⟩
    exact ⟨r, a, n', hx, hf⟩

/-- From any number of names drawn, `x` succeeds exactly when `P` holds, and
what it returns satisfies `R`. -/
structure Meets (x : Supply ε α) (P : Prop) (R : α → Prop) : Prop where
  succeeds : ∀ n, Succeeds x n ↔ P
  returns : ∀ n a n', x n = .ok (a, n') → R a

section Meets

variable {P Q : Prop} {R : α → Prop}

theorem meets_pure {a : α} (h : R a) : Meets (pure a : Supply ε α) True R := by
  refine ⟨by simp, ?_⟩
  intro n b n' hb
  cases hb
  exact h

theorem meets_fail (e : ε) : Meets (fail e : Supply ε α) False R :=
  ⟨by simp, fun _ _ _ h => nomatch h⟩

theorem Meets.congr {x : Supply ε α} (h : Meets x P R) (hPQ : P ↔ Q) : Meets x Q R :=
  ⟨fun n => (h.succeeds n).trans hPQ, h.returns⟩

/-- The rule for sequences. -/
theorem Meets.bind {x : Supply ε α} {f : α → Supply ε β} {S : β → Prop}
    (hx : Meets x P R) (hf : ∀ a, R a → Meets (f a) Q S) : Meets (x >>= f) (P ∧ Q) S := by
  refine ⟨fun n => ?_, fun n b n' hb => ?_⟩
  · rw [succeeds_bind]
    constructor
    · rintro ⟨a, n', ha, hfa⟩
      exact ⟨(hx.succeeds n).mp ⟨_, ha⟩,
        ((hf a (hx.returns n a n' ha)).succeeds n').mp hfa⟩
    · rintro ⟨hP, hQ⟩
      obtain ⟨⟨a, n'⟩, ha⟩ := (hx.succeeds n).mpr hP
      exact ⟨a, n', ha, ((hf a (hx.returns n a n' ha)).succeeds n').mpr hQ⟩
  · obtain ⟨a, n1, ha, hb⟩ := bind_eq_ok.mp hb
    exact (hf a (hx.returns n a n1 ha)).returns n1 b n' hb

theorem meets_fresh_bind {name : Nat → α} {f : α → Supply ε β} {S : β → Prop}
    (hf : ∀ n, Meets (f (name n)) P S) : Meets (fresh name >>= f) P S :=
  ⟨fun n => (hf (n + 1)).succeeds (n + 1), fun n => (hf (n + 1)).returns (n + 1)⟩

end Meets

end Supply

/-- `r` is a result exactly when `P` holds. -/
def Yields {ε α : Type} (r : Except ε α) (P : Prop) : Prop := (∃ a, r = .ok a) ↔ P

section Yields

variable {ε α β : Type} {P Q : Prop}

theorem yields_ok (a : α) : Yields (.ok a : Except ε α) True :=
  ⟨fun _ => trivial, fun _ => ⟨a, rfl⟩⟩

theorem yields_error (e : ε) : Yields (.error e : Except ε α) False :=
  ⟨fun ⟨_, h⟩ => (nomatch h), False.elim⟩

/-- The rule that takes a successful sequence apart, without names. -/
theorem except_bind_eq_ok {r : Except ε α} {f : α → Except ε β} {b : β}
    (h : r >>= f = .ok b) : ∃ a, r = .ok a ∧ f a = .ok b := by
  cases r with
  | error e => cases h
  | ok a => exact ⟨a, rfl, h⟩

theorem except_mapM_eq_ok {f : α → Except ε β} {xs : List α} {ys : List β}
    (h : xs.mapM f = .ok ys) : List.Forall₂ (fun x y => f x = .ok y) xs ys := by
  induction xs generalizing ys with
  | nil =>
      rw [List.mapM_nil] at h
      cases h
      exact .nil
  | cons x xs ih =>
      rw [List.mapM_cons] at h
      obtain ⟨y, hy, h⟩ := except_bind_eq_ok h
      obtain ⟨ys, hys, h⟩ := except_bind_eq_ok h
      cases h
      exact .cons hy (ih hys)

theorem Yields.congr {r : Except ε α} (h : Yields r P) (hPQ : P ↔ Q) : Yields r Q :=
  Iff.trans h hPQ

theorem Yields.bind {r : Except ε α} {f : α → Except ε β} (hr : Yields r P)
    (hf : ∀ a, Yields (f a) Q) : Yields (r >>= f) (P ∧ Q) := by
  cases r with
  | error e =>
      refine ⟨fun ⟨_, h⟩ => (nomatch h), fun ⟨hP, _⟩ => ?_⟩
      obtain ⟨a, h⟩ := hr.mpr hP
      cases h
  | ok a =>
      have hP : P := hr.mp ⟨a, rfl⟩
      exact (hf a).congr ⟨fun hQ => ⟨hP, hQ⟩, fun h => h.2⟩

theorem Yields.lift {r : Except ε α} {R : α → Prop} (h : Yields r P)
    (hR : ∀ a, r = .ok a → R a) : (Supply.lift r).Meets P R := by
  refine ⟨fun n => Iff.trans ⟨?_, ?_⟩ h, fun n a n' ha => hR a (Supply.lift_eq_ok.mp ha).1⟩
  · rintro ⟨⟨a, n'⟩, ha⟩
    exact ⟨a, (Supply.lift_eq_ok.mp ha).1⟩
  · rintro ⟨a, rfl⟩
    exact ⟨_, rfl⟩

end Yields

/-- `x` is one of the names drawn while the count went from `lo` to `hi`. -/
def Drawn {α : Type} (name : Nat → α) (lo hi : Nat) (x : α) : Prop :=
  ∃ i, lo < i ∧ i ≤ hi ∧ x = name i

section Drawn

variable {α : Type} {name : Nat → α} {lo lo' mid hi hi' : Nat} {x y : α}

theorem Drawn.mono (h : Drawn name lo hi x) (hlo : lo' ≤ lo) (hhi : hi ≤ hi') :
    Drawn name lo' hi' x := by
  obtain ⟨i, h1, h2, rfl⟩ := h
  exact ⟨i, by omega, by omega, rfl⟩

theorem drawn_of_lt {i : Nat} (h1 : lo < i) (h2 : i ≤ hi) : Drawn name lo hi (name i) :=
  ⟨i, h1, h2, rfl⟩

/-- Names drawn one after the other differ. -/
theorem Drawn.ne (hname : ∀ {i j}, name i = name j ↔ i = j)
    (hx : Drawn name lo mid x) (hy : Drawn name mid hi y) : x ≠ y := by
  obtain ⟨i, hi1, hi2, rfl⟩ := hx
  obtain ⟨j, hj1, hj2, rfl⟩ := hy
  intro h
  have hij := hname.mp h
  omega

end Drawn

end NameSupply
