import CtypesCbuf.CtypesForeign.ClosureProperties

/-!
Invariants of the table of closures. A key belongs to the call of `record` that
drew it. A step takes away only entries whose key belongs to a dead closure, so
what has been recorded for a live one stays.
-/

namespace CtypesCbuf.CtypesForeign.ClosureProperties

open ThreadStacks

variable {Obj Val Tid : Type}
  {heap : Obj → Bool} {s s' : Shared Obj Val} {f g : Frame Obj Val} {new : Option (Frame Obj Val)}

/-- The key was drawn for the closure. -/
def Owned (s : Shared Obj Val) (key : Nat) (c : Obj) : Prop := ∃ v, (key, c, v) ∈ s.issued

/-- The identifier gives the value as long as the closure is live. -/
def Kept (s : Shared Obj Val) (c : Obj) (v : Val) (id : Nat) : Prop :=
  Owned s id c ∧ (c ∉ s.dead → (id, v) ∈ s.functionById)

def Answered (s : Shared Obj Val) (id : Nat) (known : List (Recording Obj Val))
    (f : Option Val) : Prop :=
  ∀ r ∈ known, r.id = id → r.closure ∉ s.dead → f = some r.value

/-- What a thread knows when it is about to run a frame. -/
def FrameSound (heap : Obj → Bool) (s : Shared Obj Val) : Frame Obj Val → Prop
  | .fresh c v => (c, v) ∈ s.calls
  | .tryFinalise c v key => (key, c, v) ∈ s.issued
  | .lock c v key finalised => (key, c, v) ∈ s.issued ∧ finalised = heap c
  | .findId c v key | .addId c v key => (key, c, v) ∈ s.issued ∧ heap c = false
  | .add c v key => (key, c, v) ∈ s.issued
  | .unlock c v id => Kept s c v id
  | .retrieveLock _ known | .retrieveFind _ known => known ⊆ s.recorded
  | .retrieveUnlock id known f => Answered s id known f
  | .cleanup fn key | .remove fn key | .reinstall fn key =>
      fn ∈ s.dead ∧ heap fn = true ∧ Owned s key fn
  | .cleanupUnlock => True

structure SharedSound (heap : Obj → Bool) (s : Shared Obj Val) : Prop where
  issued_lt : ∀ k c v, (k, c, v) ∈ s.issued → k < s.nextId
  issued_unique : ∀ k c c' v v', (k, c, v) ∈ s.issued → (k, c', v') ∈ s.issued → c = c' ∧ v = v'
  issued_called : ∀ k c v, (k, c, v) ∈ s.issued → (c, v) ∈ s.calls
  calls_agree : ∀ c v v', heap c = false → (c, v) ∈ s.calls → (c, v') ∈ s.calls → v = v'
  stored : ∀ k v, (k, v) ∈ s.functionById → ∃ c, (k, c, v) ∈ s.issued
  finalisers : ∀ c k, (c, k) ∈ s.finalisers → heap c = true ∧ Owned s k c
  dead : ∀ c ∈ s.dead, heap c = true
  recorded : ∀ r ∈ s.recorded, Kept s r.closure r.value r.id
  answers : ∀ a ∈ s.answers, Answered s a.id a.known a.result

/-- What a step can do to the shared state: nothing is forgotten but entries of
dead closures. -/
structure Later (heap : Obj → Bool) (s s' : Shared Obj Val) : Prop where
  calls : s.calls ⊆ s'.calls
  issued : s.issued ⊆ s'.issued
  recorded : s.recorded ⊆ s'.recorded
  dead : s.dead ⊆ s'.dead
  entries : ∀ k v, (k, v) ∈ s.functionById → (k, v) ∈ s'.functionById ∨
    ∃ c ∈ s.dead, heap c = true ∧ Owned s k c

theorem Later.refl (heap : Obj → Bool) (s : Shared Obj Val) : Later heap s s :=
  ⟨List.Subset.refl _, List.Subset.refl _, List.Subset.refl _, List.Subset.refl _,
    fun _ _ h => .inl h⟩

theorem Later.owned {k : Nat} {c : Obj} (h : Later heap s s') (ho : Owned s k c) :
    Owned s' k c := by
  obtain ⟨v, hv⟩ := ho
  exact ⟨v, h.issued hv⟩

theorem Later.kept {c : Obj} {v : Val} {id : Nat} (h : Later heap s s')
    (hs : SharedSound heap s) (hk : Kept s c v id) : Kept s' c v id := by
  refine ⟨h.owned hk.1, fun hlive => ?_⟩
  have hlive' : c ∉ s.dead := fun hd => hlive (h.dead hd)
  obtain hmem | ⟨c', hd, -, v₂, hv₂⟩ := h.entries id v (hk.2 hlive')
  · exact hmem
  · obtain ⟨v₁, hv₁⟩ := hk.1
    obtain ⟨rfl, -⟩ := hs.issued_unique id c c' v₁ v₂ hv₁ hv₂
    exact absurd hd hlive'

theorem Later.answered {id : Nat} {known : List (Recording Obj Val)} {r : Option Val}
    (h : Later heap s s') (ha : Answered s id known r) : Answered s' id known r :=
  fun rec hrec hid hlive => ha rec hrec hid fun hd => hlive (h.dead hd)

/-- What a thread knows stays true. -/
theorem Later.frame (h : Later heap s s') (hs : SharedSound heap s)
    (hf : FrameSound heap s f) : FrameSound heap s' f := by
  cases f with
  | fresh c v => exact h.calls hf
  | tryFinalise c v key => exact h.issued hf
  | lock c v key finalised => exact ⟨h.issued hf.1, hf.2⟩
  | findId c v key => exact ⟨h.issued hf.1, hf.2⟩
  | addId c v key => exact ⟨h.issued hf.1, hf.2⟩
  | add c v key => exact h.issued hf
  | unlock c v id => exact h.kept hs hf
  | retrieveLock id known => exact fun r hr => h.recorded (hf hr)
  | retrieveFind id known => exact fun r hr => h.recorded (hf hr)
  | retrieveUnlock id known r => exact h.answered hf
  | cleanup fn key => exact ⟨h.dead hf.1, hf.2.1, h.owned hf.2.2⟩
  | remove fn key => exact ⟨h.dead hf.1, hf.2.1, h.owned hf.2.2⟩
  | reinstall fn key => exact ⟨h.dead hf.1, hf.2.1, h.owned hf.2.2⟩
  | cleanupUnlock => trivial

/-- A live recording is found in the table. -/
theorem SharedSound.lookup {c : Obj} {v : Val} {id : Nat} (hs : SharedSound heap s)
    (hk : Kept s c v id) (hlive : c ∉ s.dead) : s.functionById.lookup id = some v := by
  have hmem := hk.2 hlive
  cases hl : s.functionById.lookup id with
  | none =>
      have := List.lookup_eq_none_iff.mp hl (id, v) hmem
      simp at this
  | some w =>
      obtain ⟨l₁, l₂, heq, -⟩ := List.lookup_eq_some_iff.mp hl
      have hw : (id, w) ∈ s.functionById := by
        rw [heq]
        simp
      obtain ⟨c₁, h₁⟩ := hs.stored id v hmem
      obtain ⟨c₂, h₂⟩ := hs.stored id w hw
      rw [(hs.issued_unique id c₁ c₂ v w h₁ h₂).2]

/-! ### Changes of the shared state -/

/-- The steps that leave keys and entries as they are. -/
structure SameEntries (s s' : Shared Obj Val) : Prop where
  nextId : s'.nextId = s.nextId
  calls : s'.calls = s.calls
  issued : s'.issued = s.issued
  dead : s'.dead = s.dead
  functionById : s'.functionById = s.functionById

theorem SameEntries.later (h : SameEntries s s') (hrec : s.recorded ⊆ s'.recorded) :
    Later heap s s' where
  calls := by rw [h.calls]; exact List.Subset.refl _
  issued := by rw [h.issued]; exact List.Subset.refl _
  recorded := hrec
  dead := by rw [h.dead]; exact List.Subset.refl _
  entries k v hk := .inl (by rwa [h.functionById])

theorem SameEntries.sound (h : SameEntries s s') (hs : SharedSound heap s)
    (hfin : ∀ c k, (c, k) ∈ s'.finalisers → heap c = true ∧ Owned s k c)
    (hrec : ∀ r ∈ s'.recorded, Kept s r.closure r.value r.id)
    (hans : ∀ a ∈ s'.answers, Answered s a.id a.known a.result) : SharedSound heap s' where
  issued_lt := by rw [h.issued, h.nextId]; exact hs.issued_lt
  issued_unique := by rw [h.issued]; exact hs.issued_unique
  issued_called := by rw [h.issued, h.calls]; exact hs.issued_called
  calls_agree := by rw [h.calls]; exact hs.calls_agree
  stored := by rw [h.functionById, h.issued]; exact hs.stored
  finalisers := by unfold Owned; rw [h.issued]; exact hfin
  dead := by rw [h.dead]; exact hs.dead
  recorded := by unfold Kept Owned; rw [h.issued, h.dead, h.functionById]; exact hrec
  answers := by unfold Answered; rw [h.dead]; exact hans

/-- A key that has not been drawn yet. -/
theorem fresh_sound {c : Obj} {v : Val} (hs : SharedSound heap s) (hc : (c, v) ∈ s.calls) :
    let s' := { s with nextId := s.nextId + 1, issued := (s.nextId, c, v) :: s.issued }
    SharedSound heap s' ∧ Later heap s s' := by
  intro s'
  have hlater : Later heap s s' :=
    ⟨List.Subset.refl _, List.subset_cons_self _ _, List.Subset.refl _, List.Subset.refl _,
      fun _ _ h => .inl h⟩
  have hnew {k : Nat} {c' : Obj} {v' : Val} (h : (k, c', v') ∈ s'.issued) :
      (k = s.nextId ∧ c' = c ∧ v' = v) ∨ (k < s.nextId ∧ (k, c', v') ∈ s.issued) := by
    obtain h | h := List.mem_cons.mp h
    · cases h
      exact .inl ⟨rfl, rfl, rfl⟩
    · exact .inr ⟨hs.issued_lt k c' v' h, h⟩
  refine ⟨{ hs with
    issued_lt := ?_, issued_unique := ?_, issued_called := ?_
    stored := fun k w hk => ?_, finalisers := fun c' k hk => ?_
    recorded := fun r hr => hlater.kept hs (hs.recorded r hr) }, hlater⟩
  · intro k c' v' h
    show k < s.nextId + 1
    obtain ⟨rfl, -⟩ | ⟨hlt, -⟩ := hnew h <;> omega
  · intro k c₁ c₂ v₁ v₂ h₁ h₂
    obtain ⟨hk₁, rfl, rfl⟩ | ⟨hlt₁, h₁⟩ := hnew h₁ <;>
      obtain ⟨hk₂, rfl, rfl⟩ | ⟨hlt₂, h₂⟩ := hnew h₂
    · exact ⟨rfl, rfl⟩
    · omega
    · omega
    · exact hs.issued_unique k c₁ c₂ v₁ v₂ h₁ h₂
  · intro k c' v' h
    obtain ⟨-, rfl, rfl⟩ | ⟨-, h⟩ := hnew h
    · exact hc
    · exact hs.issued_called k c' v' h
  · obtain ⟨c', hc'⟩ := hs.stored k w hk
    exact ⟨c', hlater.issued hc'⟩
  · obtain ⟨hheap, ho⟩ := hs.finalisers c' k hk
    exact ⟨hheap, hlater.owned ho⟩

theorem add_sound {c : Obj} {v : Val} {key : Nat} (hs : SharedSound heap s)
    (hc : (key, c, v) ∈ s.issued) :
    let s' := { s with functionById := (key, v) :: s.functionById }
    SharedSound heap s' ∧ Later heap s s' := by
  intro s'
  have hlater : Later heap s s' :=
    ⟨List.Subset.refl _, List.Subset.refl _, List.Subset.refl _, List.Subset.refl _,
      fun _ _ h => .inl (List.mem_cons_of_mem _ h)⟩
  refine ⟨{ hs with
    stored := fun k w hk => ?_
    recorded := fun r hr => hlater.kept hs (hs.recorded r hr) }, hlater⟩
  obtain hk | hk := List.mem_cons.mp hk
  · cases hk
    exact ⟨c, hc⟩
  · exact hs.stored k w hk

/-- Only an entry of the dead closure goes. -/
theorem remove_sound {fn : Obj} {key : Nat} (hs : SharedSound heap s) (hdead : fn ∈ s.dead)
    (hheap : heap fn = true) (ho : Owned s key fn) :
    let s' := { s with functionById := s.functionById.eraseP (·.1 = key) }
    SharedSound heap s' ∧ Later heap s s' := by
  intro s'
  have hlater : Later heap s s' := by
    refine ⟨List.Subset.refl _, List.Subset.refl _, List.Subset.refl _, List.Subset.refl _,
      fun k v hk => ?_⟩
    by_cases hkey : k = key
    · subst hkey
      exact .inr ⟨fn, hdead, hheap, ho⟩
    · exact .inl ((List.mem_eraseP_of_neg (by simpa using hkey)).mpr hk)
  refine ⟨{ hs with
    stored := fun k w hk => hs.stored k w (List.mem_of_mem_eraseP hk)
    recorded := fun r hr => hlater.kept hs (hs.recorded r hr) }, hlater⟩

/-- The lock alone changes. -/
theorem locked_sound (hs : SharedSound heap s) (b : Bool) :
    let s' := { s with locked := b }
    SharedSound heap s' ∧ Later heap s s' := by
  intro s'
  have hsame : SameEntries s s' := ⟨rfl, rfl, rfl, rfl, rfl⟩
  exact ⟨hsame.sound hs hs.finalisers hs.recorded hs.answers, hsame.later (List.Subset.refl _)⟩

theorem finaliser_sound {fn : Obj} {key : Nat} (hs : SharedSound heap s) (hheap : heap fn = true)
    (ho : Owned s key fn) :
    let s' := { s with finalisers := (fn, key) :: s.finalisers }
    SharedSound heap s' ∧ Later heap s s' := by
  intro s'
  have hsame : SameEntries s s' := ⟨rfl, rfl, rfl, rfl, rfl⟩
  refine ⟨hsame.sound hs ?_ hs.recorded hs.answers, hsame.later (List.Subset.refl _)⟩
  intro c k hk
  obtain hk | hk := List.mem_cons.mp hk
  · cases hk
    exact ⟨hheap, ho⟩
  · exact hs.finalisers c k hk

theorem addId_sound (hs : SharedSound heap s) (c : Obj) (key : Nat) :
    let s' := { s with idByFunction := (c, key) :: s.idByFunction }
    SharedSound heap s' ∧ Later heap s s' := by
  intro s'
  have hsame : SameEntries s s' := ⟨rfl, rfl, rfl, rfl, rfl⟩
  exact ⟨hsame.sound hs hs.finalisers hs.recorded hs.answers, hsame.later (List.Subset.refl _)⟩

theorem recorded_sound {r : Recording Obj Val} (hs : SharedSound heap s)
    (hr : Kept s r.closure r.value r.id) :
    let s' := { s with locked := false, recorded := r :: s.recorded }
    SharedSound heap s' ∧ Later heap s s' := by
  intro s'
  have hsame : SameEntries s s' := ⟨rfl, rfl, rfl, rfl, rfl⟩
  exact ⟨hsame.sound hs hs.finalisers (List.forall_mem_cons.mpr ⟨hr, hs.recorded⟩) hs.answers,
    hsame.later (List.subset_cons_self _ _)⟩

theorem answers_sound {id : Nat} {known : List (Recording Obj Val)} {r : Option Val}
    (hs : SharedSound heap s) (hr : Answered s id known r) :
    let s' := { s with locked := false, answers := ⟨id, known, r⟩ :: s.answers }
    SharedSound heap s' ∧ Later heap s s' := by
  intro s'
  have hsame : SameEntries s s' := ⟨rfl, rfl, rfl, rfl, rfl⟩
  exact ⟨hsame.sound hs hs.finalisers hs.recorded (List.forall_mem_cons.mpr ⟨hr, hs.answers⟩),
    hsame.later (List.Subset.refl _)⟩

/-- The shared state stays sound, and so is the frame that is left, if any. -/
structure Leaves (heap : Obj → Bool) (s s' : Shared Obj Val) (new : Option (Frame Obj Val)) :
    Prop where
  shared : SharedSound heap s'
  later : Later heap s s'
  frames : ∀ g ∈ new, FrameSound heap s' g

theorem leaves_some (h : SharedSound heap s' ∧ Later heap s s') (hg : FrameSound heap s' g) :
    Leaves heap s s' (some g) := by
  refine ⟨h.1, h.2, ?_⟩
  rintro _ ⟨⟩
  exact hg

theorem leaves_none (h : SharedSound heap s' ∧ Later heap s s') : Leaves heap s s' none :=
  ⟨h.1, h.2, by simp⟩

/-! ### Runs -/

variable [DecidableEq Tid]

/-- The invariant of runs. -/
structure Sound (heap : Obj → Bool) (s : State Obj Val Tid) : Prop where
  shared : SharedSound heap s.shared
  exclusive : Exclusive Frame.critical s.shared.locked s.threads
  frames : ∀ t, ∀ f ∈ s.threads t, FrameSound heap s.shared f
  /-- A static function with an identifier has its entry, or is about to get it. -/
  ids : ∀ c k, (c, k) ∈ s.shared.idByFunction → heap c = false ∧ ∃ v, (k, c, v) ∈ s.shared.issued ∧
    ((k, v) ∈ s.shared.functionById ∨ ∃ t, Frame.add c v k ∈ s.threads t)

theorem sound_init : Sound heap (init : State Obj Val Tid) := by
  refine ⟨⟨?_, ?_, ?_, ?_, ?_, ?_, ?_, ?_, ?_⟩, .init, ?_, ?_⟩ <;> simp [init]

variable {σ σ' : State Obj Val Tid}

/-- A new frame on a thread, with a change that concerns no lock and no entry. -/
theorem Sound.push {t : Tid} (h : Sound heap σ) {s' : Shared Obj Val}
    (hs : SharedSound heap s') (hlater : Later heap σ.shared s')
    (hlocked : s'.locked = σ.shared.locked) (hids : s'.idByFunction = σ.shared.idByFunction)
    (hentries : s'.functionById = σ.shared.functionById)
    (hcritical : f.critical = false) (hf : FrameSound heap s' f) :
    Sound heap (State.push ⟨s', σ.threads⟩ t f) where
  shared := hs
  exclusive := by
    show Exclusive Frame.critical s'.locked _
    rw [hlocked]
    exact h.exclusive.set (List.countP_cons_of_neg (by simp [hcritical]))
  frames u g hg := by
    obtain ⟨rfl, hg⟩ | ⟨-, hg⟩ := mem_set hg
    · obtain rfl | hg := List.mem_cons.mp hg
      · exact hf
      · exact hlater.frame h.shared (h.frames u g hg)
    · exact hlater.frame h.shared (h.frames u g hg)
  ids c k hk := by
    have hk' : (c, k) ∈ σ.shared.idByFunction := hids ▸ hk
    obtain ⟨hheap, v, hissued, hentry⟩ := h.ids c k hk'
    refine ⟨hheap, v, hlater.issued hissued, ?_⟩
    obtain hmem | ⟨u, hu⟩ := hentry
    · exact .inl (hentries ▸ hmem)
    · exact .inr ⟨u, mem_set_push hu⟩

/-! ### Running a frame -/

variable [DecidableEq Obj]

/-- The lock, when a frame runs. -/
theorem run_lock (hrun : f.run heap s = some (s', new)) :
    (f.critical = false ∧ s.locked = false ∧ s'.locked = true ∧ ∃ g, new = some g ∧ g.critical) ∨
    (s'.locked = s.locked ∧ (new.toList).countP Frame.critical = [f].countP Frame.critical) ∨
    (f.critical = true ∧ s'.locked = false ∧ new = none) := by
  cases f <;> simp only [Frame.run] at hrun
  case tryFinalise c v key =>
    split at hrun <;> cases hrun <;> exact .inr (.inl ⟨rfl, rfl⟩)
  case lock c v key finalised =>
    split at hrun
    · cases hrun
    · cases hrun
      refine .inl ⟨rfl, by simpa using ‹¬ s.locked = true›, rfl, _, rfl, ?_⟩
      split <;> rfl
  case retrieveLock id known =>
    split at hrun
    · cases hrun
    · cases hrun
      exact .inl ⟨rfl, by simpa using ‹¬ s.locked = true›, rfl, _, rfl, rfl⟩
  case cleanup fn key =>
    split at hrun
    · cases hrun
      exact .inr (.inl ⟨rfl, rfl⟩)
    · cases hrun
      exact .inl ⟨rfl, by simpa using ‹¬ s.locked = true›, rfl, _, rfl, rfl⟩
  case findId c v key =>
    split at hrun <;> cases hrun <;> exact .inr (.inl ⟨rfl, rfl⟩)
  case unlock | retrieveUnlock | cleanupUnlock =>
    cases hrun
    exact .inr (.inr ⟨rfl, rfl, rfl⟩)
  all_goals
    cases hrun
    exact .inr (.inl ⟨rfl, rfl⟩)

/-- Only `store_non_closure_function` gives a function an identifier. -/
theorem run_ids {c : Obj} {k : Nat} (hrun : f.run heap s = some (s', new))
    (hk : (c, k) ∈ s'.idByFunction) :
    (c, k) ∈ s.idByFunction ∨ ∃ v, f = .addId c v k ∧ new = some (.add c v k) := by
  cases f <;> simp only [Frame.run] at hrun
  case addId c' v key =>
    cases hrun
    obtain hk | hk := List.mem_cons.mp hk
    · cases hk
      exact .inr ⟨v, rfl, rfl⟩
    · exact .inl hk
  case tryFinalise | lock | findId | retrieveLock | cleanup =>
    split at hrun <;> cases hrun <;> exact .inl hk
  all_goals
    cases hrun
    exact .inl hk

section Record

variable {c : Obj} {v : Val} {key : Nat}

theorem tryFinalise_sound (hs : SharedSound heap s) (hf : (key, c, v) ∈ s.issued)
    (hrun : (Frame.tryFinalise c v key).run heap s = some (s', new)) : Leaves heap s s' new := by
  rw [Frame.run] at hrun
  split at hrun
  · next hheap =>
      cases hrun
      exact leaves_some (finaliser_sound hs hheap ⟨v, hf⟩) ⟨hf, hheap.symm⟩
  · next hheap =>
      cases hrun
      exact leaves_some ⟨hs, .refl heap s⟩ ⟨hf, by simpa using hheap⟩

theorem lock_sound {finalised : Bool} (hs : SharedSound heap s)
    (hf : (key, c, v) ∈ s.issued ∧ finalised = heap c)
    (hrun : (Frame.lock c v key finalised).run heap s = some (s', new)) :
    Leaves heap s s' new := by
  rw [Frame.run] at hrun
  split at hrun
  · cases hrun
  · cases hrun
    refine leaves_some (locked_sound hs true) ?_
    obtain ⟨hissued, rfl⟩ := hf
    split
    · exact hissued
    · next hheap => exact ⟨hissued, by simpa using hheap⟩

/-- The value that is found is that of an earlier call, which is the same. -/
theorem findId_sound (hs : SharedSound heap s) (hf : (key, c, v) ∈ s.issued ∧ heap c = false)
    (hids : ∀ id, (c, id) ∈ s.idByFunction →
      ∃ v', (id, c, v') ∈ s.issued ∧ (id, v') ∈ s.functionById)
    (hrun : (Frame.findId c v key).run heap s = some (s', new)) : Leaves heap s s' new := by
  rw [Frame.run] at hrun
  split at hrun
  · next id hid =>
      cases hrun
      obtain ⟨l₁, l₂, heq, -⟩ := List.lookup_eq_some_iff.mp hid
      obtain ⟨v', hissued, hmem⟩ := hids id (by rw [heq]; simp)
      obtain rfl := hs.calls_agree c v' v hf.2 (hs.issued_called _ _ _ hissued)
        (hs.issued_called _ _ _ hf.1)
      exact leaves_some ⟨hs, .refl heap s⟩ ⟨⟨v', hissued⟩, fun _ => hmem⟩
  · cases hrun
    exact leaves_some ⟨hs, .refl heap s⟩ hf

end Record

theorem retrieveLock_sound {id : Nat} {known : List (Recording Obj Val)}
    (hs : SharedSound heap s) (hf : known ⊆ s.recorded)
    (hrun : (Frame.retrieveLock id known).run heap s = some (s', new)) :
    Leaves heap s s' new := by
  rw [Frame.run] at hrun
  split at hrun
  · cases hrun
  · cases hrun
    exact leaves_some (locked_sound hs true) hf

theorem cleanup_sound {fn : Obj} {key : Nat} (hs : SharedSound heap s)
    (hf : fn ∈ s.dead ∧ heap fn = true ∧ Owned s key fn)
    (hrun : (Frame.cleanup fn key).run heap s = some (s', new)) : Leaves heap s s' new := by
  rw [Frame.run] at hrun
  split at hrun
  · cases hrun
    exact leaves_some ⟨hs, .refl heap s⟩ hf
  · cases hrun
    exact leaves_some (locked_sound hs true) hf

/-- A frame keeps the shared state sound and leaves a sound one. -/
theorem run_sound (hs : SharedSound heap s) (hf : FrameSound heap s f)
    (hids : ∀ c v key, f = .findId c v key → ∀ id, (c, id) ∈ s.idByFunction →
      ∃ v', (id, c, v') ∈ s.issued ∧ (id, v') ∈ s.functionById)
    (hrun : f.run heap s = some (s', new)) : Leaves heap s s' new := by
  cases f with
  | fresh c v =>
      cases hrun
      exact leaves_some (fresh_sound hs hf) List.mem_cons_self
  | tryFinalise c v key => exact tryFinalise_sound hs hf hrun
  | lock c v key finalised => exact lock_sound hs hf hrun
  | findId c v key => exact findId_sound hs hf (hids c v key rfl) hrun
  | addId c v key =>
      cases hrun
      exact leaves_some (addId_sound hs c key) hf.1
  | add c v key =>
      cases hrun
      exact leaves_some (add_sound hs hf) ⟨⟨v, hf⟩, fun _ => List.mem_cons_self⟩
  | unlock c v id =>
      cases hrun
      exact leaves_none (recorded_sound hs hf)
  | retrieveLock id known => exact retrieveLock_sound hs hf hrun
  | retrieveFind id known =>
      cases hrun
      refine leaves_some ⟨hs, .refl heap s⟩ ?_
      rintro r hr rfl hlive
      exact hs.lookup (hs.recorded r (hf hr)) hlive
  | retrieveUnlock id known r =>
      cases hrun
      exact leaves_none (answers_sound hs hf)
  | cleanup fn key => exact cleanup_sound hs hf hrun
  | remove fn key =>
      cases hrun
      exact leaves_some (remove_sound hs hf.1 hf.2.1 hf.2.2) trivial
  | cleanupUnlock =>
      cases hrun
      exact leaves_none (locked_sound hs false)
  | reinstall fn key =>
      cases hrun
      exact leaves_none (finaliser_sound hs hf.2.1 hf.2.2)

theorem Sound.run {t : Tid} {fs : List (Frame Obj Val)} (h : Sound heap σ)
    (ht : σ.threads t = f :: fs) (hrun : f.run heap σ.shared = some (s', new)) :
    Sound heap ⟨s', set σ.threads t (new.toList ++ fs)⟩ := by
  have hmem : f ∈ σ.threads t := by
    rw [ht]
    exact List.mem_cons_self
  have hf := h.frames t f hmem
  -- no other thread is between the two tables
  have hids : ∀ c v key, f = .findId c v key → ∀ id, (c, id) ∈ σ.shared.idByFunction →
      ∃ v', (id, c, v') ∈ σ.shared.issued ∧ (id, v') ∈ σ.shared.functionById := by
    rintro c v key rfl id hid
    obtain ⟨-, v', hissued, hentry⟩ := h.ids c id hid
    obtain hentry | ⟨u, hu⟩ := hentry
    · exact ⟨v', hissued, hentry⟩
    · have := h.exclusive.unique ht rfl hu rfl
      cases this
  obtain ⟨hsound, hlater, hnew⟩ := run_sound h.shared hf hids hrun
  refine ⟨hsound, ?_, ?_, ?_⟩
  · have hcount : (σ.threads t).countP Frame.critical =
        [f].countP Frame.critical + fs.countP Frame.critical := by
      rw [ht, ← List.countP_append]
      rfl
    obtain ⟨hnot, hfree, hlocked, g, rfl, hg⟩ | ⟨hlocked, hkeep⟩ | ⟨hcrit, hfree, rfl⟩ :=
      run_lock hrun
    · show Exclusive Frame.critical s'.locked _
      have hex := h.exclusive
      rw [hfree] at hex
      rw [hlocked]
      apply hex.acquire
      rw [hcount, List.countP_append]
      simp only [Option.toList, List.countP_singleton, hnot, hg]
      simp only [if_true, Bool.false_eq_true, if_false]
      omega
    · show Exclusive Frame.critical s'.locked _
      rw [hlocked]
      apply h.exclusive.set
      rw [hcount, List.countP_append, hkeep]
    · show Exclusive Frame.critical s'.locked _
      rw [hfree]
      apply h.exclusive.release
      rw [hcount]
      simp only [Option.toList, List.nil_append, List.countP_singleton, hcrit]
      simp only [if_true]
      omega
  · intro u g hg
    obtain hg | ⟨u, hg⟩ := mem_set_replace ht hg
    · exact hnew g hg
    · exact hlater.frame h.shared (h.frames u g hg)
  · intro c k hk
    obtain hk | ⟨v, rfl, rfl⟩ := run_ids hrun hk
    · obtain ⟨hheap, v, hissued, hentry⟩ := h.ids c k hk
      refine ⟨hheap, v, hlater.issued hissued, ?_⟩
      obtain hmem | ⟨u, hu⟩ := hentry
      · obtain hmem | ⟨c', -, hheap', v', hv'⟩ := hlater.entries k v hmem
        · exact .inl hmem
        · obtain ⟨rfl, -⟩ := h.shared.issued_unique k c c' v v' hissued hv'
          rw [hheap] at hheap'
          cases hheap'
      · by_cases hadd : Frame.add c v k = f
        · subst hadd
          cases hrun
          exact .inl List.mem_cons_self
        · exact .inr (mem_set_of_ne ht hu hadd)
    · refine ⟨hf.2, v, hlater.issued hf.1, .inr ⟨t, ?_⟩⟩
      show Frame.add c v k ∈ ThreadStacks.set _ t _ t
      rw [set_self]
      exact List.mem_cons_self

/-- Every step that meets the condition keeps the invariant. -/
theorem Sound.step {a : Action Obj Val Tid} (h : Sound heap σ) (hmeets : Meets heap a σ)
    (hstep : ClosureProperties.step heap a σ = some σ') : Sound heap σ' := by
  cases a with
  | record t c v =>
      rw [ClosureProperties.step] at hstep
      split at hstep
      · cases hstep
      · cases hstep
        have hsubset : σ.shared.calls ⊆ (c, v) :: σ.shared.calls := List.subset_cons_self _ _
        refine h.push ?_ ⟨hsubset, List.Subset.refl _, List.Subset.refl _, List.Subset.refl _,
          fun _ _ h => .inl h⟩ rfl rfl rfl rfl List.mem_cons_self
        refine { h.shared with
          issued_called := fun k c' v' hk => hsubset (h.shared.issued_called k c' v' hk)
          calls_agree := ?_ }
        intro c' v₁ v₂ hheap h₁ h₂
        obtain h₁ | h₁ := List.mem_cons.mp h₁ <;> obtain h₂ | h₂ := List.mem_cons.mp h₂
        · cases h₁
          cases h₂
          rfl
        · cases h₁
          exact (hmeets hheap v₂ h₂).symm
        · cases h₂
          exact hmeets hheap v₁ h₁
        · exact h.shared.calls_agree c' v₁ v₂ hheap h₁ h₂
  | retrieve t id =>
      cases hstep
      exact h.push h.shared (.refl heap _) rfl rfl rfl rfl (List.Subset.refl _)
  | unreachable c =>
      rw [ClosureProperties.step] at hstep
      split at hstep
      · cases hstep
        have hlater : Later heap σ.shared { σ.shared with dead := c :: σ.shared.dead } :=
          ⟨List.Subset.refl _, List.Subset.refl _, List.Subset.refl _, List.subset_cons_self _ _,
            fun _ _ h => .inl h⟩
        refine ⟨{ h.shared with
          dead := ?_
          recorded := fun r hr => hlater.kept h.shared (h.shared.recorded r hr)
          answers := fun a ha => hlater.answered (h.shared.answers a ha) }, h.exclusive,
          fun t f hf => hlater.frame h.shared (h.frames t f hf), h.ids⟩
        intro c' hc'
        obtain rfl | hc' := List.mem_cons.mp hc'
        · assumption
        · exact h.shared.dead c' hc'
      · cases hstep
  | finalise t c key =>
      rw [ClosureProperties.step] at hstep
      split at hstep
      · rename_i hfin
        cases hstep
        have hsame : SameEntries σ.shared
            { σ.shared with finalisers := σ.shared.finalisers.erase (c, key) } :=
          ⟨rfl, rfl, rfl, rfl, rfl⟩
        refine h.push (hsame.sound h.shared ?_ h.shared.recorded h.shared.answers)
          (hsame.later (List.Subset.refl _)) rfl rfl rfl rfl
          ⟨hfin.1, h.shared.finalisers c key hfin.2⟩
        exact fun c' k hk => h.shared.finalisers c' k (List.mem_of_mem_erase hk)
      · cases hstep
  | otherObject =>
      cases hstep
      refine ⟨{ h.shared with issued_lt := fun k c v hk => ?_ }, h.exclusive, h.frames, h.ids⟩
      exact Nat.lt_succ_of_lt (h.shared.issued_lt k c v hk)
  | run t =>
      rw [ClosureProperties.step] at hstep
      split at hstep
      · cases hstep
      · obtain ⟨⟨s', new⟩, hrun, hstep⟩ := Option.bind_eq_some_iff.mp hstep
        cases hstep
        exact h.run ‹_› hrun

/-- While no static function is recorded again with a different value, what is
recorded is found, as long as its closure is live. -/
theorem guaranteed_of_meets (heap : Obj → Bool) {σ : State Obj Val Tid}
    (h : Reach (ClosureProperties.step heap) (Meets heap) init σ) : Guaranteed σ := by
  have hsound : Sound heap σ := h.invariant sound_init fun a σ σ' hσ hmeets hstep =>
    hσ.step hmeets hstep
  have hfound : ∀ r ∈ σ.shared.recorded, r.closure ∉ σ.shared.dead →
      σ.shared.functionById.lookup r.id = some r.value := fun r hr hlive =>
    hsound.shared.lookup (hsound.shared.recorded r hr) hlive
  refine ⟨hfound, hsound.shared.answers, fun t fn key hfn => ?_, ?_, fun hempty => ?_⟩
  · obtain ⟨hdead, -, v, hv⟩ := hsound.frames t _ hfn
    refine ⟨hdead, fun c v' hc => (hsound.shared.issued_unique key c fn v' v hc hv).1, ?_⟩
    rintro r hr rfl
    obtain ⟨v', hv'⟩ := (hsound.shared.recorded r hr).1
    exact (hsound.shared.issued_unique r.id r.closure fn v' v hv' hv).1
  · intro r hr r' hr' hlive hlive' hne hid
    have h₁ := hfound r hr hlive
    have h₂ := hfound r' hr' hlive'
    rw [hid, h₂] at h₁
    exact hne (Option.some.inj h₁).symm
  · apply hsound.exclusive.free
    intro t f hf
    rw [hempty t] at hf
    cases hf

/-- A call of `record` and the steps of its thread. -/
def recording (c v steps : Nat) : List (Action Nat Nat Unit) :=
  .record () c v :: List.replicate steps (.run ())

/-- A closure recorded twice. -/
theorem guaranteed_closure_twice : ∃ σ : State Nat Nat Unit,
    Reach (ClosureProperties.step fun _ => true) (Meets fun _ => true) init σ ∧
    σ.shared.recorded = [⟨0, 20, 1⟩, ⟨0, 10, 0⟩] ∧ Guaranteed σ := by
  have hmeets (a : Action Nat Nat Unit) (σ : State Nat Nat Unit) :
      Meets (fun _ => true) a σ := by
    cases a <;> simp [Meets]
  have h : Reach (ClosureProperties.step fun _ => true) (Meets fun _ => true)
      (init : State Nat Nat Unit) _ :=
    reach_of_run (recording 0 10 5 ++ recording 0 20 5) .init hmeets rfl
  exact ⟨_, h, rfl, guaranteed_of_meets _ h⟩

/-- A static function recorded with another value keeps the first one. -/
theorem static_twice_not_guaranteed : ∃ σ : State Nat Nat Unit,
    Reach (ClosureProperties.step fun _ => false) (fun _ _ => True) init σ ∧
    σ.shared.recorded = [⟨0, 20, 0⟩, ⟨0, 10, 0⟩] ∧ ¬ Guaranteed σ := by
  have h : Reach (ClosureProperties.step fun _ => false) (fun _ _ => True)
      (init : State Nat Nat Unit) _ :=
    reach_of_run (recording 0 10 7 ++ recording 0 20 5) .init (fun _ _ => trivial) rfl
  refine ⟨_, h, rfl, fun hg => ?_⟩
  have hfound := hg.retrieves ⟨0, 20, 0⟩ List.mem_cons_self List.not_mem_nil
  cases hfound

end CtypesCbuf.CtypesForeign.ClosureProperties
