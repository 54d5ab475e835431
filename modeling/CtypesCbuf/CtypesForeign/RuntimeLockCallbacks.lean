import CtypesCbuf.CtypesForeign.RuntimeLockSafety

/-!
Calls from C to OCaml get through. The thread that holds the lock can always go
on until it gives it away, so no thread waits for the lock in vain; and the
flags of a closure decide whether its OCaml function can be run.
-/

namespace CtypesCbuf.CtypesForeign.RuntimeLock

open ThreadStacks

variable {Tid : Type} [DecidableEq Tid]

section Steps

variable {hook : Bool} {keysMax : Nat} {s s' : State Tid} {t u : Tid}

theorem step_intro {a : Action} {fs : List Frame} {e : Effect}
    (hthread : threadStep hook (s.registered t) a (s.stackOf t) = some (fs, e))
    (happly : s.apply keysMax t e = some s') :
    step hook keysMax (a, t) s = some { s' with stackOf := ThreadStacks.set s'.stackOf t fs } := by
  rw [step, hthread]
  show (s.apply keysMax t e >>= fun s' => _) = _
  rw [happly]
  rfl

/-- The statements about keys do not wait, and leave the lock alone. -/
theorem apply_key (keysMax : Nat) (t : Tid) (s : State Tid) {e : Effect}
    (he : e = .createKey ∨ e = .setKey) :
    ∃ s', s.apply keysMax t e = some s' ∧ s'.lock = s.lock ∧ s'.registered = s.registered := by
  rcases he with rfl | rfl
  · rw [State.apply]
    split
    · exact ⟨_, rfl, rfl, rfl⟩
    · exact ⟨_, rfl, rfl, rfl⟩
  · rw [State.apply]
    split
    · exact ⟨_, rfl, rfl, rfl⟩
    · exact ⟨_, rfl, rfl, rfl⟩

/-- What the statement of another thread leaves as it was. -/
structure Untouched (t : Tid) (s s' : State Tid) : Prop where
  stack : s'.stackOf t = s.stackOf t
  registered : s'.registered t = s.registered t
  tls : s'.tls t = s.tls t
  fault : s.fault = true → s'.fault = true
  /-- Only a thread without the lock could take it away. -/
  lock : s'.fault = true ∨ (s'.lock = some t ↔ s.lock = some t)

theorem apply_untouched {e : Effect} (h : s.apply keysMax u e = some s') (ht : t ≠ u) :
    Untouched t s s' ∧ s'.stackOf = s.stackOf := by
  have hother : ∀ {f : Tid → Bool} {b : Bool}, Function.update f u b t = f t :=
    Function.update_of_ne ht _ _
  have hkeys : ∀ {f : Tid → List Nat} {ks : List Nat}, Function.update f u ks t = f t :=
    Function.update_of_ne ht _ _
  have hsome : ¬ some u = some t := fun h => ht (Option.some.inj h).symm
  have hreleased : (s.fault || decide (s.lock ≠ some u)) = true ∨
      ((none : Option Tid) = some t ↔ s.lock = some t) := by
    by_cases hlock : s.lock = some u
    · exact .inr (by simp [hlock, hsome])
    · exact .inl (by simp [hlock])
  cases e with
  | acquire =>
      obtain ⟨hnone, h⟩ := Option.ite_none_right_eq_some.mp h
      cases h
      exact ⟨⟨rfl, rfl, rfl, fun hf => by simp [hf], .inr (by simp [hnone, hsome])⟩, rfl⟩
  | release =>
      cases h
      exact ⟨⟨rfl, rfl, rfl, fun hf => by simp [hf], hreleased⟩, rfl⟩
  | finishThread =>
      cases h
      exact ⟨⟨rfl, hother, rfl, fun hf => by simp [hf], hreleased⟩, rfl⟩
  | runOcaml =>
      cases h
      exact ⟨⟨rfl, rfl, rfl, fun hf => by simp [hf], .inr Iff.rfl⟩, rfl⟩
  | crash =>
      cases h
      exact ⟨⟨rfl, rfl, rfl, fun _ => rfl, .inl rfl⟩, rfl⟩
  | register =>
      obtain ⟨-, h⟩ := Option.ite_none_right_eq_some.mp h
      cases h
      exact ⟨⟨rfl, hother, rfl, id, .inr Iff.rfl⟩, rfl⟩
  | startThread =>
      cases h
      exact ⟨⟨rfl, hother, rfl, id, .inr Iff.rfl⟩, rfl⟩
  | destructor k =>
      obtain ⟨-, h⟩ := Option.ite_none_right_eq_some.mp h
      cases h
      exact ⟨⟨rfl, rfl, hkeys, id, .inr Iff.rfl⟩, rfl⟩
  | exited =>
      obtain ⟨-, h⟩ := Option.ite_none_right_eq_some.mp h
      cases h
      exact ⟨⟨rfl, rfl, rfl, id, .inr Iff.rfl⟩, rfl⟩
  | silent =>
      cases h
      exact ⟨⟨rfl, rfl, rfl, id, .inr Iff.rfl⟩, rfl⟩
  | unregister =>
      rw [State.apply] at h
      split at h
      · obtain ⟨-, h⟩ := Option.ite_none_right_eq_some.mp h
        cases h
        exact ⟨⟨rfl, hother, rfl, id, .inr Iff.rfl⟩, rfl⟩
      · cases h
        exact ⟨⟨rfl, rfl, rfl, id, .inr Iff.rfl⟩, rfl⟩
  | createKey | setKey | setNull =>
      rw [State.apply] at h
      split at h
      · cases h
        exact ⟨⟨rfl, rfl, by first | rfl | exact hkeys, id, .inr Iff.rfl⟩, rfl⟩
      · cases h
        exact ⟨⟨rfl, rfl, rfl, id, .inr Iff.rfl⟩, rfl⟩

theorem step_untouched {a : Action} (h : step hook keysMax (a, u) s = some s') (ht : t ≠ u) :
    Untouched t s s' := by
  obtain ⟨fs, e, s₁, -, happly, rfl⟩ := step_eq_some h
  obtain ⟨⟨-, hregistered, htls, hfault, hlock⟩, hstacks⟩ := apply_untouched happly ht
  refine ⟨?_, hregistered, htls, hfault, hlock⟩
  show ThreadStacks.set s₁.stackOf u fs t = s.stackOf t
  rw [set_of_ne ht, hstacks]

/-! ### The lock is given away -/

/-- The number of statements before the thread can give the lock away. -/
def distance : List Frame → Nat
  | .ocaml :: _ => 0
  | .call _ .read :: _ => 1
  | .call _ .acquire :: _ => 2
  | .cfunction :: _ => 3
  | .call _ .ffiCall :: _ => 4
  | .call _ .release :: _ => 5
  | .handler _ .call :: _ => 1
  | .handler _ .acquire :: _ => 2
  | .handler _ .setKey :: _ => 3
  | .handler _ .createKey :: _ => 4
  | .handler _ .release :: _ => 4
  | .handler _ .register :: _ => 5
  | _ => 0

/-- The thread `u` can give the lock away, or go on with it. -/
def GoesOn (hook : Bool) (keysMax : Nat) (u : Tid) (s : State Tid) : Prop :=
  ∃ a s', Suitable hook (a, u) s ∧ step hook keysMax (a, u) s = some s' ∧
    (s'.lock = none ∨ s'.lock = some u ∧ distance (s'.stackOf u) < distance (s.stackOf u))

/-- A statement that leaves the lock alone. -/
theorem goesOn_of_same {a : Action} {f g : List Frame} {e : Effect} {s₁ : State Tid}
    (hlock : s.lock = some u) (hfs : s.stackOf u = f) (ha : Suitable hook (a, u) s)
    (hthread : threadStep hook (s.registered u) a f = some (g, e))
    (happly : s.apply keysMax u e = some s₁) (hsame : s₁.lock = s.lock)
    (hlt : distance g < distance f) : GoesOn hook keysMax u s := by
  subst hfs
  refine ⟨a, _, ha, step_intro hthread happly, .inr ⟨hsame.trans hlock, ?_⟩⟩
  show distance (ThreadStacks.set s₁.stackOf u g u) < _
  rwa [set_self]

theorem goesOn_of_release {a : Action} {f g : List Frame} (hfs : s.stackOf u = f)
    (ha : Suitable hook (a, u) s)
    (hthread : threadStep hook (s.registered u) a f = some (g, .release)) :
    GoesOn hook keysMax u s := by
  subst hfs
  exact ⟨a, _, ha, step_intro hthread rfl, .inl rfl⟩

theorem goesOn_handler {c : Context} {pc : HandlerPc} {fs : List Frame} (h : s.Sound hook)
    (hlock : s.lock = some u) (hfs : s.stackOf u = .handler c pc :: .cfunction :: fs) :
    GoesOn hook keysMax u s := by
  obtain ⟨⟨-, hlock', hhook⟩, hr, hsound⟩ := hfs ▸ h.threads u
  have hholds : holds (.handler c pc :: .cfunction :: fs) = true :=
    hfs ▸ (h.lock_iff u).mp hlock
  cases pc with
  | register =>
      -- it is registered, since it holds the lock
      have hmem := hsound.ocaml_mem hholds fun c pc fs' h => by cases h
      have hregistered := hsound.registered hmem rfl
      by_cases hregistration : c.threadRegistration = true
      · cases hhook' : hook
        · subst hhook'
          obtain ⟨fs', hunwind, -⟩ := hsound.unwind hmem
          refine goesOn_of_same (a := .advance) hlock hfs trivial (g := .ocaml :: fs')
            (e := .runOcaml) ?_ rfl rfl (by simp [distance])
          rw [threadStep, if_pos hregistration, if_neg Bool.false_ne_true, hunwind]
        · subst hhook'
          refine goesOn_of_same (a := .advance) hlock hfs trivial
            (g := .handler c .acquire :: .cfunction :: fs) (e := .silent) ?_ rfl rfl
            (by simp [distance])
          rw [threadStep, if_pos hregistration, if_pos rfl, if_pos hregistered]
      · refine goesOn_of_same (a := .advance) hlock hfs trivial
          (g := .handler c .acquire :: .cfunction :: fs) (e := .silent) ?_ rfl rfl
          (by simp [distance])
        rw [threadStep, if_neg hregistration]
  | createKey =>
      obtain ⟨s₁, happly, hsame, -⟩ := apply_key keysMax u s (.inl rfl)
      exact goesOn_of_same (a := .advance) hlock hfs trivial rfl happly hsame
        (by simp [distance])
  | setKey =>
      obtain ⟨s₁, happly, hsame, -⟩ := apply_key keysMax u s (.inr rfl)
      exact goesOn_of_same (a := .advance) hlock hfs trivial rfl happly hsame
        (by simp [distance])
  | acquire =>
      have hnot : c.runtimeLock = false := by
        rw [hlock', show holds (.cfunction :: fs) = true from hholds]
        rfl
      refine goesOn_of_same (a := .advance) hlock hfs trivial
        (g := .handler c .call :: .cfunction :: fs) (e := .silent) ?_ rfl rfl
        (by simp [distance])
      rw [threadStep, hnot]
      rfl
  | call =>
      exact goesOn_of_same (a := .advance) hlock hfs trivial rfl rfl rfl (by simp [distance])
  | release =>
      cases hreleases : c.runtimeLock
      · refine goesOn_of_same (a := .advance) hlock hfs trivial (g := .cfunction :: fs)
          (e := .silent) ?_ rfl rfl (by simp [distance])
        rw [threadStep, hreleases]
        rfl
      · refine goesOn_of_release (a := .advance) hfs trivial (g := .cfunction :: fs) ?_
        rw [threadStep, hreleases]
        rfl

theorem holder_goesOn (h : s.Sound hook) (hlock : s.lock = some u) :
    GoesOn hook keysMax u s := by
  have hsound := h.threads u
  have hholds := (h.lock_iff u).mp hlock
  generalize hfs : s.stackOf u = fs at hsound hholds
  cases fs with
  | nil => cases hholds
  | cons f fs =>
      obtain ⟨hover, -, -⟩ := hsound
      cases f with
      | blocking => cases hholds
      | exiting => cases hholds
      | unregister pc => cases hholds
      | exited => cases hholds
      | ocaml => exact goesOn_of_release (a := .enterBlocking) hfs trivial rfl
      | cfunction =>
          rcases hover with rfl | rfl | ⟨lock, fs', rfl⟩
          · cases hholds
          · cases hholds
          · exact goesOn_of_same (a := .return_) hlock hfs trivial rfl rfl rfl
              (by simp [distance])
      | call lock pc =>
          obtain ⟨fs', rfl⟩ := hover
          cases pc with
          | release =>
              cases lock
              · exact goesOn_of_same (a := .advance) hlock hfs trivial rfl rfl rfl
                  (by simp [distance])
              · exact goesOn_of_release (a := .advance) hfs trivial rfl
          | ffiCall =>
              exact goesOn_of_same (a := .advance) hlock hfs trivial rfl rfl rfl
                (by simp [distance])
          | acquire =>
              cases lock
              · exact goesOn_of_same (a := .advance) hlock hfs trivial rfl rfl rfl
                  (by simp [distance])
              · cases hholds
          | read =>
              exact goesOn_of_same (a := .advance) hlock hfs trivial rfl rfl rfl
                (by simp [distance])
      | handler c pc =>
          obtain ⟨⟨fs', rfl⟩, -⟩ := hover
          exact goesOn_handler h hlock hfs

/-- From every state that is reached, the thread that holds the lock can give it
away by steps of its own. -/
theorem lock_can_be_freed {s₀ : State Tid} {n : Nat}
    (hreach : Reach (step hook keysMax) (Suitable hook) s₀ s) (h : s.Sound hook)
    (hlock : s.lock = some u) (hn : distance (s.stackOf u) ≤ n) :
    ∃ s', Reach (step hook keysMax) (Suitable hook) s₀ s' ∧ s'.Sound hook ∧ s'.lock = none ∧
      ∀ t ≠ u, s'.stackOf t = s.stackOf t ∧ s'.registered t = s.registered t := by
  -- each statement brings the end nearer
  induction n generalizing s with
  | zero =>
      obtain ⟨a, s', ha, hstep, hfree | ⟨-, hlt⟩⟩ := holder_goesOn h hlock
      · refine ⟨s', hreach.next (a, u) ha hstep, h.step ha hstep, hfree, fun t ht => ?_⟩
        exact ⟨(step_untouched hstep ht).stack, (step_untouched hstep ht).registered⟩
      · omega
  | succ n ih =>
      obtain ⟨a, s', ha, hstep, hfree | ⟨hlock', hlt⟩⟩ := holder_goesOn h hlock
      · refine ⟨s', hreach.next (a, u) ha hstep, h.step ha hstep, hfree, fun t ht => ?_⟩
        exact ⟨(step_untouched hstep ht).stack, (step_untouched hstep ht).registered⟩
      · obtain ⟨s'', hreach', hs'', hfree, hkept⟩ :=
          ih (hreach.next (a, u) ha hstep) (h.step ha hstep) hlock' (by omega)
        refine ⟨s'', hreach', hs'', hfree, fun t ht => ?_⟩
        have hstay := step_untouched hstep ht
        rw [(hkept t ht).1, (hkept t ht).2]
        exact ⟨hstay.stack, hstay.registered⟩

/-! ### Which callbacks run -/

/-- The OCaml function of the closure runs, called from the frames `fs`. -/
def Runs (t : Tid) (c : Context) (fs : List Frame) (s : State Tid) : Prop :=
  s.fault = false ∧ s.stackOf t = .ocaml :: .handler c .release :: .cfunction :: fs

/-- The flags of the closure are right for the thread. -/
structure Fits (hook : Bool) (t : Tid) (c : Context) (s : State Tid) : Prop where
  lock : c.runtimeLock = true ↔ s.lock ≠ some t
  registered : s.registered t = true ∨ c.threadRegistration = true
  hooked : c.threadRegistration = true → hook = true

/-- The place of a statement on the way to the OCaml function. -/
def HandlerPc.rank : HandlerPc → Nat
  | .register => 5
  | .createKey => 4
  | .setKey => 3
  | .acquire => 2
  | .call => 1
  | .release => 0

/-- The next statement of the handler brings the OCaml function nearer. -/
def Approaches (hook : Bool) (keysMax : Nat) (t : Tid) (c : Context) (fs : List Frame)
    (pc : HandlerPc) (s : State Tid) : Prop :=
  ∃ s', step hook keysMax (.advance, t) s = some s' ∧
    (s'.stackOf t = .ocaml :: .handler c .release :: .cfunction :: fs ∨
      (s'.lock = none ∨ s'.lock = some t) ∧ ∃ pc', pc' ≠ .release ∧ pc'.rank < pc.rank ∧
        s'.stackOf t = .handler c pc' :: .cfunction :: fs)

theorem approaches_of_step {c : Context} {pc q : HandlerPc} {fs f : List Frame} {e : Effect}
    {s₁ : State Tid} (hfs : s.stackOf t = f)
    (hthread : threadStep hook (s.registered t) .advance f =
      some (.handler c q :: .cfunction :: fs, e))
    (happly : s.apply keysMax t e = some s₁) (hlock : s₁.lock = none ∨ s₁.lock = some t)
    (hq : q ≠ .release) (hlt : q.rank < pc.rank) : Approaches hook keysMax t c fs pc s := by
  subst hfs
  exact ⟨_, step_intro hthread happly, .inr ⟨hlock, q, hq, hlt, set_self⟩⟩

/-- With the lock free or held, nothing stops a callback. -/
theorem handler_approaches {c : Context} {pc : HandlerPc} {fs : List Frame} (h : s.Sound hook)
    (hfs : s.stackOf t = .handler c pc :: .cfunction :: fs) (hpc : pc ≠ .release)
    (hlock : s.lock = none ∨ s.lock = some t)
    (hhook : c.threadRegistration = true → hook = true) :
    Approaches hook keysMax t c fs pc s := by
  obtain ⟨⟨-, hlock', -⟩, hr, hsound⟩ := hfs ▸ h.threads t
  have hholds : s.lock = some t ↔ holds (.handler c pc :: .cfunction :: fs) = true := by
    rw [← hfs]
    exact h.lock_iff t
  cases pc with
  | release => exact absurd rfl hpc
  | register =>
      by_cases hregistration : c.threadRegistration = true
      · obtain rfl : hook = true := hhook hregistration
        by_cases hregistered : s.registered t = true
        · refine approaches_of_step (q := .acquire) (e := .silent) hfs ?_ rfl hlock
            (by decide) (by decide)
          rw [threadStep, if_pos hregistration, if_pos rfl, if_pos hregistered]
        · -- a thread that is not registered does not hold the lock
          have hfree : s.lock = none := hlock.resolve_right fun hheld => by
            have hmem := hsound.ocaml_mem (hholds.mp hheld) fun c pc fs' h => by cases h
            exact hregistered (hsound.registered hmem rfl)
          refine approaches_of_step (q := .createKey) (e := .register) hfs ?_ (if_pos hfree)
            (.inl hfree) (by decide) (by decide)
          rw [threadStep, if_pos hregistration, if_pos rfl, if_neg hregistered]
      · refine approaches_of_step (q := .acquire) (e := .silent) hfs ?_ rfl hlock
          (by decide) (by decide)
        rw [threadStep, if_neg hregistration]
  | createKey =>
      obtain ⟨s₁, happly, hsame, -⟩ := apply_key keysMax t s (.inl rfl)
      exact approaches_of_step (q := .setKey) hfs rfl happly (hsame ▸ hlock) (by decide)
        (by decide)
  | setKey =>
      obtain ⟨s₁, happly, hsame, -⟩ := apply_key keysMax t s (.inr rfl)
      exact approaches_of_step (q := .acquire) hfs rfl happly (hsame ▸ hlock) (by decide)
        (by decide)
  | acquire =>
      cases hacquires : c.runtimeLock
      · refine approaches_of_step (q := .call) (e := .silent) hfs ?_ rfl hlock
          (by decide) (by decide)
        rw [threadStep, hacquires]
        rfl
      · have hnot : holds (.cfunction :: fs) = false := by
          rw [hacquires] at hlock'
          exact Bool.not_eq_true' _ ▸ hlock'.symm
        have hfree : s.lock = none := hlock.resolve_right fun hheld => by
          have hheld' : holds (.cfunction :: fs) = true := hholds.mp hheld
          rw [hnot] at hheld'
          cases hheld'
        refine approaches_of_step (q := .call) (e := .acquire) hfs ?_ (if_pos hfree)
          (.inr rfl) (by decide) (by decide)
        rw [threadStep, hacquires]
        rfl
  | call =>
      have hthread : threadStep hook (s.registered t) .advance (s.stackOf t) =
          some (.ocaml :: .handler c .release :: .cfunction :: fs, .runOcaml) := by
        rw [hfs]
        rfl
      exact ⟨_, step_intro hthread rfl, .inl set_self⟩

theorem handler_runs {s₀ : State Tid} {c : Context} {pc : HandlerPc} {fs : List Frame} {n : Nat}
    (hreach : Reach (step hook keysMax) (Suitable hook) s₀ s) (h : s.Sound hook)
    (hfs : s.stackOf t = .handler c pc :: .cfunction :: fs) (hpc : pc ≠ .release)
    (hlock : s.lock = none ∨ s.lock = some t)
    (hhook : c.threadRegistration = true → hook = true) (hn : pc.rank ≤ n) :
    ∃ s', Reach (step hook keysMax) (Suitable hook) s₀ s' ∧ Runs t c fs s' := by
  induction n generalizing s pc with
  | zero => cases pc <;> first | exact absurd rfl hpc | cases hn
  | succ n ih =>
      obtain ⟨s', hstep, hnext⟩ := handler_approaches h hfs hpc hlock hhook
      have hs' := h.step (t := t) (a := .advance) trivial hstep
      rcases hnext with hruns | ⟨hlock', pc', hpc', hlt, hfs'⟩
      · exact ⟨s', hreach.next (.advance, t) trivial hstep, hs'.no_fault, hruns⟩
      · exact ih (hreach.next (.advance, t) trivial hstep) hs' hfs' hpc' hlock' (by omega)

/-! ### Which callbacks do not run -/

/-- Why the OCaml function cannot be run: the behaviour is undefined already,
the handler waits for a lock that its own thread holds, it goes on without the
lock, or it goes on without a registered thread. -/
inductive Doomed (t : Tid) (c : Context) (fs : List Frame) (s : State Tid) : Prop
  | fault (h : s.fault = true)
  | waits (pc : HandlerPc) (hpc : pc = .register ∨ pc = .acquire)
      (hfs : s.stackOf t = .handler c pc :: .cfunction :: fs) (hc : c.runtimeLock = true)
      (hlock : s.lock = some t) (hregistered : s.registered t = true)
  | lockless (pc : HandlerPc) (hpc : pc ≠ .release)
      (hfs : s.stackOf t = .handler c pc :: .cfunction :: fs) (hc : c.runtimeLock = false)
      (hlock : s.lock ≠ some t)
  | unregistered (pc : HandlerPc) (hpc : pc = .register ∨ pc = .acquire)
      (hfs : s.stackOf t = .handler c pc :: .cfunction :: fs) (hc : c.runtimeLock = true)
      (hnot : c.threadRegistration = false) (hregistered : s.registered t = false)

omit [DecidableEq Tid] in
theorem Doomed.not_runs {c : Context} {fs : List Frame} (h : Doomed t c fs s) :
    ¬ Runs t c fs s := by
  rintro ⟨hfault, hocaml⟩
  cases h with
  | fault h =>
      rw [h] at hfault
      cases hfault
  | waits pc hpc hfs => cases hfs.symm.trans hocaml
  | lockless pc hpc hfs => cases hfs.symm.trans hocaml
  | unregistered pc hpc hfs => cases hfs.symm.trans hocaml

/-- A handler has one next statement. -/
theorem handler_step {a : Action} {c : Context} {pc : HandlerPc} {fs : List Frame}
    (hfs : s.stackOf t = .handler c pc :: fs) (h : step hook keysMax (a, t) s = some s') :
    ∃ g e s₁, threadStep hook (s.registered t) .advance (.handler c pc :: fs) = some (g, e) ∧
      s.apply keysMax t e = some s₁ ∧ s'.stackOf t = g ∧ s'.lock = s₁.lock ∧
      s'.registered = s₁.registered ∧ s'.fault = s₁.fault := by
  obtain ⟨g, e, s₁, hthread, happly, rfl⟩ := step_eq_some h
  rw [hfs] at hthread
  obtain rfl : a = .advance := by
    cases a <;> first | rfl | cases hthread
  exact ⟨g, e, s₁, hthread, happly, set_self, rfl, rfl, rfl⟩

theorem Doomed.other {a : Action} {c : Context} {fs : List Frame} (h : Doomed t c fs s)
    (hstep : step hook keysMax (a, u) s = some s') (hu : t ≠ u) : Doomed t c fs s' := by
  have hkept := step_untouched hstep hu
  rcases hkept.lock with hfault | hlock'
  · exact .fault hfault
  cases h with
  | fault h => exact .fault (hkept.fault h)
  | waits pc hpc hfs hc hlock hr =>
      exact .waits pc hpc (hkept.stack.trans hfs) hc (hlock'.mpr hlock)
        (hkept.registered.trans hr)
  | lockless pc hpc hfs hc hlock =>
      exact .lockless pc hpc (hkept.stack.trans hfs) hc fun h => hlock (hlock'.mp h)
  | unregistered pc hpc hfs hc hn hr =>
      exact .unregistered pc hpc (hkept.stack.trans hfs) hc hn (hkept.registered.trans hr)

theorem apply_fault {e : Effect} (hf : s.fault = true) (h : s.apply keysMax u e = some s') :
    s'.fault = true := by
  cases e <;> grind [State.apply]

theorem step_fault {a : Action} (h : s.fault = true)
    (hstep : step hook keysMax (a, t) s = some s') : s'.fault = true := by
  obtain ⟨fs, e, s₁, -, happly, rfl⟩ := step_eq_some hstep
  show s₁.fault = true
  exact apply_fault h happly

theorem Doomed.own {a : Action} {c : Context} {fs : List Frame} (h : Doomed t c fs s)
    (hhook : c.threadRegistration = true → hook = true)
    (hstep : step hook keysMax (a, t) s = some s') : Doomed t c fs s' := by
  cases h with
  | fault h => exact .fault (step_fault h hstep)
  | waits pc hpc hfs hc hlock hr =>
      obtain ⟨g, e, s₁, hthread, happly, hg, hlock', hr', -⟩ := handler_step hfs hstep
      rcases hpc with rfl | rfl
      · -- registered already, or not to be registered
        obtain ⟨rfl, rfl⟩ : .handler c .acquire :: .cfunction :: fs = g ∧ Effect.silent = e := by
          rw [threadStep, if_pos hr] at hthread
          split at hthread
          · rename_i hregistration
            rw [if_pos (hhook hregistration)] at hthread
            exact Prod.mk.inj (Option.some.inj hthread)
          · exact Prod.mk.inj (Option.some.inj hthread)
        cases happly
        exact .waits .acquire (.inr rfl) hg hc (hlock'.trans hlock) (hr' ▸ hr)
      · rw [threadStep, if_pos hc] at hthread
        cases hthread
        rw [State.apply, if_neg (by simp [hlock])] at happly
        cases happly
  | lockless pc hpc hfs hc hlock =>
      obtain ⟨g, e, s₁, hthread, happly, hg, hlock', -, hfault⟩ := handler_step hfs hstep
      -- the lock is not taken on the way to the OCaml function
      have hon : ∀ q : HandlerPc, q ≠ .release → g = .handler c q :: .cfunction :: fs →
          s₁.lock = s.lock → Doomed t c fs s' := by
        rintro q hq rfl hsame
        refine .lockless q hq hg hc ?_
        rwa [hlock', hsame]
      cases pc with
      | release => exact absurd rfl hpc
      | register =>
          rw [threadStep] at hthread
          split at hthread
          · rename_i hregistration
            rw [if_pos (hhook hregistration)] at hthread
            split at hthread
            · cases hthread
              cases happly
              exact hon .acquire (by decide) rfl rfl
            · cases hthread
              obtain ⟨-, happly⟩ := Option.ite_none_right_eq_some.mp happly
              cases happly
              exact hon .createKey (by decide) rfl rfl
          · cases hthread
            cases happly
            exact hon .acquire (by decide) rfl rfl
      | createKey =>
          cases hthread
          obtain ⟨s₂, happly', hsame, -⟩ := apply_key keysMax t s (.inl rfl)
          obtain rfl : s₂ = s₁ := Option.some.inj (happly'.symm.trans happly)
          exact hon .setKey (by decide) rfl hsame
      | setKey =>
          cases hthread
          obtain ⟨s₂, happly', hsame, -⟩ := apply_key keysMax t s (.inr rfl)
          obtain rfl : s₂ = s₁ := Option.some.inj (happly'.symm.trans happly)
          exact hon .acquire (by decide) rfl hsame
      | acquire =>
          rw [threadStep, hc] at hthread
          cases hthread
          cases happly
          exact hon .call (by decide) rfl rfl
      | call =>
          cases hthread
          cases happly
          exact .fault (hfault.trans (by simp [hlock]))
  | unregistered pc hpc hfs hc hn hr =>
      obtain ⟨g, e, s₁, hthread, happly, hg, hlock', hr', hfault⟩ := handler_step hfs hstep
      rcases hpc with rfl | rfl
      · rw [threadStep, hn] at hthread
        cases hthread
        cases happly
        exact .unregistered .acquire (.inr rfl) hg hc hn (hr' ▸ hr)
      · rw [threadStep, if_pos hc] at hthread
        cases hthread
        obtain ⟨-, happly⟩ := Option.ite_none_right_eq_some.mp happly
        cases happly
        exact .fault (hfault.trans (by simp [hr]))

theorem Doomed.reach {meets : Action × Tid → State Tid → Prop} {c : Context} {fs : List Frame}
    (hhook : c.threadRegistration = true → hook = true) (h : Doomed t c fs s)
    (hreach : Reach (step hook keysMax) meets s s') : Doomed t c fs s' := by
  refine hreach.invariant h ?_
  rintro ⟨a, u⟩ s s' hdoomed - hstep
  by_cases hu : t = u
  · subst hu
    exact hdoomed.own hhook hstep
  · exact hdoomed.other hstep hu

/-! ### Registrations that raise -/

/-- Without `hook` no handler gets beyond its registration. -/
def Unhooked (fs : List Frame) : Prop :=
  ∀ c pc, Frame.handler c pc ∈ fs → c.threadRegistration = true → pc = .register

theorem unwind_subset (fs : List Frame) : (unwind fs).1 ⊆ fs := by
  rw [unwind]
  split
  · exact List.nil_subset fs
  · rename_i f fs' hdrop
    rw [← hdrop]
    exact (List.dropWhile_sublist _).subset

theorem threadStep_unhooked {a : Action} {r : Bool} {fs fs' : List Frame} {e : Effect}
    (h : Unhooked fs) (hstep : threadStep false r a fs = some (fs', e)) : Unhooked fs' := by
  -- a new handler registers first, and a handler that registers raises an exception
  have hunwind := unwind_subset
  intro c pc hmem hregistration
  fun_cases threadStep false r a fs <;> grind [threadStep, Unhooked]

theorem step_unhooked {a : Action} (h : ∀ t, Unhooked (s.stackOf t))
    (hstep : step false keysMax (a, u) s = some s') : ∀ t, Unhooked (s'.stackOf t) := by
  intro t
  by_cases ht : t = u
  · subst ht
    obtain ⟨fs, e, s₁, hthread, -, rfl⟩ := step_eq_some hstep
    show Unhooked (ThreadStacks.set s₁.stackOf t fs t)
    rw [set_self]
    exact threadStep_unhooked (h t) hthread
  · rw [(step_untouched hstep ht).stack]
    exact h t

theorem reach_unhooked {meets : Action × Tid → State Tid → Prop} {s₀ : State Tid}
    (h₀ : ∀ t, Unhooked (s₀.stackOf t)) (h : Reach (step false keysMax) meets s₀ s) :
    ∀ t, Unhooked (s.stackOf t) := by
  refine h.invariant (I := fun s => ∀ t, Unhooked (s.stackOf t)) h₀ ?_
  rintro ⟨a, u⟩ s s' hs - hstep
  exact step_unhooked hs hstep

omit [DecidableEq Tid] in
theorem not_runs_of_unhooked {c : Context} {fs : List Frame} (h : ∀ t, Unhooked (s.stackOf t))
    (hregistration : c.threadRegistration = true) : ¬ Runs t c fs s := by
  rintro ⟨-, hfs⟩
  have hpc := h t c .release (by rw [hfs]; simp) hregistration
  cases hpc

theorem unhooked_initial (t₀ : Tid) : ∀ t, Unhooked ((State.initial t₀).stackOf t) := by
  intro t c pc hmem
  have hmem : Frame.handler c pc ∈ ThreadStacks.set (fun _ => []) t₀ [Frame.ocaml] t := hmem
  obtain ⟨-, hmem⟩ | ⟨-, hmem⟩ := mem_set hmem
  · cases List.mem_singleton.mp hmem
  · cases hmem

/-! ### The flags of a closure -/

theorem doomed_of_not_fits {c : Context} {fs : List Frame} (h : s.Sound hook)
    (ht : s.stackOf t = .cfunction :: fs)
    (hhook : c.threadRegistration = true → hook = true) (hnot : ¬ Fits hook t c s)
    (hcall : step hook keysMax (.callback c, t) s = some s') : Doomed t c fs s' := by
  obtain ⟨g, e, s₁, hthread, happly, rfl⟩ := step_eq_some hcall
  rw [ht] at hthread
  cases hthread
  cases happly
  have hfs : ThreadStacks.set s.stackOf t (.handler c .register :: .cfunction :: fs) t =
      .handler c .register :: .cfunction :: fs := set_self
  -- a thread that holds the lock is registered
  have hheld : s.lock = some t → s.registered t = true := by
    intro hlock
    have hsound := ht ▸ h.threads t
    have hholds := ht ▸ (h.lock_iff t).mp hlock
    exact hsound.registered (hsound.ocaml_mem hholds fun c pc fs' h => by cases h) rfl
  by_cases hlock : s.lock = some t
  · cases hc : c.runtimeLock
    · refine absurd ⟨?_, .inl (hheld hlock), hhook⟩ hnot
      simp [hc, hlock]
    · exact .waits .register (.inl rfl) hfs hc hlock (hheld hlock)
  · cases hc : c.runtimeLock
    · exact .lockless .register (by decide) hfs hc hlock
    · cases hregistered : s.registered t
      · cases hregistration : c.threadRegistration
        · exact .unregistered .register (.inl rfl) hfs hc hregistration hregistered
        · refine absurd ⟨?_, .inr hregistration, hhook⟩ hnot
          simp [hc, hlock]
      · refine absurd ⟨?_, .inl hregistered, hhook⟩ hnot
        simp [hc, hlock]

theorem runs_of_fits {c : Context} {fs : List Frame} (h : s.Sound hook)
    (ht : s.stackOf t = .cfunction :: fs) (hfits : Fits hook t c s)
    (hcall : step hook keysMax (.callback c, t) s = some s') :
    ∃ s'', Reach (step hook keysMax) (Suitable hook) s' s'' ∧ Runs t c fs s'' := by
  have hsuits : Suitable hook (.callback c, t) s := by
    refine ⟨?_, hfits.registered, fun hc => .inl (hfits.hooked hc)⟩
    rw [Bool.eq_iff_iff, hfits.lock, Bool.not_eq_true', decide_eq_false_iff_not]
  have hs' := h.step hsuits hcall
  have hfs : s'.stackOf t = .handler c .register :: .cfunction :: fs := by
    obtain ⟨g, e, s₁, hthread, happly, rfl⟩ := step_eq_some hcall
    rw [ht] at hthread
    cases hthread
    exact set_self
  cases hlock : s'.lock with
  | none => exact handler_runs .init hs' hfs (by decide) (.inl hlock) hfits.hooked (Nat.le_refl _)
  | some u =>
      by_cases hu : t = u
      · subst hu
        exact handler_runs .init hs' hfs (by decide) (.inr hlock) hfits.hooked (Nat.le_refl _)
      · obtain ⟨s₁, hreach, hs₁, hfree, hkept⟩ :=
          lock_can_be_freed .init hs' hlock (Nat.le_refl _)
        exact handler_runs hreach hs₁ ((hkept t hu).1.trans hfs) (by decide) (.inl hfree)
          hfits.hooked (Nat.le_refl _)

/-- C code that is reached in a run calls back. The OCaml function can be run
exactly if the closure acquires the lock when its thread does not have it,
registers a thread that is not registered, and registration is set up. -/
theorem callback_runs_iff {t₀ : Tid} {c : Context} {fs : List Frame}
    (hreach : Reach (step hook keysMax) (Suitable hook) (State.initial t₀) s)
    (ht : s.stackOf t = .cfunction :: fs)
    (hcall : step hook keysMax (.callback c, t) s = some s') :
    (∃ s'', Reach (step hook keysMax) (fun _ _ => True) s' s'' ∧ Runs t c fs s'') ↔
      Fits hook t c s := by
  have h := State.Sound.reach hreach
  constructor
  · rintro ⟨s'', hreach', hruns⟩
    by_contra hnot
    by_cases hhook : c.threadRegistration = true → hook = true
    · exact ((doomed_of_not_fits h ht hhook hnot hcall).reach hhook hreach').not_runs hruns
    · obtain ⟨hregistration, hunhooked⟩ := Classical.not_imp.mp hhook
      obtain rfl : hook = false := Bool.eq_false_iff.mpr hunhooked
      have hs := step_unhooked (reach_unhooked (unhooked_initial t₀) hreach) hcall
      exact not_runs_of_unhooked (reach_unhooked hs hreach') hregistration hruns
  · intro hfits
    obtain ⟨s'', hreach', hruns⟩ := runs_of_fits h ht hfits hcall
    exact ⟨s'', hreach'.mono fun _ _ _ => trivial, hruns⟩

end Steps

def lockedCall : List (Action × Nat) := [(.foreignCall false, 0), (.advance, 0), (.advance, 0)]

/-- Its C function can call back without the lock only. -/
theorem lockedCall_callbacks :
    ∃ s s₁ s₂, Reach (step true 1) (Suitable true) (State.initial 0) s ∧
      step true 1 (.callback ⟨false, false⟩, 0) s = some s₁ ∧
      step true 1 (.callback ⟨true, true⟩, 0) s = some s₂ ∧
      (∃ s', Reach (step true 1) (fun _ _ => True) s₁ s' ∧
        Runs 0 ⟨false, false⟩ [.call false .acquire, .ocaml] s') ∧
      ¬ ∃ s', Reach (step true 1) (fun _ _ => True) s₂ s' ∧
        Runs 0 ⟨true, true⟩ [.call false .acquire, .ocaml] s' := by
  have h : Reach (step true 1) (Suitable true) (State.initial 0) _ :=
    reach_of_checked lockedCall .init rfl
  refine ⟨_, _, _, h, rfl, rfl, (callback_runs_iff h rfl rfl).mpr ?_, fun hruns => ?_⟩
  · exact ⟨by decide, .inl rfl, fun _ => rfl⟩
  · have hfits := (callback_runs_iff h rfl rfl).mp hruns
    exact hfits.lock.mp rfl rfl

end CtypesCbuf.CtypesForeign.RuntimeLock
