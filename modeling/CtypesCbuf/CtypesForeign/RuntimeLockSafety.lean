import CtypesCbuf.CtypesForeign.RuntimeLock

/-!
Safety of the runtime lock under any interleaving of any number of threads,
with calls and callbacks nested in each other. The stack of a thread tells
whether it holds the lock.
-/

namespace CtypesCbuf.CtypesForeign.RuntimeLock

open ThreadStacks

/-! ### One thread -/

/-- A thread with this stack has the runtime lock. -/
def holds : List Frame → Bool
  | .ocaml :: _ => true
  | .call _ .release :: _ => true
  | .call _ .read :: _ => true
  | .call lock _ :: _ => !lock
  | .cfunction :: fs => holds fs
  | .handler _ .call :: _ => true
  | .handler _ .release :: _ => true
  | .handler _ _ :: fs => holds fs
  | _ => false

/-- The frames below a frame. C code calls back with the flags that its own
call makes necessary. -/
def Frame.Over (hook : Bool) (f : Frame) (fs : List Frame) : Prop :=
  match f with
  | .ocaml => fs = [] ∨ ∃ c fs', fs = .handler c .release :: fs'
  | .blocking | .call _ _ => ∃ fs', fs = .ocaml :: fs'
  | .cfunction => fs = [] ∨ fs = [.exiting] ∨ ∃ lock fs', fs = .call lock .acquire :: fs'
  | .handler c _ => (∃ fs', fs = .cfunction :: fs') ∧ c.runtimeLock = !holds fs ∧
      (c.threadRegistration = true → hook = true ∨ holds fs = true)
  | .exiting | .exited => fs = []
  | .unregister _ => fs = [.exiting]

def Frame.registered : Frame → Bool
  | .ocaml | .blocking | .call _ _ => true
  | .handler c .register => !c.threadRegistration
  | .handler _ _ => true
  | _ => false

/-- What is known of a thread, which is registered if `r`. -/
def Sound (hook r : Bool) : List Frame → Prop
  | [] => True
  | f :: fs => f.Over hook fs ∧ (f.registered = true → r = true) ∧ Sound hook r fs

/-- What an effect makes of the lock and of the registration of its thread. -/
def Effect.Lawful (e : Effect) (held registered held' registered' : Bool) : Prop :=
  match e with
  | .acquire => held = false ∧ held' = true ∧ registered = true ∧ registered' = true
  | .release => held = true ∧ held' = false ∧ registered' = registered
  | .runOcaml => held = true ∧ held' = true ∧ registered = true ∧ registered' = true
  | .register => held = false ∧ held' = false ∧ registered' = true
  | .unregister => held = false ∧ held' = false ∧ registered' = false
  | .startThread => held = false ∧ held' = false ∧ registered' = true
  | .finishThread => held = true ∧ held' = false ∧ registered' = false
  | .crash => False
  | _ => held' = held ∧ registered' = registered

/-- C code may call back with these flags: it has the lock or gets it, and its
thread is registered. Without `hook` a registration raises an exception, which
needs the lock. -/
def Calls (hook registered held : Bool) (c : Context) : Prop :=
  c.runtimeLock = !held ∧ (registered = true ∨ c.threadRegistration = true) ∧
    (c.threadRegistration = true → hook = true ∨ held = true)

/-- What is asked of the C code and the OCaml code of a program. -/
def Suits (hook registered : Bool) (fs : List Frame) : Action → Prop
  | .callback c => Calls hook registered (holds fs) c
  | .raise_ => .ocaml ∈ fs.tail
  | _ => True

section Thread

variable {hook r : Bool} {fs fs' : List Frame}

theorem Sound.mono (h : Sound hook r fs) (hr : r = true → r' = true) : Sound hook r' fs := by
  induction fs with
  | nil => trivial
  | cons f fs ih => exact ⟨h.1, fun hf => hr (h.2.1 hf), ih h.2.2⟩

theorem Sound.registered (h : Sound hook r fs) {f : Frame} (hf : f ∈ fs)
    (hreg : f.registered = true) : r = true := by
  induction fs with
  | nil => cases hf
  | cons g fs ih =>
      rcases List.mem_cons.mp hf with rfl | hf
      · exact h.2.1 hreg
      · exact ih h.2.2 hf

/-- A thread that holds the lock below a handler holds it for OCaml code. -/
theorem Sound.ocaml_mem (h : Sound hook r fs) (hholds : holds fs = true)
    (htop : ∀ c pc fs', fs ≠ .handler c pc :: fs') : .ocaml ∈ fs := by
  cases fs with
  | nil => cases hholds
  | cons f fs =>
      obtain ⟨hover, -, hsound⟩ := h
      cases f with
      | ocaml => exact List.mem_cons_self
      | blocking => cases hholds
      | call lock pc =>
          obtain ⟨fs', rfl⟩ := hover
          exact List.mem_cons_of_mem _ List.mem_cons_self
      | cfunction =>
          rcases hover with rfl | rfl | ⟨lock, fs', rfl⟩
          · cases hholds
          · cases hholds
          · obtain ⟨⟨fs'', rfl⟩, -⟩ := hsound
            exact List.mem_cons_of_mem _ (List.mem_cons_of_mem _ List.mem_cons_self)
      | handler c pc => exact absurd rfl (htop c pc fs)
      | exiting => cases hholds
      | unregister pc => cases hholds
      | exited => cases hholds

theorem Sound.unwind (h : Sound hook r fs) (hmem : .ocaml ∈ fs) :
    ∃ fs', unwind fs = (.ocaml :: fs', .runOcaml) ∧ Sound hook r (.ocaml :: fs') := by
  induction fs with
  | nil => cases hmem
  | cons f fs ih =>
      by_cases hf : f = .ocaml
      · subst hf
        exact ⟨fs, by simp [RuntimeLock.unwind], h⟩
      · have hmem : .ocaml ∈ fs := (List.mem_cons.mp hmem).resolve_left fun heq => hf heq.symm
        obtain ⟨fs', hunwind, hsound⟩ := ih h.2.2 hmem
        refine ⟨fs', ?_, hsound⟩
        rw [RuntimeLock.unwind, List.dropWhile_cons_of_pos (by simpa using hf)]
        exact hunwind

/-- A thread that unwinds has the lock before and after. -/
theorem Sound.unwind_lawful {e : Effect} (h : Sound hook r fs) (hmem : .ocaml ∈ fs)
    (heq : RuntimeLock.unwind fs = (fs', e)) :
    Sound hook r fs' ∧ e.Lawful true r (holds fs') r := by
  obtain ⟨fs'', hunwind, hsound⟩ := h.unwind hmem
  obtain ⟨rfl, rfl⟩ := Prod.mk.inj (hunwind.symm.trans heq)
  have hr : r = true := h.registered hmem rfl
  exact ⟨hsound, rfl, rfl, hr, hr⟩

/-- The thread stays sound, and the effect does to it what it may do. -/
def Stays (hook r : Bool) (fs fs' : List Frame) (e : Effect) : Prop :=
  ∃ r', Sound hook r' fs' ∧ e.Lawful (holds fs) r (holds fs') r'

theorem Sound.step_ocaml {a : Action} {e : Effect} (h : Sound hook r (.ocaml :: fs))
    (hsuits : Suits hook r (.ocaml :: fs) a)
    (hstep : threadStep hook r a (.ocaml :: fs) = some (fs', e)) :
    Stays hook r (.ocaml :: fs) fs' e := by
  cases a with
  | foreignCall lock =>
      cases hstep
      exact ⟨r, ⟨⟨fs, rfl⟩, fun _ => h.2.1 rfl, h⟩, rfl, rfl⟩
  | enterBlocking =>
      cases hstep
      exact ⟨r, ⟨⟨fs, rfl⟩, fun _ => h.2.1 rfl, h⟩, rfl, rfl, rfl⟩
  | return_ =>
      obtain rfl | ⟨c, fs, rfl⟩ := h.1
      · cases hstep
      · cases hstep
        exact ⟨r, h.2.2, rfl, rfl⟩
  | raise_ => exact ⟨r, h.2.2.unwind_lawful hsuits (Option.some.inj hstep)⟩
  | finish =>
      obtain rfl | ⟨c, fs, rfl⟩ := h.1
      · cases hstep
        exact ⟨false, ⟨rfl, Bool.noConfusion, trivial⟩, rfl, rfl, rfl⟩
      · cases hstep
  | _ => cases hstep

theorem Sound.step_blocking {a : Action} {e : Effect} (h : Sound hook r (.blocking :: fs))
    (hstep : threadStep hook r a (.blocking :: fs) = some (fs', e)) :
    Stays hook r (.blocking :: fs) fs' e := by
  cases a with
  | leaveBlocking =>
      cases hstep
      obtain ⟨⟨fs', rfl⟩, hr, hsound⟩ := h
      exact ⟨r, hsound, rfl, rfl, hr rfl, hr rfl⟩
  | _ => cases hstep

/-- The steps of `ctypes_call`. -/
theorem Sound.step_call {a : Action} {e : Effect} {lock : Bool} {pc : CallPc}
    (h : Sound hook r (.call lock pc :: fs)) (hsuits : Suits hook r (.call lock pc :: fs) a)
    (hstep : threadStep hook r a (.call lock pc :: fs) = some (fs', e)) :
    Stays hook r (.call lock pc :: fs) fs' e := by
  cases a with
  | advance =>
      cases pc with
      | release =>
          cases hstep
          refine ⟨r, ⟨h.1, h.2.1, h.2.2⟩, ?_⟩
          cases lock
          · exact ⟨rfl, rfl⟩
          · exact ⟨rfl, rfl, rfl⟩
      | ffiCall =>
          cases hstep
          exact ⟨r, ⟨.inr (.inr ⟨lock, fs, rfl⟩), Bool.noConfusion, h.1, h.2.1, h.2.2⟩, rfl, rfl⟩
      | acquire =>
          cases hstep
          refine ⟨r, ⟨h.1, h.2.1, h.2.2⟩, ?_⟩
          cases lock
          · exact ⟨rfl, rfl⟩
          · exact ⟨rfl, rfl, h.2.1 rfl, h.2.1 rfl⟩
      | read =>
          cases hstep
          obtain ⟨⟨fs', rfl⟩, hr, hsound⟩ := h
          exact ⟨r, hsound, rfl, rfl, hr rfl, hr rfl⟩
  | raise_ =>
      cases pc with
      | release => exact ⟨r, h.2.2.unwind_lawful hsuits (Option.some.inj hstep)⟩
      | read => exact ⟨r, h.2.2.unwind_lawful hsuits (Option.some.inj hstep)⟩
      | ffiCall => cases hstep
      | acquire => cases hstep
  | _ => cases hstep

theorem Sound.step_cfunction {a : Action} {e : Effect} (h : Sound hook r (.cfunction :: fs))
    (hsuits : Suits hook r (.cfunction :: fs) a)
    (hstep : threadStep hook r a (.cfunction :: fs) = some (fs', e)) :
    Stays hook r (.cfunction :: fs) fs' e := by
  cases a with
  | callback c =>
      cases hstep
      obtain ⟨hlock, hregister, hhook⟩ := hsuits
      refine ⟨r, ⟨⟨⟨fs, rfl⟩, hlock, hhook⟩, fun hc => ?_, h⟩, rfl, rfl⟩
      refine hregister.resolve_right fun hregistration => ?_
      rw [Frame.registered, hregistration] at hc
      cases hc
  | return_ =>
      cases fs with
      | nil =>
          cases hstep
          exact ⟨r, ⟨rfl, Bool.noConfusion, trivial⟩, rfl, rfl⟩
      | cons f fs =>
          cases hstep
          exact ⟨r, h.2.2, rfl, rfl⟩
  | _ => cases hstep

/-- `ctypes_thread_register`. -/
theorem Sound.step_register {e : Effect} {c : Context}
    (h : Sound hook r (.handler c .register :: fs))
    (hstep : threadStep hook r .advance (.handler c .register :: fs) = some (fs', e)) :
    Stays hook r (.handler c .register :: fs) fs' e := by
  obtain ⟨hover, hr, hsound⟩ := h
  obtain ⟨⟨fs₁, rfl⟩, hlock, hraise⟩ := hover
  rw [RuntimeLock.threadStep] at hstep
  by_cases hregistration : c.threadRegistration = true
  · rw [if_pos hregistration] at hstep
    have hmem : holds (.cfunction :: fs₁) = true → .ocaml ∈ .cfunction :: fs₁ := fun hholds =>
      hsound.ocaml_mem hholds fun c pc fs' h => by cases h
    by_cases hhook : hook = true
    · rw [if_pos hhook] at hstep
      by_cases hregistered : r = true
      · rw [if_pos hregistered] at hstep
        cases hstep
        exact ⟨r, ⟨⟨⟨fs₁, rfl⟩, hlock, hraise⟩, fun _ => hregistered, hsound⟩, rfl, rfl⟩
      · rw [if_neg hregistered] at hstep
        cases hstep
        -- with the lock it would be registered
        have hnot : holds (.cfunction :: fs₁) = false := Bool.eq_false_iff.mpr fun hholds =>
          hregistered (hsound.registered (hmem hholds) rfl)
        exact ⟨true, ⟨⟨⟨fs₁, rfl⟩, hlock, hraise⟩, fun _ => rfl, hsound.mono fun _ => rfl⟩,
          hnot, hnot, rfl⟩
    · rw [if_neg hhook] at hstep
      have hholds := (hraise hregistration).resolve_left hhook
      have hunwind := hsound.unwind_lawful (hmem hholds) (Option.some.inj hstep)
      rw [← hholds] at hunwind
      exact ⟨r, hunwind⟩
  · rw [if_neg hregistration] at hstep
    cases hstep
    exact ⟨r, ⟨⟨⟨fs₁, rfl⟩, hlock, hraise⟩, fun _ => hr (by
      simpa [Frame.registered] using hregistration), hsound⟩, rfl, rfl⟩

/-- A handler takes the lock if the C code below does not have it, and gives it
back then. -/
theorem Sound.lock_lawful {c : Context} {pc : HandlerPc} (h : Sound hook r (.handler c pc :: fs))
    (hr : r = true) :
    Effect.Lawful (if c.runtimeLock then .acquire else .silent) (holds fs) r true r ∧
      Effect.Lawful (if c.runtimeLock then .release else .silent) true r (holds fs) r := by
  have hlock : c.runtimeLock = !holds fs := h.1.2.1
  cases hholds : holds fs with
  | false =>
      rw [hholds, Bool.not_false] at hlock
      rw [if_pos hlock, if_pos hlock]
      exact ⟨⟨rfl, rfl, hr, hr⟩, rfl, rfl, rfl⟩
  | true =>
      rw [hholds, Bool.not_true] at hlock
      rw [hlock, if_neg Bool.false_ne_true, if_neg Bool.false_ne_true]
      exact ⟨⟨rfl, rfl⟩, rfl, rfl⟩

/-- The steps of `callback_handler`. -/
theorem Sound.step_handler {a : Action} {e : Effect} {c : Context} {pc : HandlerPc}
    (h : Sound hook r (.handler c pc :: fs))
    (hstep : threadStep hook r a (.handler c pc :: fs) = some (fs', e)) :
    Stays hook r (.handler c pc :: fs) fs' e := by
  cases a with
  | advance =>
      cases pc with
      | register => exact h.step_register hstep
      | createKey | setKey =>
          cases hstep
          exact ⟨r, ⟨h.1, h.2.1, h.2.2⟩, rfl, rfl⟩
      | acquire =>
          cases hstep
          exact ⟨r, ⟨h.1, h.2.1, h.2.2⟩, (h.lock_lawful (h.2.1 rfl)).1⟩
      | call =>
          cases hstep
          exact ⟨r, ⟨.inr ⟨c, fs, rfl⟩, fun _ => h.2.1 rfl, h.1, h.2.1, h.2.2⟩,
            rfl, rfl, h.2.1 rfl, h.2.1 rfl⟩
      | release =>
          cases hstep
          exact ⟨r, h.2.2, (h.lock_lawful (h.2.1 rfl)).2⟩
  | _ => cases hstep

theorem Sound.step_exiting {a : Action} {e : Effect} (h : Sound hook r (.exiting :: fs))
    (hstep : threadStep hook r a (.exiting :: fs) = some (fs', e)) :
    Stays hook r (.exiting :: fs) fs' e := by
  obtain rfl : fs = [] := h.1
  cases a with
  | startC =>
      cases hstep
      exact ⟨r, ⟨.inr (.inl rfl), Bool.noConfusion, h⟩, rfl, rfl⟩
  | destructor key =>
      cases hstep
      exact ⟨r, ⟨rfl, Bool.noConfusion, h⟩, rfl, rfl⟩
  | exited =>
      cases hstep
      exact ⟨r, ⟨rfl, Bool.noConfusion, trivial⟩, rfl, rfl⟩
  | _ => cases hstep

/-- The steps of `ctypes_thread_unregister`. -/
theorem Sound.step_unregister {a : Action} {e : Effect} {pc : UnregisterPc}
    (h : Sound hook r (.unregister pc :: fs))
    (hstep : threadStep hook r a (.unregister pc :: fs) = some (fs', e)) :
    Stays hook r (.unregister pc :: fs) fs' e := by
  obtain ⟨rfl, -, hsound⟩ := h
  cases a with
  | advance =>
      cases pc with
      | unregister =>
          cases hstep
          exact ⟨false, ⟨rfl, Bool.noConfusion, rfl, Bool.noConfusion, trivial⟩, rfl, rfl, rfl⟩
      | setNull =>
          cases hstep
          exact ⟨r, hsound, rfl, rfl⟩
  | _ => cases hstep

/-- What one step of a thread makes of it. -/
theorem Sound.threadStep {a : Action} {e : Effect} (h : Sound hook r fs)
    (hsuits : Suits hook r fs a) (hstep : threadStep hook r a fs = some (fs', e)) :
    ∃ r', Sound hook r' fs' ∧ e.Lawful (holds fs) r (holds fs') r' := by
  cases fs with
  | nil =>
      cases a with
      | startOcaml =>
          cases hstep
          exact ⟨true, ⟨⟨[], rfl⟩, fun _ => rfl, .inl rfl, fun _ => rfl, trivial⟩, rfl, rfl, rfl⟩
      | startC =>
          cases hstep
          exact ⟨r, ⟨.inl rfl, Bool.noConfusion, trivial⟩, rfl, rfl⟩
      | _ => cases hstep
  | cons f fs =>
      cases f with
      | ocaml => exact h.step_ocaml hsuits hstep
      | blocking => exact h.step_blocking hstep
      | call lock pc => exact h.step_call hsuits hstep
      | cfunction => exact h.step_cfunction hsuits hstep
      | handler c pc => exact h.step_handler hstep
      | exiting => exact h.step_exiting hstep
      | unregister pc => exact h.step_unregister hstep
      | exited => cases a <;> cases hstep

end Thread

/-! ### All threads -/

variable {Tid : Type} [DecidableEq Tid]

/-- What is asked of a step: C code calls back with the right flags, and an
exception finds OCaml code to go to. -/
def Suitable (hook : Bool) (a : Action × Tid) (s : State Tid) : Prop :=
  match a.1 with
  | .callback c => Calls hook (s.registered a.2) (decide (s.lock = some a.2)) c
  | .raise_ => .ocaml ∈ (s.stackOf a.2).tail
  | _ => True

instance (hook : Bool) (a : Action × Tid) (s : State Tid) : Decidable (Suitable hook a s) := by
  unfold Suitable Calls
  split <;> infer_instance

structure State.Sound (hook : Bool) (s : State Tid) : Prop where
  no_fault : s.fault = false
  threads : ∀ t, RuntimeLock.Sound hook (s.registered t) (s.stackOf t)
  lock_iff : ∀ t, s.lock = some t ↔ holds (s.stackOf t) = true

section Steps

variable {hook : Bool} {keysMax : Nat} {s s' : State Tid} {t : Tid}

/-- Other threads keep what they have, and a thread that is not granted the lock
leaves it as it is. -/
structure Kept (t : Tid) (s s' : State Tid) (registered' held' : Bool) : Prop where
  stacks_eq : s'.stackOf = s.stackOf
  no_fault : s'.fault = false
  registered_eq : s'.registered = Function.update s.registered t registered'
  lock_iff : s'.lock = some t ↔ held' = true
  others : ∀ u ≠ t, s'.lock = some u ↔ s.lock = some u

/-- The effects that concern neither the lock nor the registration. -/
def Effect.Aside : Effect → Prop
  | .silent | .createKey | .setKey | .destructor _ | .setNull | .exited => True
  | _ => False

theorem Effect.Lawful.aside {e : Effect} {held registered held' registered' : Bool}
    (h : e.Lawful held registered held' registered') (he : e.Aside) :
    held' = held ∧ registered' = registered := by
  cases e <;> first | exact h | exact he.elim

theorem State.apply_aside {e : Effect} (h : s.apply keysMax t e = some s') (he : e.Aside) :
    s'.stackOf = s.stackOf ∧ s'.fault = s.fault ∧ s'.registered = s.registered ∧
      s'.lock = s.lock := by
  cases e <;> grind [State.apply, Effect.Aside]

omit [DecidableEq Tid] in
theorem State.lock_other {u : Tid} (hu : u ≠ t) :
    some t = some u ↔ (none : Option Tid) = some u :=
  ⟨fun h => absurd (Option.some.inj h).symm hu, fun h => by cases h⟩

theorem State.kept_acquire (hfault : s.fault = false) (hr : s.registered t = true)
    (h : s.apply keysMax t .acquire = some s') : Kept t s s' true true := by
  obtain ⟨hnone, h⟩ := Option.ite_none_right_eq_some.mp h
  cases h
  refine ⟨rfl, by simp [hfault, hr], by simp [← hr], by simp, fun u hu => ?_⟩
  rw [hnone]
  exact State.lock_other hu

theorem State.kept_release (hfault : s.fault = false) (hlock : s.lock = some t)
    (h : s.apply keysMax t .release = some s') : Kept t s s' (s.registered t) false := by
  cases h
  refine ⟨rfl, by simp [hfault, hlock], by simp, by simp, fun u hu => ?_⟩
  rw [hlock]
  exact (State.lock_other hu).symm

theorem State.kept_unregister (hfault : s.fault = false) (hnot : s.lock = some t ↔ false = true)
    (h : s.apply keysMax t .unregister = some s') : Kept t s s' false false := by
  rw [State.apply] at h
  split at h
  · obtain ⟨hnone, h⟩ := Option.ite_none_right_eq_some.mp h
    cases h
    exact ⟨rfl, hfault, rfl, hnot, fun u _ => Iff.rfl⟩
  · rename_i hr
    cases h
    have hr : s.registered t = false := by simpa using hr
    exact ⟨rfl, hfault, by rw [← hr, Function.update_eq_self], hnot, fun u _ => Iff.rfl⟩

theorem State.kept_finishThread (hfault : s.fault = false) (hlock : s.lock = some t)
    (h : s.apply keysMax t .finishThread = some s') : Kept t s s' false false := by
  cases h
  refine ⟨rfl, by simp [hfault, hlock], rfl, by simp, fun u hu => ?_⟩
  rw [hlock]
  exact (State.lock_other hu).symm

theorem State.apply_kept {e : Effect} {held held' r' : Bool} (hfault : s.fault = false)
    (hheld : s.lock = some t ↔ held = true) (he : e.Lawful held (s.registered t) held' r')
    (h : s.apply keysMax t e = some s') : Kept t s s' r' held' := by
  by_cases haside : e.Aside
  · obtain ⟨rfl, rfl⟩ := he.aside haside
    obtain ⟨hstacks, hf, hreg, hlock⟩ := State.apply_aside h haside
    exact ⟨hstacks, hf.trans hfault, by rw [hreg, Function.update_eq_self],
      by rw [hlock, hheld], fun u _ => by rw [hlock]⟩
  · cases e with
    | acquire =>
        obtain ⟨rfl, rfl, hr, rfl⟩ := he
        exact State.kept_acquire hfault hr h
    | release =>
        obtain ⟨rfl, rfl, rfl⟩ := he
        exact State.kept_release hfault (hheld.mpr rfl) h
    | runOcaml =>
        obtain ⟨rfl, rfl, hr, rfl⟩ := he
        have hlock := hheld.mpr rfl
        cases h
        exact ⟨rfl, by simp [hfault, hlock, hr], by simp [← hr], by simp [hlock],
          fun u _ => Iff.rfl⟩
    | register =>
        obtain ⟨rfl, rfl, rfl⟩ := he
        obtain ⟨hnone, h⟩ := Option.ite_none_right_eq_some.mp h
        cases h
        exact ⟨rfl, hfault, rfl, hheld, fun u _ => Iff.rfl⟩
    | unregister =>
        obtain ⟨rfl, rfl, rfl⟩ := he
        exact State.kept_unregister hfault hheld h
    | startThread =>
        obtain ⟨rfl, rfl, rfl⟩ := he
        cases h
        exact ⟨rfl, hfault, rfl, hheld, fun u _ => Iff.rfl⟩
    | finishThread =>
        obtain ⟨rfl, rfl, rfl⟩ := he
        exact State.kept_finishThread hfault (hheld.mpr rfl) h
    | crash => exact he.elim
    | _ => exact absurd trivial haside

/-- The statement of a thread and its effect, taken from a step. -/
theorem step_eq_some {a : Action} (h : step hook keysMax (a, t) s = some s') :
    ∃ fs e s₁, threadStep hook (s.registered t) a (s.stackOf t) = some (fs, e) ∧
      s.apply keysMax t e = some s₁ ∧
      s' = { s₁ with stackOf := ThreadStacks.set s₁.stackOf t fs } := by
  obtain ⟨⟨fs, e⟩, hthread, h⟩ := Option.bind_eq_some_iff.mp h
  obtain ⟨s₁, happly, h⟩ := Option.bind_eq_some_iff.mp h
  cases h
  exact ⟨fs, e, s₁, hthread, happly, rfl⟩

theorem State.Sound.suits {a : Action} (h : s.Sound hook) (ha : Suitable hook (a, t) s) :
    Suits hook (s.registered t) (s.stackOf t) a := by
  have hlock : decide (s.lock = some t) = holds (s.stackOf t) := by
    rw [Bool.eq_iff_iff, decide_eq_true_iff]
    exact h.lock_iff t
  cases a with
  | callback c =>
      rw [Suitable, hlock] at ha
      exact ha
  | raise_ => exact ha
  | _ => trivial

/-- Every step that suits keeps the threads sound. -/
theorem State.Sound.step {a : Action} (h : s.Sound hook) (ha : Suitable hook (a, t) s)
    (hstep : step hook keysMax (a, t) s = some s') : s'.Sound hook := by
  obtain ⟨fs, e, s₁, hthread, happly, rfl⟩ := step_eq_some hstep
  obtain ⟨r', hsound, he⟩ := (h.threads t).threadStep (h.suits ha) hthread
  have hkept := apply_kept h.no_fault (h.lock_iff t) he happly
  refine ⟨hkept.no_fault, fun u => ?_, fun u => ?_⟩
  · show RuntimeLock.Sound hook (s₁.registered u) (ThreadStacks.set s₁.stackOf t fs u)
    rw [hkept.registered_eq, hkept.stacks_eq]
    by_cases hu : u = t
    · subst hu
      rw [Function.update_self, set_self]
      exact hsound
    · rw [Function.update_of_ne hu, set_of_ne hu]
      exact h.threads u
  · show s₁.lock = some u ↔ holds (ThreadStacks.set s₁.stackOf t fs u) = true
    rw [hkept.stacks_eq]
    by_cases hu : u = t
    · subst hu
      rw [set_self]
      exact hkept.lock_iff
    · rw [set_of_ne hu, hkept.others u hu]
      exact h.lock_iff u

theorem State.Sound.initial (t : Tid) : (State.initial t).Sound hook := by
  refine ⟨rfl, fun u => ?_, fun u => ?_⟩
  · show RuntimeLock.Sound hook (Function.update (fun _ => false) t true u)
      (ThreadStacks.set (fun _ => []) t [.ocaml] u)
    by_cases hu : u = t
    · subst hu
      rw [Function.update_self, set_self]
      exact ⟨.inl rfl, fun _ => rfl, trivial⟩
    · rw [set_of_ne hu]
      trivial
  · show some t = some u ↔ holds (ThreadStacks.set (fun _ => []) t [.ocaml] u) = true
    by_cases hu : u = t
    · subst hu
      rw [set_self]
      exact iff_of_true rfl rfl
    · rw [set_of_ne hu]
      exact iff_of_false (fun h => hu (Option.some.inj h).symm) Bool.false_ne_true

theorem State.Sound.reach {t₀ : Tid}
    (h : Reach (RuntimeLock.step hook keysMax) (Suitable hook) (State.initial t₀) s) :
    s.Sound hook := by
  refine h.invariant (State.Sound.initial t₀) ?_
  rintro ⟨a, u⟩ s s' hs ha hstep
  exact hs.step ha hstep

end Steps

/-- What the runtime relies on. -/
structure Safe (s : State Tid) : Prop where
  no_fault : s.fault = false
  /-- OCaml code runs with the lock, on a thread that is registered. -/
  ocaml : ∀ t fs, s.stackOf t = .ocaml :: fs → s.lock = some t ∧ s.registered t = true
  /-- OCaml code runs on one thread at a time. -/
  exclusive : ∀ t u fs gs, s.stackOf t = .ocaml :: fs → s.stackOf u = .ocaml :: gs → t = u
  /-- A call that gives the lock away does not have it while C code runs, and
  any other call still has it. -/
  calls : ∀ t lock fs, s.stackOf t = .cfunction :: .call lock .acquire :: fs →
    (s.lock = some t ↔ lock = false)
  /-- A thread outside OCaml does not keep the lock. -/
  idle : ∀ t, .ocaml ∉ s.stackOf t → (∀ c pc fs, s.stackOf t ≠ .handler c pc :: fs) →
    s.lock ≠ some t

/-- The runtime is used as it has to be in every run in which C code calls back
with the flags that its own call makes necessary, whatever the threads do. -/
theorem runs_safe {hook : Bool} {keysMax : Nat} {t₀ : Tid} {s : State Tid}
    (h : Reach (step hook keysMax) (Suitable hook) (State.initial t₀) s) : Safe s := by
  have hs := State.Sound.reach h
  have hocaml : ∀ t fs, s.stackOf t = .ocaml :: fs → s.lock = some t ∧ s.registered t = true := by
    intro t fs ht
    refine ⟨(hs.lock_iff t).mpr (by rw [ht]; rfl), (hs.threads t).registered (f := .ocaml) ?_ rfl⟩
    rw [ht]
    exact List.mem_cons_self
  refine ⟨hs.no_fault, hocaml, fun t u fs gs ht hu => ?_, fun t lock fs ht => ?_,
    fun t ht htop hlock => ?_⟩
  · exact Option.some.inj ((hocaml t fs ht).1.symm.trans (hocaml u gs hu).1)
  · rw [hs.lock_iff t, ht]
    cases lock
    · exact iff_of_true rfl rfl
    · exact iff_of_false Bool.false_ne_true Bool.noConfusion
  · exact ht ((hs.threads t).ocaml_mem ((hs.lock_iff t).mp hlock) htop)

/-- The steps of a thread that is started by C code and calls an OCaml function. -/
def calledBack (c : Context) : List Action :=
  [.startC, .callback c] ++ List.replicate 5 .advance

/-- While the first thread waits in a call, the second one is registered and
runs OCaml code. -/
def sampleRun : List (Action × Nat) :=
  [(.foreignCall true, 0), (.advance, 0), (.advance, 0)] ++
    (calledBack ⟨true, true⟩).map fun a => (a, 1)

theorem sampleRun_safe :
    ∃ s, Reach (step true 1) (Suitable true) (State.initial 0) s ∧ Safe s ∧ s.lock = some 1 ∧
      s.stackOf 0 = [.cfunction, .call true .acquire, .ocaml] ∧
      s.stackOf 1 = [.ocaml, .handler ⟨true, true⟩ .release, .cfunction] := by
  have h : Reach (step true 1) (Suitable true) (State.initial 0) _ :=
    reach_of_checked sampleRun .init rfl
  exact ⟨_, h, runs_safe h, rfl, rfl, rfl⟩

end CtypesCbuf.CtypesForeign.RuntimeLock
