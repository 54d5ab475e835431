import CtypesCbuf.CtypesForeign.RuntimeLockCallbacks

/-!
Threads that callbacks register with the OCaml runtime. All of them share one
variable for the key whose destructor unregisters a thread, and a registration
replaces the key in it. Each thread is unregistered nevertheless when it exits,
also after the keys have run out.
-/

namespace CtypesCbuf.CtypesForeign.RuntimeLock

open ThreadStacks

variable {Tid : Type} [DecidableEq Tid]

def StartedByOcaml (fs : List Frame) : Prop := fs.getLast? = some .ocaml

/-- The thread is between its registration and the value of its key, or between
that value and its end. -/
def Pending (fs : List Frame) : Prop :=
  ∃ fs', (∃ c, fs = .handler c .createKey :: fs' ∨ fs = .handler c .setKey :: fs') ∨
    fs = .unregister .unregister :: fs'

/-- What is known of the keys of a thread. -/
structure Keyed (created registered : Bool) (keys : List Nat) (fs : List Frame) : Prop where
  kept : registered = true → StartedByOcaml fs ∨ Pending fs ∨ keys ≠ []
  ocaml : StartedByOcaml fs → keys = [] ∧ ¬ Pending fs
  unborn : fs = [] → registered = false ∧ keys = []
  exited : fs = [.exited] → keys = []
  unregistered : ∀ fs', fs = .unregister .setNull :: fs' → registered = false
  created : ∀ c fs', fs = .handler c .setKey :: fs' → created = true

/-- The statements that have nothing to do with keys. -/
def Effect.Plain : Effect → Prop
  | .silent | .acquire | .release | .runOcaml => True
  | _ => False

/-- A stack of which only its origin is known. -/
def ordinary : List Frame → Bool
  | [] => false
  | .exited :: _ => false
  | .unregister _ :: _ => false
  | .handler _ .createKey :: _ => false
  | .handler _ .setKey :: _ => false
  | _ => true

theorem not_pending_of_ordinary {fs : List Frame} (h : ordinary fs = true) : ¬ Pending fs := by
  rintro ⟨fs', ⟨c, rfl | rfl⟩ | rfl⟩ <;> cases h

theorem Keyed.of_ordinary {created r : Bool} {keys : List Nat} {fs : List Frame}
    (h : ordinary fs = true) (hkept : r = true → StartedByOcaml fs ∨ keys ≠ [])
    (hocaml : StartedByOcaml fs → keys = []) : Keyed created r keys fs := by
  refine ⟨fun hr => ?_, fun hs => ⟨hocaml hs, not_pending_of_ordinary h⟩, ?_, ?_, ?_, ?_⟩
  · exact (hkept hr).imp_right .inr
  · rintro rfl
    cases h
  · rintro rfl
    cases h
  · rintro fs' rfl
    cases h
  · rintro c fs' rfl
    cases h

theorem startedByOcaml_cons {f : Frame} {fs : List Frame} (hf : f ≠ .ocaml) :
    StartedByOcaml (f :: fs) ↔ StartedByOcaml fs := by
  cases fs with
  | nil => simp [StartedByOcaml, hf]
  | cons g fs => rw [StartedByOcaml, StartedByOcaml, List.getLast?_cons_cons]

theorem startedByOcaml_ocaml (f : Frame) (fs : List Frame) :
    StartedByOcaml (.ocaml :: f :: fs) ↔ StartedByOcaml (f :: fs) := by
  rw [StartedByOcaml, StartedByOcaml, List.getLast?_cons_cons]

theorem unwind_startedByOcaml (fs : List Frame) :
    StartedByOcaml (unwind fs).1 ↔ StartedByOcaml fs := by
  induction fs with
  | nil => rfl
  | cons f fs ih =>
      by_cases hf : f = .ocaml
      · subst hf
        simp [unwind]
      · rw [startedByOcaml_cons hf, ← ih, unwind, unwind,
          List.dropWhile_cons_of_pos (by simpa using hf)]

/-- A thread does not change its origin. -/
theorem threadStep_startedByOcaml {hook r : Bool} {a : Action} {fs fs' : List Frame}
    {e : Effect} (hsound : Sound hook r fs) (hsuits : Suits hook r fs a)
    (h : threadStep hook r a fs = some (fs', e)) (hstart : e ≠ .startThread)
    (hfinish : e ≠ .finishThread) : StartedByOcaml fs' ↔ StartedByOcaml fs := by
  have hraise : ∀ {f : Frame} {fs : List Frame}, .ocaml ∈ fs → unwind fs = (fs', e) →
      (StartedByOcaml fs' ↔ StartedByOcaml (f :: fs)) := by
    intro f fs hmem hunwind
    have hbottom := unwind_startedByOcaml fs
    rw [hunwind] at hbottom
    rw [hbottom]
    cases fs with
    | nil => cases hmem
    | cons g fs => rw [StartedByOcaml, StartedByOcaml, List.getLast?_cons_cons]
  have hcons := @startedByOcaml_cons
  have hocaml := startedByOcaml_ocaml
  fun_cases threadStep hook r a fs
  case case6 fs => exact hraise hsuits (Option.some.inj h)
  case case12 lock fs => exact hraise hsuits (Option.some.inj h)
  case case13 lock fs => exact hraise hsuits (Option.some.inj h)
  case case21 c fs hregistration hhook =>
      obtain ⟨⟨⟨fs', rfl⟩, -, hholds⟩, -, hsound⟩ := hsound
      rw [threadStep, if_pos hregistration, if_neg hhook] at h
      exact hraise (hsound.ocaml_mem ((hholds hregistration).resolve_left hhook)
        fun c pc fs' h => by cases h) (Option.some.inj h)
  all_goals grind [threadStep, Sound, Frame.Over]

/-! ### One statement -/

section Thread

variable {hook r : Bool} {a : Action} {fs fs' : List Frame} {e : Effect}

theorem threadStep_plain (hsound : Sound hook r fs) (hsuits : Suits hook r fs a)
    (h : threadStep hook r a fs = some (fs', e)) (hplain : e.Plain) :
    ordinary fs' = true ∧ ¬ Pending fs := by
  have hraise : ∀ {fs : List Frame}, Sound hook r fs → .ocaml ∈ fs → unwind fs = (fs', e) →
      ordinary fs' = true := by
    intro fs hsound hmem hunwind
    obtain ⟨g, hg, -⟩ := hsound.unwind hmem
    obtain ⟨rfl, -⟩ := Prod.mk.inj (hg.symm.trans hunwind)
    rfl
  fun_cases threadStep hook r a fs
  case case6 fs =>
      refine ⟨hraise hsound.2.2 hsuits (Option.some.inj h), not_pending_of_ordinary rfl⟩
  case case12 lock fs =>
      exact ⟨hraise hsound.2.2 hsuits (Option.some.inj h), not_pending_of_ordinary rfl⟩
  case case13 lock fs =>
      exact ⟨hraise hsound.2.2 hsuits (Option.some.inj h), not_pending_of_ordinary rfl⟩
  case case21 c fs hregistration hhook =>
      obtain ⟨⟨⟨fs', rfl⟩, -, hholds⟩, -, hsound⟩ := hsound
      rw [threadStep, if_pos hregistration, if_neg hhook] at h
      have hmem := hsound.ocaml_mem ((hholds hregistration).resolve_left hhook)
        fun c pc fs' h => by cases h
      exact ⟨hraise hsound hmem (Option.some.inj h), not_pending_of_ordinary rfl⟩
  all_goals grind [threadStep, Sound, Frame.Over, ordinary, Effect.Plain, Pending]

/-- The statements that have to do with keys, and the frames before and after. -/
inductive Special (registered : Bool) : Effect → List Frame → List Frame → Prop
  | register (c : Context) (fs : List Frame) (h : registered = false) :
      Special registered .register (.handler c .register :: fs) (.handler c .createKey :: fs)
  | createKey (c : Context) (fs : List Frame) :
      Special registered .createKey (.handler c .createKey :: fs) (.handler c .setKey :: fs)
  | setKey (c : Context) (fs : List Frame) :
      Special registered .setKey (.handler c .setKey :: fs) (.handler c .acquire :: fs)
  | destructor (k : Nat) :
      Special registered (.destructor k) [.exiting] [.unregister .unregister, .exiting]
  | unregister (fs : List Frame) :
      Special registered .unregister (.unregister .unregister :: fs)
        (.unregister .setNull :: fs)
  | setNull (fs : List Frame) : Special registered .setNull (.unregister .setNull :: fs) fs
  | startThread : Special registered .startThread [] [.blocking, .ocaml]
  | finishThread : Special registered .finishThread [.ocaml] [.exited]
  | exited : Special registered .exited [.exiting] [.exited]

theorem threadStep_special (h : threadStep hook r a fs = some (fs', e)) (hplain : ¬ e.Plain)
    (hcrash : e ≠ .crash) : Special r e fs fs' := by
  have hraise : ∀ {fs : List Frame}, unwind fs ≠ (fs', e) := by
    intro fs hunwind
    rw [unwind] at hunwind
    split at hunwind
    · exact hcrash (Prod.mk.inj hunwind).2.symm
    · obtain ⟨-, rfl⟩ := Prod.mk.inj hunwind
      exact hplain trivial
  fun_cases threadStep hook r a fs <;> grind [threadStep, Special, Effect.Plain]

end Thread

/-! ### All threads -/

structure State.Keyed (s : State Tid) : Prop where
  created : 0 < s.keys → s.cleanupKey.isSome = true
  threads : ∀ t, RuntimeLock.Keyed s.cleanupKey.isSome (s.registered t) (s.tls t) (s.stackOf t)

theorem Keyed.mono {created created' r : Bool} {keys : List Nat} {fs : List Frame}
    (h : Keyed created r keys fs) (hc : created = true → created' = true) :
    Keyed created' r keys fs :=
  { h with created := fun c fs' hfs => hc (h.created c fs' hfs) }

theorem keyed_unborn (created : Bool) : Keyed created false [] [] := by
  refine ⟨Bool.noConfusion, fun h => ?_, fun _ => ⟨rfl, rfl⟩, fun h => ?_, fun _ h => ?_,
    fun _ _ h => ?_⟩ <;> cases h

theorem keyed_exited (created : Bool) : Keyed created false [] [.exited] := by
  refine ⟨Bool.noConfusion, fun h => ?_, fun h => ?_, fun _ => rfl, fun _ h => ?_,
    fun _ _ h => ?_⟩ <;> cases h

/-- A thread whose next statement is about its key. -/
theorem Keyed.of_pending {created r : Bool} {keys : List Nat} {fs : List Frame}
    (h : Pending fs) (hocaml : ¬ StartedByOcaml fs)
    (hcreated : ∀ c fs', fs = .handler c .setKey :: fs' → created = true) :
    Keyed created r keys fs := by
  refine ⟨fun _ => .inr (.inl h), fun hst => absurd hst hocaml, ?_, ?_, ?_, hcreated⟩
  · rintro rfl
    obtain ⟨fs', ⟨c, h | h⟩ | h⟩ := h <;> cases h
  · rintro rfl
    obtain ⟨fs', ⟨c, h | h⟩ | h⟩ := h <;> cases h
  · rintro fs' rfl
    obtain ⟨fs'', ⟨c, h | h⟩ | h⟩ := h <;> cases h

section Steps

variable {hook : Bool} {keysMax : Nat} {s s' : State Tid} {t u : Tid}

theorem State.Keyed.initial (t₀ : Tid) : (State.initial t₀).Keyed := by
  refine ⟨fun h => absurd h (Nat.lt_irrefl 0), fun t => ?_⟩
  show RuntimeLock.Keyed false (Function.update (fun _ => false) t₀ true t) []
    (ThreadStacks.set (fun _ => []) t₀ [.ocaml] t)
  by_cases ht : t = t₀
  · subst ht
    rw [set_self]
    exact .of_ordinary rfl (fun _ => .inl rfl) fun _ => rfl
  · rw [set_of_ne ht, Function.update_of_ne ht]
    exact keyed_unborn false

/-- A key is created by the first registration at the latest, and the variable
keeps one. -/
theorem apply_created {e : Effect} (hmax : 0 < keysMax)
    (h : 0 < s.keys → s.cleanupKey.isSome = true) (happly : s.apply keysMax t e = some s') :
    (0 < s'.keys → s'.cleanupKey.isSome = true) ∧
      (s.cleanupKey.isSome = true → s'.cleanupKey.isSome = true) ∧
      (e = .createKey → s'.cleanupKey.isSome = true) := by
  cases e <;> grind [State.apply]

theorem apply_plain {e : Effect} (happly : s.apply keysMax t e = some s') (he : e.Plain) :
    s'.registered = s.registered ∧ s'.tls = s.tls := by
  cases e <;> grind [State.apply, Effect.Plain]

/-- A thread of OCaml is never about to set a key. -/
theorem Keyed.foreign {created r : Bool} {keys : List Nat} {f : Frame} {fs : List Frame}
    (h : Keyed created r keys (f :: fs)) (hp : Pending (f :: fs)) (hf : f ≠ .ocaml) :
    ¬ StartedByOcaml fs :=
  fun hst => (h.ocaml ((startedByOcaml_cons hf).mpr hst)).2 hp

section Special

variable {s₁ : State Tid} {c : Context} {g : List Frame}

theorem keyed_register {created r r' : Bool} {keys : List Nat}
    (hsound : Sound hook r (.handler c .register :: g)) (hr : r = false) :
    Keyed created r' keys (.handler c .createKey :: g) := by
  refine .of_pending ⟨g, .inl ⟨c, .inl rfl⟩⟩ (fun hst => ?_) (fun _ _ h => by cases h)
  rw [startedByOcaml_cons (by simp)] at hst
  have hregistered := hsound.2.2.registered (List.mem_of_getLast? hst) rfl
  rw [hr] at hregistered
  cases hregistered

theorem keyed_createKey {created created' r r' : Bool} {keys keys' : List Nat}
    (h : Keyed created r keys (.handler c .createKey :: g)) (hcreated : created' = true) :
    Keyed created' r' keys' (.handler c .setKey :: g) := by
  refine .of_pending ⟨g, .inl ⟨c, .inr rfl⟩⟩ (fun hst => ?_) fun _ _ _ => hcreated
  rw [startedByOcaml_cons (by simp)] at hst
  exact h.foreign ⟨g, .inl ⟨c, .inl rfl⟩⟩ (by simp) hst

theorem keyed_setKey
    (h : Keyed s.cleanupKey.isSome (s.registered t) (s.tls t) (.handler c .setKey :: g))
    (happly : s.apply keysMax t .setKey = some s₁) :
    Keyed s₁.cleanupKey.isSome (s₁.registered t) (s₁.tls t) (.handler c .acquire :: g) := by
  obtain ⟨k, hkey⟩ := Option.isSome_iff_exists.mp (h.created c g rfl)
  rw [State.apply, hkey] at happly
  cases happly
  refine .of_ordinary rfl (fun _ => .inr ?_) fun hst => ?_
  · show Function.update s.tls t _ t ≠ []
    rw [Function.update_self]
    exact List.ne_nil_of_mem List.mem_insert_self
  · rw [startedByOcaml_cons (by simp)] at hst
    exact absurd hst (h.foreign ⟨g, .inl ⟨c, .inr rfl⟩⟩ (by simp))

theorem keyed_unregister
    (h : Keyed s.cleanupKey.isSome (s.registered t) (s.tls t) (.unregister .unregister :: g))
    (happly : s.apply keysMax t .unregister = some s₁) :
    Keyed s₁.cleanupKey.isSome (s₁.registered t) (s₁.tls t) (.unregister .setNull :: g) := by
  have hr : s₁.registered t = false := by
    rw [State.apply] at happly
    split at happly
    · obtain ⟨-, happly⟩ := Option.ite_none_right_eq_some.mp happly
      cases happly
      exact Function.update_self ..
    · rename_i hr
      cases happly
      exact Bool.eq_false_iff.mpr hr
  refine ⟨fun h => ?_, fun hst => ?_, (fun h => by cases h), (fun h => by cases h),
    fun _ _ => hr, (fun _ _ h => by cases h)⟩
  · rw [hr] at h
    cases h
  · rw [startedByOcaml_cons (by simp)] at hst
    exact absurd hst (h.foreign ⟨g, .inr rfl⟩ (by simp))

theorem keyed_setNull (hsound : Sound hook (s.registered t) (.unregister .setNull :: g))
    (h : Keyed s.cleanupKey.isSome (s.registered t) (s.tls t) (.unregister .setNull :: g))
    (happly : s.apply keysMax t .setNull = some s₁) :
    Keyed s₁.cleanupKey.isSome (s₁.registered t) (s₁.tls t) g := by
  obtain ⟨rfl, -⟩ := hsound
  have hr : s₁.registered t = false := by
    rw [← h.unregistered _ rfl]
    rw [State.apply] at happly
    split at happly <;> cases happly <;> rfl
  refine .of_ordinary rfl (fun h => ?_) fun hst => by cases hst
  rw [hr] at h
  cases h

/-- A thread that no destructor has to unregister any more. -/
theorem keyed_exits
    (h : Keyed s.cleanupKey.isSome (s.registered t) (s.tls t) [.exiting])
    (happly : s.apply keysMax t .exited = some s₁) :
    Keyed s₁.cleanupKey.isSome (s₁.registered t) (s₁.tls t) [.exited] := by
  obtain ⟨hempty, happly⟩ := Option.ite_none_right_eq_some.mp happly
  cases happly
  have hr : s.registered t = false := by
    refine Bool.eq_false_iff.mpr fun hr => ?_
    rcases h.kept hr with hst | ⟨g, ⟨c, hp | hp⟩ | hp⟩ | hkeys
    · cases hst
    · cases hp
    · cases hp
    · cases hp
    · exact hkeys hempty
  rw [hempty, hr]
  exact keyed_exited _

end Special

/-- One statement keeps what is known of the keys of its thread. -/
theorem State.Keyed.own {a : Action} (hmax : 0 < keysMax) (h : s.Keyed) (hs : s.Sound hook)
    (ha : Suitable hook (a, t) s) {fs : List Frame} {e : Effect} {s₁ : State Tid}
    (hthread : threadStep hook (s.registered t) a (s.stackOf t) = some (fs, e))
    (happly : s.apply keysMax t e = some s₁) :
    RuntimeLock.Keyed s₁.cleanupKey.isSome (s₁.registered t) (s₁.tls t) fs := by
  have hkeyed := h.threads t
  have hsound := hs.threads t
  obtain ⟨r', -, he⟩ := hsound.threadStep (hs.suits ha) hthread
  have hcrash : e ≠ .crash := by
    rintro rfl
    exact he
  obtain ⟨-, -, hcreate⟩ := apply_created hmax h.created happly
  by_cases hplain : e.Plain
  · obtain ⟨hordinary, hpending⟩ := threadStep_plain hsound (hs.suits ha) hthread hplain
    have hstarted := threadStep_startedByOcaml hsound (hs.suits ha) hthread
      (by rintro rfl; exact hplain) (by rintro rfl; exact hplain)
    obtain ⟨hregistered, htls⟩ := apply_plain happly hplain
    rw [hregistered, htls]
    refine .of_ordinary hordinary (fun hreg => ?_) fun hst => (hkeyed.ocaml (hstarted.mp hst)).1
    rcases hkeyed.kept hreg with hst | hp | hk
    · exact .inl (hstarted.mpr hst)
    · exact absurd hp hpending
    · exact .inr hk
  · have hspecial := threadStep_special hthread hplain hcrash
    clear hthread he
    generalize s.stackOf t = f at *
    cases hspecial with
    | register c g hr => exact keyed_register hsound hr
    | createKey c g => exact keyed_createKey hkeyed (hcreate rfl)
    | setKey c g => exact keyed_setKey hkeyed happly
    | destructor k =>
        exact .of_pending ⟨_, .inr rfl⟩ (fun h => by cases h) fun _ _ h => by cases h
    | unregister g => exact keyed_unregister hkeyed happly
    | setNull g => exact keyed_setNull hsound hkeyed happly
    | startThread =>
        cases happly
        exact .of_ordinary rfl (fun _ => .inl rfl) fun _ => (hkeyed.unborn rfl).2
    | finishThread =>
        cases happly
        show RuntimeLock.Keyed _ (Function.update s.registered t false t) (s.tls t) _
        rw [Function.update_self, (hkeyed.ocaml rfl).1]
        exact keyed_exited _
    | exited => exact keyed_exits hkeyed happly

theorem State.Keyed.step {a : Action} (hmax : 0 < keysMax) (h : s.Keyed) (hs : s.Sound hook)
    (ha : Suitable hook (a, t) s) (hstep : step hook keysMax (a, t) s = some s') : s'.Keyed := by
  obtain ⟨fs, e, s₁, hthread, happly, rfl⟩ := step_eq_some hstep
  obtain ⟨hcreated, hmono, -⟩ := apply_created hmax h.created happly
  refine ⟨hcreated, fun u => ?_⟩
  show RuntimeLock.Keyed s₁.cleanupKey.isSome (s₁.registered u) (s₁.tls u)
    (ThreadStacks.set s₁.stackOf t fs u)
  by_cases hu : u = t
  · subst hu
    rw [set_self]
    exact h.own hmax hs ha hthread happly
  · obtain ⟨⟨-, hregistered, htls, -⟩, hstacks⟩ := apply_untouched happly hu
    rw [set_of_ne hu, hstacks, hregistered, htls]
    exact (h.threads u).mono hmono

theorem State.Keyed.reach {t₀ : Tid} (hmax : 0 < keysMax)
    (h : Reach (RuntimeLock.step hook keysMax) (Suitable hook) (State.initial t₀) s) :
    s.Keyed := by
  have hboth : s.Keyed ∧ s.Sound hook := by
    refine h.invariant (I := fun s => s.Keyed ∧ s.Sound hook)
      ⟨State.Keyed.initial t₀, State.Sound.initial t₀⟩ ?_
    rintro ⟨a, u⟩ s s' ⟨hk, hs⟩ ha hstep
    exact ⟨hk.step hmax hs ha hstep, hs.step ha hstep⟩
  exact hboth.1

/-- Threads that OCaml has started stay registered and get no key. A thread that
a callback has registered has a key, and when the thread has exited it is not
registered any more. The number of keys does not matter. -/
theorem threads_unregistered {t₀ : Tid} (hmax : 0 < keysMax)
    (h : Reach (RuntimeLock.step hook keysMax) (Suitable hook) (State.initial t₀) s) (t : Tid) :
    (StartedByOcaml (s.stackOf t) → s.registered t = true ∧ s.tls t = []) ∧
      (s.registered t = true → ¬ StartedByOcaml (s.stackOf t) → ¬ Pending (s.stackOf t) →
        s.tls t ≠ []) ∧
      (s.stackOf t = [.exited] → s.registered t = false ∧ s.tls t = []) := by
  have hs := State.Sound.reach h
  have hk := (State.Keyed.reach hmax h).threads t
  refine ⟨fun hst => ⟨?_, (hk.ocaml hst).1⟩, fun hr hst hp => ?_, fun hexited => ?_⟩
  · exact (hs.threads t).registered (f := .ocaml) (List.mem_of_getLast? hst) rfl
  · exact ((hk.kept hr).resolve_left hst).resolve_left hp
  · refine ⟨Bool.eq_false_iff.mpr fun hr => ?_, hk.exited hexited⟩
    rcases hk.kept hr with hst | ⟨fs', ⟨c, hp | hp⟩ | hp⟩ | hkeys
    · rw [hexited] at hst
      cases hst
    · cases hexited.symm.trans hp
    · cases hexited.symm.trans hp
    · cases hexited.symm.trans hp
    · exact hkeys (hk.exited hexited)

end Steps

def visit (c : Context) (key : Nat) : List Action :=
  calledBack c ++ [.return_, .advance, .return_, .destructor key, .advance, .advance, .exited]

/-- Two threads visit while the first one is blocked. There is one key. -/
def visitors : List (Action × Nat) :=
  (.enterBlocking, 0) :: ((visit ⟨true, true⟩ 0).map fun a => (a, 1)) ++
    (visit ⟨true, true⟩ 0).map fun a => (a, 2)

theorem visitors_unregistered :
    ∃ s, Reach (step true 1) (Suitable true) (State.initial 0) s ∧ s.stackOf 2 = [.exited] ∧
      s.registered 2 = false := by
  have h : Reach (step true 1) (Suitable true) (State.initial 0) _ :=
    reach_of_checked visitors .init rfl
  exact ⟨_, h, rfl, ((threads_unregistered Nat.one_pos h 2).2.2 rfl).1⟩

end CtypesCbuf.CtypesForeign.RuntimeLock
