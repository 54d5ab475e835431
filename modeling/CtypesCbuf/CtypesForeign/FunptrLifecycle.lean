import Mathlib.Tactic.SplitIfs
import CtypesCbuf.CtypesForeign.Funptrs

/-!
The life of dynamic function pointers. A value has a root of its own until it
is freed, which releases the root, or finalised, which retains it.
-/

namespace CtypesCbuf.CtypesForeign.Funptrs

open Ctypes

variable {E C : Type} {w : World} {t t' : Handle}

/-! ### What the operations do to the world -/

def World.create (w : World) (content : Option Obj) (fn : FatPtr Fn) : World :=
  { w with funptrs := w.funptrs ++ [⟨some w.roots.length, fn⟩]
           roots := w.roots ++ [⟨content, 0⟩] }

/-- The world after the finaliser of a value that has a root. -/
def World.leak (w : World) (t : Handle) (root : Root) : World :=
  { w.setGcRoot t none with retained := root :: w.retained
                            reports := (t, leakMessage) :: w.reports }

theorem createFunptr_eq (content : Option Obj) (fn : FatPtr Fn) (w : World) :
    (createFunptr content fn : FunptrM E Handle) w =
      .ok w.funptrs.length (w.create content fn) := rfl

theorem freeFunptr_eq (t : Handle) (w : World) : (freeFunptr t : FunptrM E Unit) w =
    match (w.funptr t).gcRoot with
    | none => .error previouslyFreed w
    | some root => .ok () ((w.release root).setGcRoot t none) := by
  show (match (w.funptr t).gcRoot with
    | none => throw previouslyFreed
    | some root => do
        releaseRoot root
        setGcRoot t none : FunptrM E Unit) w = _
  cases (w.funptr t).gcRoot <;> rfl

theorem finalise_eq (t : Handle) (w : World) : (finalise t : FunptrM E Unit) w =
    match (w.funptr t).gcRoot with
    | none => .ok () w
    | some root => .ok () (w.leak t root) := by
  rw [finalise]
  show (match (w.funptr t).gcRoot with
    | none => pure ()
    | some root => do
        modify fun w => { w with retained := root :: w.retained }
        setGcRoot t none
        modify fun w => { w with reports := (t, leakMessage) :: w.reports } : FunptrM E Unit) w = _
  cases (w.funptr t).gcRoot <;> rfl

theorem funptrToStaticFunptr_eq (t : Handle) (w : World) :
    (funptrToStaticFunptr t : FunptrM E (FatPtr Fn)) w =
      match (w.funptr t).gcRoot with
      | none => .error previouslyFreed w
      | some _ => .ok (w.funptr t).fn w := by
  show (match (w.funptr t).gcRoot with
    | none => throw previouslyFreed
    | some _ => return (w.funptr t).fn : FunptrM E (FatPtr Fn)) w = _
  cases (w.funptr t).gcRoot <;> rfl

/-- Both ends of `with_fun` free the value; an exception of `free` takes the
place of the body's outcome. -/
theorem withFunEnd_eq (t : Handle) (outcome : Except (Raised E) C) (w : World) :
    withFunEnd t outcome w =
      match (w.funptr t).gcRoot, outcome with
      | none, _ => .error previouslyFreed w
      | some root, .ok res => .ok res ((w.release root).setGcRoot t none)
      | some root, .error exn => .error exn ((w.release root).setGcRoot t none) := by
  have hfree := freeFunptr_eq (E := E) t w
  cases hroot : (w.funptr t).gcRoot with
  | none =>
      rw [hroot] at hfree
      cases outcome with
      | ok res =>
          show (freeFunptr t >>= fun _ => pure res : FunptrM E C) w = _
          simp only [bind, EStateM.bind, hfree]
      | error exn =>
          show (freeFunptr t >>= fun _ => throw exn : FunptrM E C) w = _
          simp only [bind, EStateM.bind, hfree]
  | some root =>
      rw [hroot] at hfree
      cases outcome with
      | ok res =>
          show (freeFunptr t >>= fun _ => pure res : FunptrM E C) w = _
          simp only [bind, EStateM.bind, hfree]
          rfl
      | error exn =>
          show (freeFunptr t >>= fun _ => throw exn : FunptrM E C) w = _
          simp only [bind, EStateM.bind, hfree]
          rfl

/-- `with_fun` makes the value, calls the body and comes to its end. -/
theorem withFun_eq (makeFunptr : Obj → Except (Raised E) (FatPtr Fn)) (f : Obj)
    (doIt : Handle → FunptrM E C) (w : World) : withFun makeFunptr f doIt w =
      match funptrOfFun makeFunptr f w with
      | .error e w' => .error e w'
      | .ok t w' =>
          match doIt t w' with
          | .ok res w'' => withFunEnd t (.ok res) w''
          | .error exn w'' => withFunEnd t (.error exn) w'' := by
  simp only [withFun, bind, EStateM.bind]
  cases funptrOfFun makeFunptr f w with
  | error e w' => rfl
  | ok t w' =>
      dsimp only
      cases doIt t w' <;> rfl

/-! ### What is in the world afterwards -/

@[simp] theorem releases_setGcRoot (root : Option Root) (r : Root) :
    (w.setGcRoot t root).releases r = w.releases r := rfl

@[simp] theorem funptr_release (r : Root) : (w.release r).funptr t = w.funptr t := rfl

theorem gcRoot_setGcRoot (root : Option Root) :
    ((w.setGcRoot t root).funptr t').gcRoot =
      if t = t' ∧ t < w.funptrs.length then root else (w.funptr t').gcRoot := by
  rw [World.funptr, World.setGcRoot, List.getD_eq_getElem?_getD, List.getElem?_modify]
  by_cases ht : t = t'
  · subst ht
    by_cases hlt : t < w.funptrs.length
    · simp [hlt]
    · simp [World.funptr, hlt]
  · simp [World.funptr, ht]

theorem releases_release (r r' : Root) : (w.release r).releases r' =
    if r = r' ∧ r < w.roots.length then w.releases r' + 1 else w.releases r' := by
  rw [World.releases, World.release, List.getD_eq_getElem?_getD, List.getElem?_modify]
  by_cases hr : r = r'
  · subst hr
    by_cases hlt : r < w.roots.length
    · simp [World.releases, hlt]
    · simp [World.releases, hlt]
  · simp [World.releases, hr]

theorem funptr_create (content : Option Obj) (fn : FatPtr Fn) :
    (w.create content fn).funptr t =
      if t = w.funptrs.length then ⟨some w.roots.length, fn⟩ else w.funptr t := by
  rw [World.funptr, World.create, World.funptr, List.getD_eq_getElem?_getD,
    List.getD_eq_getElem?_getD]
  rcases Nat.lt_trichotomy t w.funptrs.length with hlt | heq | hgt
  · rw [List.getElem?_append_left hlt, if_neg (Nat.ne_of_lt hlt)]
  · rw [if_pos heq, heq]
    simp
  · rw [if_neg (Nat.ne_of_gt hgt), List.getElem?_eq_none (by simp; omega),
      List.getElem?_eq_none (Nat.le_of_lt hgt)]

theorem releases_create (content : Option Obj) (fn : FatPtr Fn) (r : Root) :
    (w.create content fn).releases r = w.releases r := by
  rw [World.releases, World.create, World.releases, List.getD_eq_getElem?_getD,
    List.getD_eq_getElem?_getD, List.getElem?_append]
  split_ifs with hlt
  · rfl
  · rw [List.getElem?_eq_none (by omega : w.roots.length ≤ r)]
    cases r - w.roots.length <;> rfl

/-! ### What a step can do -/

variable {makeFunptr : Obj → Except (Raised E) (FatPtr Fn)}
variable {a : Action E C} {o : Outcome E C} {s s' : State}

/-- No value becomes the value of a call of `with_fun`, and a collection finds
only what cannot be reached. -/
structure State.Keeps (s s' : State) : Prop where
  active : s'.active ⊆ s.active
  collected : ∀ t ∈ s'.collected,
    t ∈ s.collected ∨ t < s.world.funptrs.length ∧ ¬ s.Reaches t

inductive Change (a : Action E C) (s s' : State) : Prop
  | create (content : Option Obj) (fn : FatPtr Fn)
      (world : s'.world = s.world.create content fn)
      (freed : s'.freed = s.freed) (finalised : s'.finalised = s.finalised)
      (active : ∀ t ∈ s'.active, t ∈ s.active ∨ t = s.world.funptrs.length)
      (collected : s'.collected = s.collected)
  | stay (world : s'.world = s.world)
      (freed : s'.freed = s.freed) (finalised : s'.finalised = s.finalised)
      (keeps : s.Keeps s')
  | free (t : Handle) (root : Root) (action : a = .free t ∨ ∃ outcome, a = .exit t outcome)
      (gcRoot : (s.world.funptr t).gcRoot = some root)
      (world : s'.world = (s.world.release root).setGcRoot t none)
      (freed : s'.freed = t :: s.freed) (finalised : s'.finalised = s.finalised)
      (keeps : s.Keeps s')
  | finalise (t : Handle) (gcRoot : (s.world.funptr t).gcRoot = none)
      (found : t ∈ s.collected)
      (world : s'.world = s.world)
      (freed : s'.freed = s.freed) (finalised : s'.finalised = t :: s.finalised)
      (keeps : s.Keeps s')
  | leak (t : Handle) (root : Root) (gcRoot : (s.world.funptr t).gcRoot = some root)
      (found : t ∈ s.collected)
      (world : s'.world = s.world.leak t root)
      (freed : s'.freed = s.freed) (finalised : s'.finalised = t :: s.finalised)
      (keeps : s.Keeps s')

theorem keeps_of_active (hactive : s'.active ⊆ s.active) (hcollected : s'.collected = s.collected) :
    s.Keeps s' where
  active := hactive
  collected _ ht := .inl (hcollected ▸ ht)

theorem keeps_refl (s : State) : s.Keeps s := keeps_of_active (List.Subset.refl _) rfl

theorem change_created {inBody : Bool} {m : FunptrM E Handle}
    (hm : (∃ e, m s.world = .error e s.world) ∨
      ∃ content fn, m s.world = createFunptr content fn s.world)
    (h : s.created inBody (run (C := C) m .handle s.world) = (o, s')) : Change a s s' := by
  obtain ⟨e, he⟩ | ⟨content, fn, hfn⟩ := hm
  · rw [run, he] at h
    cases h
    exact .stay rfl rfl rfl (keeps_refl s)
  · rw [run, hfn, createFunptr_eq] at h
    cases h
    refine .create content fn rfl rfl rfl (fun t ht => ?_) rfl
    cases inBody with
    | false => exact .inl ht
    | true =>
        rcases List.mem_cons.mp ht with rfl | ht
        · exact .inr rfl
        · exact .inl ht

theorem funptrOfFun_cases (f : Obj) (w : World) :
    (∃ e, funptrOfFun makeFunptr f w = .error e w) ∨
      ∃ content fn, funptrOfFun makeFunptr f w = createFunptr content fn w := by
  unfold funptrOfFun
  cases makeFunptr f with
  | error e => exact .inl ⟨e, rfl⟩
  | ok fn => exact .inr ⟨some f, fn, rfl⟩

/-- What the operations that may free a value do to it. -/
theorem change_afterFree {active : List Handle}
    (ha : a = .free t ∨ ∃ outcome, a = .exit t outcome)
    (hw : (s.world.funptr t).gcRoot = none ∧ w = s.world ∨
      ∃ root, (s.world.funptr t).gcRoot = some root ∧ w = (s.world.release root).setGcRoot t none)
    (hactive : active ⊆ s.active) (hs' : s' = { s.afterFree t w with active := active }) :
    Change a s s' := by
  subst hs'
  have hkeeps : s.Keeps { s.afterFree t w with active := active } := keeps_of_active hactive rfl
  obtain ⟨hroot, rfl⟩ | ⟨root, hroot, rfl⟩ := hw
  · exact .stay rfl (by simp [State.afterFree, hroot]) rfl hkeeps
  · exact .free t root ha hroot rfl (by simp [State.afterFree, hroot]) rfl hkeeps

theorem step_change (h : step makeFunptr a s = some (o, s')) : Change a s s' := by
  cases a with
  | ofFun f => exact change_created (funptrOfFun_cases f s.world) (Option.some.inj h)
  | read fp => exact change_created (.inr ⟨none, fp, rfl⟩) (Option.some.inj h)
  | enter f => exact change_created (funptrOfFun_cases f s.world) (Option.some.inj h)
  | write t =>
      rw [step, run, funptrToStaticFunptr_eq] at h
      split at h
      · cases hroot : (s.world.funptr t).gcRoot <;> rw [hroot] at h <;> cases h <;>
          exact .stay rfl rfl rfl (keeps_refl s)
      · cases h
  | free t =>
      rw [step, run, freeFunptr_eq] at h
      split at h
      · cases hroot : (s.world.funptr t).gcRoot with
        | none =>
            rw [hroot] at h
            cases h
            exact change_afterFree (.inl rfl) (.inl ⟨hroot, rfl⟩) (List.Subset.refl _) rfl
        | some root =>
            rw [hroot] at h
            cases h
            exact change_afterFree (.inl rfl) (.inr ⟨root, hroot, rfl⟩) (List.Subset.refl _) rfl
      · cases h
  | exit t outcome =>
      rw [step, run, withFunEnd_eq] at h
      have hexit : ∃ out, Action.exit (E := E) t outcome = .exit t out := ⟨outcome, rfl⟩
      split at h
      · cases hroot : (s.world.funptr t).gcRoot with
        | none =>
            rw [hroot] at h
            cases h
            exact change_afterFree (.inr hexit) (.inl ⟨hroot, rfl⟩) List.erase_subset rfl
        | some root =>
            rw [hroot] at h
            cases outcome <;> cases h <;>
              exact change_afterFree (.inr hexit) (.inr ⟨root, hroot, rfl⟩) List.erase_subset rfl
      · cases h
  | drop t =>
      cases h
      exact .stay rfl rfl rfl (keeps_of_active (List.Subset.refl _) rfl)
  | collect t =>
      rw [step] at h
      split at h
      next hcan =>
        cases h
        refine .stay rfl rfl rfl ⟨List.Subset.refl _, fun u hu => ?_⟩
        rcases List.mem_cons.mp hu with rfl | hu
        · exact .inr hcan
        · exact .inl hu
      · cases h
  | revive t =>
      rw [step] at h
      split at h
      · cases h
        exact .stay rfl rfl rfl (keeps_of_active (List.Subset.refl _) rfl)
      · cases h
  | finalise t =>
      rw [step, run, finalise_eq] at h
      split at h
      next hcan =>
        cases hroot : (s.world.funptr t).gcRoot with
        | none =>
            rw [hroot] at h
            cases h
            exact .finalise t hroot hcan.1 rfl rfl rfl (keeps_of_active (List.Subset.refl _) rfl)
        | some root =>
            rw [hroot] at h
            cases h
            exact .leak t root hroot hcan.1 rfl rfl rfl (keeps_of_active (List.Subset.refl _) rfl)
      · cases h

/-! ### The life of a value -/

inductive Life
  | unborn
  | live
  | freed
  | leaked
  deriving DecidableEq, Repr

/-- How a life goes on in a step. -/
inductive Life.Next (a : Action E C) (t : Handle) : Life → Life → Prop
  | stay (l : Life) : Next a t l l
  | create : Next a t .unborn .live
  | free (action : a = .free t ∨ ∃ outcome, a = .exit t outcome) : Next a t .live .freed
  | leak : Next a t .live .leaked

def Life.gcRoot (t : Handle) : Life → Option Root
  | .live => some t
  | _ => none

def Life.freedTimes : Life → Nat
  | .freed => 1
  | _ => 0

def Life.retainedTimes : Life → Nat
  | .leaked => 1
  | _ => 0

def Life.reports (t : Handle) : Life → List (Handle × String)
  | .leaked => [(t, leakMessage)]
  | _ => []

/-- The value `t`, whose root is `t` as well, is in this part of its life. -/
structure State.Has (s : State) (t : Handle) (l : Life) : Prop where
  gcRoot : (s.world.funptr t).gcRoot = l.gcRoot t
  releases : s.world.releases t = l.freedTimes
  freed : s.freed.count t = l.freedTimes
  retained : s.world.retained.count t = l.retainedTimes
  reports : s.world.reports.filter (·.1 = t) = l.reports t
  unborn : l = .unborn ↔ s.world.funptrs.length ≤ t
  active : t ∈ s.active → l = .live ∨ l = .freed
  leaked : l = .leaked → t ∈ s.finalised
  finalised : t ∈ s.finalised → l = .freed ∨ l = .leaked

structure State.Sound (s : State) : Prop where
  roots : s.world.roots.length = s.world.funptrs.length
  life : ∀ t, ∃ l, s.Has t l
  collected : ∀ t ∈ s.collected, t < s.world.funptrs.length ∧ t ∉ s.active

variable {l : Life}

theorem sound_init : State.init.Sound where
  roots := rfl
  life t := ⟨.unborn, by constructor <;> simp [State.init, World.funptr,
    World.releases, Life.gcRoot, Life.freedTimes, Life.retainedTimes, Life.reports]⟩
  collected _ ht := nomatch ht

/-- A value keeps its part of life while what is known of it stays the same. -/
theorem State.Has.frame (h : s.Has t l)
    (hroot : (s'.world.funptr t).gcRoot = (s.world.funptr t).gcRoot)
    (hreleases : s'.world.releases t = s.world.releases t)
    (hfreed : s'.freed.count t = s.freed.count t)
    (hretained : s'.world.retained.count t = s.world.retained.count t)
    (hreports : s'.world.reports.filter (·.1 = t) = s.world.reports.filter (·.1 = t))
    (hborn : s'.world.funptrs.length ≤ t ↔ s.world.funptrs.length ≤ t)
    (hactive : t ∈ s'.active → t ∈ s.active)
    (hfinalised : t ∈ s'.finalised ↔ t ∈ s.finalised) : s'.Has t l where
  gcRoot := hroot.trans h.gcRoot
  releases := hreleases.trans h.releases
  freed := hfreed.trans h.freed
  retained := hretained.trans h.retained
  reports := hreports.trans h.reports
  unborn := h.unborn.trans hborn.symm
  active ht := h.active (hactive ht)
  leaked hl := hfinalised.mpr (h.leaked hl)
  finalised ht := h.finalised (hfinalised.mp ht)

/-- A value that has a root is live, and the root is its own. -/
theorem State.Has.of_root {root : Root} (h : s.Has t l)
    (hroot : (s.world.funptr t).gcRoot = some root) : l = .live ∧ root = t := by
  rw [h.gcRoot] at hroot
  cases l with
  | live => exact ⟨rfl, (Option.some.inj hroot).symm⟩
  | unborn => cases hroot
  | freed => cases hroot
  | leaked => cases hroot

theorem State.Sound.of_root {root : Root} (h : s.Sound)
    (hroot : (s.world.funptr t).gcRoot = some root) : s.Has t .live ∧ root = t := by
  obtain ⟨l, hl⟩ := h.life t
  obtain ⟨rfl, hrt⟩ := hl.of_root hroot
  exact ⟨hl, hrt⟩

theorem State.Has.born (h : s.Has t l) (hl : l ≠ .unborn) : t < s.world.funptrs.length :=
  Nat.lt_of_not_le fun hle => hl (h.unborn.mpr hle)

@[simp] theorem length_setGcRoot (root : Option Root) :
    (w.setGcRoot t root).funptrs.length = w.funptrs.length := by
  simp [World.setGcRoot]

/-- The value that is made was not there, and is live. -/
theorem has_created {content : Option Obj} {fn : FatPtr Fn} (hs : s.Sound)
    (hworld : s'.world = s.world.create content fn)
    (hfreed : s'.freed = s.freed) (hfinalised : s'.finalised = s.finalised)
    (hactive : ∀ t ∈ s'.active, t ∈ s.active ∨ t = s.world.funptrs.length)
    (h : s.Has t l) : ∃ l', Life.Next a t l l' ∧ s'.Has t l' := by
  have hlength : s'.world.funptrs.length = s.world.funptrs.length + 1 := by
    simp [hworld, World.create]
  by_cases ht : t = s.world.funptrs.length
  · obtain rfl : l = .unborn := h.unborn.mpr (Nat.le_of_eq ht.symm)
    refine ⟨.live, .create, ?_⟩
    constructor
    · rw [hworld, funptr_create, if_pos ht, hs.roots, ht]
      rfl
    · rw [hworld, releases_create]
      exact h.releases
    · rw [hfreed]
      exact h.freed
    · rw [hworld]
      exact h.retained
    · rw [hworld]
      exact h.reports
    · simp only [reduceCtorEq, false_iff]
      rw [hlength, ht]
      exact Nat.not_succ_le_self _
    · exact fun _ => .inl rfl
    · exact fun hl => nomatch hl
    · intro hfin
      rw [hfinalised] at hfin
      rcases h.finalised hfin with hl | hl <;> cases hl
  · refine ⟨l, .stay l, h.frame ?_ ?_ ?_ ?_ ?_ ?_ ?_ ?_⟩
    · rw [hworld, funptr_create, if_neg ht]
    · rw [hworld, releases_create]
    · rw [hfreed]
    · rw [hworld]
      rfl
    · rw [hworld]
      rfl
    · rw [hlength]
      exact ⟨Nat.le_of_succ_le, fun hle => Nat.lt_of_le_of_ne hle (Ne.symm ht)⟩
    · exact fun hr => (hactive t hr).resolve_right ht
    · rw [hfinalised]

/-- A live value that is freed. -/
theorem State.Has.free (h : s.Has t .live) (hroots : s.world.roots.length = s.world.funptrs.length)
    (hworld : s'.world = (s.world.release t).setGcRoot t none)
    (hfreed : s'.freed = t :: s.freed) : s'.Has t .freed := by
  have hborn : t < s.world.funptrs.length := h.born (by decide)
  constructor
  · rw [hworld, gcRoot_setGcRoot, if_pos ⟨rfl, hborn⟩]
    rfl
  · rw [hworld, releases_setGcRoot, releases_release, if_pos ⟨rfl, hroots.symm ▸ hborn⟩,
      h.releases]
    rfl
  · rw [hfreed, List.count_cons_self, h.freed]
    rfl
  · rw [hworld]
    exact h.retained
  · rw [hworld]
    exact h.reports
  · rw [hworld, length_setGcRoot]
    exact iff_of_false (by decide) (Nat.not_le_of_lt hborn)
  · exact fun _ => .inr rfl
  · exact fun hl => nomatch hl
  · exact fun _ => .inl rfl

/-- A live value that is finalised. -/
theorem State.Has.leak (h : s.Has t .live) (hworld : s'.world = s.world.leak t t)
    (hfreed : s'.freed = s.freed) (hfinalised : s'.finalised = t :: s.finalised)
    (hinactive : t ∉ s'.active) : s'.Has t .leaked := by
  have hborn : t < s.world.funptrs.length := h.born (by decide)
  constructor
  · rw [hworld]
    show ((s.world.setGcRoot t none).funptr t).gcRoot = none
    rw [gcRoot_setGcRoot, if_pos ⟨rfl, hborn⟩]
  · rw [hworld]
    exact h.releases
  · rw [hfreed]
    exact h.freed
  · rw [hworld]
    show (t :: s.world.retained).count t = 1
    rw [List.count_cons_self, h.retained]
    rfl
  · rw [hworld]
    show ((t, leakMessage) :: s.world.reports).filter (·.1 = t) = [(t, leakMessage)]
    rw [List.filter_cons_of_pos (by simp), h.reports]
    rfl
  · rw [hworld]
    show _ ↔ (s.world.setGcRoot t none).funptrs.length ≤ t
    rw [length_setGcRoot]
    exact iff_of_false (by decide) (Nat.not_le_of_lt hborn)
  · exact fun hr => absurd hr hinactive
  · intro _
    rw [hfinalised]
    exact List.mem_cons_self
  · exact fun _ => .inr rfl

/-- A value without a root that is finalised. -/
theorem State.Has.finalise (h : s.Has t l) (hroot : (s.world.funptr t).gcRoot = none)
    (hborn : t < s.world.funptrs.length) (hworld : s'.world = s.world)
    (hfreed : s'.freed = s.freed) (hfinalised : s'.finalised = t :: s.finalised)
    (hactive : s'.active ⊆ s.active) : s'.Has t l := by
  have hl : l = .freed ∨ l = .leaked := by
    cases l with
    | unborn => exact absurd (h.unborn.mp rfl) (Nat.not_le_of_lt hborn)
    | live => exact nomatch h.gcRoot.symm.trans hroot
    | freed => exact .inl rfl
    | leaked => exact .inr rfl
  constructor
  · rw [hworld]
    exact h.gcRoot
  · rw [hworld]
    exact h.releases
  · rw [hfreed]
    exact h.freed
  · rw [hworld]
    exact h.retained
  · rw [hworld]
    exact h.reports
  · rw [hworld]
    exact h.unborn
  · exact fun hr => h.active (hactive hr)
  · intro _
    rw [hfinalised]
    exact List.mem_cons_self
  · exact fun _ => hl

/-- Each life goes on as it should, whichever value the step is about. -/
theorem Change.life (hc : Change a s s') (hs : s.Sound) (h : s.Has t l) :
    ∃ l', Life.Next a t l l' ∧ s'.Has t l' := by
  cases hc with
  | create content fn world freed finalised active collected =>
      exact has_created hs world freed finalised active h
  | stay world freed finalised keeps =>
      exact ⟨l, .stay l, h.frame (by rw [world]) (by rw [world]) (by rw [freed]) (by rw [world])
        (by rw [world]) (by rw [world]) (@keeps.active t) (by rw [finalised])⟩
  | free u root action gcRoot world freed finalised keeps =>
      obtain ⟨hu, rfl⟩ := hs.of_root gcRoot
      by_cases ht : t = root
      · subst ht
        obtain ⟨rfl, -⟩ := h.of_root gcRoot
        exact ⟨.freed, .free action, h.free hs.roots world freed⟩
      · refine ⟨l, .stay l, h.frame ?_ ?_ ?_ ?_ ?_ ?_ (@keeps.active t) (by rw [finalised])⟩
        · rw [world, gcRoot_setGcRoot, if_neg fun hr => ht hr.1.symm, funptr_release]
        · rw [world, releases_setGcRoot, releases_release, if_neg fun hr => ht hr.1.symm]
        · rw [freed, List.count_cons_of_ne fun hr => ht hr.symm]
        · rw [world]
          rfl
        · rw [world]
          rfl
        · rw [world, length_setGcRoot]
          rfl
  | finalise u gcRoot found world freed finalised keeps =>
      by_cases ht : t = u
      · subst ht
        exact ⟨l, .stay l,
          h.finalise gcRoot (hs.collected t found).1 world freed finalised keeps.active⟩
      · refine ⟨l, .stay l, h.frame (by rw [world]) (by rw [world]) (by rw [freed])
          (by rw [world]) (by rw [world]) (by rw [world]) (@keeps.active t) ?_⟩
        rw [finalised, List.mem_cons, or_iff_right ht]
  | leak u root gcRoot found world freed finalised keeps =>
      obtain ⟨hu, rfl⟩ := hs.of_root gcRoot
      by_cases ht : t = root
      · subst ht
        obtain ⟨rfl, -⟩ := h.of_root gcRoot
        exact ⟨.leaked, .leak, h.leak world freed finalised fun hr =>
          (hs.collected t found).2 (keeps.active hr)⟩
      · refine ⟨l, .stay l, h.frame ?_ ?_ ?_ ?_ ?_ ?_ (@keeps.active t) ?_⟩
        · rw [world]
          show ((s.world.setGcRoot root none).funptr t).gcRoot = _
          rw [gcRoot_setGcRoot, if_neg fun hr => ht hr.1.symm]
        · rw [world]
          rfl
        · rw [freed]
        · rw [world]
          show (root :: s.world.retained).count t = _
          rw [List.count_cons_of_ne fun hr => ht hr.symm]
        · rw [world]
          show ((root, leakMessage) :: s.world.reports).filter (·.1 = t) = _
          rw [List.filter_cons_of_neg (by simpa using fun hr : root = t => ht hr.symm)]
        · rw [world]
          show (s.world.setGcRoot root none).funptrs.length ≤ t ↔ _
          rw [length_setGcRoot]
        · rw [finalised, List.mem_cons, or_iff_right ht]

theorem Change.roots (hc : Change a s s')
    (h : s.world.roots.length = s.world.funptrs.length) :
    s'.world.roots.length = s'.world.funptrs.length := by
  cases hc with
  | create content fn world => simp [world, World.create, h]
  | stay world => simp [world, h]
  | free t root action gcRoot world => simp [world, World.release, World.setGcRoot, h]
  | finalise t gcRoot found world => simp [world, h]
  | leak t root gcRoot found world => simp [world, World.leak, World.setGcRoot, h]

theorem Change.born (hc : Change a s s') :
    s.world.funptrs.length ≤ s'.world.funptrs.length := by
  cases hc with
  | create content fn world => simp [world, World.create]
  | stay world => simp [world]
  | free t root action gcRoot world => simp [world, World.release]
  | finalise t gcRoot found world => simp [world]
  | leak t root gcRoot found world => simp [world, World.leak, World.setGcRoot]

theorem State.Keeps.collected_inactive (hk : s.Keeps s') (hs : s.Sound) (ht : t ∈ s'.collected) :
    t < s.world.funptrs.length ∧ t ∉ s'.active := by
  rcases hk.collected t ht with hfound | ⟨hborn, hreach⟩
  · exact (hs.collected t hfound).imp_right fun h hr => h (hk.active hr)
  · exact ⟨hborn, fun hr => hreach (.inr (hk.active hr))⟩

/-- What a collection has found is not the value of a call of `with_fun`. -/
theorem Change.collected (hc : Change a s s') (hs : s.Sound) (ht : t ∈ s'.collected) :
    t < s'.world.funptrs.length ∧ t ∉ s'.active := by
  have hborn := hc.born
  cases hc with
  | create content fn world freed finalised active collected =>
      rw [collected] at ht
      obtain ⟨hlt, hinactive⟩ := hs.collected t ht
      refine ⟨Nat.lt_of_lt_of_le hlt hborn, fun hr => ?_⟩
      rcases active t hr with hr | rfl
      · exact hinactive hr
      · exact Nat.lt_irrefl _ hlt
  | stay world freed finalised keeps =>
      exact (keeps.collected_inactive hs ht).imp_left fun hlt => Nat.lt_of_lt_of_le hlt hborn
  | free u root action gcRoot world freed finalised keeps =>
      exact (keeps.collected_inactive hs ht).imp_left fun hlt => Nat.lt_of_lt_of_le hlt hborn
  | finalise u gcRoot found world freed finalised keeps =>
      exact (keeps.collected_inactive hs ht).imp_left fun hlt => Nat.lt_of_lt_of_le hlt hborn
  | leak u root gcRoot found world freed finalised keeps =>
      exact (keeps.collected_inactive hs ht).imp_left fun hlt => Nat.lt_of_lt_of_le hlt hborn

theorem State.Sound.step (hs : s.Sound) (h : step makeFunptr a s = some (o, s')) : s'.Sound where
  roots := (step_change h).roots hs.roots
  life t := by
    obtain ⟨l, hl⟩ := hs.life t
    obtain ⟨l', -, hl'⟩ := (step_change h).life hs hl
    exact ⟨l', hl'⟩
  collected _ ht := (step_change h).collected hs ht

theorem State.Sound.runs (hs : s.Sound) (h : Runs (C := C) makeFunptr s s') : s'.Sound := by
  induction h with
  | refl => exact hs
  | tail _ hstep ih =>
      obtain ⟨a, o, hstep⟩ := hstep
      exact ih.step hstep

theorem sound_of_reachable (h : Reachable (C := C) makeFunptr s) : s.Sound :=
  sound_init.runs h

/-- Nothing happens to a value any more once it has leaked. -/
theorem State.Has.leaked_runs (hs : s.Sound) (hl : s.Has t .leaked)
    (h : Runs (C := C) makeFunptr s s') : s'.Has t .leaked := by
  induction h with
  | refl => exact hl
  | tail hruns hstep ih =>
      obtain ⟨a, o, hstep⟩ := hstep
      obtain ⟨l', hnext, hl'⟩ := (step_change hstep).life (hs.runs hruns) ih
      cases hnext
      exact hl'

theorem Life.Next.releases {l' : Life} (h : Life.Next a t l l')
    (hne : l'.freedTimes ≠ l.freedTimes) : a = .free t ∨ ∃ outcome, a = .exit t outcome := by
  cases h with
  | stay l => exact absurd rfl hne
  | create => exact absurd rfl hne
  | free action => exact action
  | leak => exact absurd rfl hne

theorem State.Sound.leaked (hs : s.Sound) (hfin : t ∈ s.finalised) (hfree : t ∉ s.freed) :
    s.Has t .leaked := by
  obtain ⟨l, hl⟩ := hs.life t
  rcases hl.finalised hfin with rfl | rfl
  · have hcount := hl.freed
    rw [List.count_eq_zero_of_not_mem hfree] at hcount
    cases hcount
  · exact hl

theorem State.Sound.freed (hs : s.Sound) (hfree : t ∈ s.freed) : s.Has t .freed := by
  obtain ⟨l, hl⟩ := hs.life t
  have hcount : 0 < l.freedTimes := hl.freed ▸ List.count_pos_iff.mpr hfree
  cases l with
  | freed => exact hl
  | unborn => exact absurd hcount (by decide)
  | live => exact absurd hcount (by decide)
  | leaked => exact absurd hcount (by decide)

/-- What has not leaked has been neither retained nor reported. -/
theorem State.Sound.not_leaked (hs : s.Sound) (ht : t ∉ s.finalised ∨ t ∈ s.freed) :
    t ∉ s.world.retained ∧ s.world.reports.filter (·.1 = t) = [] := by
  obtain ⟨l, hl⟩ := hs.life t
  cases l with
  | leaked =>
      refine absurd (hl.leaked rfl) (ht.resolve_right fun hfree => ?_)
      exact List.count_eq_zero.mp hl.freed hfree
  | unborn => exact ⟨List.count_eq_zero.mp hl.retained, hl.reports⟩
  | live => exact ⟨List.count_eq_zero.mp hl.retained, hl.reports⟩
  | freed => exact ⟨List.count_eq_zero.mp hl.retained, hl.reports⟩

theorem State.Sound.rootless (hs : s.Sound) (ht : t ∈ s.freed ∨ t ∈ s.finalised) :
    (s.world.funptr t).gcRoot = none := by
  rcases ht with hfree | hfin
  · exact (hs.freed hfree).gcRoot
  · obtain ⟨l, hl⟩ := hs.life t
    rcases hl.finalised hfin with rfl | rfl <;> exact hl.gcRoot

/-- Without a root, `free` and the conversion raise. -/
theorem step_rootless (hroot : (s.world.funptr t).gcRoot = none) (hreach : s.Reaches t) :
    step (C := C) makeFunptr (.free t) s = some (.error previouslyFreed, s) ∧
      step (C := C) makeFunptr (.write t) s = some (.error previouslyFreed, s) := by
  constructor
  · rw [step, if_pos hreach, run, freeFunptr_eq, hroot]
    simp [State.afterFree, hroot]
  · rw [step, if_pos hreach, run, funptrToStaticFunptr_eq, hroot]

/-- At the end of `with_fun` its value has been freed. -/
theorem step_exit (makeFunptr : Obj → Except (Raised E) (FatPtr Fn)) (hs : s.Sound)
    (ht : t ∈ s.active) (outcome : Except (Raised E) C) :
    ∃ s', step makeFunptr (.exit t outcome) s =
        some (if t ∈ s.freed then .error previouslyFreed else outcome.map .result, s') ∧
      s'.Has t .freed := by
  obtain ⟨l, hl⟩ := hs.life t
  rcases hl.active ht with rfl | rfl
  · have hfree : t ∉ s.freed := List.count_eq_zero.mp hl.freed
    have hroot : (s.world.funptr t).gcRoot = some t := hl.gcRoot
    have hafter : s.afterFree t ((s.world.release t).setGcRoot t none) =
        { s with world := (s.world.release t).setGcRoot t none, freed := t :: s.freed } := by
      rw [State.afterFree, hroot]
      rfl
    have hstep : step makeFunptr (.exit t outcome) s = some (outcome.map .result,
        { s with world := (s.world.release t).setGcRoot t none, freed := t :: s.freed,
                 active := s.active.erase t }) := by
      rw [step, if_pos ht, run, withFunEnd_eq, hroot]
      cases outcome <;> simp only [hafter, Except.map]
    exact ⟨_, by rw [if_neg hfree, hstep], hl.free hs.roots rfl rfl⟩
  · have hfree : t ∈ s.freed := List.count_pos_iff.mp (hl.freed ▸ Nat.one_pos)
    have hroot : (s.world.funptr t).gcRoot = none := hl.gcRoot
    have hstep : ∃ s', step makeFunptr (.exit t outcome) s = some (.error previouslyFreed, s') := by
      rw [step, if_pos ht, run, withFunEnd_eq, hroot]
      exact ⟨_, rfl⟩
    obtain ⟨s', hs'⟩ := hstep
    obtain ⟨l', hnext, hl'⟩ := (step_change hs').life hs hl
    cases hnext
    exact ⟨s', by rw [if_pos hfree, hs'], hl'⟩

/-- The lives of all values in the runs of a program and its collections. -/
theorem funptr_lifecycle (hreach : Reachable (C := C) makeFunptr s) :
    -- a root is its value's own, and is released once at most, by a `free` of the value
    s.world.roots.length = s.world.funptrs.length ∧
    (∀ t root, (s.world.funptr t).gcRoot = some root → root = t) ∧
    (∀ t, s.world.releases t = s.freed.count t ∧ s.world.releases t ≤ 1) ∧
    (∀ t (a : Action E C) o s', step makeFunptr a s = some (o, s') →
      s'.world.releases t ≠ s.world.releases t →
        a = .free t ∨ ∃ outcome, a = .exit t outcome) ∧
    -- what is finalised without a `free` is retained from then on, and reported once
    (∀ t ∈ s.finalised, t ∉ s.freed → ∀ s', Runs (C := C) makeFunptr s s' →
      t ∈ s'.world.retained ∧ s'.world.releases t = 0 ∧
        s'.world.reports.filter (·.1 = t) = [(t, leakMessage)]) ∧
    (∀ t, t ∉ s.finalised ∨ t ∈ s.freed →
      t ∉ s.world.retained ∧ s.world.reports.filter (·.1 = t) = []) ∧
    -- a value that has been freed or finalised can neither be freed nor converted
    (∀ t, t ∈ s.freed ∨ t ∈ s.finalised → s.Reaches t →
      step (C := C) makeFunptr (.free t) s = some (.error previouslyFreed, s) ∧
        step (C := C) makeFunptr (.write t) s = some (.error previouslyFreed, s)) ∧
    -- `with_fun` frees its value, whatever its body does
    (∀ t ∈ s.active, ∀ outcome : Except (Raised E) C, ∃ s',
      step makeFunptr (.exit t outcome) s =
          some (if t ∈ s.freed then .error previouslyFreed else outcome.map .result, s') ∧
        t ∈ s'.freed ∧ s'.world.releases t = 1) := by
  have hs : s.Sound := sound_of_reachable hreach
  refine ⟨hs.roots, fun t root hroot => (hs.of_root hroot).2, fun t => ?_,
    fun t a o s' hstep hne => ?_, fun t hfin hfree s' hruns => ?_,
    fun t ht => hs.not_leaked ht, fun t ht hreaches => step_rootless (hs.rootless ht) hreaches,
    fun t ht outcome => ?_⟩
  · obtain ⟨l, hl⟩ := hs.life t
    refine ⟨hl.releases.trans hl.freed.symm, ?_⟩
    rw [hl.releases]
    cases l <;> decide
  · obtain ⟨l, hl⟩ := hs.life t
    obtain ⟨l', hnext, hl'⟩ := (step_change hstep).life hs hl
    rw [hl.releases, hl'.releases] at hne
    exact hnext.releases hne
  · have hl : s'.Has t .leaked := (hs.leaked hfin hfree).leaked_runs hs hruns
    exact ⟨List.count_pos_iff.mp (hl.retained ▸ Nat.one_pos), hl.releases, hl.reports⟩
  · obtain ⟨s', hstep, hl⟩ := step_exit makeFunptr hs ht outcome
    exact ⟨s', hstep, List.count_pos_iff.mp (hl.freed ▸ Nat.one_pos), hl.releases⟩

def leakAndFree : List (Action Empty Unit) :=
  [.ofFun 5, .drop 0, .collect 0, .finalise 0, .enter 6, .free 1]

def leakAndFreeFunptr : Obj → Except (Raised Empty) (FatPtr Fn) :=
  fun f => .ok ⟨.returns .void, 4096 + f, none⟩

def afterActions (makeFunptr : Obj → Except (Raised E) (FatPtr Fn)) (s : State)
    (actions : List (Action E C)) : Option State :=
  actions.foldlM (fun s a => (step makeFunptr a s).map Prod.snd) s

theorem runs_afterActions {actions : List (Action E C)}
    (h : afterActions makeFunptr s actions = some s') : Runs (C := C) makeFunptr s s' := by
  induction actions generalizing s with
  | nil =>
      cases h
      exact .refl
  | cons a actions ih =>
      cases hstep : step makeFunptr a s with
      | none =>
          rw [afterActions, List.foldlM_cons, hstep] at h
          cases h
      | some next =>
          rw [afterActions, List.foldlM_cons, hstep] at h
          exact .head ⟨a, next.1, hstep⟩ (ih h)

theorem funptr_lifecycle_leakAndFree :
    ∃ s s', afterActions leakAndFreeFunptr State.init leakAndFree = some s ∧
      0 ∈ s.world.retained ∧ s.world.releases 0 = 0 ∧
      s.world.reports.filter (·.1 = 0) = [(0, leakMessage)] ∧
      s.world.releases 1 = s.freed.count 1 ∧ 1 ∈ s.freed ∧
      step (C := Unit) leakAndFreeFunptr (.free 1) s = some (.error previouslyFreed, s) ∧
      step (C := Unit) leakAndFreeFunptr (.exit 1 (.ok ())) s =
        some (.error previouslyFreed, s') := by
  obtain ⟨s, hs⟩ : ∃ s, afterActions leakAndFreeFunptr State.init leakAndFree = some s :=
    ⟨_, rfl⟩
  have hfinalised : 0 ∈ s.finalised ∧ 0 ∉ s.freed ∧ 1 ∈ s.freed ∧ 1 ∈ s.active := by
    cases hs
    decide
  obtain ⟨hfin, hfree, hfree', hactive⟩ := hfinalised
  obtain ⟨-, -, hreleases, -, hleaked, -, hfreed, hexit⟩ :=
    funptr_lifecycle (C := Unit) (runs_afterActions hs)
  obtain ⟨hretained, hreleased, hreports⟩ := hleaked 0 hfin hfree s .refl
  obtain ⟨s', hs', -⟩ := hexit 1 hactive (.ok ())
  rw [if_pos hfree'] at hs'
  exact ⟨s, s', hs, hretained, hreleased, hreports, (hreleases 1).1, hfree',
    (hfreed 1 (.inl hfree') (.inr hactive)).1, hs'⟩

end CtypesCbuf.CtypesForeign.Funptrs
