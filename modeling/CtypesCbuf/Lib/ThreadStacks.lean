import Mathlib.Data.List.Count
import Mathlib.Logic.Function.Basic

/-!
Threads that share a state and one lock. A thread is a stack of frames, the
topmost of which runs; what interrupts a thread is a frame on top of the
others. Runs are sequences of guarded steps, and what every step preserves
holds in every state that is reached.
-/

namespace ThreadStacks

section Reach

variable {σ α : Type} {step : α → σ → Option σ} {meets : α → σ → Prop} {s₀ s : σ}

/-- The states reached by steps that meet a condition. -/
inductive Reach (step : α → σ → Option σ) (meets : α → σ → Prop) (s₀ : σ) : σ → Prop
  | init : Reach step meets s₀ s₀
  | next {s s' : σ} (a : α) (h : Reach step meets s₀ s) (hmeets : meets a s)
      (hstep : step a s = some s') : Reach step meets s₀ s'

theorem Reach.invariant {I : σ → Prop} (hinit : I s₀)
    (hstep : ∀ a s s', I s → meets a s → step a s = some s' → I s')
    (h : Reach step meets s₀ s) : I s := by
  induction h with
  | init => exact hinit
  | next a h hmeets hs ih => exact hstep a _ _ ih hmeets hs

theorem Reach.mono {meets' : α → σ → Prop} (h : Reach step meets s₀ s)
    (hmeets : ∀ a s, meets a s → meets' a s) : Reach step meets' s₀ s := by
  induction h with
  | init => exact .init
  | next a h ha hs ih => exact .next a ih (hmeets a _ ha) hs

/-- A run of given steps. -/
theorem reach_of_run {s' : σ} (as : List α) (h : Reach step meets s₀ s)
    (hmeets : ∀ a s, meets a s) (hrun : as.foldlM (fun s a => step a s) s = some s') :
    Reach step meets s₀ s' := by
  induction as generalizing s with
  | nil =>
      obtain rfl : s = s' := Option.some.inj hrun
      exact h
  | cons a as ih =>
      obtain ⟨s₁, hstep, hrun⟩ := Option.bind_eq_some_iff.mp hrun
      exact ih (.next a h (hmeets a s) hstep) hrun

/-- A run whose steps are checked as they are taken. -/
theorem reach_of_checked [∀ a s, Decidable (meets a s)] {s' : σ} (as : List α)
    (h : Reach step meets s₀ s)
    (hrun : as.foldlM (fun s a => if meets a s then step a s else none) s = some s') :
    Reach step meets s₀ s' := by
  induction as generalizing s with
  | nil =>
      obtain rfl : s = s' := Option.some.inj hrun
      exact h
  | cons a as ih =>
      obtain ⟨s₁, hstep, hrun⟩ := Option.bind_eq_some_iff.mp hrun
      obtain ⟨hmeets, hstep⟩ := Option.ite_none_right_eq_some.mp hstep
      exact ih (.next a h hmeets hstep) hrun

end Reach

variable {Tid F : Type} [DecidableEq Tid]

/-- The stack of thread `t` is replaced. -/
def set (ts : Tid → List F) (t : Tid) (fs : List F) : Tid → List F := Function.update ts t fs

variable {ts : Tid → List F} {t u : Tid} {f g : F} {fs : List F} {critical : F → Bool}
  {locked : Bool}

@[simp] theorem set_self : set ts t fs t = fs := by
  rw [set, Function.update_self]

@[simp] theorem set_of_ne (h : u ≠ t) : set ts t fs u = ts u := by
  rw [set, Function.update_of_ne h]

/-- A frame of a thread whose stack is replaced, or of another thread. -/
theorem mem_set (h : g ∈ set ts t fs u) : (u = t ∧ g ∈ fs) ∨ (u ≠ t ∧ g ∈ ts u) := by
  by_cases hu : u = t
  · subst hu
    rw [set_self] at h
    exact .inl ⟨rfl, h⟩
  · rw [set_of_ne hu] at h
    exact .inr ⟨hu, h⟩

/-- The frames after the topmost one has been replaced. -/
theorem mem_set_replace {new : Option F} (ht : ts t = f :: fs)
    (h : g ∈ set ts t (new.toList ++ fs) u) : g ∈ new ∨ ∃ u, g ∈ ts u := by
  obtain ⟨rfl, hg⟩ | ⟨-, hg⟩ := mem_set h
  · obtain hg | hg := List.mem_append.mp hg
    · exact .inl (Option.mem_toList.mp hg)
    · exact .inr ⟨u, by rw [ht]; exact List.mem_cons_of_mem f hg⟩
  · exact .inr ⟨u, hg⟩

/-- A frame other than the one that runs stays. -/
theorem mem_set_of_ne {new : Option F} (ht : ts t = f :: fs) (h : g ∈ ts u) (hne : g ≠ f) :
    ∃ u, g ∈ set ts t (new.toList ++ fs) u := by
  refine ⟨u, ?_⟩
  by_cases hu : u = t
  · subst hu
    rw [ht] at h
    rw [set_self]
    obtain rfl | h := List.mem_cons.mp h
    · exact absurd rfl hne
    · exact List.mem_append_right _ h
  · rwa [set_of_ne hu]

theorem mem_set_push (h : g ∈ ts u) : g ∈ set ts t (f :: ts t) u := by
  by_cases hu : u = t
  · subst hu
    rw [set_self]
    exact List.mem_cons_of_mem f h
  · rwa [set_of_ne hu]

/-! ### The lock -/

/-- The lock is taken iff some thread is in its critical section, and this
holds of one frame of one thread. -/
def Exclusive (critical : F → Bool) (locked : Bool) (ts : Tid → List F) : Prop :=
  ∃ holder : Option Tid, locked = holder.isSome ∧
    ∀ t, (ts t).countP critical = if holder = some t then 1 else 0

theorem Exclusive.init : Exclusive critical false fun _ : Tid => ([] : List F) :=
  ⟨none, rfl, fun _ => rfl⟩

/-- A thread keeps what it holds. -/
theorem Exclusive.set {fs' : List F} (h : Exclusive critical locked ts)
    (hcount : fs'.countP critical = (ts t).countP critical) :
    Exclusive critical locked (set ts t fs') := by
  obtain ⟨holder, hlocked, hholder⟩ := h
  refine ⟨holder, hlocked, fun u => ?_⟩
  by_cases hu : u = t
  · subst hu
    rw [set_self, hcount, hholder]
  · rw [set_of_ne hu, hholder]

theorem Exclusive.acquire {fs' : List F} (h : Exclusive critical false ts)
    (hcount : fs'.countP critical = (ts t).countP critical + 1) :
    Exclusive critical true (ThreadStacks.set ts t fs') := by
  obtain ⟨holder, hlocked, hholder⟩ := h
  obtain rfl : holder = none := by
    cases holder with
    | none => rfl
    | some u => cases hlocked
  have hzero (u : Tid) : (ts u).countP critical = 0 := hholder u
  refine ⟨some t, rfl, fun u => ?_⟩
  by_cases hu : u = t
  · subst hu
    rw [set_self, hcount, hzero, if_pos rfl]
  · rw [set_of_ne hu, hzero, if_neg fun h => hu (Option.some.inj h).symm]

theorem Exclusive.release {fs' : List F} (h : Exclusive critical locked ts)
    (hcount : fs'.countP critical + 1 = (ts t).countP critical) :
    Exclusive critical false (ThreadStacks.set ts t fs') := by
  obtain ⟨holder, -, hholder⟩ := h
  have ht := hholder t
  have hheld : holder = some t := by
    by_contra hne
    rw [if_neg hne] at ht
    omega
  refine ⟨none, rfl, fun u => ?_⟩
  by_cases hu : u = t
  · subst hu
    rw [if_pos hheld] at ht
    rw [set_self, if_neg (by simp)]
    omega
  · rw [set_of_ne hu, hholder, hheld, if_neg fun h => hu (Option.some.inj h).symm,
      if_neg (by simp)]

/-- A frame in its critical section is the only one. -/
theorem Exclusive.unique (h : Exclusive critical locked ts) (hf : ts t = f :: fs)
    (hcf : critical f = true) (hg : g ∈ ts u) (hcg : critical g = true) : g = f := by
  obtain ⟨holder, -, hholder⟩ := h
  have hu : 0 < (ts u).countP critical := List.countP_pos_iff.mpr ⟨g, hg, hcg⟩
  have ht : (ts t).countP critical = fs.countP critical + 1 := by
    rw [hf, List.countP_cons_of_pos hcf]
  have hholdu : holder = some u := by
    by_contra hne
    rw [hholder, if_neg hne] at hu
    omega
  have hholdt : holder = some t := by
    by_contra hne
    rw [hholder, if_neg hne] at ht
    omega
  obtain rfl : u = t := Option.some.inj (hholdu.symm.trans hholdt)
  rw [hholder, if_pos hholdt] at ht
  rw [hf] at hg
  obtain rfl | hg := List.mem_cons.mp hg
  · rfl
  · have : 0 < fs.countP critical := List.countP_pos_iff.mpr ⟨g, hg, hcg⟩
    omega

/-- Without threads in their critical sections the lock is free. -/
theorem Exclusive.free (h : Exclusive critical locked ts)
    (hfree : ∀ t, ∀ f ∈ ts t, critical f = false) : locked = false := by
  obtain ⟨holder, rfl, hholder⟩ := h
  cases holder with
  | none => rfl
  | some t =>
      have hzero : (ts t).countP critical = 0 := by
        rw [List.countP_eq_zero]
        intro f hf
        rw [hfree t f hf]
        decide
      rw [hholder, if_pos rfl] at hzero
      cases hzero

end ThreadStacks
