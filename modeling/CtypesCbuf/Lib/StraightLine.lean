import Mathlib.Data.List.Basic

/-!
Straight-line programs: lists of instructions run one after the other. A run
is composed by `run_append`, and what every instruction keeps a run keeps.
Facts about the order of instructions are read off the list itself:
`NeverAfter P Q p` says that in `p` no instruction of kind `P` follows one of
kind `Q`.
-/

namespace StraightLine

variable {ι σ : Type}

/-- Run the instructions of `p` from the state `s`. -/
def run (step : ι → σ → σ) (p : List ι) (s : σ) : σ := p.foldl (fun s i => step i s) s

@[simp] theorem run_nil (step : ι → σ → σ) (s : σ) : run step [] s = s := rfl

@[simp] theorem run_cons (step : ι → σ → σ) (i : ι) (p : List ι) (s : σ) :
    run step (i :: p) s = run step p (step i s) := rfl

theorem run_append (step : ι → σ → σ) (p q : List ι) (s : σ) :
    run step (p ++ q) s = run step q (run step p s) :=
  List.foldl_append ..

/-- An invariant of the instructions is an invariant of the run. -/
theorem run_preserves {step : ι → σ → σ} {I : σ → Prop} {p : List ι}
    (hstep : ∀ i ∈ p, ∀ s, I s → I (step i s)) {s : σ} (hs : I s) :
    I (run step p s) := by
  induction p generalizing s with
  | nil => exact hs
  | cons i p ih =>
      have hi : I (step i s) := hstep i (by simp) s hs
      exact ih (fun j hj => hstep j (by simp [hj])) hi

/-- No instruction of kind `P` follows one of kind `Q`. -/
def NeverAfter (P Q : ι → Prop) (p : List ι) : Prop :=
  p.Pairwise fun a b => Q a → ¬ P b

variable {P Q : ι → Prop}

theorem neverAfter_append {p q : List ι} :
    NeverAfter P Q (p ++ q) ↔
      NeverAfter P Q p ∧ NeverAfter P Q q ∧ ∀ a ∈ p, ∀ b ∈ q, Q a → ¬ P b :=
  List.pairwise_append

/-- Before the first instruction of kind `Q` the order is free. -/
theorem neverAfter_of_none_trigger {p : List ι} (h : ∀ i ∈ p, ¬ Q i) :
    NeverAfter P Q p :=
  List.pairwise_iff_forall_sublist.mpr fun hab hq =>
    absurd hq (h _ (hab.subset (by simp)))

theorem neverAfter_of_none {p : List ι} (h : ∀ i ∈ p, ¬ P i) :
    NeverAfter P Q p :=
  List.pairwise_iff_forall_sublist.mpr fun hab _ => h _ (hab.subset (by simp))

/-- A program whose first part holds no `Q` and whose second part no `P`. -/
theorem neverAfter_of_split {p q : List ι} (hp : ∀ i ∈ p, ¬ Q i)
    (hq : ∀ i ∈ q, ¬ P i) : NeverAfter P Q (p ++ q) :=
  neverAfter_append.mpr ⟨neverAfter_of_none_trigger hp, neverAfter_of_none hq,
    fun a ha _ _ h => absurd h (hp a ha)⟩

theorem NeverAfter.sublist {p q : List ι} (h : NeverAfter P Q q)
    (hpq : p.Sublist q) : NeverAfter P Q p :=
  List.Pairwise.sublist hpq h

end StraightLine
