import Mathlib.Data.List.Basic

/-!
Dispatch on an ordered list of cases: the first case whose key is the one
looked for is taken. A list of cases serves each of its own cases right iff
its keys separate what must be told apart; the order plays no part in it.
-/

namespace FirstMatch

variable {α κ γ : Type} [DecidableEq κ]

/-- The first case with key `k`. -/
def select (key : α → κ) (cs : List α) (k : κ) : Option α := cs.find? fun c => key c = k

variable {key : α → κ} {cs : List α} {k : κ} {c c' : α}

theorem select_some (h : select key cs k = some c) : c ∈ cs ∧ key c = k :=
  ⟨List.mem_of_find?_eq_some h, by simpa using List.find?_some h⟩

theorem select_of_mem (key : α → κ) (h : c ∈ cs) :
    ∃ c' ∈ cs, key c' = key c ∧ select key cs (key c) = some c' := by
  cases hs : select key cs (key c) with
  | none =>
      have := List.find?_eq_none.mp hs c h
      simp at this
  | some c' =>
      obtain ⟨hmem, hkey⟩ := select_some hs
      exact ⟨c', hmem, hkey, rfl⟩

/-- Every case is served by one with the same datum iff cases with the same
key have the same datum. -/
theorem agree_iff (key : α → κ) (cs : List α) (f : α → γ) :
    (∀ c ∈ cs, ∀ c', select key cs (key c) = some c' → f c' = f c) ↔
      ∀ c ∈ cs, ∀ c' ∈ cs, key c = key c' → f c = f c' := by
  constructor
  · intro h c hc c' hc' hkey
    obtain ⟨d, -, -, hd⟩ := select_of_mem key hc
    have h1 : f d = f c := h c hc d hd
    rw [hkey] at hd
    have h2 : f d = f c' := h c' hc' d hd
    rw [← h1, h2]
  · intro h c hc c' hs
    obtain ⟨hmem, hkey⟩ := select_some hs
    exact h c' hmem c hc hkey

end FirstMatch
