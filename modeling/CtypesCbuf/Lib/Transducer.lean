import Mathlib.Data.List.Basic

/-!
Transducers: each item read puts out a list of items or is rejected. What a
state holds back is bounded by a potential, from which follows how long the
output can get.
-/

namespace Transducer

variable {σ α β : Type}

def scan (step : σ → α → Option (List β × σ)) : σ → List α → Option (List β × σ)
  | s, [] => some ([], s)
  | s, a :: as =>
      match step s a with
      | none => none
      | some (o, s') => (scan step s' as).map fun r => (o ++ r.1, r.2)

variable {step : σ → α → Option (List β × σ)} {s s' : σ} {a : α} {as bs : List α} {o : List β}

theorem scan_cons_eq_some : scan step s (a :: as) = some (o, s') ↔
    ∃ o₁ s₁ o₂, step s a = some (o₁, s₁) ∧ scan step s₁ as = some (o₂, s') ∧ o = o₁ ++ o₂ := by
  rw [scan]
  cases hstep : step s a with
  | none => simp
  | some r =>
      obtain ⟨o₁, s₁⟩ := r
      simp only [Option.map_eq_some_iff, Prod.mk.injEq, Prod.exists, Option.some.injEq]
      constructor
      · rintro ⟨o₂, s₂, h, rfl, rfl⟩
        exact ⟨o₁, s₁, o₂, ⟨rfl, rfl⟩, h, rfl⟩
      · rintro ⟨_, _, o₂, ⟨rfl, rfl⟩, h, rfl⟩
        exact ⟨o₂, s', h, rfl, rfl⟩

theorem scan_cons (h : step s a = some (o, s')) (as : List α) :
    scan step s (a :: as) = (scan step s' as).map fun r => (o ++ r.1, r.2) := by
  rw [scan, h]

theorem scan_singleton (s : σ) (a : α) : scan step s [a] = step s a := by
  rw [scan]
  cases step s a with
  | none => rfl
  | some r => simp [scan]

theorem scan_append_eq_some : scan step s (as ++ bs) = some (o, s') ↔
    ∃ o₁ s₁ o₂, scan step s as = some (o₁, s₁) ∧ scan step s₁ bs = some (o₂, s') ∧
      o = o₁ ++ o₂ := by
  induction as generalizing s o with
  | nil => simp [scan]
  | cons a as ih =>
      simp only [List.cons_append, scan_cons_eq_some, ih]
      constructor
      · rintro ⟨o₁, s₁, _, hstep, ⟨o₂, s₂, o₃, has, hbs, rfl⟩, rfl⟩
        exact ⟨o₁ ++ o₂, s₂, o₃, ⟨o₁, s₁, o₂, hstep, has, rfl⟩, hbs, (List.append_assoc ..).symm⟩
      · rintro ⟨_, s₂, o₃, ⟨o₁, s₁, o₂, hstep, has, rfl⟩, hbs, rfl⟩
        exact ⟨o₁, s₁, o₂ ++ o₃, hstep, ⟨o₂, s₂, o₃, has, hbs, rfl⟩, List.append_assoc ..⟩

theorem scan_append (h : scan step s as = some (o, s')) (bs : List α) :
    scan step s (as ++ bs) = (scan step s' bs).map fun r => (o ++ r.1, r.2) := by
  refine Option.ext fun ⟨o', t⟩ => ?_
  rw [scan_append_eq_some, h]
  simp only [Option.some.injEq, Prod.mk.injEq, Option.map_eq_some_iff, Prod.exists]
  constructor
  · rintro ⟨_, _, o₂, ⟨rfl, rfl⟩, hbs, rfl⟩
    exact ⟨o₂, t, hbs, rfl, rfl⟩
  · rintro ⟨o₂, _, hbs, rfl, rfl⟩
    exact ⟨o, s', o₂, ⟨rfl, rfl⟩, hbs, rfl⟩

/-- Items that are put out as they are. -/
theorem scan_verbatim {step : σ → α → Option (List α × σ)}
    (h : ∀ a ∈ as, step s a = some ([a], s)) : scan step s as = some (as, s) := by
  induction as with
  | nil => rfl
  | cons a as ih =>
      obtain ⟨ha, has⟩ := List.forall_mem_cons.mp h
      rw [scan_cons ha, ih has]
      rfl

/-- What every step keeps is kept by the whole. -/
theorem scan_keeps {P : σ → Prop} {Q : β → Prop}
    (hstep : ∀ a ∈ as, ∀ s o s', P s → step s a = some (o, s') → (∀ b ∈ o, Q b) ∧ P s')
    (hs : P s) (h : scan step s as = some (o, s')) : (∀ b ∈ o, Q b) ∧ P s' := by
  induction as generalizing s o with
  | nil =>
      cases h
      exact ⟨by simp, hs⟩
  | cons a as ih =>
      obtain ⟨ha, has⟩ := List.forall_mem_cons.mp hstep
      obtain ⟨o₁, s₁, o₂, h₁, h₂, rfl⟩ := scan_cons_eq_some.mp h
      obtain ⟨ho₁, hs₁⟩ := ha s o₁ s₁ hs h₁
      obtain ⟨ho₂, hs'⟩ := ih has hs₁ h₂
      exact ⟨fun b hb => (List.mem_append.mp hb).elim (ho₁ b) (ho₂ b), hs'⟩

/-- If every item is worth one item of output, then so is the whole. -/
theorem scan_length_le {φ : σ → Nat}
    (hstep : ∀ s a o s', step s a = some (o, s') → o.length + φ s' ≤ 1 + φ s)
    (h : scan step s as = some (o, s')) : o.length + φ s' ≤ as.length + φ s := by
  induction as generalizing s o with
  | nil =>
      cases h
      simp
  | cons a as ih =>
      obtain ⟨o₁, s₁, o₂, h₁, h₂, rfl⟩ := scan_cons_eq_some.mp h
      have hlen₁ := hstep s a o₁ s₁ h₁
      have hlen₂ := ih h₂
      rw [List.length_append, List.length_cons]
      omega

/-- Several items for each item read are read one after another. -/
theorem scan_flatMap {γ : Type} (f : γ → List α) (cs : List γ) :
    scan step s (cs.flatMap f) = scan (fun s c => scan step s (f c)) s cs := by
  induction cs generalizing s with
  | nil => rfl
  | cons c cs ih =>
      refine Option.ext fun ⟨o, s'⟩ => ?_
      rw [List.flatMap_cons]
      simp only [scan_append_eq_some, scan_cons_eq_some, ih]

end Transducer
