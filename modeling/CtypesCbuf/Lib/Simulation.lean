import Mathlib.Data.List.Forall2

/-!
Two programs with a state and exceptions that do the same, up to a relation of
their states and one of their values. There is one rule for each way to put
programs together.
-/

namespace Simulation

variable {ε σ τ α β γ δ : Type}

/-! ### Computations -/

/-- Both have a value, or both raise the same exception. -/
inductive Agree (R : α → β → Prop) : Except ε α → Except ε β → Prop
  | ok {a : α} {b : β} (h : R a b) : Agree R (.ok a) (.ok b)
  | error (e : ε) : Agree R (.error e) (.error e)

variable {R : α → β → Prop} {Q : γ → δ → Prop}

theorem Agree.of_ok {x : Except ε α} {b : β} (h : Agree R x (.ok b)) :
    ∃ a, x = .ok a ∧ R a b := by
  cases h with
  | ok hr => exact ⟨_, rfl, hr⟩

theorem Agree.ok_of {a : α} {y : Except ε β} (h : Agree R (.ok a) y) : ∃ b, y = .ok b ∧ R a b := by
  cases h with
  | ok hr => exact ⟨_, rfl, hr⟩

theorem Agree.bind {x : Except ε α} {y : Except ε β} {f : α → Except ε γ} {g : β → Except ε δ}
    (h : Agree R x y) (hk : ∀ a b, R a b → Agree Q (f a) (g b)) :
    Agree Q (x >>= f) (y >>= g) := by
  cases h with
  | ok hr => exact hk _ _ hr
  | error e => exact .error e

theorem Agree.map {x : Except ε α} {y : Except ε β} {f : α → γ} {g : β → δ} (h : Agree R x y)
    (hk : ∀ a b, R a b → Q (f a) (g b)) : Agree Q (x.map f) (y.map g) := by
  cases h with
  | ok hr => exact .ok (hk _ _ hr)
  | error e => exact .error e

/-- Folds over lists with related items. -/
theorem Agree.foldlM {f : α → γ → Except ε α} {g : β → δ → Except ε β} {xs : List γ}
    {ys : List δ} (hxs : List.Forall₂ Q xs ys)
    (hk : ∀ a b c d, R a b → Q c d → Agree R (f a c) (g b d)) {a : α} {b : β} (hr : R a b) :
    Agree R (xs.foldlM f a) (ys.foldlM g b) := by
  induction hxs generalizing a b with
  | nil => exact .ok hr
  | cons hq _ ih =>
      rw [List.foldlM_cons, List.foldlM_cons]
      exact (hk _ _ _ _ hr hq).bind fun _ _ h => ih h

/-! ### Lists -/

theorem forall₂_getElem? {xs : List α} {ys : List β} (h : List.Forall₂ R xs ys) (i : Nat) :
    (xs[i]? = none ∧ ys[i]? = none) ∨ ∃ a b, xs[i]? = some a ∧ ys[i]? = some b ∧ R a b := by
  induction h generalizing i with
  | nil => exact .inl ⟨rfl, rfl⟩
  | cons hr _ ih =>
      cases i with
      | zero => exact .inr ⟨_, _, rfl, rfl, hr⟩
      | succ i => exact ih i

theorem forall₂_set {xs : List α} {ys : List β} (h : List.Forall₂ R xs ys) {a : α} {b : β}
    (hr : R a b) (i : Nat) : List.Forall₂ R (xs.set i a) (ys.set i b) := by
  induction h generalizing i with
  | nil => exact .nil
  | cons hab hxs ih =>
      cases i with
      | zero => exact .cons hr hxs
      | succ i => exact .cons hab (ih i)

/-! ### Programs -/

/-- Both end in related states, with related values or the same exception. -/
inductive Ends (S : σ → τ → Prop) (R : α → β → Prop) :
    EStateM.Result ε σ α → EStateM.Result ε τ β → Prop
  | ok {a : α} {b : β} {s : σ} {t : τ} (h : R a b) (hs : S s t) : Ends S R (.ok a s) (.ok b t)
  | error {s : σ} {t : τ} (e : ε) (hs : S s t) : Ends S R (.error e s) (.error e t)

/-- From related states the two programs do the same. -/
def Simulates (S : σ → τ → Prop) (R : α → β → Prop) (x : EStateM ε σ α) (y : EStateM ε τ β) :
    Prop :=
  ∀ s t, S s t → Ends S R (x s) (y t)

variable {S : σ → τ → Prop}

theorem Simulates.pure {a : α} {b : β} (h : R a b) :
    Simulates S R (pure a : EStateM ε σ α) (pure b) :=
  fun _ _ hs => .ok h hs

theorem Simulates.throw (e : ε) :
    Simulates S R (throw e : EStateM ε σ α) (throw e : EStateM ε τ β) :=
  fun _ _ hs => .error e hs

theorem Simulates.bind {x : EStateM ε σ α} {y : EStateM ε τ β} {f : α → EStateM ε σ γ}
    {g : β → EStateM ε τ δ} (h : Simulates S R x y)
    (hk : ∀ a b, R a b → Simulates S Q (f a) (g b)) : Simulates S Q (x >>= f) (y >>= g) := by
  intro s t hs
  have hxy := h s t hs
  simp only [Bind.bind, EStateM.bind]
  generalize x s = r at hxy
  generalize y t = r' at hxy
  cases hxy with
  | ok hr hs => exact hk _ _ hr _ _ hs
  | error e hs => exact .error e hs

theorem Simulates.modify {f : σ → σ} {g : τ → τ} (h : ∀ s t, S s t → S (f s) (g t)) :
    Simulates S (fun _ _ => True) (modify f : EStateM ε σ Unit) (modify g : EStateM ε τ Unit) :=
  fun s t hs => .ok trivial (h s t hs)

end Simulation
