import CtypesCbuf.CLanguage.LetNormal
import CtypesCbuf.CLanguage.Interpretation

/-!
What `>>=` means: the code it builds does what the first computation does,
and then what the continuation does with its value. A continuation is code
with a hole for that value.
-/

namespace CtypesCbuf.CLanguage

open NameSupply Supply StraightLine
open Ctypes hiding Fn

/-! ### Code with a hole -/

/-- An expression with `v` for the local `h`. -/
def CExp.subst (h : CLocal) (v : CExp) : CExp → CExp
  | .int i => .int i
  | .clocal x => if x = h then v else .clocal x
  | .cast ty e => .cast ty (subst h v e)
  | .addr x => .addr x

def CamlOp.subst (h : CLocal) (v : CExp) : CamlOp → CamlOp
  | .camlParam0 => .camlParam0
  | .camlLocalN e c => .camlLocalN e (CExp.subst h v c)
  | .camlDrop => .camlDrop

def CEff.subst (h : CLocal) (v : CExp) : CEff → CEff
  | .exp e => .exp (CExp.subst h v e)
  | .camlop o => .camlop (o.subst h v)
  | .global g => .global g
  | .app f es => .app f (es.map (CExp.subst h v))
  | .index e i => .index (e.subst h v) (CExp.subst h v i)
  | .deref e => .deref (CExp.subst h v e)
  | .derefField e f => .derefField (CExp.subst h v e) f

def CLvalue.subst (h : CLocal) (v : CExp) : CLvalue → CLvalue
  | .var x => .var x
  | .index lv i => .index (lv.subst h v) (CExp.subst h v i)
  | .field lv f => .field (lv.subst h v) f
  | .pointerField lv f => .pointerField (lv.subst h v) f

def CComp.subst (h : CLocal) (v : CExp) : CComp → CComp
  | .eff e => .eff (e.subst h v)
  | .camlParam xs c => .camlParam xs (c.subst h v)
  | .letConst x i c => .letConst x i (c.subst h v)
  | .letAssign lv e c => .letAssign (lv.subst h v) (e.subst h v) (c.subst h v)
  | .camlReturnT ty e => .camlReturnT ty (CExp.subst h v e)
  | .ret ty e => .ret ty (CExp.subst h v e)
  | .letIn b c => .letIn (b.1, b.2.subst h v) (c.subst h v)

def Step.subst (h : CLocal) (v : CExp) : Step → Step
  | .bind b => .bind (b.1, b.2.subst h v)
  | .const x i => .const x i
  | .assign lv e => .assign (lv.subst h v) (e.subst h v)
  | .camlParam xs => .camlParam xs
  | .result e => .result (e.subst h v)
  | .camlReturnT ty e => .camlReturnT ty (CExp.subst h v e)
  | .ret ty e => .ret ty (CExp.subst h v e)

theorem CComp.steps_subst (h : CLocal) (v : CExp) (c : CComp) :
    (c.subst h v).steps = c.steps.map (Step.subst h v) := by
  induction c with
  | eff e => rfl
  | camlReturnT ty e => rfl
  | ret ty e => rfl
  | camlParam xs c ih => rw [subst, steps, ih]; rfl
  | letConst x i c ih => rw [subst, steps, ih]; rfl
  | letAssign lv e c ih => rw [subst, steps, ih]; rfl
  | letIn b c ih => rw [subst, steps, ih]; rfl

section Subst

variable {h : CLocal} {v : CExp}

theorem typeExp_subst (hv : typeExp v = h.2) (e : CExp) :
    typeExp (CExp.subst h v e) = typeExp e := by
  cases e with
  | clocal x =>
      rw [CExp.subst]
      split
      · next hx => rw [hv, hx]; rfl
      · rfl
  | _ => rfl

theorem typeEff_subst (hv : typeExp v = h.2) (e : CEff) :
    typeEff (e.subst h v) = typeEff e := by
  induction e with
  | exp e => rw [CEff.subst, typeEff, typeEff, typeExp_subst hv]
  | index e i ih => rw [CEff.subst, typeEff, typeEff, ih]
  | deref e => rw [CEff.subst, typeEff, typeEff, typeExp_subst hv]
  | derefField e f => rw [CEff.subst, typeEff, typeEff, typeExp_subst hv]
  | _ => rfl

variable {V σ : Type} {I : Interp V σ} {s : σ}

/-- The hole holds what stands in it. -/
theorem exp_subst (e : CExp) :
    I.exp noHoles s (CExp.subst h v e) = I.exp (hole h (I.exp noHoles s v)) s e := by
  induction e with
  | clocal x =>
      rw [CExp.subst]
      by_cases hx : x = h
      · rw [if_pos hx, Interp.exp, hole, if_pos hx, Option.getD_some]
      · rw [if_neg hx, Interp.exp, Interp.exp, hole, if_neg hx]
        rfl
  | cast ty e ih => rw [CExp.subst, Interp.exp, Interp.exp, ih]
  | _ => rfl

theorem place_subst (lv : CLvalue) :
    I.place noHoles s (lv.subst h v) = I.place (hole h (I.exp noHoles s v)) s lv := by
  induction lv with
  | var x => rfl
  | index lv i ih => rw [CLvalue.subst, Interp.place, Interp.place, ih, exp_subst]
  | field lv f ih => rw [CLvalue.subst, Interp.place, Interp.place, ih]
  | pointerField lv f ih => rw [CLvalue.subst, Interp.place, Interp.place, ih]

theorem eff_subst (hv : typeExp v = h.2) (e : CEff) :
    I.eff noHoles (e.subst h v) s = I.eff (hole h (I.exp noHoles s v)) e s := by
  induction e with
  | exp e => rw [CEff.subst, Interp.eff, Interp.eff, exp_subst]
  | camlop o =>
      cases o with
      | camlLocalN e c =>
          rw [CEff.subst, CamlOp.subst, Interp.eff, Interp.eff, exp_subst]
      | _ => rfl
  | global g => rfl
  | app f es =>
      rw [CEff.subst, Interp.eff, Interp.eff, List.map_map]
      congr 2
      exact List.map_congr_left fun e _ => exp_subst e
  | index e i ih =>
      rw [CEff.subst, Interp.eff, Interp.eff, ih, exp_subst, typeEff_subst hv]
  | deref e => rw [CEff.subst, Interp.eff, Interp.eff, exp_subst, typeExp_subst hv]
  | derefField e f => rw [CEff.subst, Interp.eff, Interp.eff, exp_subst, typeExp_subst hv]

theorem assign_subst (lv : CLvalue) (w : V) (s' : σ) :
    I.assign noHoles s (lv.subst h v) w s' =
      I.assign (hole h (I.exp noHoles s v)) s lv w s' := by
  cases lv with
  | var x => cases x <;> rfl
  | index lv i =>
      simp only [CLvalue.subst, Interp.assign, Interp.place]
      rw [place_subst, exp_subst]
  | field lv f =>
      simp only [CLvalue.subst, Interp.assign, Interp.place]
      rw [place_subst]
  | pointerField lv f =>
      simp only [CLvalue.subst, Interp.assign, Interp.place]
      rw [place_subst]

/-- One step of the code with `v` in the hole. -/
theorem step_subst (hv : typeExp v = h.2) (st : Step) (o : Option (Outcome V)) :
    I.step noHoles (st.subst h v) ⟨s, o⟩ =
      I.step (hole h (I.exp noHoles s v)) st ⟨s, o⟩ := by
  cases st with
  | bind b => simp only [Step.subst, Interp.step]; rw [eff_subst hv]
  | assign lv e => simp only [Step.subst, Interp.step]; rw [eff_subst hv, assign_subst]
  | result e => simp only [Step.subst, Interp.step]; rw [eff_subst hv]
  | camlReturnT ty e => simp only [Step.subst, Interp.step]; rw [exp_subst]
  | ret ty e => simp only [Step.subst, Interp.step]; rw [exp_subst]
  | _ => rfl

/-- Code that leaves what `v` reads as it is runs with `v` in the hole as it
runs with the value of `v` in it. -/
theorem runSteps_subst (hv : typeExp v = h.2) {p : List Step}
    (hkeeps : ∀ st ∈ p, ∀ x ∈ v.reads, I.Keeps st x.1) (o : Option (Outcome V)) :
    I.runSteps noHoles (p.map (Step.subst h v)) ⟨s, o⟩ =
      I.runSteps (hole h (I.exp noHoles s v)) p ⟨s, o⟩ := by
  induction p generalizing s o with
  | nil => rfl
  | cons st p ih =>
      have hst : I.exp noHoles (I.step (hole h (I.exp noHoles s v)) st ⟨s, o⟩).memory v =
          I.exp noHoles s v :=
        Interp.exp_congr fun x hx => hkeeps st (by simp) x hx _ ⟨s, o⟩
      have hp := ih (s := (I.step (hole h (I.exp noHoles s v)) st ⟨s, o⟩).memory)
        (fun st' hst' => hkeeps st' (by simp [hst']))
        (I.step (hole h (I.exp noHoles s v)) st ⟨s, o⟩).outcome
      rw [hst] at hp
      show I.runSteps noHoles (p.map _) (I.step noHoles (st.subst h v) ⟨s, o⟩) = _
      rw [step_subst hv]
      exact hp

/-- Code that does not name `x` runs with `x` in the hole as it runs with the
content of `x` in it, and leaves `x` as it is. -/
theorem runSteps_local (law : I.Lawful) {x : CLocal} (hx : I.Unseen x.1) (ht : x.2 = h.2)
    {p : List Step} (hp : ∀ st ∈ p, x.1 ∉ st.names) (w : V) (o : Option (Outcome V)) :
    I.runSteps noHoles (p.map (Step.subst h (.clocal x))) ⟨I.store x.1 w s, o⟩ =
      ⟨I.store x.1 w (I.runSteps (hole h w) p ⟨s, o⟩).memory,
        (I.runSteps (hole h w) p ⟨s, o⟩).outcome⟩ := by
  induction p generalizing s o with
  | nil => rfl
  | cons st p ih =>
      have hw : I.exp noHoles (I.store x.1 w s) (.clocal x) = w := law.load_store x.1 w s
      have hv : typeExp (.clocal x) = h.2 := ht
      show I.runSteps noHoles (p.map _)
        (I.step noHoles (st.subst h (.clocal x)) ⟨I.store x.1 w s, o⟩) = _
      rw [step_subst hv, hw, Interp.step_store law hx (hp st (by simp))]
      exact ih (fun st' hst' => hp st' (by simp [hst'])) _

end Subst

/-! ### The code that `>>=` builds -/

def CComp.ReturnFree : CComp → Prop
  | .eff _ => True
  | .camlParam _ c => c.ReturnFree
  | .letConst _ _ c => c.ReturnFree
  | .letAssign _ _ c => c.ReturnFree
  | .camlReturnT _ _ => False
  | .ret _ _ => False
  | .letIn _ c => c.ReturnFree

/-- The steps of a computation before its last effect. -/
def CComp.leading : CComp → List Step
  | .eff _ => []
  | .camlParam xs c => .camlParam xs :: c.leading
  | .letConst x i c => .const x i :: c.leading
  | .letAssign lv e c => .assign lv e :: c.leading
  | .camlReturnT _ _ => []
  | .ret _ _ => []
  | .letIn b c => .bind b :: c.leading

/-- The effect that gives the value of a computation. -/
def CComp.last : CComp → CEff
  | .eff e => e
  | .camlParam _ c => c.last
  | .letConst _ _ c => c.last
  | .letAssign _ _ c => c.last
  | .camlReturnT _ e => .exp e
  | .ret _ e => .exp e
  | .letIn _ c => c.last

theorem CComp.steps_eq {c : CComp} (hc : c.ReturnFree) :
    c.steps = c.leading ++ [.result c.last] := by
  induction c with
  | eff e => rfl
  | camlReturnT ty e => cases hc
  | ret ty e => cases hc
  | camlParam xs c ih => rw [steps, ih hc]; rfl
  | letConst x i c ih => rw [steps, ih hc]; rfl
  | letAssign lv e c ih => rw [steps, ih hc]; rfl
  | letIn b c ih => rw [steps, ih hc]; rfl

/-- The steps that name the value of an effect, and the expression for it. A
value needs no name. -/
def naming (x : CLocal) : CEff → List Step × CExp
  | .exp v => ([], v)
  | e => ([.bind (x, e)], .clocal x)

theorem naming_of_ne {x : CLocal} {e : CEff} (he : ∀ v, e ≠ .exp v) :
    naming x e = ([.bind (x, e)], .clocal x) := by
  cases e with
  | exp v => exact absurd rfl (he v)
  | _ => rfl

/-- The name that `>>=` has for the value of `c`. -/
def valueLocal (c : CComp) (ty : Typ) (n : Nat) : CLocal :=
  (freshName (n + c.steps.length), .ty ty)

/-- What `c >>= k` applies `k` to. -/
def boundTo (c : CComp) (ty : Typ) (n : Nat) : CExp :=
  (naming (valueLocal c ty n) c.last).2

theorem typeEff_last {c : CComp} (hc : c.ReturnFree) : typeEff c.last = typeComp c := by
  induction c with
  | eff e => rfl
  | camlReturnT ty e => cases hc
  | ret ty e => cases hc
  | camlParam xs c ih => exact ih hc
  | letConst x i c ih => exact ih hc
  | letAssign lv e c ih => exact ih hc
  | letIn b c ih => exact ih hc

theorem typeExp_boundTo {c : CComp} (hc : c.ReturnFree) {ty : Typ}
    (hty : typeComp c = .ok (.ty ty)) (n : Nat) : typeExp (boundTo c ty n) = .ty ty := by
  have hlast := (typeEff_last hc).trans hty
  unfold boundTo
  cases he : c.last with
  | exp v =>
      rw [he, typeEff] at hlast
      exact Except.ok.inj hlast
  | _ => rfl

theorem valueLocal_succ {c c' : CComp} (hlen : c.steps.length = c'.steps.length + 1)
    (ty : Typ) (n : Nat) : valueLocal c ty n = valueLocal c' ty (n + 1) := by
  rw [valueLocal, valueLocal, hlen, Nat.add_assoc, Nat.add_comm 1]

/-- What stands around a computation floats out of `>>=`. -/
theorem letBind_around (around : CComp → CComp) {c : CComp} {ty : Typ}
    (hty : typeComp c = .ok (.ty ty))
    (hbind : ∀ k n, letBind (around c) ty k n =
      (do return around (← letBind c (← typedComp c) k)) (n + 1))
    {st : Step} (hsteps : ∀ c, (around c).steps = st :: c.steps)
    (hleading : (around c).leading = st :: c.leading) (hlast : (around c).last = c.last)
    {k : CExp → Gen CComp}
    (ih : ∀ {n m : Nat} {d : CComp},
      k (boundTo c ty n) (n + c.steps.length) = .ok (d, m) →
      ∃ b, letBind c ty k n = .ok (b, m) ∧
        b.steps = c.leading ++ (naming (valueLocal c ty n) c.last).1 ++ d.steps)
    {n m : Nat} {d : CComp}
    (hk : k (boundTo (around c) ty n) (n + (around c).steps.length) = .ok (d, m)) :
    ∃ b, letBind (around c) ty k n = .ok (b, m) ∧
      b.steps = (around c).leading ++
        (naming (valueLocal (around c) ty n) (around c).last).1 ++ d.steps := by
  have hlen : (around c).steps.length = c.steps.length + 1 := by rw [hsteps]; rfl
  have hx := valueLocal_succ hlen ty n
  have hcount : n + (around c).steps.length = n + 1 + c.steps.length := by omega
  rw [boundTo, hlast, hx, hcount] at hk
  obtain ⟨b, hb, hs⟩ := ih hk
  refine ⟨around b, ?_, ?_⟩
  · rw [hbind, typedComp_of_ok hty, lift_ok_bind, bind_of_ok hb]
    rfl
  · rw [hsteps, hs, hleading, hlast, hx]
    rfl

/-- `>>=` moves the steps of `c` outwards, names its value, and goes on with
the continuation. -/
theorem letBind_steps {c : CComp} (hc : c.ReturnFree) {ty : Typ}
    (hty : typeComp c = .ok (.ty ty)) {k : CExp → Gen CComp} {n m : Nat} {d : CComp}
    (hk : k (boundTo c ty n) (n + c.steps.length) = .ok (d, m)) :
    ∃ b, letBind c ty k n = .ok (b, m) ∧
      b.steps = c.leading ++ (naming (valueLocal c ty n) c.last).1 ++ d.steps := by
  induction c generalizing n m d with
  | eff e =>
      by_cases he : ∃ v, e = .exp v
      · obtain ⟨v, rfl⟩ := he
        exact ⟨d, hk, rfl⟩
      · have he' : ∀ v, e ≠ .exp v := fun v hv => he ⟨v, hv⟩
        rw [boundTo, CComp.last, naming_of_ne he'] at hk
        refine ⟨.letIn (valueLocal (.eff e) ty n, e) d, ?_, ?_⟩
        · rw [letBind_eff he', letsAround_eq_ok]
          exact ⟨d, hk, rfl⟩
        · rw [CComp.last, naming_of_ne he']
          rfl
  | camlReturnT t v => cases hc
  | ret t v => cases hc
  | camlParam xs c ih =>
      exact letBind_around (.camlParam xs) (c := c) hty (fun _ _ => rfl) (fun _ => rfl) rfl rfl
        (ih hc hty) hk
  | letConst x i c ih =>
      exact letBind_around (.letConst x i) (c := c) hty (fun _ _ => rfl) (fun _ => rfl) rfl rfl
        (ih hc hty) hk
  | letAssign lv e c ih =>
      exact letBind_around (.letAssign lv e) (c := c) hty (fun _ _ => rfl) (fun _ => rfl) rfl rfl
        (ih hc hty) hk
  | letIn b c ih =>
      exact letBind_around (.letIn b) (c := c) hty (fun _ _ => rfl) (fun _ => rfl) rfl rfl
        (ih hc hty) hk

/-! ### The meaning of `>>=` -/

/-- `k`, called when `n` names are drawn, builds `body` with its argument in
the hole `h`, whatever the argument of the type of the hole is. -/
def Continues (k : CExp → Gen CComp) (n m : Nat) (h : CLocal) (body : CComp) : Prop :=
  ∀ v, typeExp v = h.2 → k v n = .ok (body.subst h v, m)

/-- The effects of a step. To give the value of an expression is none. -/
def Step.effects : Step → List CEff
  | .bind b => [b.2]
  | .assign _ e => [e]
  | .result (.exp _) => []
  | .result e => [e]
  | _ => []

def CComp.effects (c : CComp) : List CEff := c.steps.flatMap Step.effects

variable {V σ : Type} {I : Interp V σ}

/-- Before its last effect a computation does not end. -/
theorem outcome_leading (c : CComp) (r : Running V σ) :
    (I.runSteps noHoles c.leading r).outcome = r.outcome := by
  induction c generalizing r with
  | camlParam xs c ih => exact ih _
  | letConst x i c ih => exact ih _
  | letAssign lv e c ih => exact ih _
  | letIn b c ih => exact ih _
  | _ => rfl

def Interp.beforeLast (I : Interp V σ) (c : CComp) (s : σ) : σ :=
  (I.runSteps noHoles c.leading ⟨s, none⟩).memory

theorem runSteps_leading (c : CComp) (s : σ) :
    I.runSteps noHoles c.leading ⟨s, none⟩ = ⟨I.beforeLast c s, none⟩ := by
  have h := outcome_leading (I := I) c ⟨s, none⟩
  rw [Interp.beforeLast]
  cases hr : I.runSteps noHoles c.leading ⟨s, none⟩ with
  | mk s1 o =>
      rw [hr] at h
      cases h
      rfl

/-- A return-free computation runs to a value. -/
theorem runComp_of_returnFree {c : CComp} (hc : c.ReturnFree) (s : σ) :
    I.runComp noHoles c s = ⟨(I.eff noHoles c.last (I.beforeLast c s)).2,
      some (.value (I.eff noHoles c.last (I.beforeLast c s)).1)⟩ := by
  rw [Interp.runComp, CComp.steps_eq hc, Interp.runSteps_append, runSteps_leading]
  rfl

theorem effects_named {c : CComp} (hc : c.ReturnFree) (x : CLocal) :
    (c.leading ++ (naming x c.last).1).flatMap Step.effects = c.effects := by
  rw [CComp.effects, CComp.steps_eq hc, List.flatMap_append, List.flatMap_append]
  cases c.last <;> rfl

/-- The memory `s'` is `s`, but for the content of `x`. -/
def Interp.SameBut (I : Interp V σ) (x : String) (s s' : σ) : Prop :=
  s' = s ∨ ∃ w, s' = I.store x w s

/-- `b` does what `c` does and then what `body` does with the value of `c` in
its hole. -/
structure RunsInSequence (I : Interp V σ) (c : CComp) (ty : Typ) (n : Nat) (h : CLocal)
    (body b : CComp) : Prop where
  steps : b.steps = c.leading ++ (naming (valueLocal c ty n) c.last).1 ++
    (body.subst h (boundTo c ty n)).steps
  effects : b.effects = c.effects ++ (body.subst h (boundTo c ty n)).effects
  runs : ∀ s, ∃ w s1, I.runComp noHoles c s = ⟨s1, some (.value w)⟩ ∧
    (I.runComp noHoles b s).outcome = (I.runComp (hole h w) body s1).outcome ∧
    I.SameBut (valueLocal c ty n).1 (I.runComp (hole h w) body s1).memory
      (I.runComp noHoles b s).memory

/-- The steps after those of `c`, whether or not its value is named. -/
theorem runSteps_continuation (law : I.Lawful) {c : CComp} (hc : c.ReturnFree) {ty : Typ}
    (hty : typeComp c = .ok (.ty ty)) {n : Nat} {h : CLocal} (hh : h.2 = .ty ty)
    {p : List Step}
    (hassign : ∀ v, c.last = .exp v → ∀ x ∈ v.reads, ∀ st ∈ p, I.Keeps st x.1)
    (hfresh : ∀ st ∈ p, (valueLocal c ty n).1 ∉ st.names)
    (hunseen : I.Unseen (valueLocal c ty n).1) (s : σ) :
    let r := I.runSteps noHoles ((naming (valueLocal c ty n) c.last).1 ++
      p.map (Step.subst h (boundTo c ty n))) ⟨s, none⟩
    let r' := I.runSteps (hole h (I.eff noHoles c.last s).1) p
      ⟨(I.eff noHoles c.last s).2, none⟩
    r.outcome = r'.outcome ∧ I.SameBut (valueLocal c ty n).1 r'.memory r.memory := by
  have hv : typeExp (boundTo c ty n) = h.2 := (typeExp_boundTo hc hty n).trans hh.symm
  unfold boundTo at hv ⊢
  by_cases hlast : ∃ v, c.last = .exp v
  · -- the value is an expression, and stands where it is used
    obtain ⟨v, hlast⟩ := hlast
    rw [hlast] at hv ⊢
    dsimp only [naming] at hv ⊢
    rw [List.nil_append, runSteps_subst hv fun st hst x hx => hassign v hlast x hx st hst]
    exact ⟨rfl, .inl rfl⟩
  · have hne : ∀ v, c.last ≠ .exp v := fun v hv => hlast ⟨v, hv⟩
    have hcast := law.cast_eff (ρ := noHoles) s hne ((typeEff_last hc).trans hty)
    rw [naming_of_ne hne]
    have hbind : I.step noHoles (.bind (valueLocal c ty n, c.last)) ⟨s, none⟩ =
        ⟨I.store (valueLocal c ty n).1 (I.eff noHoles c.last s).1
          (I.eff noHoles c.last s).2, none⟩ := by
      show (⟨I.store _ (I.cast (.ty ty) _) _, none⟩ : Running V σ) = _
      rw [hcast]
    rw [List.singleton_append, Interp.runSteps, run_cons, hbind, ← Interp.runSteps,
      runSteps_local law hunseen hh.symm hfresh]
    exact ⟨rfl, .inr ⟨_, rfl⟩⟩

/-- The code that `>>=` builds runs like its first part followed by the
continuation, applied to the value of the first part. Its lets bind effects
only, by their type. -/
theorem letBind_runsInSequence (law : I.Lawful) {c : CComp} (hc : c.ReturnFree) {ty : Typ}
    (hty : typeComp c = .ok (.ty ty)) {k : CExp → Gen CComp} {n m : Nat} {h : CLocal}
    {body : CComp} (hh : h.2 = .ty ty) (hk : Continues k (n + c.steps.length) m h body)
    (hassign : ∀ v, c.last = .exp v → ∀ x ∈ v.reads, ∀ st ∈ body.steps, I.Keeps st x.1)
    (hfresh : (valueLocal c ty n).1 ∉ body.names)
    (hunseen : I.Unseen (valueLocal c ty n).1) :
    ∃ b, letBind c ty k n = .ok (b, m) ∧ RunsInSequence I c ty n h body b := by
  have hv : typeExp (boundTo c ty n) = h.2 := (typeExp_boundTo hc hty n).trans hh.symm
  obtain ⟨b, hb, hsteps⟩ := letBind_steps hc hty (hk _ hv)
  have hnames : ∀ st ∈ body.steps, (valueLocal c ty n).1 ∉ st.names :=
    fun st hst hx => hfresh (List.mem_flatMap.mpr ⟨st, hst, hx⟩)
  refine ⟨b, hb, hsteps, ?_, fun s => ?_⟩
  · rw [CComp.effects, hsteps, List.flatMap_append, effects_named hc]
    rfl
  · refine ⟨_, _, runComp_of_returnFree hc s, ?_⟩
    rw [Interp.runComp, hsteps, CComp.steps_subst, List.append_assoc,
      Interp.runSteps_append, runSteps_leading]
    exact runSteps_continuation law hc hty hh hassign hnames hunseen (I.beforeLast c s)

/-! ### An interpretation that logs the calls -/

def callLog : Interp Int ((String → Int) × List String) where
  load x s := s.1 x
  store x v s := (fun y => if y = x then v else s.1 y, s.2)
  int i := i
  cast _ v := v
  addr _ := 0
  act
    | .app f _, s => (s.2.length, (s.1, s.2 ++ [f.fname]))
    | _, s => (0, s)

theorem callLog_lawful : callLog.Lawful where
  load_store x v s := if_pos rfl
  load_store_of_ne v s h := if_neg h
  store_comm u v s h := by
    refine Prod.ext (funext fun z => ?_) rfl
    simp only [callLog]
    grind
  cast_eff _ _ _ := rfl

theorem callLog_unseen (x : String) : callLog.Unseen x := by
  intro a _ v s
  cases a <;> rfl

/-- `let y = g () in h (y)`. -/
def callTwice : CComp :=
  .letIn (("y", .ty value), .app (conser "g" (toValue .void)) [])
    (.eff (.app (conser "h" (toValue value)) [.clocal ("y", .ty value)]))

theorem letBind_runsInSequence_callTwice :
    ∃ b, letBind callTwice value (fun v => pure (.ret (typeExp v) v)) 0 = .ok (b, 2) ∧
      RunsInSequence callLog callTwice value 0 ("r", .ty value)
        (.ret (.ty value) (.clocal ("r", .ty value))) b := by
  refine letBind_runsInSequence (c := callTwice) callLog_lawful trivial rfl rfl ?_ ?_
    (by decide) (callLog_unseen _)
  · intro v hv
    show Except.ok (CComp.ret (typeExp v) v, 2) = _
    rw [hv]
    rfl
  · intro v hv
    cases hv

end CtypesCbuf.CLanguage
