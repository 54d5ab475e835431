import CtypesCbuf.Cbuf.GenerateML
import CtypesCbuf.Cbuf.Layout

/-!
Which specifications each side accepts. The C side accepts `GenerateC.Accepted`.
The ML side runs through the specification three times: for the type of the
external, for its attributes and for the wrapper. `Mismatch` collects the
specifications on which the two sides disagree.
-/

namespace CtypesCbuf.Cbuf.GenerateML

open NameSupply Supply
open Ctypes hiding Fn
open CLanguage Stubs
open GenerateC (AcceptedBuffers Accepted)

/-! ### Types -/

def HasReturnTyp : Typ → Prop
  | .array _ _ | .bigarray _ | .ocaml _ => False
  | _ => True

def Returnable : Typ → Prop
  | .void | .primitive _ | .pointer _ | .funptr _ | .struct _ _ _ | .union _ _ _ => True
  | _ => False

def Incomplete : Typ → Prop
  | .struct _ (.incomplete _) _ | .union _ none _ => True
  | _ => False

theorem mlTypOfArgTyp_yields (t : Typ) : Yields (mlTypOfArgTyp t) (HasArgTyp t.core) := by
  rw [← mlTypOfArgTyp_core]
  cases ht : t.core with
  | view v ty => exact absurd ht (Typ.core_ne_view t v ty)
  | array u n => exact yields_error _
  | bigarray ba => exact yields_error _
  | ocaml o => cases o <;> exact yields_ok _
  | _ => exact yields_ok _

theorem mlTypOfReturnTyp_yields (t : Typ) :
    Yields (mlTypOfReturnTyp t) (HasReturnTyp t.core) := by
  rw [← mlTypOfReturnTyp_core]
  cases ht : t.core with
  | view v ty => exact absurd ht (Typ.core_ne_view t v ty)
  | array u n => exact yields_error _
  | bigarray ba => exact yields_error _
  | ocaml o => cases o <;> exact yields_error _
  | _ => exact yields_ok _

/-- What is projected in C has a type in an external. -/
theorem hasArgTyp_of_passed {t : Typ} (h : Passed t) : HasArgTyp t.core := by
  rcases h with h | h
  · rw [h]
    trivial
  · cases ht : t.core with
    | array u n => exact (ht ▸ h : Projectable (.array u n)).elim
    | bigarray ba => exact (ht ▸ h : Projectable (.bigarray ba)).elim
    | _ => trivial

theorem hasReturnTyp_of_returnable {t : Typ} (h : Returnable t) : HasReturnTyp t := by
  cases t with
  | array u n => exact h.elim
  | bigarray ba => exact h.elim
  | ocaml o => exact h.elim
  | _ => trivial

/-- What C injects has a pattern, and so has what is not sealed yet. -/
theorem returnable_iff (t : Typ) : Returnable t ↔ Injectable t ∨ Incomplete t := by
  cases t with
  | struct tag spec fields => cases spec <;> simp [Returnable, Injectable, Incomplete]
  | union utag uspec ufields => cases uspec <;> simp [Returnable, Injectable, Incomplete]
  | _ => simp [Returnable, Injectable, Incomplete]

/-- As an argument, an OCaml value has a pattern too. -/
theorem passed_iff (t : Typ) :
    Passed t ↔ Injectable t.core ∨ Incomplete t.core ∨ ∃ o, t.core = .ocaml o := by
  rw [Passed]
  cases t.core with
  | struct tag spec fields => cases spec <;> simp [Projectable, Injectable, Incomplete]
  | union utag uspec ufields => cases uspec <;> simp [Projectable, Injectable, Incomplete]
  | _ => simp [Projectable, Injectable, Incomplete]

/-! ### Externals -/

/-- The externals that have a type: the arguments, then the result. -/
def HasExternalType : Fn → Prop
  | .returns t => HasReturnTyp t.core
  | .function f t => HasArgTyp f.core ∧ HasExternalType t
  | .buffers _ b r => HasBufferTypes b r
where
  HasBufferTypes : CBuffers → Fn → Prop
    | .lastBuf _ t, .returns rt => HasArgTyp t.core ∧ HasArgTyp rt.core
    | .lastBuf _ _, _ => False
    | .conBuf (.lastBuf _ t) b, r => HasArgTyp t.core ∧ HasBufferTypes b r
    | .conBuf (.conBuf _ _) _, _ => False

theorem mlExternalTypeOfCbuffers_yields (b : CBuffers) (r : Fn) :
    Yields (mlExternalTypeOfCbuffers b r .result)
      (HasExternalType.HasBufferTypes b r) := by
  induction b with
  | lastBuf i t =>
      cases r with
      | returns rt =>
          refine ((mlTypOfArgTyp_yields rt).bind fun _ => (mlTypOfArgTyp_yields t).bind
            fun _ => yields_ok _).congr ?_
          simp [HasExternalType.HasBufferTypes, and_comm]
      | _ => exact yields_error _
  | conBuf l b ihl ihb =>
      cases l with
      | lastBuf i t =>
          refine (ihb.bind fun _ => (mlTypOfArgTyp_yields t).bind fun _ =>
            yields_ok _).congr ?_
          simp [HasExternalType.HasBufferTypes, and_comm]
      | conBuf l r => exact yields_error _

theorem mlExternalTypeOfFn_yields (errno_ : ErrnoPolicy) (f : Fn) :
    Yields (mlExternalTypeOfFn errno_ .result f) (HasExternalType f) := by
  induction f with
  | returns t =>
      refine ((mlTypOfReturnTyp_yields t).bind fun _ => yields_ok _).congr ?_
      simp [HasExternalType]
  | function f t ih =>
      refine (ih.bind fun _ => (mlTypOfArgTyp_yields f).bind fun _ => yields_ok _).congr ?_
      simp [HasExternalType, and_comm]
  | buffers cpos b r ih => exact mlExternalTypeOfCbuffers_yields b r

/-- Buffers come before the first argument that is not a float. -/
def FloatBuffers : Fn → Prop
  | .returns _ => False
  | .function f t => isFloatPrimitive f ∧ FloatBuffers t
  | .buffers _ _ _ => True

theorem float_yields (f : Fn) : Yields (float f) (¬ FloatBuffers f) := by
  induction f with
  | returns t => exact (yields_ok _).congr (by simp [FloatBuffers])
  | function f t ih =>
      rw [float]
      split
      · rename_i hf
        exact ih.congr (by simp [FloatBuffers, hf])
      · rename_i hf
        exact (yields_ok _).congr (by simp [FloatBuffers, hf])
  | buffers cpos b r ih => exact (yields_error _).congr (by simp [FloatBuffers])

theorem extern_yields (errno_ : ErrnoPolicy) (stubName externalName : String) (f : Fn) :
    Yields (extern_ errno_ stubName externalName f)
      (HasExternalType f ∧ ¬ FloatBuffers f) := by
  rw [extern_, attributes]
  refine ((mlExternalTypeOfFn_yields errno_ f).bind fun _ =>
    (((float_yields f).bind fun _ => yields_ok _).bind fun _ => yields_ok _)).congr ?_
  simp

/-! ### Wrappers -/

def Named (binds : List MlBind) : Prop :=
  ∀ b ∈ binds, ∀ x ∈ patBoundVars b.1, ∃ n, x = freshName n

theorem Named.nil : Named [] := by
  intro b hb
  cases hb

theorem Named.append {bs bs' : List MlBind} (h : Named bs) (h' : Named bs') :
    Named (bs ++ bs') := by
  intro b hb
  rcases List.mem_append.mp hb with hb | hb
  · exact h b hb
  · exact h' b hb

theorem named_singleton {p : MlPat} {e : MlExp} {n : Nat}
    (h : patBoundVars p = [freshName n]) : Named [(p, e)] := by
  intro b hb x hx
  obtain rfl := List.mem_singleton.mp hb
  rw [h] at hx
  exact ⟨n, List.mem_singleton.mp hx⟩

theorem mem_patsBoundVars {ps : List MlPat} {xs : List String} {x : String} :
    x ∈ patsBoundVars (.ofList ps) xs ↔ x ∈ xs ∨ ∃ p ∈ ps, x ∈ patBoundVars p := by
  induction ps generalizing xs with
  | nil => simp [MlPats.ofList, patsBoundVars]
  | cons p ps ih =>
      have hcons : MlPats.ofList (p :: ps) = .cons p (.ofList ps) := rfl
      rw [hcons, patsBoundVars, ih]
      simp only [List.mem_append, List.exists_mem_cons_iff]
      tauto

theorem ident_meets (n : Nat) :
    (ident (freshName n)).Meets True fun e => e = .ident [freshName n] := by
  rw [ident, pathOfString_freshName]
  exact meets_pure rfl

/-- A drawn name is an identifier. -/
@[simp] theorem ident_bind {α : Type} (n k : Nat) (f : MlExp → Gen α) :
    (ident (freshName n) >>= f) k = f (.ident [freshName n]) k := by
  rw [ident, pathOfString_freshName]
  rfl

theorem mapM_ident_meets {xs : List String} (h : ∀ x ∈ xs, ∃ n, x = freshName n) :
    (xs.mapM ident).Meets True fun _ => True := by
  induction xs with
  | nil =>
      rw [List.mapM_nil]
      exact meets_pure trivial
  | cons x xs ih =>
      obtain ⟨n, rfl⟩ := h x (by simp)
      rw [List.mapM_cons]
      refine ((ident_meets n).bind fun _ _ =>
        (ih fun y hy => h y (by simp [hy])).bind fun _ _ => meets_pure trivial).congr ?_
      simp

theorem mapResult_meets (concurrency : ConcurrencyPolicy) (errno_ : ErrnoPolicy)
    (mk : String → ResultMap)
    (hmk : mk = .makePtr ∨ mk = .makeFunPtr ∨ mk = .makeStructured ∨ mk = .appl)
    (n : Nat) (e : MlExp) :
    (mapResult concurrency errno_ (mk (freshName n)) e).Meets True fun _ => True := by
  have h : ∀ k : MlExp → MlExp,
      (do return k (← ident (freshName n))).Meets True fun _ => True := fun k =>
    ((ident_meets n).bind fun _ _ => meets_pure trivial).congr (by simp)
  rcases hmk with rfl | rfl | rfl | rfl <;> cases concurrency <;> cases errno_ <;>
    exact h _

theorem passed_view (v : ViewId) (ty : Typ) : Passed (.view v ty) ↔ Passed ty := by
  simp only [Passed, Typ.core_view]

theorem patternAndExpOfTyp_arg_meets (concurrency : ConcurrencyPolicy)
    (errno_ : ErrnoPolicy) (t : Typ) (e : MlExp) {binds : List MlBind}
    (hbinds : Named binds) :
    (patternAndExpOfTyp concurrency errno_ t e .arg binds).Meets (Passed t)
      fun r => Named r.binds := by
  have hvar : ∀ mk : String → MlExp → PatternExp,
      (∀ n e, Named (mk (freshName n) e).binds) → (do
        let x ← freshVar
        return mk x (← ident x)).Meets True fun r => Named r.binds := fun mk hmk =>
    meets_fresh_bind fun n => Meets.congr
      ((ident_meets n).bind fun _ _ => meets_pure (hmk n _)) (by simp)
  have hnew : ∀ (c : String) (n : Nat) (e : MlExp),
      Named (binds ++ [(staticCon c [.var (freshName n)], e)]) := fun c n e =>
    hbinds.append (named_singleton rfl)
  induction t using Typ.core.induct generalizing e with
  | case1 v ty ih =>
      rw [patternAndExpOfTyp]
      refine meets_fresh_bind fun i => meets_fresh_bind fun j =>
        ((ident_meets i).bind fun _ _ => (ih _).bind fun r hr =>
          (ident_meets j).bind fun _ _ => meets_pure ?_).congr ?_
      · exact (named_singleton (n := j) rfl).append hr
      · simp [passed_view]
  | case2 t hview =>
      cases t with
      | view v ty => exact absurd rfl (hview v ty)
      | void => exact Meets.congr (meets_pure hbinds) (by simp [Passed, Typ.core])
      | primitive p =>
          exact Meets.congr (meets_pure hbinds) (by simp [Passed, Typ.core, Projectable])
      | abstract a => exact (meets_fail _).congr (by simp [Passed, Typ.core, Projectable])
      | array u n => exact (meets_fail _).congr (by simp [Passed, Typ.core, Projectable])
      | bigarray ba => exact (meets_fail _).congr (by simp [Passed, Typ.core, Projectable])
      | ocaml o =>
          cases o <;>
            exact Meets.congr (meets_pure hbinds)
              (by simp [Passed, Typ.core, Projectable])
      | _ =>
          exact (hvar _ fun n e => hnew _ n _).congr
            (by simp [Passed, Typ.core, Projectable])

theorem patternAndExpOfTyp_result_meets (concurrency : ConcurrencyPolicy)
    (errno_ : ErrnoPolicy) (t : Typ) (e : MlExp) {binds : List MlBind}
    (hbinds : Named binds) :
    (patternAndExpOfTyp concurrency errno_ t e .result binds).Meets (Returnable t.core)
      fun r => Named r.binds := by
  have hmap : ∀ (mk : String → ResultMap) (e : MlExp) (k : String → MlExp → PatternExp),
      (mk = .makePtr ∨ mk = .makeFunPtr ∨ mk = .makeStructured ∨ mk = .appl) →
      (∀ x e, Named (k x e).binds) → (do
        let x ← freshVar
        return k x (← mapResult concurrency errno_ (mk x) e)).Meets True
          fun r => Named r.binds := fun mk e k hmk hk =>
    meets_fresh_bind fun n => Meets.congr
      ((mapResult_meets concurrency errno_ mk hmk n e).bind
        fun _ _ => meets_pure (hk _ _)) (by simp)
  induction t using Typ.core.induct generalizing e with
  | case1 v ty ih =>
      rw [patternAndExpOfTyp]
      refine Meets.congr ((ih e).bind fun r hr =>
        hmap .appl (r.exp.getD e) (fun x m => ⟨_, some m, r.binds⟩) (by simp)
          fun _ _ => hr) ?_
      simp
  | case2 t hview =>
      cases t with
      | view v ty => exact absurd rfl (hview v ty)
      | void => exact Meets.congr (meets_pure hbinds) (by simp [Typ.core, Returnable])
      | primitive p =>
          exact Meets.congr (meets_pure hbinds) (by simp [Typ.core, Returnable])
      | pointer u =>
          exact (hmap .makePtr e _ (by simp) fun _ _ => hbinds).congr
            (by simp [Typ.core, Returnable])
      | funptr fn =>
          exact (hmap .makeFunPtr e _ (by simp) fun _ _ => hbinds).congr
            (by simp [Typ.core, Returnable])
      | struct tag spec fields =>
          exact (hmap .makeStructured e _ (by simp) fun _ _ => hbinds).congr
            (by simp [Typ.core, Returnable])
      | union utag uspec ufields =>
          exact (hmap .makeStructured e _ (by simp) fun _ _ => hbinds).congr
            (by simp [Typ.core, Returnable])
      | ocaml o =>
          cases o <;> exact (meets_fail _).congr (by simp [Typ.core, Returnable])
      | _ => exact (meets_fail _).congr (by simp [Typ.core, Returnable])

theorem patternAndExpOfCbuffers2_meets (b : CBuffers) (e : MlExp)
    {binds : List MlBind} (hbinds : Named binds) :
    (patternAndExpOfCbuffers2 b e binds).Meets (AcceptedBuffers b)
      fun r => Named r.binds := by
  induction b generalizing e with
  | lastBuf i t =>
      rw [patternAndExpOfCbuffers2]
      refine ((patternAndExpOfTyp_arg_meets _ _ t e Named.nil).bind fun _ _ =>
        meets_fresh_bind fun n => (ident_meets n).bind fun _ _ =>
          (ident_meets n).bind fun _ _ => meets_pure ?_).congr ?_
      · exact hbinds.append (named_singleton (n := n) rfl)
      · simp [AcceptedBuffers]
  | conBuf l b ihl ihb =>
      cases l with
      | conBuf l r => exact meets_fail _
      | lastBuf i t =>
          rw [patternAndExpOfCbuffers2]
          refine ((patternAndExpOfTyp_arg_meets _ _ t e Named.nil).bind fun _ _ =>
            meets_fresh_bind fun n => (ident_meets n).bind fun _ _ =>
              (ihb _).bind fun r hr => (ident_meets n).bind fun _ _ =>
                meets_pure ?_).congr ?_
          · exact hbinds.append ((named_singleton (n := n) rfl).append hr)
          · simp [AcceptedBuffers]

theorem patternAndExpOfCbuffers_meets (b : CBuffers) (e : MlExp)
    {binds : List MlBind} (hbinds : Named binds) :
    (patternAndExpOfCbuffers b e binds).Meets (AcceptedBuffers b)
      fun r => Named r.2.2 := by
  rw [patternAndExpOfCbuffers]
  refine Meets.congr ((patternAndExpOfCbuffers2_meets b e hbinds).bind fun r hr =>
    meets_fresh_bind fun n => (ident_meets n).bind fun _ _ => meets_pure hr) ?_
  simp

/-- The specifications a wrapper is built for. -/
def Wrappable : Fn → Prop
  | .returns t => Returnable t.core
  | .function f t => Passed f ∧ Wrappable t
  | .buffers _ b (.returns t) => Passed t ∧ AcceptedBuffers b
  | .buffers _ _ _ => False

def NamedWrapper (s : WrapperState) : Prop :=
  (∀ x ∈ s.args, ∃ n, x = freshName n) ∧ Named s.binds

theorem NamedWrapper.arg {s : WrapperState} (h : NamedWrapper s) (n : Nat) (pat : MlPat)
    (trivial : Bool) :
    NamedWrapper { s with args := freshName n :: s.args, pat, trivial } := by
  refine ⟨fun x hx => ?_, h.2⟩
  rcases List.mem_cons.mp hx with rfl | hx
  · exact ⟨n, rfl⟩
  · exact h.1 x hx

/-- The step of `wrapper_body` for an argument. -/
theorem wrapperBody_function {concurrency : ConcurrencyPolicy} {errno_ : ErrnoPolicy}
    {pol : Polarity} {t : Typ} {f : Fn} {exp : MlExp} {binds : List MlBind} {n n' : Nat}
    {s : WrapperState}
    (h : wrapperBody concurrency errno_ pol (.function t f) exp binds n = .ok (s, n')) :
    ∃ r n1 s1,
      patternAndExpOfTyp concurrency errno_ t (.ident [freshName (n + 1)]) pol binds
        (n + 1) = .ok (r, n1) ∧
      wrapperBody concurrency errno_ pol f
        (.appl exp (r.exp.getD (.ident [freshName (n + 1)]))) r.binds n1 = .ok (s1, n') ∧
      s = { s1 with args := freshName (n + 1) :: s1.args
                    trivial := r.exp.isNone && s1.trivial
                    pat := localCon "Function" [r.pat, s1.pat] } := by
  simp only [wrapperBody, freshVar_bind, ident_bind] at h
  obtain ⟨r, n1, hr, h⟩ := bind_eq_ok.mp h
  refine ⟨r, n1, ?_⟩
  cases hexp : r.exp with
  | none =>
      rw [hexp] at h
      simp only [ident_bind] at h
      obtain ⟨s1, n2, hs1, h⟩ := bind_eq_ok.mp h
      cases h
      exact ⟨s1, hr, hs1, rfl⟩
  | some e =>
      rw [hexp] at h
      obtain ⟨s1, n2, hs1, h⟩ := bind_eq_ok.mp h
      cases h
      exact ⟨s1, hr, hs1, rfl⟩

theorem wrapperBody_meets (concurrency : ConcurrencyPolicy) (errno_ : ErrnoPolicy)
    (f : Fn) (exp : MlExp) {binds : List MlBind} (hbinds : Named binds) :
    (wrapperBody concurrency errno_ .arg f exp binds).Meets (Wrappable f) NamedWrapper := by
  induction f generalizing exp binds with
  | returns t =>
      rw [wrapperBody]
      refine ((patternAndExpOfTyp_result_meets concurrency errno_ t _ hbinds).bind
        fun r hr => meets_pure ?_).congr ?_
      · exact ⟨by simp, hr⟩
      · simp [Wrappable]
  | function f t ih =>
      rw [wrapperBody]
      refine (meets_fresh_bind fun n => (ident_meets n).bind fun _ _ =>
        Meets.bind (Q := Wrappable t)
          (patternAndExpOfTyp_arg_meets concurrency errno_ f _ hbinds)
          fun r hr => ?_).congr ?_
      · cases r.exp with
        | none =>
            refine ((ident_meets n).bind fun _ _ => (ih _ hr).bind fun s hs =>
              meets_pure (hs.arg n _ _)).congr ?_
            simp
        | some exp' =>
            refine ((ih _ hr).bind fun s hs => meets_pure (hs.arg n _ _)).congr ?_
            simp
      · simp [Wrappable]
  | buffers cpos b r ih =>
      cases r with
      | returns t =>
          have hbody : wrapperBody concurrency errno_ .arg (.buffers cpos b (.returns t)) exp
              binds = (patternAndExpOfTyp .sequential .ignoreErrno t exp .arg [] >>= fun r =>
                patternAndExpOfCbuffers b exp binds >>= fun q =>
                  pure { pat := localCon "Buffers"
                           [.underscore, q.1, localCon "Returns" [r.pat]]
                         exp := q.2.1, args := [], trivial := false, binds := q.2.2 }) := rfl
          rw [hbody]
          refine Meets.congr ((patternAndExpOfTyp_arg_meets _ _ t exp Named.nil).bind
            fun r _ => (patternAndExpOfCbuffers_meets b exp hbinds).bind fun q hq =>
              meets_pure ?_) ?_
          · exact ⟨by simp, hq⟩
          · simp [Wrappable]
      | _ => exact meets_fail _

theorem returnResult_meets {xs : List String} (h : ∀ x ∈ xs, ∃ n, x = freshName n) :
    (returnResult xs).Meets True fun _ => True := by
  rw [returnResult]
  refine Meets.congr (meets_fresh_bind fun n => (mapM_ident_meets h).bind fun _ _ =>
    (ident_meets n).bind fun _ _ => meets_pure trivial) ?_
  simp

theorem wrapper_meets (concurrency : ConcurrencyPolicy) (errno_ : ErrnoPolicy)
    (id : Path) (f : Fn) {name : String} {p : Path} (hname : pathOfString name = .ok p) :
    (wrapper concurrency errno_ id f name .arg).Meets (Wrappable f) fun _ => True := by
  have hident : (ident name).Meets True fun _ => True := by
    rw [ident, hname]
    exact meets_pure trivial
  rw [wrapper]
  refine Meets.congr (hident.bind fun _ _ => Meets.bind (Q := True)
    (wrapperBody_meets concurrency errno_ f _ Named.nil) fun s hs => ?_) (by simp)
  have hbound : ∀ x ∈ s.args ++ patsBoundVars (.ofList (s.binds.map fun b => b.1)) [],
      ∃ n, x = freshName n := by
    intro x hx
    rcases List.mem_append.mp hx with hx | hx
    · exact hs.1 x hx
    · rcases mem_patsBoundVars.mp hx with hx | ⟨p, hp, hx⟩
      · cases hx
      · obtain ⟨b, hb, rfl⟩ := List.mem_map.mp hp
        exact hs.2 b hb x hx
  have hlwt : ∀ k : MlExp → MlPat × MlExp, Meets (do
      let return_ ← returnResult
        (s.args ++ patsBoundVars (.ofList (s.binds.map fun b => b.1)) [])
      return k return_) True fun _ => True := fun k =>
    Meets.congr ((returnResult_meets hbound).bind fun _ _ => meets_pure trivial) (by simp)
  cases concurrency <;> dsimp only <;> split
  · exact meets_pure trivial
  · exact meets_pure trivial
  · exact meets_pure trivial
  · exact meets_pure trivial
  · exact Meets.congr ((mapM_ident_meets hs.1).bind fun _ _ => hlwt _) (by simp)
  · exact hlwt _
  · exact Meets.congr ((mapM_ident_meets hs.1).bind fun _ _ => hlwt _) (by simp)
  · exact hlwt _

def ValidName (externalName : String) : Prop := isValidPath (split externalName) = true

theorem pathOfString_yields (s : String) : Yields (pathOfString s) (ValidName s) := by
  rw [pathOfString]
  split
  · rename_i h
    exact (yields_ok _).congr (by simp [ValidName, h])
  · rename_i h
    exact (yields_error _).congr (by simp [ValidName, h])

theorem case_succeeds_iff (concurrency : ConcurrencyPolicy) (errno_ : ErrnoPolicy)
    (stubName externalName : String) (f : Fn) (n : Nat) :
    Succeeds (case concurrency errno_ stubName externalName f) n ↔
      ValidName externalName ∧ Wrappable f := by
  have h : (case concurrency errno_ stubName externalName f).Meets
      (ValidName externalName ∧ Wrappable f) fun _ => True := by
    rw [case]
    refine Meets.congr (((pathOfString_yields externalName).lift
      (R := fun p => pathOfString externalName = .ok p) fun _ hp => hp).bind
        fun p hp => (wrapper_meets concurrency errno_ p f hp).bind fun _ _ =>
          meets_pure trivial) ?_
    simp
  exact h.succeeds n

end CtypesCbuf.Cbuf.GenerateML
