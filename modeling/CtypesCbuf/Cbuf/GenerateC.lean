import CtypesCbuf.Stubs.Projection

/-! Generation of C stubs, `Cbuf_generate_c`. -/

namespace CtypesCbuf.Cbuf.GenerateC

open NameSupply Supply
open Ctypes hiding Fn
open CLanguage Stubs

/-! ### Specifications with named parameters -/

/-- `cbuffers` with a name for each buffer. -/
inductive NamedCBuffers
  | lastBuf (x : String) (i : Nat) (t : Typ)
  | conBuf (l r : NamedCBuffers)
  deriving DecidableEq, Repr

/-- `fn` with a name for each parameter. -/
inductive NamedFn
  | returns (t : Typ)
  | function (x : String) (f : Typ) (t : NamedFn)
  | buffers (cpos : CPosition) (b : NamedCBuffers) (r : NamedFn)
  deriving DecidableEq, Repr

/-- The arguments of a constructor are evaluated from the right, so the last
parameter draws the first name. -/
def nameParamsOfCbuffers : CBuffers → Gen NamedCBuffers
  | .lastBuf i t => do
      let x ← freshVar
      return .lastBuf x i t
  | .conBuf b1 b2 => do
      let b2' ← nameParamsOfCbuffers b2
      let b1' ← nameParamsOfCbuffers b1
      return .conBuf b1' b2'

def nameParams : Fn → Gen NamedFn
  | .returns t => return .returns t
  | .function f t => do
      let t' ← nameParams t
      let x ← freshVar
      return .function x f t'
  | .buffers cpos b r => do
      let r' ← nameParams r
      let b' ← nameParamsOfCbuffers b
      return .buffers cpos b' r'

def valueParamsOfCbuffers : NamedCBuffers → List (String × Ty)
  | .lastBuf x _ _ => [(x, .ty value)]
  | .conBuf b1 b2 => valueParamsOfCbuffers b1 ++ valueParamsOfCbuffers b2

/-- The parameters after a `Buffers` are left out. -/
def valueParams : NamedFn → List (String × Ty)
  | .returns _ => []
  | .function x _ t => (x, .ty value) :: valueParams t
  | .buffers _ b _ => valueParamsOfCbuffers b

/-! ### Stubs -/

/-- The `Returns` case of `body`. -/
def callAndReturn (errno_ : ErrnoPolicy) (fvar : CFunction) (vars : List CExp)
    (t : Typ) : Gen CComp := do
  let x ← freshVar
  let e := .app fvar vars.reverse
  let i ← lift (inj (x, .ty t) t)
  match errno_ with
  | .ignoreErrno => return .letIn ((x, .ty t), e) i
  | .returnErrno =>
      return .letAssign (.var (.global errno)) (.exp (.int 0))
        (.letIn ((x, .ty t), e)
          (← letBind i value fun v => pure (pairWithErrno v)))

/-- The buffers before or behind the arguments; both lists are reversed. -/
def arrange {α : Type} (cpos : CPosition) (vars bufvars : List α) : List α :=
  match cpos with
  | .first => vars ++ bufvars
  | .last => bufvars ++ vars

/-- `body_for_cbuffers`, with the rest of the specification in `rest`. -/
def bodyForCbuffers (cpos : CPosition) (vars : List CExp)
    (rest : List CExp → Gen CComp) : List CExp → NamedCBuffers → Gen CComp
  | bufvars, .lastBuf x _ f => do
      match ← prj f (valueLocal x) with
      | none => rest (arrange cpos vars bufvars)
      | some projected =>
          letBind projected f fun x' => rest (arrange cpos vars (x' :: bufvars))
  | bufvars, .conBuf (.lastBuf x _ f) t => do
      match ← prj f (valueLocal x) with
      -- the arguments collected so far take the place of the buffers here
      | none => bodyForCbuffers cpos vars rest vars t
      | some projected =>
          letBind projected f fun x' =>
            bodyForCbuffers cpos vars rest (x' :: bufvars) t
  | _, .conBuf (.conBuf _ _) _ =>
      fail (.unsupported "not implemented!(Cbuf_generate_c.fn)")

def body (errno_ : ErrnoPolicy) (fvar : CFunction) :
    List CExp → NamedFn → Gen CComp
  | vars, .returns t => callAndReturn errno_ fvar vars t
  | vars, .function x f t => do
      match ← prj f (valueLocal x) with
      | none => body errno_ fvar vars t
      | some projected =>
          letBind projected f fun x' => body errno_ fvar (x' :: vars) t
  | vars, .buffers cpos b r =>
      bodyForCbuffers cpos vars (fun vars' => body errno_ fvar vars' r) [] b

def foreignFunction (cname : String) (f : Fn) : CFunction :=
  { fname := cname, allocates := false, readsOcamlHeap := false, fn := f }

/-- `Generate_C.fn`. -/
def stub (errno_ : ErrnoPolicy) (cname stubName : String) (f : Fn) :
    Gen CFundef := do
  let f' ← nameParams f
  let c ← body errno_ (foreignFunction cname f) [] f'
  return { dec := { name := stubName, params := valueParams f', ret := .ty value }
           body := c
           storage := .external }

/-- `fn`: the definitions it prints, in order. -/
def fn (errno_ : ErrnoPolicy) (cname stubName : String) (f : Fn) :
    Gen (List CFundef) := do
  let dec ← stub errno_ cname stubName f
  withByteFn f dec

/-- `value`: the stub that returns the address of a C variable. -/
def valueStub (cname stubName : String) (typ : Typ) : Gen CFundef := do
  let x ← freshVar
  let e : CExp := .addr (.global { name := cname, typ := .ty typ
                                   referencesOcamlHeap := false })
  let i ← lift (inj (x, .ty (ptr typ)) (ptr typ))
  return { dec := { name := stubName, params := [("_", .ty CLanguage.value)]
                    ret := .ty CLanguage.value }
           body := .letIn ((x, .ty (ptr typ)), .exp e) i
           storage := .external }

/-! ### Inverted stubs, called from C -/

/-- `Cbuf_c_language.args`. The list is built from its end. -/
def args : Fn → Gen (List (String × Ty))
  | .function ty fn => do
      let rest ← args fn
      let x ← freshVar
      return (x, .ty ty) :: rest
  | .returns _ => return []
  | .buffers _ _ _ => fail (.unsupported "not implemented!(Cbuf_c_language.args)")

/-- A parameter of its own name for each argument. -/
theorem args_eq_ok {f : Fn} {n m : Nat} {ps : List (String × Ty)}
    (h : args f n = .ok (ps, m)) :
    ∃ qs : List (String × Typ), ps = qs.map (fun q => (q.1, .ty q.2)) ∧
      qs.map Prod.snd = f.arguments ∧ FreshNames n m (qs.map Prod.fst) := by
  induction f generalizing ps n m with
  | returns t =>
      obtain ⟨rfl, rfl⟩ : [] = ps ∧ n = m := by simpa [args] using h
      exact ⟨[], rfl, rfl, .nil n⟩
  | function t f ih =>
      rw [args, bind_eq_ok] at h
      obtain ⟨rest, k, hrest, h⟩ := h
      obtain ⟨qs, rfl, hqs, hnames⟩ := ih hrest
      obtain ⟨rfl, rfl⟩ : (freshName (k + 1), Ty.ty t) :: qs.map (fun q => (q.1, .ty q.2)) = ps ∧
          k + 1 = m := by simpa using h
      refine ⟨(freshName (k + 1), t) :: qs, rfl, by rw [List.map_cons, hqs]; rfl, ?_⟩
      exact (FreshNames.single (k + 1) (by omega) (Nat.le_refl _)).append' hnames
  | buffers cpos b r ih => simp [args] at h

def fundec (name : String) (fn : Fn) : Gen CFundec := do
  let params ← args fn
  return { name, params, ret := returnType fn }

def functions : CEff :=
  .global { name := "functions", referencesOcamlHeap := true, typ := .ty (ptr value) }

def camlCallbackN : CFunction :=
  { fname := "caml_callbackN", allocates := true, readsOcamlHeap := true
    fn := .function value (.function int (.function (ptr value) (.returns value))) }

def nargsLocal : CLocal := ("nargs", .ty int)

def argsLocal : CLocal := ("locals", .ty (ptr value))

def project (typ : Typ) (e : CExp) : Gen CComp := do
  match ← prj typ e with
  | none => return .eff (.exp e)
  | some e => return e

def wrapIf (cond : Bool) (lft rgt : CComp) : Gen CComp :=
  if cond then andThen lft rgt else pure rgt

/-- `call`: the callback, the projection of its result and the return. -/
def inverseCall (stubName : String) (runtimeLock : Bool) (rtyp : Typ) : Gen CComp :=
  letBind (.eff (.index functions (.clocal ("fn_" ++ stubName, .ty int)))) value fun f =>
    letBind (.eff (.app camlCallbackN [f, .clocal nargsLocal, .clocal argsLocal])) value fun x => do
      let e ← project rtyp x
      letBind e rtyp fun y =>
        letBind (.eff (.camlop .camlDrop)) .void fun _ =>
          wrapIf runtimeLock releaseRuntimeSystem (.ret (.ty rtyp) y)

/-- `body`: `locals[i] = Val_T(x)` for the parameters from the `i`-th on. -/
def inverseBody (call : CComp) : Nat → List (String × Ty) → Except Exn CComp
  | _, [] => .ok call
  | i, (x, .ty t) :: params => do
      let c ← inverseBody call (i + 1) params
      let e ← inj (x, .ty t) t
      return .letAssign (.index (.var (.clocal argsLocal)) (.int (sintOfInt i))) e c
  | _, (_, .bufTy _) :: _ => .error .matchFailure

def inverseFn (stubName : String) (runtimeLock : Bool) (f : Fn) : Gen CFundef := do
  let dec ← fundec stubName f
  match dec.ret with
  | .bufTy _ => fail .matchFailure
  | .ty rtyp =>
      let call ← inverseCall stubName runtimeLock rtyp
      let body ← lift (inverseBody call 0 dec.params)
      let frame ← andThen (.eff (.camlop .camlParam0)) (.eff (.camlop (.camlLocalN
        (.clocal ("locals", .ty (.array value dec.params.length))) (.clocal nargsLocal))))
      let c ← andThen frame body
      return { dec, body := .letConst nargsLocal (sintOfInt dec.params.length)
                 (← wrapIf runtimeLock acquireRuntimeSystem c)
               storage := .external }

end CtypesCbuf.Cbuf.GenerateC
