import CtypesCbuf.Stubs.Projection

/-!
Generation of C stubs without output buffers, the module `Generate_C` of
`Cstubs_generate_c`. The operator `>>` is strict in both operands, so the
code to its right draws its names first.
-/

namespace CtypesCbuf.Cstubs.GenerateC

open NameSupply Supply
open Ctypes CLanguage Stubs

/-- `fn` with a name for each parameter. -/
inductive NamedFn
  | returns (t : Typ)
  | function (x : String) (f : Typ) (t : NamedFn)
  deriving DecidableEq, Repr

def nameParams : Fn → Gen NamedFn
  | .returns t => return .returns t
  | .function f t => do
      let t' ← nameParams t
      let x ← freshVar
      return .function x f t'

def valueParams : NamedFn → List (String × Ty)
  | .returns _ => []
  | .function x _ t => (x, .ty value) :: valueParams t

/-- The `Returns` case of `body`. -/
def callAndReturn (concurrency : NonLwt) (errno_ : ErrnoPolicy) (fvar : CFunction)
    (vars : List CExp) (t : Typ) : Gen CComp := do
  let x ← freshVar
  let e := .app fvar vars.reverse
  let i ← lift (inj (x, .ty t) t)
  match errno_, concurrency with
  | .ignoreErrno, .sequential => return .letIn ((x, .ty t), e) i
  | .ignoreErrno, .unlocked => do
      let injected ← letBind i value fun v => pure (.camlReturnT (.ty value) v)
      let acquired ← andThen acquireRuntimeSystem injected
      andThen releaseRuntimeSystem (.letIn ((x, .ty t), e) acquired)
  | .returnErrno, .sequential =>
      return .letAssign (.var (.global errno)) (.exp (.int 0))
        (.letIn ((x, .ty t), e)
          (← letBind i value fun v => pure (pairWithErrno v)))
  | .returnErrno, .unlocked => do
      let acquired ← andThen acquireRuntimeSystem i
      let paired ← letBind acquired value fun v =>
        letBind (pairWithErrno v) value fun p => pure (.camlReturnT (.ty value) p)
      let released ← andThen releaseRuntimeSystem (.letIn ((x, .ty t), e) paired)
      return .letAssign (.var (.global errno)) (.exp (.int 0)) released

def body (concurrency : NonLwt) (errno_ : ErrnoPolicy) (fvar : CFunction) :
    List CExp → NamedFn → Gen CComp
  | vars, .returns t => callAndReturn concurrency errno_ fvar vars t
  | vars, .function x f t => do
      match ← prj f (valueLocal x) with
      | none => body concurrency errno_ fvar vars t
      | some projected =>
          letBind projected f fun x' =>
            body concurrency errno_ fvar (x' :: vars) t

def foreignFunction (cname : String) (f : Fn) : CFunction :=
  { fname := cname, allocates := false, readsOcamlHeap := false
    fn := Cbuf.Fn.ofCtypes f }

/-- `Generate_C.fn`. -/
def stub (concurrency : NonLwt) (errno_ : ErrnoPolicy) (cname stubName : String)
    (f : Fn) : Gen CFundef := do
  let f' ← nameParams f
  let vp := valueParams f'
  let c ← body concurrency errno_ (foreignFunction cname f) [] f'
  return { dec := { name := stubName, params := vp, ret := .ty value }
           body := match concurrency with
             | .unlocked => .camlParam (vp.map fun p => p.1) c
             | .sequential => c
           storage := .external }

/-- The first `fn`: the definitions it prints, in order. -/
def fn (concurrency : NonLwt) (errno_ : ErrnoPolicy) (cname stubName : String)
    (f : Fn) : Gen (List CFundef) := do
  let dec ← stub concurrency errno_ cname stubName f
  withByteFn (Cbuf.Fn.ofCtypes f) dec

end CtypesCbuf.Cstubs.GenerateC
