import CtypesCbuf.Ctypes.StructsComputed
import CtypesCbuf.Cstubs.GenerateC

/-!
Generation of Lwt jobs, the module `Lwt` of `Cstubs_generate_c`, and the
choice of a generator by the concurrency policy. The worker is built as C
code. The other functions of a job are printed directly; they are kept here
as the statements that are printed.
-/

namespace CtypesCbuf.Cstubs.Lwt

open NameSupply Supply
open Ctypes CLanguage Stubs

/-- Projection in a job. It stores its result in a field, without a local. -/
def prj (x : CExp) : Typ → Except Exn CEff
  | .primitive p => .ok (.app (primPrj p) [x])
  | .pointer _ => .ok (ofFatptr x)
  | .funptr _ => .ok (ofFatptr x)
  | .view _ ty => prj x ty
  | t => .error (.unsupportedTyp "cstubs.lwt does not support the type %s" t)

def lwtUnixJob : Typ := .abstract ⟨"struct lwt_unix_job", 1, 1⟩

def structureType (stubName : String) : Typ :=
  .struct ("job_" ++ stubName) (.incomplete 0) .nil

abbrev Arg := Typ × String

def jobStructure (errno_ : ErrnoPolicy) (stubName : String) (args : List Arg)
    (result : Typ) : Except Exn Typ := do
  let s ← field "job" lwtUnixJob (structureType stubName)
  let s ← match result with
    | .void => field "result" int s
    | result => field "result" result s
  let s ← match errno_ with
    | .ignoreErrno => pure s
    | .returnErrno => field "error_status" sint s
  let s ← args.foldlM (fun s arg => field arg.2 arg.1 s) s
  sealTyp s

def jobLocal (stubName : String) : CLocal := ("j", .ty (ptr (structureType stubName)))

/-- The call, with the code `c` after it. -/
def workerCall (fn' : CFunction) (j : CLocal) (result : Typ) (args : List CExp)
    (c : CComp) : Gen CComp :=
  match result with
  | .void => andThen (.eff (.app fn' args.reverse)) c
  | result =>
      cast (.ty result) (.ty .void)
        (.letAssign (.pointerField (.var (.clocal j)) "result")
          (.app fn' args.reverse) c)

def workerBody (errno_ : ErrnoPolicy) (fn' : CFunction) (j : CLocal) (result : Typ) :
    List CExp → List Arg → Gen CComp
  | args, [] =>
      match errno_ with
      | .ignoreErrno => workerCall fn' j result args (.ret (.ty .void) (.int 0))
      | .returnErrno => do
          let c ← workerCall fn' j result args
            (.letAssign (.pointerField (.var (.clocal j)) "error_status")
              (.global errno) (.ret (.ty .void) (.int 0)))
          return .letAssign (.var (.global errno)) (.exp (.int 0)) c
  | args, (ty, x) :: xs =>
      letBind (.eff (.derefField (.clocal j) x)) ty fun y =>
        workerBody errno_ fn' j result (y :: args) xs

def worker (errno_ : ErrnoPolicy) (cname stubName : String) (f : Fn) (result : Typ)
    (args : List Arg) : Gen CFundef := do
  let j := jobLocal stubName
  let c ← workerBody errno_ (GenerateC.foreignFunction cname f) j result [] args
  return { dec := { name := "worker_" ++ stubName, params := [j], ret := .ty .void }
           body := c
           storage := .static }

/-- The statements of `result_`, the function that ends a job. -/
inductive ResultStmt
  | camlParam0
  | camlLocal1
  | setRv (e : CEff)
  | allocTuple (n : Nat)
  | storeErrorStatus (i : Nat)
  | storeField (i : Nat) (e : CEff)
  | freeJob
  | camlReturn
  deriving DecidableEq, Repr

def resultLocal (result : Typ) : CLocal := ("j->result", .ty result)

def result (errno_ : ErrnoPolicy) (result : Typ) : Except Exn (List ResultStmt) := do
  let e ← match result with
    | .void => pure valUnit
    | ty => inj (resultLocal ty) ty
  let body := match errno_ with
    | .ignoreErrno => [.setRv e]
    | .returnErrno => [.allocTuple 2, .storeErrorStatus 1, .storeField 0 e]
  return [.camlParam0, .camlLocal1] ++ body ++ [.freeJob, .camlReturn]

/-- The stub that starts a job: its parameters, and the fields it fills. -/
structure JobStub where
  name : String
  params : List String
  roots : List String
  resetsErrorStatus : Bool
  fields : List (String × CEff)
  deriving DecidableEq, Repr

def stub (errno_ : ErrnoPolicy) (stubName : String) (args : List Arg) :
    Except Exn JobStub := do
  let fields ← args.mapM fun arg => do
    return (arg.2, ← prj (valueLocal arg.2) arg.1)
  return { name := stubName
           params := args.map fun arg => arg.2
           roots := args.map fun arg => arg.2
           resetsErrorStatus := errno_ = .returnErrno
           fields }

/-- The bytecode stub: its name, the function it calls and the indexes into
`argv` that it passes. -/
structure JobByteStub where
  name : String
  callee : String
  indexes : List Nat
  deriving DecidableEq, Repr

def byteStub (stubName : String) (args : List Arg) : JobByteStub :=
  { name := byteName stubName args.length, callee := stubName
    indexes := List.range args.length }

def argName (n : Nat) : String := "arg_" ++ Nat.repr n

/-- `aux` of `fn_args_and_result`, with the count of names drawn. -/
def argsAndResultFrom : Nat → Fn → List Arg → List Arg × Typ
  | n, .function .void f, args => argsAndResultFrom n f args
  | n, .function t f, args => argsAndResultFrom (n + 1) f ((t, argName (n + 1)) :: args)
  | _, .returns t, args => (args.reverse, t)

def fnArgsAndResult (f : Fn) : List Arg × Typ := argsAndResultFrom 0 f []

structure Job where
  structure_ : Typ
  worker : CFundef
  result : List ResultStmt
  stub : JobStub
  byteStub : Option JobByteStub
  deriving DecidableEq, Repr

def fn (errno_ : ErrnoPolicy) (cname stubName : String) (f : Fn) : Gen Job := do
  let (args, r) := fnArgsAndResult f
  let structure_ ← lift (jobStructure errno_ stubName args r)
  let worker ← worker errno_ cname stubName f r args
  let result ← lift (result errno_ r)
  let stub ← lift (stub errno_ stubName args)
  return { structure_, worker, result, stub
           byteStub :=
             if args.length > maxByteArgs then some (byteStub stubName args) else none }

end CtypesCbuf.Cstubs.Lwt

namespace CtypesCbuf.Cstubs

open NameSupply Supply
open Ctypes CLanguage Stubs

/-- What is printed for a foreign function. -/
inductive StubCode
  | functions (ds : List CFundef)
  | lwtJob (j : Lwt.Job)
  deriving DecidableEq, Repr

/-- `fn`, the entry point of `Cstubs_generate_c`. -/
def fn (concurrency : ConcurrencyPolicy) (errno_ : ErrnoPolicy)
    (cname stubName : String) (f : Fn) : Gen StubCode :=
  if concurrency ≠ .sequential ∧ hasOcamlArgument f then
    fail (.unsupported "Unsupported argument type when releasing runtime lock")
  else
    match concurrency with
    | .lwtPreemptive | .unlocked => do
        return .functions (← GenerateC.fn .unlocked errno_ cname stubName f)
    | .sequential => do
        return .functions (← GenerateC.fn .sequential errno_ cname stubName f)
    | .lwtJobs => do
        return .lwtJob (← Lwt.fn errno_ cname stubName f)

theorem fn_ocamlArgument {concurrency : ConcurrencyPolicy} {errno_ : ErrnoPolicy}
    {cname stubName : String} {f : Fn} {n : Nat} (hc : concurrency ≠ .sequential)
    (hf : hasOcamlArgument f = true) :
    fn concurrency errno_ cname stubName f n = .error
      (.unsupported "Unsupported argument type when releasing runtime lock") := by
  have hboth : concurrency ≠ .sequential ∧ hasOcamlArgument f = true := ⟨hc, hf⟩
  unfold fn
  rw [if_pos hboth]
  rfl

end CtypesCbuf.Cstubs
