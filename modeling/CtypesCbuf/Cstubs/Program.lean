import CtypesCbuf.Cbuf.Program
import CtypesCbuf.Cstubs.External
import CtypesCbuf.Cstubs.Lwt

/-!
The wrappers of `Cstubs_generate_ml`, and whole runs of the generators of
`cstubs.ml`. The text of the wrappers is that of `Cbuf_generate_ml` without the
cases of buffers.
-/

namespace CtypesCbuf.Cstubs

open NameSupply Supply
open Ctypes CLanguage Stubs

namespace GenerateML

open Cbuf (pathOfString)
open Cbuf.GenerateML (MlPat MlExp Case)

def wrapper (concurrency : ConcurrencyPolicy) (errno_ : ErrnoPolicy) (id : Path) (f : Fn)
    (name : String) (pol : Polarity) : Gen (MlPat × MlExp) :=
  Cbuf.GenerateML.wrapper concurrency errno_ id (.ofCtypes f) name pol

def case (concurrency : ConcurrencyPolicy) (errno_ : ErrnoPolicy)
    (stubName externalName : String) (f : Fn) : Gen Case := do
  let id ← lift (pathOfString externalName)
  let (pat, exp) ← wrapper concurrency errno_ id f externalName .arg
  return { pat, name := stubName, exp }

def valCase (stubName externalName : String) (typ : Typ) : Gen Case :=
  Cbuf.GenerateML.valCase stubName externalName typ

/-- The cases are those of Cbuf, for a specification without buffers. -/
theorem case_ofCtypes (concurrency : ConcurrencyPolicy) (errno_ : ErrnoPolicy)
    (stubName externalName : String) (f : Fn) :
    case concurrency errno_ stubName externalName f =
      Cbuf.GenerateML.case concurrency errno_ stubName externalName (.ofCtypes f) := rfl

end GenerateML

inductive Declaration
  | foreign (cname : String) (f : Fn)
  | foreignValue (cname : String) (typ : Typ)
  deriving DecidableEq, Repr

/-- `sprintf "%s_%d_%s" prefix counter name`. -/
def var (pre : String) (counter : Nat) (name : String) : String := Cbuf.var pre counter name

/-! ### The C file -/

def concurrencyHeaders : ConcurrencyPolicy → List String
  | .sequential => []
  | .lwtJobs | .lwtPreemptive => ["\"lwt_unix.h\"", "<caml/memory.h>"]
  | .unlocked => ["<caml/threads.h>"]

def errnoHeaders : ErrnoPolicy → List String
  | .ignoreErrno => []
  | .returnErrno => ["<errno.h>"]

def headers (concurrency : ConcurrencyPolicy) (errno_ : ErrnoPolicy) : List String :=
  ["\"ctypes_cstubs_internals.h\""] ++ errnoHeaders errno_ ++ concurrencyHeaders concurrency

/-- `value`, which does not depend on the policies. -/
def valueStub (cname stubName : String) (typ : Typ) : Gen CFundef :=
  Cbuf.GenerateC.valueStub cname stubName typ

/-- The state of `gen_c`: its counter and what it has printed. -/
structure CState where
  counter : Nat
  code : List StubCode
  deriving DecidableEq, Repr

def CState.declare (concurrency : ConcurrencyPolicy) (errno_ : ErrnoPolicy) (pre : String)
    (s : CState) : Declaration → Gen CState
  | .foreign cname f => do
      let counter := s.counter + 1
      let c ← fn concurrency errno_ cname (var pre counter cname) f
      return { counter, code := s.code ++ [c] }
  | .foreignValue cname typ => do
      let counter := s.counter + 1
      let d ← valueStub cname (var pre counter cname) typ
      return { counter, code := s.code ++ [.functions [d]] }

def genC (concurrency : ConcurrencyPolicy) (errno_ : ErrnoPolicy) (pre : String) :
    List Declaration → CState → Gen CState
  | [], s => return s
  | d :: ds, s => do genC concurrency errno_ pre ds (← s.declare concurrency errno_ pre d)

/-- What `write_c` prints. -/
structure CFile where
  headers : List String
  code : List StubCode
  deriving DecidableEq, Repr

def writeC (concurrency : ConcurrencyPolicy) (errno_ : ErrnoPolicy) (pre : String)
    (program : List Declaration) : Gen CFile := do
  let s ← genC concurrency errno_ pre program { counter := 0, code := [] }
  return { headers := headers concurrency errno_, code := s.code }

/-! ### The ML file -/

/-- `Bind (stub_name, external_name, fn)`. -/
structure Bind where
  stubName : String
  externalName : String
  fn : Fn
  deriving DecidableEq, Repr

structure ValBind where
  stubName : String
  externalName : String
  typ : Typ
  deriving DecidableEq, Repr

/-- The state of `gen_ml`. The last binding stands first. -/
structure MlState where
  counter : Nat
  externs : List Extern
  bindings : List Bind
  valBindings : List ValBind
  deriving DecidableEq, Repr

/-- `void @-> returning (ptr void)`. -/
def valueFn : Fn := .function .void (.returns (ptr .void))

def MlState.declare (concurrency : ConcurrencyPolicy) (errno_ : ErrnoPolicy) (pre : String)
    (s : MlState) : Declaration → Except Exn MlState
  | .foreign cname f => do
      let counter := s.counter + 1
      let name := var pre counter cname
      let ext ← extern_ concurrency errno_ name name f
      return { s with counter, externs := s.externs ++ [ext]
                      bindings := ⟨cname, name, f⟩ :: s.bindings }
  | .foreignValue cname typ => do
      let counter := s.counter + 1
      let name := var pre counter cname
      -- variables are read under the policies without threads and `errno`
      let ext ← extern_ .sequential .ignoreErrno name name valueFn
      return { s with counter, externs := s.externs ++ [ext]
                      valBindings := ⟨cname, name, typ⟩ :: s.valBindings }

def genML (concurrency : ConcurrencyPolicy) (errno_ : ErrnoPolicy) (pre : String) :
    List Declaration → MlState → Except Exn MlState
  | [], s => .ok s
  | d :: ds, s => do genML concurrency errno_ pre ds (← s.declare concurrency errno_ pre d)

/-- What `write_ml` prints. -/
structure MlFile where
  externs : List Extern
  cases : List Cbuf.GenerateML.Case
  valCases : List Cbuf.GenerateML.Case
  deriving DecidableEq, Repr

def writeML (concurrency : ConcurrencyPolicy) (errno_ : ErrnoPolicy) (pre : String)
    (program : List Declaration) : Gen MlFile := do
  let s ← lift (genML concurrency errno_ pre program
    { counter := 0, externs := [], bindings := [], valBindings := [] })
  let cases ← s.bindings.mapM fun b =>
    GenerateML.case concurrency errno_ b.stubName b.externalName b.fn
  let valCases ← s.valBindings.mapM fun b =>
    GenerateML.valCase b.stubName b.externalName b.typ
  return { externs := s.externs, cases, valCases }

end CtypesCbuf.Cstubs
