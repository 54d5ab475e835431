import CtypesCbuf.Cbuf.GenerateC
import CtypesCbuf.Cbuf.GenerateML

/-!
Whole runs of the generators, `write_c` and `write_ml`. A program of bindings
is the list of declarations that its functor makes. Each side runs through it
with a counter of its own.
-/

namespace CtypesCbuf.Cbuf

open NameSupply Supply
open Ctypes hiding Fn
open CLanguage Stubs

inductive Declaration
  | foreign (cname : String) (f : Fn)
  | foreignValue (cname : String) (typ : Typ)
  deriving DecidableEq, Repr

/-- `sprintf "%s_%d_%s" prefix counter name`. -/
def var (pre : String) (counter : Nat) (name : String) : String :=
  pre ++ "_" ++ Nat.repr counter ++ "_" ++ name

/-- The state of `gen_c`: its counter and what it has printed. -/
structure CState where
  counter : Nat
  defs : List CFundef
  deriving DecidableEq, Repr

def CState.declare (errno_ : ErrnoPolicy) (pre : String) (s : CState) :
    Declaration → Gen CState
  | .foreign cname f => do
      let counter := s.counter + 1
      let ds ← GenerateC.fn errno_ cname (var pre counter cname) f
      return { counter, defs := s.defs ++ ds }
  | .foreignValue cname typ => do
      let counter := s.counter + 1
      let d ← GenerateC.valueStub cname (var pre counter cname) typ
      return { counter, defs := s.defs ++ [d] }

def genC (errno_ : ErrnoPolicy) (pre : String) : List Declaration → CState → Gen CState
  | [], s => return s
  | d :: ds, s => do genC errno_ pre ds (← s.declare errno_ pre d)

def writeC (errno_ : ErrnoPolicy) (pre : String) (program : List Declaration) :
    Gen (List CFundef) := do
  let s ← genC errno_ pre program { counter := 0, defs := [] }
  return s.defs

/-- `Bind (stub_name, external_name, fn)`. -/
structure Bind where
  stubName : String
  externalName : String
  fn : Fn
  deriving DecidableEq, Repr

structure ValBind where
  stubName : String
  externalName : String
  typ : Typ
  deriving DecidableEq, Repr

/-- The state of `gen_ml`. The last binding stands first. -/
structure MlState where
  counter : Nat
  externs : List Extern
  bindings : List Bind
  valBindings : List ValBind
  deriving DecidableEq, Repr

/-- The external of a C variable takes a unit: `void @-> returning (ptr void)`. -/
def valueFn : Fn := .function .void (.returns (ptr .void))

def MlState.declare (errno_ : ErrnoPolicy) (pre : String) (s : MlState) :
    Declaration → Except Exn MlState
  | .foreign cname f => do
      let counter := s.counter + 1
      let name := var pre counter cname
      let ext ← GenerateML.extern_ errno_ name name f
      return { s with counter, externs := s.externs ++ [ext]
                      bindings := ⟨cname, name, f⟩ :: s.bindings }
  | .foreignValue cname typ => do
      let counter := s.counter + 1
      let name := var pre counter cname
      let ext ← GenerateML.extern_ .ignoreErrno name name valueFn
      return { s with counter, externs := s.externs ++ [ext]
                      valBindings := ⟨cname, name, typ⟩ :: s.valBindings }

def genML (errno_ : ErrnoPolicy) (pre : String) :
    List Declaration → MlState → Except Exn MlState
  | [], s => .ok s
  | d :: ds, s => do genML errno_ pre ds (← s.declare errno_ pre d)

/-- What `write_ml` prints: the externals, then the cases of `foreign` and
of `foreign_value`. -/
structure MlFile where
  externs : List Extern
  cases : List GenerateML.Case
  valCases : List GenerateML.Case
  deriving DecidableEq, Repr

def writeML (concurrency : ConcurrencyPolicy) (errno_ : ErrnoPolicy) (pre : String)
    (program : List Declaration) : Gen MlFile := do
  let s ← lift (genML errno_ pre program
    { counter := 0, externs := [], bindings := [], valBindings := [] })
  let cases ← s.bindings.mapM fun b =>
    GenerateML.case concurrency errno_ b.stubName b.externalName b.fn
  let valCases ← s.valBindings.mapM fun b =>
    GenerateML.valCase b.stubName b.externalName b.typ
  return { externs := s.externs, cases, valCases }

end CtypesCbuf.Cbuf
