import CtypesCbuf.CLanguage.Semantics

/-! Calls through libffi, the function `ctypes_call` of `ffi_call_stubs.c`. -/

namespace CtypesCbuf.CtypesForeign

open CLanguage
open CtypesCbuf.Runtime

/-- `struct call_context`, as far as calls read it. -/
structure CallContext where
  checkErrno : Bool
  runtimeLock : Bool
  deriving DecidableEq, Repr

inductive Outcome
  | returns (c : CVal)
  /-- The exception of `unix_error`. -/
  | unixError (errno : Int)
  deriving DecidableEq, Repr

/-- The call and what is around it, the arguments being written already. -/
def ctypesCall (m : Machine) (context : CallContext) (cfunction : CFunction)
    (args : List CVal) (w : World) : Outcome × World :=
  let w := if context.runtimeLock then w.clobber m else w
  let w := if context.checkErrno then { w with errno := 0 } else w
  let (c, w) := callForeign m cfunction args w
  let savedErrno := if context.checkErrno then w.errno else 0
  let w := if context.runtimeLock then w.clobber m else w
  if context.checkErrno ∧ savedErrno ≠ 0 then (.unixError savedErrno, w)
  else (.returns c, w.clobber m)

/-- The `errno` that the caller learns of. -/
def Outcome.errno : Outcome → Int
  | .returns _ => 0
  | .unixError e => e

/-- With `check_errno` the C function starts with 0, and the caller learns of
what it leaves. -/
theorem ctypesCall_errno (m : Machine) {context : CallContext}
    (hcheck : context.checkErrno = true) (cfunction : CFunction) (args : List CVal)
    (w : World) :
    let r := ctypesCall m context cfunction args w
    ∃ call, r.2.calls = w.calls ++ [call] ∧ call.errnoOnEntry = 0 ∧
      r.1.errno = call.errnoOnReturn := by
  intro r
  refine ⟨⟨cfunction.fname, args, 0, m.foreignErrno args 0⟩, ?_, rfl, ?_⟩
  · cases hlock : context.runtimeLock <;>
      by_cases he : m.foreignErrno args 0 = 0 <;>
        simp [r, ctypesCall, callForeign, hcheck, hlock, he]
  · cases hlock : context.runtimeLock <;>
      by_cases he : m.foreignErrno args 0 = 0 <;>
        simp [r, ctypesCall, callForeign, hcheck, hlock, he, Outcome.errno]

end CtypesCbuf.CtypesForeign
