import CtypesCbuf.Stubs.External

/-! The externals of `Cstubs_generate_ml`, with the analyses of
`Cstubs_analysis`. -/

namespace CtypesCbuf.Cstubs

open Ctypes Stubs

/-- `Cstubs_analysis.float`. -/
def float : Fn → Bool
  | .returns t => isFloatPrimitive t
  | .function f t => isFloatPrimitive f && float t

def mayAllocate : Fn → Bool
  | .returns t => allocation t = .alloc
  | .function _ t => mayAllocate t

def attributes (f : Fn) : Attributes :=
  { float := float f, noalloc := !mayAllocate f }

/-- The result of an external, from the type of what the C function returns. -/
def resultType (concurrency : ConcurrencyPolicy) (errno_ : ErrnoPolicy) (t : MlType) :
    MlType :=
  match concurrency, errno_ with
  | .sequential, .ignoreErrno | .unlocked, .ignoreErrno
  | .lwtPreemptive, .ignoreErrno => t
  | .sequential, .returnErrno | .unlocked, .returnErrno
  | .lwtPreemptive, .returnErrno => .pair t intType
  | .lwtJobs, .ignoreErrno => .appl lwtJobType t
  | .lwtJobs, .returnErrno => .appl lwtJobType (.pair t intType)

def mlExternalTypeOfFn (concurrency : ConcurrencyPolicy) (errno_ : ErrnoPolicy)
    (polarity : Polarity) : Fn → Except Exn MlExternalType
  | .returns t => do
      let r ← mlTypOfTyp polarity t
      return { args := [], result := resultType concurrency errno_ r }
  | .function f t => do
      let e ← mlExternalTypeOfFn concurrency errno_ polarity t
      let a ← mlTypOfTyp (flip polarity) f
      return { args := a :: e.args, result := e.result }

def extern_ (concurrency : ConcurrencyPolicy) (errno_ : ErrnoPolicy)
    (stubName externalName : String) (f : Fn) : Except Exn Extern := do
  let typ ← mlExternalTypeOfFn concurrency errno_ .result f
  return { ident := externalName, typ, primname := stubName
           primnameByte := byteStubName stubName typ
           attributes := attributes f }

end CtypesCbuf.Cstubs
