import CtypesCbuf.CtypesForeign.Callspec
import CtypesCbuf.Runtime.Memory

/-!
Calls of C functions as `ctypes_ffi.ml` builds them: the types of libffi, the
call specification of a function type and the writers of its arguments.
-/

namespace CtypesCbuf.CtypesForeign.CtypesFfi

open Ctypes
open CtypesCbuf.Runtime

/-- libffi and the platform that it runs on. -/
structure Libffi where
  bigEndian : Bool
  charSigned : Bool
  prepCif : FfiType → Option (List Cell) → Bool
  /-- The size and alignment of a structure with these members, where libffi
  accepts it. -/
  completeStruct : List FfiType → Option (Nat × Nat)

/-- Why no result is produced. -/
inductive Failure
  | raised (e : Exn)
  /-- An assertion of a stub fails, or libffi reports an error. -/
  | stub
  deriving DecidableEq, Repr

def ofExn {α : Type} : Except Exn α → Except Failure α
  | .ok a => .ok a
  | .error e => .error (.raised e)

def ofStub {α : Type} : Option α → Except Failure α
  | some a => .ok a
  | none => .error .stub

def scalar (size : Nat) (type : FfiCode) : FfiType := ⟨size, size, type⟩

def ffiTypeVoid : FfiType := scalar 1 .void

/-- `ctypes_primitive_ffitype`; there is no type for the null pointer. -/
def primitiveFfitype (l : Libffi) : Prim → Option FfiType
  | .char => some (scalar 1 (if l.charSigned then .sint8 else .uint8))
  | .schar | .int8T => some (scalar 1 .sint8)
  | .uchar | .uint8T | .bool => some (scalar 1 .uint8)
  | .short | .int16T => some (scalar 2 .sint16)
  | .ushort | .uint16T => some (scalar 2 .uint16)
  | .int | .sint | .int32T => some (scalar 4 .sint32)
  | .uint | .uint32T => some (scalar 4 .uint32)
  | .long | .llong | .int64T | .camlint | .nativeint => some (scalar 8 .sint64)
  | .ulong | .ullong | .sizeT | .uint64T => some (scalar 8 .uint64)
  | .float => some (scalar 4 .float)
  | .double => some (scalar 8 .double)
  | .ldouble | .complex32 | .complex64 | .complexld => none

def reportUnpassable {α : Type} (what : String) : Except Failure α :=
  .error (.raised (.unsupported ("libffi does not support passing " ++ what)))

mutual
def argType (l : Libffi) : Typ → Except Failure FfiType
  | .void => .ok ffiTypeVoid
  | .primitive p =>
      match primitiveFfitype l p with
      | none => .error (.raised
          (.unsupportedTyp "libffi does not support passing %s" (.primitive p)))
      | some ffitype => .ok ffitype
  | .pointer _ => .ok ffiTypePointer
  | .funptr _ => .ok ffiTypePointer
  | .ocaml _ => .ok ffiTypePointer
  | .union _ _ _ => reportUnpassable "unions"
  | .struct _ (.complete _ _) fields => do
      let members ← memberTypes l fields
      let (size, alignment) ← ofStub (l.completeStruct members)
      return ⟨size, alignment, .struct⟩
  | .view _ ty => argType l ty
  | .array _ _ => reportUnpassable "arrays"
  | .bigarray _ => reportUnpassable "bigarrays"
  | .abstract _ => reportUnpassable "values of abstract type"
  | .struct _ (.incomplete _) _ => reportUnpassable "incomplete types"
def memberTypes (l : Libffi) : Fields → Except Failure (List FfiType)
  | .nil => .ok []
  | .cons ftype _ _ rest => do
      let t ← argType l ftype
      return t :: (← memberTypes l rest)
end

def addArgument (l : Libffi) (callspec : Callspec) : Typ → Except Failure (Int × Callspec)
  | .void => .ok (0, callspec)
  | ty => do
      let ffitype ← argType l ty
      ofStub (CtypesForeign.addArgument callspec ffitype)

def prepCallspec (l : Libffi) (callspec : Callspec) (ty : Typ) : Except Failure Callspec := do
  let ctype ← argType l ty
  ofStub (CtypesForeign.prepCallspec l.bigEndian l.prepCif callspec ctype)

/-! ### Arguments -/

/-- What the writers of the arguments change: the places of the scratch area
that they write, and the array `mov`, whose elements are `()` at first. -/
structure Written where
  places : List (Int × CVal)
  mov : List (Option (Value × Int))
  deriving DecidableEq, Repr

abbrev ArgWriter := Written → Except Failure Written

def ocamlArg (eltSize : Int) (idx : Nat) : Value → ArgWriter
  | .ocamlRef _ disp obj, w =>
      if idx < w.mov.length then
        .ok { w with mov := w.mov.set idx (some (obj, disp * eltSize)) }
      else .error (.raised (.invalidArg "index out of bounds"))
  | _, _ => .error (.raised .matchFailure)

def writeArg (m : Machine) : Typ → Int → Nat → Value → ArgWriter
  | .ocaml .string, _, idx, v, dst => ocamlArg 1 idx v dst
  | .ocaml .bytes, _, idx, v, dst => ocamlArg 1 idx v dst
  | .ocaml .floatArray, _, idx, v, dst => ocamlArg Prim.double.size idx v dst
  | .view w ty, offset, idx, v, dst => writeArg m ty offset idx (m.write w v) dst
  | ty, offset, _, v, dst => do
      let write ← ofExn (write m ty)
      return { dst with places := dst.places ++ ((write v).map (offset, ·)).toList }

/-- The application of `write_arg` to a parameter, its offset and its index. -/
structure Writer where
  typ : Typ
  offset : Int
  idx : Nat
  deriving DecidableEq, Repr

inductive Ccallspec
  | call (checkErrno : Bool) (readReturnValue : CVal → Except Exn Value)
  | writeArg (write : Writer) (rest : Ccallspec)

def buildCcallspec (l : Libffi) (m : Machine) (checkErrno : Bool) :
    Nat → Fn → Callspec → Except Failure (Ccallspec × Callspec)
  | _, .returns t, callspec => do
      let callspec ← prepCallspec l callspec t
      let b ← ofExn (build m t)
      return (.call checkErrno b, callspec)
  | idx, .function p f, callspec => do
      let (offset, callspec) ← addArgument l callspec p
      let (rest, callspec) ← buildCcallspec l m checkErrno (idx + 1) f callspec
      return (.writeArg ⟨p, offset, idx⟩ rest, callspec)

/-- An element of the pointer array that `ffi_call` is given: it points to a
slot of the buffer, or to the element of `val_refs` that holds a pointer. -/
inductive ArgPointer
  | slot (offset : Nat)
  | valRef (p : Ptr)
  deriving DecidableEq, Repr

/-- The loop of `ctypes_call` over the elements of `mov`. Only strings have
defined semantics. -/
def redirect : List (Option (Value × Int)) → List ArgPointer → Option (List ArgPointer)
  | [], pointers => some pointers
  | none :: mov, p :: pointers => do
      return p :: (← redirect mov pointers)
  | some (.object .string obj, offset) :: mov, _ :: pointers
  | some (.object .bytes obj, offset) :: mov, _ :: pointers => do
      return .valRef (.interior obj offset) :: (← redirect mov pointers)
  | _, _ => none

/-- The buffer when `ffi_call` is made. -/
structure CallBuffer where
  places : List (Int × CVal)
  pointers : List ArgPointer
  deriving DecidableEq, Repr

/-- `ctypes_call` up to `ffi_call`. -/
def prepareCall (callspec : Callspec) (writers : List ArgWriter) : Except Failure CallBuffer := do
  let _ ← ofStub (computeArgBufferSize callspec)
  let offsets ← ofStub (populateArgArray callspec)
  let written ← writers.foldlM (fun dst w => w dst) ⟨[], List.replicate callspec.nelements none⟩
  let pointers ← ofStub (redirect written.mov (offsets.map .slot))
  return ⟨written.places, pointers⟩

/-- With fewer arguments than parameters there is no call. -/
def invoke (m : Machine) :
    Ccallspec → List ArgWriter → Callspec → List Value → Except Failure CallBuffer
  | .call _ _, writers, callspec, _ => prepareCall callspec writers
  | .writeArg write ccallspec, writers, callspec, v :: vs =>
      invoke m ccallspec (writeArg m write.typ write.offset write.idx v :: writers) callspec vs
  | .writeArg _ _, _, _, [] => .error (.raised .matchFailure)

end CtypesCbuf.CtypesForeign.CtypesFfi
