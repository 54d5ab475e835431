import CtypesCbuf.Ctypes.Static
import CtypesCbuf.Lib.IntFormat

/-!
OCaml values and C values, as far as generated code tells them apart. The
platform has 64 bits. Floats are bits that are only ever converted, structures
are the bytes they occupy.
-/

namespace CtypesCbuf.Runtime

open Ctypes

/-- Addresses that C code handles. -/
inductive Ptr
  | addr (a : Int)
  /-- Into an OCaml string or byte sequence. -/
  | interior (obj : Nat) (off : Int)
  | managed (block : List UInt8)
  | symbol (name : String)
  deriving DecidableEq, Repr

inductive FloatKind
  | float | double | ldouble | complex32 | complex64 | complexld
  deriving DecidableEq, Repr

/-- The blocks of the standard library that hold integers. -/
inductive BoxedInt
  | int32 | int64 | nativeint
  deriving DecidableEq, Repr

def BoxedInt.format : BoxedInt → IntFormat
  | .int32 => .i32
  | .int64 | .nativeint => .i64

inductive Value
  | int (i : Int)
  | boxed (k : BoxedInt) (i : Int)
  | flt (k : FloatKind) (bits : Nat)
  /-- A string, byte sequence or float array. -/
  | object (ty : OcamlType) (obj : Nat)
  | ocamlRef (ty : OcamlType) (off : Int) (v : Value)
  | some (v : Value)
  | fatptr (managed : Value) (reftyp : Typ) (p : Ptr)
  | fatfunptr (managed : Value) (reftyp : Ctypes.Fn) (p : Ptr)
  | cpointer (f : Value)
  | staticFunptr (f : Value)
  | structured (p : Value)
  | rawPtr (p : Ptr)
  | managedBuffer (block : List UInt8)
  | pair (v w : Value)
  /-- A value of another library, or of a type that views introduce. -/
  | other (k : Nat)
  deriving DecidableEq, Repr

/-- `()`, and `None`. -/
def Value.unit : Value := .int 0

inductive CVal
  | undefined
  | int (i : Int)
  | flt (k : FloatKind) (bits : Nat)
  | ptr (p : Ptr)
  /-- A structure or union. -/
  | image (bytes : List UInt8)
  /-- The address of a local that holds `v`. -/
  | addrOf (v : CVal)
  | value (v : Value)
  | argv (vs : List Value)
  deriving DecidableEq, Repr

/-! ### Types of values -/

def floatKind : Prim → Option FloatKind
  | .float => some .float
  | .double => some .double
  | .ldouble => some .ldouble
  | .complex32 => some .complex32
  | .complex64 => some .complex64
  | .complexld => some .complexld
  | _ => none

/-- The integers of a C type. `charSigned` says what a plain `char` is. A
`bool` is the result of a comparison and has no format. -/
def intFormat (charSigned : Bool) : Prim → Option IntFormat
  | .char => some ⟨charSigned, 8⟩
  | .schar | .int8T => some .i8
  | .uchar | .uint8T => some .u8
  | .short | .int16T => some .i16
  | .ushort | .uint16T => some .u16
  | .int | .sint | .int32T => some .i32
  | .uint | .uint32T => some .u32
  | .long | .llong | .int64T | .camlint | .nativeint => some .i64
  | .ulong | .ullong | .sizeT | .uint64T => some .u64
  | .bool | .float | .double | .ldouble | .complex32 | .complex64 | .complexld => none

def Integral (p : Prim) : Prop := floatKind p = none

def HasPrim (charSigned : Bool) (p : Prim) : CVal → Prop
  | .int i =>
      match intFormat charSigned p with
      | some f => f.InRange i
      | none => p = .bool ∧ (i = 0 ∨ i = 1)
  | .flt k _ => floatKind p = some k
  | _ => False

/-- The C values of a type that a function can return; `void` has none, so
nothing is said of it. -/
def HasCore (charSigned : Bool) : Typ → CVal → Prop
  | .void, _ => True
  | .primitive p, c => HasPrim charSigned p c
  | .pointer _, c | .funptr _, c => ∃ p, c = .ptr p
  | .struct _ _ _, c | .union _ _ _, c => ∃ bytes, c = .image bytes
  | _, _ => False

end CtypesCbuf.Runtime
