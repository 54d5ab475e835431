import CtypesCbuf.Ctypes.CArray
import CtypesCbuf.Lib.RowMajor

/-!
Bigarrays, `Ctypes_bigarray`, and what `Ctypes_memory` does to turn them into C
arrays and back. A bigarray carries its dimensions at run time; its class only
says how many there are.
-/

namespace CtypesCbuf.Ctypes.Memory

open RowMajor

/-! ### Types of bigarrays -/

inductive Kind
  | float32 | float64 | int8Signed | int8Unsigned | int16Signed | int16Unsigned | int32
  | int64 | int | nativeint | complex32 | complex64 | char
  deriving DecidableEq, Repr

def primOfKind : Kind → Prim
  | .float32 => .float
  | .float64 => .double
  | .int8Signed => .int8T
  | .int8Unsigned => .int8T
  | .int16Signed => .int16T
  | .int16Unsigned => .int16T
  | .int32 => .int32T
  | .int64 => .int64T
  | .int => .camlint
  | .nativeint => .nativeint
  | .complex32 => .complex32
  | .complex64 => .complex64
  | .char => .char

def bigarrayKindSizeof (k : Kind) : Nat := (primOfKind k).size

inductive Layout
  | c | fortran
  deriving DecidableEq, Repr

inductive BigarrayClass
  | genarray | array1 | array2 | array3
  deriving DecidableEq, Repr

abbrev BigarrayClass.Dims : BigarrayClass → Type
  | .genarray => List Int
  | .array1 => Int
  | .array2 => Int × Int
  | .array3 => Int × Int × Int

def dimensions : (c : BigarrayClass) → c.Dims → List Int
  | .genarray, dims => dims
  | .array1, x => [x]
  | .array2, (x, y) => [x, y]
  | .array3, (x, y, z) => [x, y, z]

/-- `Ctypes_bigarray.t`. -/
structure BigarrayTyp (c : BigarrayClass) where
  dims : c.Dims
  kind : Kind
  layout : Layout

/-! ### Bigarrays in the runtime of OCaml -/

/-- `caml_ba_element_size`. -/
def Kind.elementSize : Kind → Nat
  | .int8Signed | .int8Unsigned | .char => 1
  | .int16Signed | .int16Unsigned => 2
  | .float32 | .int32 => 4
  | .float64 | .int64 | .int | .nativeint | .complex32 => 8
  | .complex64 => 16

theorem bigarrayKindSizeof_eq (k : Kind) : bigarrayKindSizeof k = k.elementSize := by
  cases k <;> rfl

theorem Kind.elementSize_pos (k : Kind) : 0 < k.elementSize := by
  cases k <;> decide

def BigarrayClass.HasRank : BigarrayClass → Nat → Prop
  | .genarray, _ => True
  | .array1, n => n = 1
  | .array2, n => n = 2
  | .array3, n => n = 3

theorem hasRank_dimensions (c : BigarrayClass) (d : c.Dims) :
    c.HasRank (dimensions c d).length := by
  cases c <;> trivial

structure BigarrayOf (c : BigarrayClass) where
  /-- The value itself, which keeps its elements alive. -/
  self : Obj
  address : Int
  kind : Kind
  layout : Layout
  dims : List Int
  rank : c.HasRank dims.length
  /-- What the finaliser of the value uses, so that it lives as long. -/
  source : Option Obj

structure BigarrayRuntime where
  /-- The block of the value. -/
  block : Obj
  malloc : Nat → Int
  malloc_ne : ∀ size, size ≠ 0 → malloc size ≠ 0

/-- `caml_ba_alloc`. Without data, the elements are allocated too. -/
def camlBaAlloc (R : BigarrayRuntime) {c : BigarrayClass} (kind : Kind) (layout : Layout)
    (data : Int) (dims : List Int) (rank : c.HasRank dims.length) : BigarrayOf c where
  self := R.block
  address := if data = 0 then R.malloc (volume dims * kind.elementSize).toNat else data
  kind
  layout
  dims
  rank
  source := none

section Elements

variable {c : BigarrayClass}

/-- `Array1.dim`, `Array2.dim1` and the like, counted from 0. -/
def BigarrayOf.dim (b : BigarrayOf c) (n : Nat) : Int := b.dims.getD n 0

def BigarrayOf.major (b : BigarrayOf c) : List Int :=
  match b.layout with
  | .c => b.dims
  | .fortran => b.dims.reverse

/-- The indices that go with them. Fortran counts from 1. -/
def BigarrayOf.indices (b : BigarrayOf c) (idx : List Int) : List Int :=
  match b.layout with
  | .c => idx
  | .fortran => (idx.map (· - 1)).reverse

/-- The tuple `idx` is in range. -/
def BigarrayOf.HasIndex (b : BigarrayOf c) (idx : List Int) : Prop :=
  InRange b.major (b.indices idx)

instance (b : BigarrayOf c) (idx : List Int) : Decidable (b.HasIndex idx) :=
  inferInstanceAs (Decidable (InRange _ _))

/-- `caml_ba_offset`. -/
def BigarrayOf.number (b : BigarrayOf c) (idx : List Int) : Int :=
  offset b.major (b.indices idx)

def BigarrayOf.elementAddress (b : BigarrayOf c) (idx : List Int) : Int :=
  b.address + b.number idx * b.kind.elementSize

def BigarrayOf.byteSize (b : BigarrayOf c) : Int := volume b.dims * b.kind.elementSize

end Elements

/-! ### Conversions -/

section Conversions

variable (R : BigarrayRuntime) {c : BigarrayClass}

/-- `Ctypes_bigarray.view`, and `(!@)` at a bigarray type. -/
def view (t : BigarrayTyp c) (ptr : FatPtr Typ) : BigarrayOf c :=
  let ba := camlBaAlloc R t.kind t.layout ptr.raw (dimensions c t.dims)
    (hasRank_dimensions c t.dims)
  match ptr.managed with
  | none => ba
  | some src => { ba with source := some src }

def bigarrayStart (ba : BigarrayOf c) : FatPtr Typ :=
  ⟨.primitive (primOfKind ba.kind), ba.address, some ba.self⟩

/-- The dimensions of a bigarray are natural numbers, as the lengths of C types
are here. -/
def arrayOfBigarray : {c : BigarrayClass} → BigarrayOf c → CArray
  | .genarray, ba => ⟨bigarrayStart ba, ba.dims.foldl (· * ·) 1⟩
  | .array1, ba => ⟨bigarrayStart ba, ba.dim 0⟩
  | .array2, ba =>
      let p := bigarrayStart ba
      ⟨p.coerce (.array p.reftyp (ba.dim 1).toNat), ba.dim 0⟩
  | .array3, ba =>
      let p := bigarrayStart ba
      ⟨p.coerce (.array (.array p.reftyp (ba.dim 2).toNat) (ba.dim 1).toNat), ba.dim 0⟩

def unsupportedDims : Exn := .unsupported "taking dimensions of non-array type"

def arrayDims : (c : BigarrayClass) → CArray → Except Exn c.Dims
  | .genarray, a => .ok [a.alength]
  | .array1, a => .ok a.alength
  | .array2, a =>
      match a.astart.reftyp with
      | .array _ n => .ok (a.alength, (n : Int))
      | _ => .error unsupportedDims
  | .array3, a =>
      match a.astart.reftyp with
      | .array (.array _ m) n => .ok (a.alength, (n : Int), (m : Int))
      | _ => .error unsupportedDims

def bigarrayOfArray (c : BigarrayClass) (kind : Kind) (a : CArray) : Except Exn (BigarrayOf c) := do
  let dims ← arrayDims c a
  return view R ⟨dims, kind, .c⟩ a.astart

/-! ### Elements of C arrays -/

namespace CArray

/-- The pointer to `a.(i)`, with the check of `get`. -/
def pointerTo (a : CArray) (i : Int) : Except Exn (FatPtr Typ) :=
  if i < 0 ∨ i ≥ a.alength then .error (.invalidArg "index out of bounds") else plus a.astart i

/-- `a.(i)`, where the elements are arrays: a reference is taken. -/
def row (a : CArray) (i : Int) : Except Exn CArray := do
  let p ← a.pointerTo i
  match p.reftyp with
  | .array t n => .ok ⟨p.coerce t, n⟩
  | _ => .error .matchFailure

/-- The pointer to `a.(i).(j)...`. -/
def elementPtr : CArray → Int → List Int → Except Exn (FatPtr Typ)
  | a, i, [] => a.pointerTo i
  | a, i, j :: js => do
      let r ← a.row i
      r.elementPtr j js

end CArray

end Conversions

end CtypesCbuf.Ctypes.Memory
