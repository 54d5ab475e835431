import CtypesCbuf.CtypesForeign.FfiCall
import CtypesCbuf.Lib.Alignment

/-!
Call specifications, `struct callspec` of `ffi_call_stubs.c`. The layout of
the buffer of a call is computed three times: when an argument is added, when
the specification is prepared and when the call is made. The arithmetic is
that of C: `size_t` wraps at 64 bits and `int` at 32.
-/

namespace CtypesCbuf.CtypesForeign

/-- The type codes of libffi. -/
inductive FfiCode
  | void | int | float | double | longdouble | uint8 | sint8 | uint16 | sint16
  | uint32 | sint32 | uint64 | sint64 | struct | pointer | complex
  deriving DecidableEq, Repr

structure FfiType where
  size : Nat
  alignment : Nat
  type : FfiCode
  deriving DecidableEq, Repr

def ffiTypePointer : FfiType := ⟨8, 8, .pointer⟩

/-- `sizeof(ffi_arg)`, `sizeof(void *)`. -/
def wordSize : Nat := 8

def sizeT (i : Int) : Nat := (IntFormat.u64.wrap i).toNat

def cInt (i : Int) : Int := IntFormat.i32.wrap i

/-- Given an offset into a fully-aligned buffer, the next offset that
satisfies `alignment`. -/
def alignedOffset (offset alignment : Nat) : Nat :=
  let overhang := offset % alignment
  if overhang = 0 then offset else sizeT (offset - overhang + alignment)

inductive SpecState
  | building | callspec
  deriving DecidableEq, Repr

/-- An element of the array of arguments, unset where the block has just
grown. -/
inductive Cell
  | unset | null
  | type (t : FfiType)
  deriving DecidableEq, Repr

/-- `ffi_cif`, as far as it is read. -/
structure Cif where
  nargs : Nat
  rtype : FfiType
  deriving DecidableEq, Repr

structure Callspec where
  bytes : Nat
  nelements : Nat
  capacity : Nat
  maxAlign : Nat
  state : SpecState
  /-- `none` is the null pointer. -/
  args : Option (List Cell)
  roffset : Nat
  radjustment : Nat
  context : CallContext
  cif : Option Cif
  deriving DecidableEq, Repr

def allocateCallspec (context : CallContext) : Callspec where
  bytes := 0
  nelements := 0
  capacity := 0
  maxAlign := 0
  state := .building
  args := none
  roffset := sizeT (-1)
  radjustment := 0
  context := context
  cif := none

/-- `caml_stat_resize` to so many bytes. -/
def resize (args : Option (List Cell)) (bytes : Nat) : List Cell :=
  let cells := args.getD []
  let n := bytes / wordSize
  cells.take n ++ List.replicate (n - cells.length) .unset

def writeCell (cells : List Cell) (i : Nat) (c : Cell) : Option (List Cell) :=
  if i < cells.length then some (cells.set i c) else none

/-- The array and its capacity with room for one more argument. -/
def grown (spec : Callspec) : List Cell × Nat :=
  if spec.nelements + 2 ≥ spec.capacity then
    (resize spec.args (sizeT (((spec.capacity + 8) * wordSize : Nat))),
      sizeT ((spec.capacity + 8 : Nat)))
  else (spec.args.getD [], spec.capacity)

/-- `ctypes_add_argument`. There is no result when an assertion fails or a
write is out of bounds. -/
def addArgument (spec : Callspec) (argtype : FfiType) : Option (Int × Callspec) := do
  guard (spec.state = .building)
  let offset := cInt (alignedOffset spec.bytes argtype.alignment)
  let bytes := sizeT (offset + argtype.size)
  let args ← writeCell (grown spec).1 spec.nelements (.type argtype)
  let args ← writeCell args (spec.nelements + 1) .null
  return (offset,
    { spec with
      bytes, capacity := (grown spec).2, args := some args
      nelements := spec.nelements + 1
      maxAlign :=
        if argtype.alignment > spec.maxAlign then argtype.alignment else spec.maxAlign })

def isIntegerCode : FfiCode → Bool
  | .int | .uint8 | .sint8 | .uint16 | .sint16 | .uint32 | .sint32 | .uint64 | .sint64 => true
  | _ => false

/-- `ffi_return_type_adjustment`; `bigEndian` is `ARCH_BIG_ENDIAN`. -/
def ffiReturnTypeAdjustment (bigEndian : Bool) (f : FfiType) : Nat :=
  if bigEndian ∧ f.size < wordSize ∧ isIntegerCode f.type then wordSize - f.size else 0

/-- `ctypes_prep_callspec`. libffi's `ffi_prep_cif` is given by `prepCif`,
which tells whether the status is `FFI_OK`; the exception of another status
leaves no specification that can be called. -/
def prepCallspec (bigEndian : Bool) (prepCif : FfiType → Option (List Cell) → Bool)
    (spec : Callspec) (rtype : FfiType) : Option Callspec := do
  let roffset := alignedOffset spec.bytes rtype.alignment
  let radjustment := ffiReturnTypeAdjustment bigEndian rtype
  let bytes := sizeT (roffset + rtype.size)
  -- an extra word after the space of the return value
  let bytes := alignedOffset bytes ffiTypePointer.alignment
  let bytes := sizeT (bytes + ffiTypePointer.size)
  guard (prepCif rtype spec.args)
  return { spec with
    bytes, roffset, radjustment
    cif := some ⟨spec.nelements, rtype⟩
    state := .callspec }

/-- `compute_arg_buffer_size`: the size and the offset of the pointer array. -/
def computeArgBufferSize (spec : Callspec) : Option (Nat × Nat) := do
  guard (spec.state = .callspec)
  let argArrayOffset := alignedOffset spec.bytes ffiTypePointer.alignment
  return (sizeT (argArrayOffset + spec.nelements * wordSize), argArrayOffset)

/-- The loop of `populate_arg_array` for the `n` arguments from `i` on: the
offsets that it stores. -/
def populateFrom (args : List Cell) : Nat → Nat → Nat → Option (List Nat)
  | 0, _, _ => some []
  | n + 1, i, offset =>
      match args[i]? with
      | some (.type t) => do
          let offset := alignedOffset offset t.alignment
          let rest ← populateFrom args n (i + 1) (sizeT (offset + t.size))
          return offset :: rest
      | _ => none

def populateArgArray (spec : Callspec) : Option (List Nat) :=
  populateFrom (spec.args.getD []) spec.nelements 0 0

/-- Arguments added one after the other, with the offsets returned to OCaml. -/
def addArguments (spec : Callspec) : List FfiType → Option (List Int × Callspec)
  | [] => some ([], spec)
  | t :: ts => do
      let (offset, spec) ← addArgument spec t
      let (offsets, spec) ← addArguments spec ts
      return (offset :: offsets, spec)

example : (addArguments (allocateCallspec ⟨false, false⟩)
    [⟨1, 1, .sint8⟩, ⟨4, 4, .sint32⟩, ⟨8, 8, .pointer⟩]).map (·.1) = some [0, 4, 8] := by
  decide

/-! ### The layout without overflow -/

open Alignment

section Layout

variable (args : List FfiType) (ret : FfiType)

def FfiType.block (t : FfiType) : Nat × Nat := (t.size, t.alignment)

def argSlots : List Slot := place 0 (args.map FfiType.block)

def argsEnd : Nat := stop 0 (argSlots args)

def returnOffset : Nat := roundUp (argsEnd args) ret.alignment

/-- The end of the scratch area: the return value and a word after it. -/
def scratchEnd : Nat := roundUp (returnOffset args ret + ret.size) wordSize + wordSize

def arrayOffset : Nat := roundUp (scratchEnd args ret) wordSize

def bufferSize : Nat := arrayOffset args ret + args.length * wordSize

/-- Every offset that is kept in an `int` fits, and so does the size. -/
structure NoOverflow : Prop where
  offset : ∀ s ∈ argSlots args, s.offset < 2 ^ 31
  returned : returnOffset args ret < 2 ^ 31
  size : bufferSize args ret < 2 ^ 64

end Layout

def FfiType.Valid (t : FfiType) : Prop := 0 < t.size ∧ ∃ k, t.alignment = 2 ^ k

variable {args ts us : List FfiType} {t ret : FfiType} {spec : Callspec}

theorem FfiType.Valid.align_pos (h : t.Valid) : 0 < t.alignment := by
  obtain ⟨-, k, hk⟩ := h
  rw [hk]
  exact Nat.two_pow_pos k

theorem sizeT_of_lt {n : Nat} (h : n < 2 ^ 64) : sizeT (n : Int) = n := by
  have hr : IntFormat.u64.InRange n := ⟨by omega, by
    show (n : Int) < ((2 ^ 64 : Nat) : Int)
    omega⟩
  rw [sizeT, IntFormat.wrap_of_inRange hr, Int.toNat_natCast]

theorem cInt_of_lt {n : Nat} (h : n < 2 ^ 31) : cInt (n : Int) = n := by
  apply IntFormat.wrap_of_inRange
  show -((2 ^ 32 : Nat) : Int) ≤ 2 * n ∧ 2 * (n : Int) < ((2 ^ 32 : Nat) : Int)
  omega

theorem alignedOffset_of_lt {n a : Nat} (h : roundUp n a < 2 ^ 64) :
    alignedOffset n a = roundUp n a := by
  unfold alignedOffset
  unfold roundUp at h ⊢
  dsimp only
  split
  · rfl
  · rw [if_neg ‹_›] at h
    have hle := Nat.mod_le n a
    rw [← Int.ofNat_sub hle, ← Int.natCast_add, sizeT_of_lt h]

theorem argSlots_append (ts us : List FfiType) :
    argSlots (ts ++ us) = argSlots ts ++ place (argsEnd ts) (us.map FfiType.block) := by
  rw [argSlots, List.map_append, place_append]
  rfl

theorem tight_argSlots (h : ∀ t ∈ args, t.Valid) : Tight 0 (argSlots args) := by
  refine tight_place fun b hb => ?_
  obtain ⟨t, ht, rfl⟩ := List.mem_map.mp hb
  exact (h t ht).align_pos

end CtypesCbuf.CtypesForeign
