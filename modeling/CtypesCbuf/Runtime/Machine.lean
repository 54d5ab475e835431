import CtypesCbuf.CLanguage.Syntax
import CtypesCbuf.Runtime.Value

/-!
The machine that generated code runs on: conversions between C types, the
functions of the runtime library by name, and the accesses to memory of
`type_info_stubs.c`. What C programs and the platform decide is a parameter.
-/

namespace CtypesCbuf.Runtime

open Ctypes CLanguage

/-- The unsigned integers of the package `integers`, as its header gives
them to C code. -/
structure Integers where
  uint8Val : Value → Int
  uint16Val : Value → Int
  uint32Val : Value → Int
  uint64Val : Value → Int
  valUint8 : Int → Value
  valUint16 : Int → Value
  copyUint32 : Int → Value
  copyUint64 : Int → Value

/-- What the platform, the C function and the views of the types do. -/
structure Machine where
  integers : Integers
  charSigned : Bool
  convertFloat : FloatKind → FloatKind → Nat → Nat
  /-- The structure of the type at an address. -/
  load : Typ → Ptr → List UInt8
  /-- `CTYPES_PTR_OF_FLOAT_ARRAY`, which no header defines. -/
  ptrOfFloatArray : Value → Ptr
  /-- The functions of views. -/
  write : ViewId → Value → Value
  read : ViewId → Value → Value
  /-- What the C function returns. -/
  foreign : List CVal → CVal
  /-- What it leaves in `errno`, which it finds as given. -/
  foreignErrno : List CVal → Int → Int
  /-- What an allocation or an operation on the runtime lock leaves in
  `errno`; the number counts them. -/
  clobber : Nat → Int → Int

/-- One call of the C function. -/
structure Call where
  fname : String
  args : List CVal
  errnoOnEntry : Int
  errnoOnReturn : Int
  deriving DecidableEq, Repr

/-- What runs of generated code change. -/
structure World where
  errno : Int
  clobbers : Nat
  /-- The lengths of the byte sequences created so far. -/
  created : List Nat
  calls : List Call
  deriving DecidableEq, Repr

/-- An operation that may change `errno`. -/
def World.clobber (m : Machine) (w : World) : World :=
  { w with errno := m.clobber w.clobbers w.errno, clobbers := w.clobbers + 1 }

@[simp] theorem World.clobber_calls (m : Machine) (w : World) :
    (w.clobber m).calls = w.calls := rfl

@[simp] theorem World.clobber_created (m : Machine) (w : World) :
    (w.clobber m).created = w.created := rfl

/-- The value `v` of an OCaml type stands for the integer `i`. The values of
the package `integers` are what its functions make. -/
def Denotes (m : Machine) : MlPrim → Value → Int → Prop
  | .char, v, i => v = .int i ∧ 0 ≤ i ∧ i < 256
  | .bool, v, i => v = .int i ∧ (i = 0 ∨ i = 1)
  | .int, v, i => v = .int i ∧ IntFormat.i63.InRange i
  | .int32, v, i | .sint, v, i => v = .boxed .int32 i ∧ IntFormat.i32.InRange i
  | .int64, v, i | .long, v, i | .llong, v, i =>
      v = .boxed .int64 i ∧ IntFormat.i64.InRange i
  | .nativeint, v, i => v = .boxed .nativeint i ∧ IntFormat.i64.InRange i
  | .uchar, v, i | .uint8, v, i => v = m.integers.valUint8 i ∧ IntFormat.u8.InRange i
  | .ushort, v, i | .uint16, v, i => v = m.integers.valUint16 i ∧ IntFormat.u16.InRange i
  | .uint, v, i | .uint32, v, i => v = m.integers.copyUint32 i ∧ IntFormat.u32.InRange i
  | .sizeT, v, i | .ulong, v, i | .ullong, v, i | .uint64, v, i =>
      v = m.integers.copyUint64 i ∧ IntFormat.u64.InRange i
  | .float, _, _ | .ldouble, _, _ | .complex, _, _ | .complexld, _, _ => False

/-- The values of the OCaml type that a primitive is read at. -/
def HasMlPrim (m : Machine) (k : MlPrim) (v : Value) : Prop :=
  match k, v with
  | .float, .flt .double _ | .ldouble, .flt .ldouble _ | .complex, .flt .complex64 _
  | .complexld, .flt .complexld _ => True
  | _, _ => ∃ i, Denotes m k v i

/-- The readers of the package `integers` give back what its makers took, and
a number is no pair. -/
structure Integers.Lawful (k : Integers) : Prop where
  uint8 : ∀ i, IntFormat.u8.InRange i → k.uint8Val (k.valUint8 i) = i
  uint16 : ∀ i, IntFormat.u16.InRange i → k.uint16Val (k.valUint16 i) = i
  uint32 : ∀ i, IntFormat.u32.InRange i → k.uint32Val (k.copyUint32 i) = i
  uint64 : ∀ i, IntFormat.u64.InRange i → k.uint64Val (k.copyUint64 i) = i
  number : ∀ make ∈ [k.valUint8, k.valUint16, k.copyUint32, k.copyUint64],
    ∀ i v w, make i ≠ .pair v w

/-! ### A plain machine -/

/-- Small numbers without a box, the others as opaque values. -/
def Integers.plain : Integers :=
  let val : Value → Int
    | .int i => i
    | .other k => k
    | _ => 0
  { uint8Val := val, uint16Val := val, uint32Val := val, uint64Val := val
    valUint8 := .int, valUint16 := .int
    copyUint32 := fun i => .other i.toNat, copyUint64 := fun i => .other i.toNat }

theorem Integers.plain_lawful : Integers.plain.Lawful := by
  refine ⟨fun i _ => rfl, fun i _ => rfl, fun i hi => ?_, fun i hi => ?_, ?_⟩
  · exact Int.toNat_of_nonneg hi.1
  · exact Int.toNat_of_nonneg hi.1
  · simp [Integers.plain]

/-- Views and conversions change nothing, and C functions return 0. -/
def Machine.plain : Machine :=
  { integers := .plain, charSigned := true, convertFloat := fun _ _ bits => bits
    load := fun _ _ => [], ptrOfFloatArray := fun _ => .addr 0
    write := fun _ v => v, read := fun _ v => v
    foreign := fun _ => .int 0, foreignErrno := fun _ e => e, clobber := fun _ e => e }

def World.empty : World := { errno := 0, clobbers := 0, created := [], calls := [] }

/-! ### Conversions -/

def convert (m : Machine) (p : Prim) : CVal → CVal
  | .int i =>
      match p, intFormat m.charSigned p with
      | .bool, _ => .int (if i = 0 then 0 else 1)
      | _, some f => .int (f.wrap i)
      | _, none => .undefined
  | .flt k bits =>
      match floatKind p with
      | some k' => .flt k' (if k = k' then bits else m.convertFloat k k' bits)
      | none => .undefined
  | v => v

/-- A view converts as the type it is over. -/
def convertTyp (m : Machine) : Typ → CVal → CVal
  | .primitive p, v => convert m p v
  | .view _ ty, v => convertTyp m ty v
  | _, v => v

def convertTy (m : Machine) : Ty → CVal → CVal
  | .ty t, v => convertTyp m t v
  | .bufTy _, v => v

/-! ### The runtime library -/

def valLong (i : Int) : Value := .int (IntFormat.i63.wrap i)

def readImmediate (f : IntFormat) : List CVal → CVal
  | [.value (.int i)] => .int (f.wrap i)
  | _ => .undefined

def readBoxed (k : BoxedInt) : List CVal → CVal
  | [.value (.boxed k' i)] => if k = k' then .int i else .undefined
  | _ => .undefined

/-- A reader of the package `integers`: its C type is `f`. -/
def readUnsigned (f : IntFormat) (val : Value → Int) : List CVal → CVal
  | [.value v] => .int (f.wrap (val v))
  | _ => .undefined

/-- A reader of floats of kind `k` that returns them as `k'`. -/
def readFloat (m : Machine) (k k' : FloatKind) : List CVal → CVal
  | [.value (.flt l bits)] =>
      if l = k then .flt k' (if k = k' then bits else m.convertFloat k k' bits) else .undefined
  | _ => .undefined

def makeImmediate (conv : Int → Int) : List CVal → CVal
  | [.int i] => .value (valLong (conv i))
  | _ => .undefined

def makeUnsigned (f : IntFormat) (copy : Int → Value) : List CVal → CVal
  | [.int i] => .value (copy (f.wrap i))
  | _ => .undefined

def makeBoxed (k : BoxedInt) : List CVal → CVal
  | [.int i] => .value (.boxed k (k.format.wrap i))
  | _ => .undefined

/-- An allocator of floats of kind `k'`. Its parameter converts the argument
to `k`. -/
def makeFloat (m : Machine) (k k' : FloatKind) : List CVal → CVal
  | [.flt l bits] =>
      let bits := if l = k then bits else m.convertFloat l k bits
      .value (.flt k' (if k = k' then bits else m.convertFloat k k' bits))
  | _ => .undefined

def addrOfFatptr : List CVal → CVal
  | [.value (.fatptr _ _ p)] => .ptr p
  | [.value (.fatfunptr _ _ p)] => .ptr p
  | _ => .undefined

def interiorPtr : List CVal → CVal
  | [.value (.ocamlRef _ off (.object _ obj))] => .ptr (.interior obj off)
  | _ => .undefined

def floatArrayPtr (m : Machine) : List CVal → CVal
  | [.value v] => .ptr (m.ptrOfFloatArray v)
  | _ => .undefined

/-- The address of what an OCaml reference points to. -/
def ocamlPtr (m : Machine) : OcamlType → List CVal → CVal
  | .string | .bytes => interiorPtr
  | .floatArray => floatArrayPtr m

def fromPtr : List CVal → CVal
  | [.ptr p] => .value (.rawPtr p)
  | _ => .undefined

def copyBlock : List CVal → CVal
  | [.addrOf (.image bytes), .int n] => .value (.managedBuffer (bytes.take n.toNat))
  | _ => .undefined

/-- The functions and macros of the headers, by name. On this platform the
names that depend on the sizes of C types stand for 32 and 64 bits. No header
defines `CTYPES_PTR_OF_FLOAT_ARRAY`: it is here for programs that define it
themselves. -/
def libraryTable (m : Machine) : List (String × (List CVal → CVal)) :=
  [("Int_val", readImmediate .i32),
    ("Long_val", readImmediate .i64),
    ("Bool_val", readImmediate .i32),
    ("Uint8_val", readUnsigned .u8 m.integers.uint8Val),
    ("Uint16_val", readUnsigned .u16 m.integers.uint16Val),
    ("ctypes_ushort_val", readUnsigned .u16 m.integers.uint16Val),
    ("Int32_val", readBoxed .int32),
    ("ctypes_sint_val", readBoxed .int32),
    ("Int64_val", readBoxed .int64),
    ("ctypes_long_val", readBoxed .int64),
    ("ctypes_llong_val", readBoxed .int64),
    ("Nativeint_val", readBoxed .nativeint),
    ("Uint32_val", readUnsigned .u32 m.integers.uint32Val),
    ("ctypes_uint_val", readUnsigned .u32 m.integers.uint32Val),
    ("Uint64_val", readUnsigned .u64 m.integers.uint64Val),
    ("ctypes_ulong_val", readUnsigned .u64 m.integers.uint64Val),
    ("ctypes_ullong_val", readUnsigned .u64 m.integers.uint64Val),
    ("ctypes_size_t_val", readUnsigned .u64 m.integers.uint64Val),
    ("Double_val", readFloat m .double .double),
    ("ctypes_ldouble_val", readFloat m .ldouble .ldouble),
    ("ctypes_float_complex_val", readFloat m .complex64 .complex32),
    ("ctypes_double_complex_val", readFloat m .complex64 .complex64),
    ("ctypes_ldouble_complex_val", readFloat m .complexld .complexld),
    ("Ctypes_val_char", makeImmediate fun c => (c + 256).tmod 256),
    ("Val_int", makeImmediate id),
    ("Val_long", makeImmediate id),
    ("Val_bool", makeImmediate fun b => if b = 0 then 0 else 1),
    ("Integers_val_uint8", makeUnsigned .u8 m.integers.valUint8),
    ("Integers_val_uint16", makeUnsigned .u16 m.integers.valUint16),
    ("ctypes_copy_ushort", makeUnsigned .u16 m.integers.valUint16),
    ("caml_copy_int32", makeBoxed .int32),
    ("ctypes_copy_sint", makeBoxed .int32),
    ("caml_copy_int64", makeBoxed .int64),
    ("ctypes_copy_long", makeBoxed .int64),
    ("ctypes_copy_llong", makeBoxed .int64),
    ("caml_copy_nativeint", makeBoxed .nativeint),
    ("integers_copy_uint32", makeUnsigned .u32 m.integers.copyUint32),
    ("ctypes_copy_uint", makeUnsigned .u32 m.integers.copyUint32),
    ("integers_copy_uint64", makeUnsigned .u64 m.integers.copyUint64),
    ("ctypes_copy_ulong", makeUnsigned .u64 m.integers.copyUint64),
    ("ctypes_copy_ullong", makeUnsigned .u64 m.integers.copyUint64),
    ("ctypes_copy_size_t", makeUnsigned .u64 m.integers.copyUint64),
    ("caml_copy_double", makeFloat m .double .double),
    ("ctypes_copy_ldouble", makeFloat m .ldouble .ldouble),
    ("ctypes_copy_float_complex", makeFloat m .complex32 .complex64),
    ("ctypes_copy_double_complex", makeFloat m .complex64 .complex64),
    ("ctypes_copy_ldouble_complex", makeFloat m .complexld .complexld),
    ("CTYPES_ADDR_OF_FATPTR", addrOfFatptr),
    ("CTYPES_PTR_OF_OCAML_STRING", interiorPtr),
    ("CTYPES_PTR_OF_OCAML_BYTES", interiorPtr),
    ("CTYPES_PTR_OF_FLOAT_ARRAY", floatArrayPtr m),
    ("CTYPES_FROM_PTR", fromPtr),
    ("ctypes_copy_bytes", copyBlock)]

def library (m : Machine) (name : String) : List CVal → CVal :=
  match (libraryTable m).lookup name with
  | some f => f
  | none => fun _ => .undefined

/-! ### Memory accesses of ctypes -/

/-- The reader that `ctypes_write` applies to the OCaml value. -/
def writeReader : Prim → String
  | .char | .schar | .short | .int | .int8T | .int16T => "Int_val"
  | .uchar | .uint8T => "Uint8_val"
  | .bool => "Bool_val"
  | .long => "ctypes_long_val"
  | .llong => "ctypes_llong_val"
  | .ushort => "ctypes_ushort_val"
  | .sint => "ctypes_sint_val"
  | .uint => "ctypes_uint_val"
  | .ulong => "ctypes_ulong_val"
  | .ullong => "ctypes_ullong_val"
  | .sizeT => "ctypes_size_t_val"
  | .int32T => "Int32_val"
  | .int64T => "Int64_val"
  | .uint16T => "Uint16_val"
  | .uint32T => "Uint32_val"
  | .uint64T => "Uint64_val"
  | .camlint => "Long_val"
  | .nativeint => "Nativeint_val"
  | .float | .double => "Double_val"
  | .ldouble => "ctypes_ldouble_val"
  | .complex32 => "ctypes_float_complex_val"
  | .complex64 => "ctypes_double_complex_val"
  | .complexld => "ctypes_ldouble_complex_val"

/-- The C value in memory after `ctypes_write`. A `char` is stored through
`unsigned char`. -/
def ctypesWrite (m : Machine) (p : Prim) (v : Value) : CVal :=
  let c := library m (writeReader p) [.value v]
  match p with
  | .char => convert m .char (convert m .uchar c)
  | p => convert m p c

/-- The function that `ctypes_read` applies to the C value. -/
def readMaker : Prim → String
  | .char | .schar | .short | .int | .int8T | .int16T => "Val_int"
  | .uchar | .uint8T => "Integers_val_uint8"
  | .bool => "Val_bool"
  | .long => "ctypes_copy_long"
  | .llong => "ctypes_copy_llong"
  | .ushort => "ctypes_copy_ushort"
  | .sint => "ctypes_copy_sint"
  | .uint => "ctypes_copy_uint"
  | .ulong => "ctypes_copy_ulong"
  | .ullong => "ctypes_copy_ullong"
  | .sizeT => "ctypes_copy_size_t"
  | .int32T => "caml_copy_int32"
  | .int64T => "caml_copy_int64"
  | .uint16T => "Integers_val_uint16"
  | .uint32T => "integers_copy_uint32"
  | .uint64T => "integers_copy_uint64"
  | .camlint => "Val_long"
  | .nativeint => "caml_copy_nativeint"
  | .float | .double => "caml_copy_double"
  | .ldouble => "ctypes_copy_ldouble"
  | .complex32 => "ctypes_copy_float_complex"
  | .complex64 => "ctypes_copy_double_complex"
  | .complexld => "ctypes_copy_ldouble_complex"

/-- The OCaml value that `ctypes_read` makes of a C value in memory. -/
def ctypesRead (m : Machine) (p : Prim) (c : CVal) : CVal :=
  match p with
  | .char => library m (readMaker .char) [convert m .uchar c]
  | p => library m (readMaker p) [c]

end CtypesCbuf.Runtime
