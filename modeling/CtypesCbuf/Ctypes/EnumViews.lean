import CtypesCbuf.Ctypes.CArray
import CtypesCbuf.Ctypes.ReadBack

/-!
The views of enumerations, `build_enum_type` of `Cstubs_internals`. A constant
is an `int64`, which is converted to the type that the C compiler has for the
enumeration when the view is built; the view looks labels and constants up.
-/

namespace CtypesCbuf.Ctypes.Memory

open ByteMemory IntFormat
open CtypesCbuf.Runtime

/-- `Ctypes_static.arithmetic`. -/
inductive Arithmetic
  | int8 | int16 | int32 | int64 | uint8 | uint16 | uint32 | uint64 | float | double
  deriving DecidableEq, Repr

/-! ### Conversions -/

def int64ToString (x : Int) : String := toString x

/-- `Int64.of_string`, of decimal digits after a sign. -/
def int64OfString (s : String) : Int :=
  match s.toList with
  | '-' :: digits => -(Nat.ofDigitChars 10 digits 0 : Int)
  | digits => (Nat.ofDigitChars 10 digits 0 : Int)

/-- The modules of `Unsigned`, as OCaml code calls them. -/
structure Unsigned where
  uint8OfString : String → Value
  uint8ToInt : Value → Int
  uint16OfString : String → Value
  uint16ToInt : Value → Int
  uint32OfString : String → Value
  uint32ToString : Value → String
  uint64OfInt64 : Int → Value
  uint64ToInt64 : Value → Int

/-- They agree with what C code makes of the same integers. -/
structure Unsigned.Faithful (U : Unsigned) (k : Integers) : Prop where
  uint8OfString : ∀ i, u8.InRange i → U.uint8OfString (int64ToString i) = k.valUint8 i
  uint8ToInt : ∀ i, u8.InRange i → U.uint8ToInt (k.valUint8 i) = i
  uint16OfString : ∀ i, u16.InRange i → U.uint16OfString (int64ToString i) = k.valUint16 i
  uint16ToInt : ∀ i, u16.InRange i → U.uint16ToInt (k.valUint16 i) = i
  uint32OfString : ∀ i, u32.InRange i → U.uint32OfString (int64ToString i) = k.copyUint32 i
  uint32ToString : ∀ i, u32.InRange i → U.uint32ToString (k.copyUint32 i) = int64ToString i
  uint64OfInt64 : ∀ i, i64.InRange i → U.uint64OfInt64 i = k.copyUint64 (u64.wrap i)
  uint64ToInt64 : ∀ i, u64.InRange i → U.uint64ToInt64 (k.copyUint64 i) = i64.wrap i

section Conversions

variable (U : Unsigned)

/-- The integer in an OCaml integer or in the block of one. -/
def Value.toInt : Value → Int
  | .int i => i
  | .boxed _ i => i
  | _ => 0

def int8OfInt64 (x : Int) : Value := .int (i63.wrap x)

def int64OfInt8 (v : Value) : Int := Value.toInt v

def int16OfInt64 (x : Int) : Value := .int (i63.wrap x)

def int64OfInt16 (v : Value) : Int := Value.toInt v

def int32OfInt64 (x : Int) : Value := .boxed .int32 (i32.wrap x)

def int64OfInt32 (v : Value) : Int := Value.toInt v

/-- An `int64` is its integer here, and the block of it as a value. -/
def int64OfInt64 (x : Int) : Value := .boxed .int64 x

def uint8OfInt64 (x : Int) : Value := U.uint8OfString (int64ToString x)

def int64OfUint8 (v : Value) : Int := U.uint8ToInt v

def uint16OfInt64 (x : Int) : Value := U.uint16OfString (int64ToString x)

def int64OfUint16 (v : Value) : Int := U.uint16ToInt v

def uint32OfInt64 (x : Int) : Value := U.uint32OfString (int64ToString x)

def int64OfUint32 (v : Value) : Int := int64OfString (U.uint32ToString v)

def uint64OfInt64 (x : Int) : Value := U.uint64OfInt64 x

def int64OfUint64 (v : Value) : Int := U.uint64ToInt64 v

end Conversions

/-! ### Views -/

variable {L : Type} [DecidableEq L]

/-- A view with values in `L` over a primitive type. -/
structure EnumView (L : Type) where
  typ : Prim
  formatTyp : String → String
  read : Value → Except Exn L
  /-- Nothing for a label without a constant: `Not_found` is raised. -/
  write : L → Option Value

def mkView (name : String) (typ : Prim) (typedef : Bool) (unexpected : Value → Except Exn L)
    (alist : List (L × Value)) : EnumView L :=
  let typedef := if typedef then "" else "enum "
  let rlist := alist.map fun e => (e.2, e.1)
  { typ
    formatTyp := fun k => typedef ++ name ++ k
    write := fun k => alist.lookup k
    read := fun k =>
      match rlist.lookup k with
      | some l => .ok l
      | none => unexpected k }

def mapAssocv {B C : Type} (f : B → C) : List (L × B) → List (L × C) :=
  List.map fun e => (e.1, f e.2)

/-- What reading gives where the list has no constant for the integer. -/
def unexpectedValue (name : String) (unexpected : Option (Int → Except Exn L)) (x : Int) :
    Except Exn L :=
  match unexpected with
  | some u => u x
  | none => .error (.failure ("Unexpected enum value for " ++ name ++ ": " ++ int64ToString x))

def buildView (name : String) (typedef : Bool) (unexpected : Option (Int → Except Exn L))
    (alist : List (L × Int)) (t : Prim) (coerce : Int → Value) (uncoerce : Value → Int) :
    EnumView L :=
  mkView name t typedef (fun x => unexpectedValue name unexpected (uncoerce x))
    (mapAssocv coerce alist)

def buildEnumType (U : Unsigned) (name : String) (underlying : Arithmetic) (typedef : Bool)
    (unexpected : Option (Int → Except Exn L)) (alist : List (L × Int)) :
    Except Exn (EnumView L) :=
  let buildView := buildView name typedef unexpected alist
  match underlying with
  | .int8 => .ok (buildView .int8T int8OfInt64 int64OfInt8)
  | .int16 => .ok (buildView .int16T int16OfInt64 int64OfInt16)
  | .int32 => .ok (buildView .int32T int32OfInt64 int64OfInt32)
  | .int64 => .ok (buildView .int64T int64OfInt64 Value.toInt)
  | .uint8 => .ok (buildView .uint8T (uint8OfInt64 U) (int64OfUint8 U))
  | .uint16 => .ok (buildView .uint16T (uint16OfInt64 U) (int64OfUint16 U))
  | .uint32 => .ok (buildView .uint32T (uint32OfInt64 U) (int64OfUint32 U))
  | .uint64 => .ok (buildView .uint64T (uint64OfInt64 U) (int64OfUint64 U))
  | .float | .double => .error (.failure ("Enum type detected as floating type: " ++ name))

section Memory

variable {A : ViewId → Type} (P : Platform A)

/-- `(!@)` at the type of the view. -/
def EnumView.get (v : EnumView L) (p : FatPtr Typ) (mem : Memory) : Except Failure L := do
  let u ← deref P (.primitive v.typ) p mem
  (v.read u).mapError .raises

/-- `p <-@ l`. -/
def EnumView.set (v : EnumView L) (l : L) (p : FatPtr Typ) (mem : Memory) :
    Option (Except Failure Memory) :=
  (v.write l).map fun u => assignAt P (.primitive v.typ) p u mem

end Memory

/-! ### What the conversions keep -/

def Arithmetic.prim : Arithmetic → Option Prim
  | .int8 => some .int8T
  | .int16 => some .int16T
  | .int32 => some .int32T
  | .int64 => some .int64T
  | .uint8 => some .uint8T
  | .uint16 => some .uint16T
  | .uint32 => some .uint32T
  | .uint64 => some .uint64T
  | .float | .double => none

def Arithmetic.format : Arithmetic → Option IntFormat
  | .int8 => some .i8
  | .int16 => some .i16
  | .int32 => some .i32
  | .int64 => some .i64
  | .uint8 => some .u8
  | .uint16 => some .u16
  | .uint32 => some .u32
  | .uint64 => some .u64
  | .float | .double => none

/-- Of an integer of the type `p`, `coerce` takes the `int64` with its bits, and
`uncoerce` gives it back. -/
structure Converts (m : Machine) (p : Prim) (f : IntFormat) (coerce : Int → Value)
    (uncoerce : Value → Int) : Prop where
  format : intFormat m.charSigned p = some f
  bits : f.bits ≤ 64
  coerces : ∀ x, f.InRange x → Denotes m (mlPrim p) (coerce (i64.wrap x)) x
  uncoerces : ∀ v x, f.InRange x → Denotes m (mlPrim p) v x → uncoerce v = i64.wrap x
  reads : ∀ x, f.InRange x → ∃ v, ctypesRead m p (.int x) = .value v ∧ Denotes m (mlPrim p) v x
  injective : ∀ v x y, Denotes m (mlPrim p) v x → Denotes m (mlPrim p) v y → x = y

theorem int64OfString_toString {x : Int} (h : 0 ≤ x) : int64OfString (int64ToString x) = x := by
  obtain ⟨n, rfl⟩ := Int.eq_ofNat_of_zero_le h
  have hchars : (int64ToString n).toList = Nat.toDigits 10 n := Nat.toList_repr
  rw [int64OfString, hchars]
  cases hdigits : Nat.toDigits 10 n with
  | nil => exact absurd hdigits Nat.toDigits_ne_nil
  | cons d ds =>
      have hsign : d ≠ '-' := by
        rintro rfl
        have hdigit : ('-').isDigit = true :=
          Nat.isDigit_of_mem_toDigits (b := 10) (n := n) (by decide) (by decide) (by simp [hdigits])
        exact absurd hdigit (by decide)
      have hvalue : Nat.ofDigitChars 10 (d :: ds) 0 = n := by
        rw [← hdigits, Nat.ofDigitChars_ten_toDigits]
      split
      · next h => exact absurd (List.cons.inj h).1 hsign
      · rw [hvalue]

section Converts

variable {m : Machine} {U : Unsigned}

theorem wrap_i64 {f : IntFormat} {x : Int} (hx : f.InRange x) (hsigned : f.signed = true)
    (hbits : f.bits ≤ 64) : i64.wrap x = x :=
  wrap_of_inRange (hx.mono hsigned hbits)

/-- At the types that are read as OCaml integers. -/
theorem converts_int {p : Prim} {f : IntFormat} (hf : intFormat m.charSigned p = some f)
    (hp : mlPrim p = .int) (hread : ∀ x, ctypesRead m p (.int x) = .value (valLong x))
    (hsigned : f.signed = true) (hbits : f.bits ≤ 63) :
    Converts m p f (fun x => .int (i63.wrap x)) Value.toInt where
  format := hf
  bits := by omega
  coerces x hx := by
    have hx63 : i63.InRange x := hx.mono hsigned hbits
    rw [wrap_i64 hx hsigned (by omega), hp, wrap_of_inRange hx63]
    exact ⟨rfl, hx63⟩
  uncoerces v x hx hv := by
    rw [hp] at hv
    obtain ⟨rfl, -⟩ := hv
    exact (wrap_i64 hx hsigned (by omega)).symm
  reads x hx := by
    have hx63 : i63.InRange x := hx.mono hsigned hbits
    refine ⟨.int x, ?_, ?_⟩
    · rw [hread, valLong, wrap_of_inRange hx63]
    · rw [hp]
      exact ⟨rfl, hx63⟩
  injective v x y hx hy := by
    rw [hp] at hx hy
    obtain ⟨rfl, -⟩ := hx
    obtain ⟨h, -⟩ := hy
    exact Value.int.inj h

/-- At the types of unsigned integers: `make` is the value that C code makes,
and `val` the integer that it reads. -/
theorem converts_unsigned {p : Prim} {f : IntFormat} {make : Int → Value} {val : Value → Int}
    {coerce : Int → Value} {uncoerce : Value → Int} (hf : intFormat m.charSigned p = some f)
    (hbits : f.bits ≤ 64)
    (hp : ∀ v x, Denotes m (mlPrim p) v x ↔ v = make x ∧ f.InRange x)
    (hread : ∀ x, ctypesRead m p (.int x) = .value (make (f.wrap x)))
    (hval : ∀ x, f.InRange x → val (make x) = x)
    (hcoerce : ∀ x, f.InRange x → coerce (i64.wrap x) = make x)
    (huncoerce : ∀ x, f.InRange x → uncoerce (make x) = i64.wrap x) :
    Converts m p f coerce uncoerce where
  format := hf
  bits := hbits
  coerces x hx := (hp _ _).mpr ⟨hcoerce x hx, hx⟩
  uncoerces v x hx hv := by
    rw [((hp v x).mp hv).1, huncoerce x hx]
  reads x hx := ⟨make x, by rw [hread, wrap_of_inRange hx], (hp _ _).mpr ⟨rfl, hx⟩⟩
  injective v x y hx hy := by
    obtain ⟨rfl, hxr⟩ := (hp v x).mp hx
    obtain ⟨h, hyr⟩ := (hp _ y).mp hy
    rw [← hval x hxr, h, hval y hyr]

/-- An unsigned integer of at most 32 bits is an `int64`. -/
theorem wrap_unsigned {n : Nat} (hn : n ≤ 32) {x : Int} (hx : InRange ⟨false, n⟩ x) :
    i64.wrap x = x := by
  have hle : ((modulus ⟨false, n⟩ : Nat) : Int) ≤ modulus u32 := by
    exact_mod_cast modulus_le (f := ⟨false, n⟩) (g := u32) hn
  have hmod32 : ((modulus u32 : Nat) : Int) = 4294967296 := rfl
  have hmod64 : ((modulus i64 : Nat) : Int) = 18446744073709551616 := rfl
  obtain ⟨h0, hlt⟩ : 0 ≤ x ∧ x < (modulus ⟨false, n⟩ : Nat) := hx
  refine wrap_of_inRange ?_
  rw [InRange, if_pos (show i64.signed = true from rfl), hmod64]
  omega

/-- The view for an underlying type converts as that type needs. -/
theorem exists_converts (hm : m.integers.Lawful) (hU : U.Faithful m.integers)
    {u : Arithmetic} {p : Prim} {f : IntFormat} (hp : u.prim = some p) (hf : u.format = some f)
    {L : Type} [DecidableEq L] (name : String) (typedef : Bool)
    (unexpected : Option (Int → Except Exn L)) (alist : List (L × Int)) :
    ∃ coerce uncoerce, Converts m p f coerce uncoerce ∧
      buildEnumType U name u typedef unexpected alist =
        .ok (buildView name typedef unexpected alist p coerce uncoerce) := by
  cases u with
  | int8 =>
      cases hp
      cases hf
      exact ⟨_, _, converts_int rfl rfl (fun _ => rfl) rfl (by decide), rfl⟩
  | int16 =>
      cases hp
      cases hf
      exact ⟨_, _, converts_int rfl rfl (fun _ => rfl) rfl (by decide), rfl⟩
  | int32 =>
      cases hp
      cases hf
      refine ⟨int32OfInt64, int64OfInt32, ⟨rfl, by decide, ?_, ?_, ?_, ?_⟩, rfl⟩
      · intro x hx
        rw [wrap_i64 hx rfl (by decide)]
        exact ⟨congrArg _ (wrap_of_inRange hx), hx⟩
      · rintro v x hx ⟨rfl, -⟩
        exact (wrap_i64 hx rfl (by decide)).symm
      · intro x hx
        exact ⟨_, rfl, congrArg _ (wrap_of_inRange hx), hx⟩
      · rintro v x y ⟨rfl, -⟩ ⟨h, -⟩
        exact (Value.boxed.inj h).2
  | int64 =>
      cases hp
      cases hf
      refine ⟨int64OfInt64, Value.toInt, ⟨rfl, by decide, ?_, ?_, ?_, ?_⟩, rfl⟩
      · intro x hx
        rw [wrap_of_inRange hx]
        exact ⟨rfl, hx⟩
      · rintro v x hx ⟨rfl, -⟩
        exact (wrap_of_inRange hx).symm
      · intro x hx
        exact ⟨_, rfl, congrArg _ (wrap_of_inRange hx), hx⟩
      · rintro v x y ⟨rfl, -⟩ ⟨h, -⟩
        exact (Value.boxed.inj h).2
  | uint8 =>
      cases hp
      cases hf
      refine ⟨_, _, converts_unsigned rfl (by decide) (fun _ _ => Iff.rfl) (fun _ => rfl) hm.uint8
        (fun x hx => ?_) (fun x hx => ?_), rfl⟩
      · rw [wrap_unsigned (by decide) hx, uint8OfInt64, hU.uint8OfString x hx]
      · rw [wrap_unsigned (by decide) hx, int64OfUint8, hU.uint8ToInt x hx]
  | uint16 =>
      cases hp
      cases hf
      refine ⟨_, _, converts_unsigned rfl (by decide) (fun _ _ => Iff.rfl) (fun _ => rfl) hm.uint16
        (fun x hx => ?_) (fun x hx => ?_), rfl⟩
      · rw [wrap_unsigned (by decide) hx, uint16OfInt64, hU.uint16OfString x hx]
      · rw [wrap_unsigned (by decide) hx, int64OfUint16, hU.uint16ToInt x hx]
  | uint32 =>
      cases hp
      cases hf
      refine ⟨_, _, converts_unsigned rfl (by decide) (fun _ _ => Iff.rfl) (fun _ => rfl) hm.uint32
        (fun x hx => ?_) (fun x hx => ?_), rfl⟩
      · rw [wrap_unsigned (by decide) hx, uint32OfInt64, hU.uint32OfString x hx]
      · rw [wrap_unsigned (by decide) hx, int64OfUint32, hU.uint32ToString x hx,
          int64OfString_toString hx.1]
  | uint64 =>
      cases hp
      cases hf
      refine ⟨_, _, converts_unsigned rfl (by decide) (fun _ _ => Iff.rfl) (fun _ => rfl) hm.uint64
        (fun x hx => ?_) (fun x hx => ?_), rfl⟩
      · rw [uint64OfInt64, hU.uint64OfInt64 _ (wrap_inRange _ _), wrap_wrap (g := i64) (by decide),
          wrap_of_inRange hx]
      · rw [int64OfUint64, hU.uint64ToInt64 x hx]
  | float | double => cases hp

end Converts

/-! ### Reading and writing -/

section Views

/-- The constants are the `int64`s with the bits of integers of the type. -/
def Constants (f : IntFormat) (alist : List (L × Int)) : Prop :=
  ∀ e ∈ alist, ∃ x, f.InRange x ∧ e.2 = i64.wrap x

def firstLabel (alist : List (L × Int)) (c : Int) : Option L :=
  (alist.find? fun e => e.2 = c).map Prod.fst

/-- The `int64` of the integer in memory. -/
def storedInt64 (f : IntFormat) (mem : Memory) (a : Int) (size : Nat) : Int :=
  i64.wrap (f.wrap (fetch mem a size))

variable {A : ViewId → Type} {P : Platform A} {p : Prim} {f : IntFormat} {coerce : Int → Value}
  {uncoerce : Value → Int} {alist : List (L × Int)} {name : String} {typedef : Bool}
  {unexpected : Option (Int → Except Exn L)} {q : FatPtr Typ} {mem : Memory} {l : L} {c : Int}

theorem wrap_i64_inj {x y : Int} (hbits : f.bits ≤ 64) (hx : f.InRange x) (hy : f.InRange y)
    (h : i64.wrap x = i64.wrap y) : x = y := by
  rw [← wrap_of_inRange hx, ← wrap_of_inRange hy, ← wrap_wrap (g := i64) hbits, h,
    wrap_wrap hbits]

omit [DecidableEq L] in
/-- The constants as values of the type are looked up as the constants are. -/
theorem lookup_constant {m : Machine} (h : Converts m p f coerce uncoerce)
    (hconst : Constants f alist) {v : Value} {x : Int} (hx : f.InRange x)
    (hv : Denotes m (mlPrim p) v x) :
    ((mapAssocv coerce alist).map fun e => (e.2, e.1)).lookup v =
      firstLabel alist (i64.wrap x) := by
  induction alist with
  | nil => rfl
  | cons e es ih =>
      obtain ⟨⟨y, hy, hc⟩, hrest⟩ := List.forall_mem_cons.mp hconst
      have hiff : v = coerce e.2 ↔ e.2 = i64.wrap x := by
        rw [hc]
        constructor
        · rintro rfl
          rw [h.injective _ _ _ hv (h.coerces y hy)]
        · intro heq
          rw [← wrap_i64_inj h.bits hy hx heq] at hv
          exact denotes_unique hv (h.coerces y hy)
      rw [mapAssocv, List.map_cons, List.map_cons, List.lookup_cons, firstLabel, List.find?_cons]
      by_cases hex : e.2 = i64.wrap x
      · have hbeq : (v == coerce e.2) = true := beq_iff_eq.mpr (hiff.mpr hex)
        have hdec : decide (e.2 = i64.wrap x) = true := decide_eq_true hex
        simp only [hbeq, hdec]
        rfl
      · have hbeq : (v == coerce e.2) = false := beq_eq_false_iff_ne.mpr (mt hiff.mp hex)
        have hdec : decide (e.2 = i64.wrap x) = false := decide_eq_false hex
        simp only [hbeq, hdec]
        exact ih hrest

/-- The constant of a label that the list has once. -/
theorem lookup_label (hlabels : (alist.map Prod.fst).Nodup) (hl : (l, c) ∈ alist) :
    (mapAssocv coerce alist).lookup l = some (coerce c) := by
  induction alist with
  | nil => cases hl
  | cons e es ih =>
      rw [List.map_cons, List.nodup_cons] at hlabels
      rw [mapAssocv, List.map_cons, List.lookup_cons]
      rcases List.mem_cons.mp hl with rfl | hl
      · simp
      · have hne : (l == e.1) = false := by
          refine beq_eq_false_iff_ne.mpr ?_
          rintro rfl
          exact hlabels.1 (List.mem_map.mpr ⟨_, hl, rfl⟩)
        simp only [hne]
        exact ih hlabels.2 hl

/-- What is read is the first label of the integer in memory, if it has one. -/
theorem get_buildView (h : Converts P.machine p f coerce uncoerce) (hconst : Constants f alist) :
    (buildView name typedef unexpected alist p coerce uncoerce).get P q mem =
      match firstLabel alist (storedInt64 f mem q.raw p.size) with
      | some l => .ok l
      | none =>
          (unexpectedValue name unexpected (storedInt64 f mem q.raw p.size)).mapError .raises := by
  have hx : f.InRange (f.wrap (fetch mem q.raw p.size)) := wrap_inRange _ _
  obtain ⟨v, hread, hv⟩ := h.reads _ hx
  rw [← loadPrim_int h.format] at hread
  have hderef : deref P (.primitive p) q mem = .ok v := (deref_primitive_iff P).mpr hread
  have hget : (buildView name typedef unexpected alist p coerce uncoerce).get P q mem =
      ((buildView name typedef unexpected alist p coerce uncoerce).read v).mapError .raises := by
    show (deref P (.primitive p) q mem >>= fun u => _) = _
    rw [hderef]
    rfl
  have hlookup := lookup_constant h hconst hx hv
  have huncoerce := h.uncoerces v _ hx hv
  rw [← storedInt64] at hlookup huncoerce
  rw [hget, buildView, mkView]
  dsimp only
  rw [hlookup, huncoerce]
  cases firstLabel alist (storedInt64 f mem q.raw p.size) <;> rfl

/-- A label is written as its constant, which is then in memory. -/
theorem set_buildView (hm : P.machine.integers.Lawful) (h : Converts P.machine p f coerce uncoerce)
    (hconst : Constants f alist) (hlabels : (alist.map Prod.fst).Nodup) (hl : (l, c) ∈ alist) :
    ∃ mem', (buildView name typedef unexpected alist p coerce uncoerce).set P l q mem =
        some (.ok mem') ∧ storedInt64 f mem' q.raw p.size = c := by
  obtain ⟨x, hx, hc⟩ := hconst (l, c) hl
  have hc' : c = i64.wrap x := hc
  subst hc'
  have hp := integral_of_intFormat h.format
  refine ⟨store q.raw p.size x mem, ?_, ?_⟩
  · have hset : (buildView name typedef unexpected alist p coerce uncoerce).set P l q mem =
        ((mapAssocv coerce alist).lookup l).map fun u =>
          (Access.primitive p (ctypesWrite P.machine p u) q.raw).perform mem := rfl
    have hwrite : ctypesWrite P.machine p (coerce (i64.wrap x)) = .int x := by
      rw [ctypesWrite_eq hm hp (h.coerces x hx), convert_int h.format, wrap_of_inRange hx]
    rw [hset, lookup_label hlabels hl, Option.map_some, hwrite]
    rfl
  · have hwrap : f.wrap (x % f.modulus) = f.wrap x :=
      wrap_congr (Int.emod_emod_of_dvd _ (Int.dvd_refl _))
    rw [storedInt64, fetch_store, pow_size h.format, hwrap, wrap_of_inRange hx]

omit [DecidableEq L] in
theorem firstLabel_of_mem (hl : (l, c) ∈ alist) :
    ∃ l', firstLabel alist c = some l' ∧ ((alist.map Prod.snd).Nodup → l' = l) := by
  induction alist with
  | nil => cases hl
  | cons e es ih =>
      rw [firstLabel, List.find?_cons]
      by_cases hec : e.2 = c
      · have hdec : decide (e.2 = c) = true := decide_eq_true hec
        simp only [hdec]
        refine ⟨e.1, rfl, fun hconst => ?_⟩
        rw [List.map_cons, List.nodup_cons] at hconst
        rcases List.mem_cons.mp hl with rfl | hl
        · rfl
        · exact absurd (hec ▸ List.mem_map_of_mem hl) hconst.1
      · have hdec : decide (e.2 = c) = false := decide_eq_false hec
        simp only [hdec]
        rcases List.mem_cons.mp hl with rfl | hl
        · exact absurd rfl hec
        · obtain ⟨l', hfirst, heq⟩ := ih hl
          refine ⟨l', hfirst, fun hconst => heq ?_⟩
          rw [List.map_cons, List.nodup_cons] at hconst
          exact hconst.2

omit [DecidableEq L] in
theorem firstLabel_eq_none (h : ∀ e ∈ alist, e.2 ≠ c) : firstLabel alist c = none := by
  have hfind : (alist.find? fun e => e.2 = c) = none := by simpa using h
  rw [firstLabel, hfind]
  rfl

/-- A label that is written is read as the first one with its constant, and an
integer that is no constant is given to `unexpected`. -/
theorem enum_view {U : Unsigned} (hm : P.machine.integers.Lawful)
    (hU : U.Faithful P.machine.integers) {u : Arithmetic} (hf : u.format = some f) (name : String)
    (typedef : Bool) (unexpected : Option (Int → Except Exn L)) (hconst : Constants f alist)
    (hlabels : (alist.map Prod.fst).Nodup) :
    ∃ v, buildEnumType U name u typedef unexpected alist = .ok v ∧ u.prim = some v.typ ∧
      ∀ (q : FatPtr Typ) (mem : Memory),
        (∀ l c, (l, c) ∈ alist → ∃ mem' l', v.set P l q mem = some (.ok mem') ∧
          v.get P q mem' = .ok l' ∧ firstLabel alist c = some l' ∧
          ((alist.map Prod.snd).Nodup → l' = l)) ∧
        ∀ x, x = storedInt64 f mem q.raw v.typ.size → (∀ e ∈ alist, e.2 ≠ x) →
          (∀ g, unexpected = some g → v.get P q mem = (g x).mapError .raises) ∧
          (unexpected = none → v.get P q mem = .error (.raises (.failure
            ("Unexpected enum value for " ++ name ++ ": " ++ int64ToString x)))) := by
  obtain ⟨p, hp⟩ : ∃ p, u.prim = some p := by
    cases u <;> first | exact ⟨_, rfl⟩ | cases hf
  obtain ⟨coerce, uncoerce, hconv, hbuild⟩ :=
    exists_converts hm hU hp hf name typedef unexpected alist
  refine ⟨_, hbuild, hp, fun q mem => ⟨fun l c hl => ?_, fun x hx hnone => ?_⟩⟩
  · obtain ⟨mem', hset, hstored⟩ :
        ∃ mem', (buildView name typedef unexpected alist p coerce uncoerce).set P l q mem =
          some (.ok mem') ∧ storedInt64 f mem' q.raw p.size = c :=
      set_buildView hm hconv hconst hlabels hl
    obtain ⟨l', hfirst, heq⟩ := firstLabel_of_mem hl
    refine ⟨mem', l', hset, ?_, hfirst, heq⟩
    rw [get_buildView hconv hconst, hstored, hfirst]
  · have hget : (buildView name typedef unexpected alist p coerce uncoerce).get P q mem =
        (unexpectedValue name unexpected x).mapError .raises := by
      rw [get_buildView hconv hconst]
      have hx' : storedInt64 f mem q.raw p.size = x := hx.symm
      rw [hx', firstLabel_eq_none hnone]
    constructor
    · rintro g rfl
      rw [hget, unexpectedValue]
    · rintro rfl
      exact hget

end Views

/-! ### An enumeration of bytes -/

/-- The conversions for integers that are represented as by `Integers.plain`. -/
def Unsigned.plain : Unsigned :=
  let val : Value → Int
    | .int i => i
    | .other k => k
    | _ => 0
  { uint8OfString := fun s => .int (int64OfString s), uint8ToInt := val
    uint16OfString := fun s => .int (int64OfString s), uint16ToInt := val
    uint32OfString := fun s => .other (int64OfString s).toNat
    uint32ToString := fun v => int64ToString (val v)
    uint64OfInt64 := fun i => .other (u64.wrap i).toNat
    uint64ToInt64 := fun v => i64.wrap (val v) }

theorem Unsigned.plain_faithful : Unsigned.plain.Faithful Integers.plain := by
  have hint : ∀ i, 0 ≤ i → Value.int (int64OfString (int64ToString i)) = .int i :=
    fun i hi => congrArg Value.int (int64OfString_toString hi)
  have hother : ∀ i, 0 ≤ i →
      Value.other (int64OfString (int64ToString i)).toNat = .other i.toNat :=
    fun i hi => congrArg (fun j : Int => Value.other j.toNat) (int64OfString_toString hi)
  refine ⟨fun i hi => hint i hi.1, fun i _ => rfl, fun i hi => hint i hi.1, fun i _ => rfl,
    fun i hi => hother i hi.1, fun i hi => ?_, fun i _ => rfl, fun i hi => ?_⟩
  · exact congrArg int64ToString (Int.toNat_of_nonneg hi.1)
  · have hval : ((i.toNat : Nat) : Int) = i := Int.toNat_of_nonneg hi.1
    simp only [Unsigned.plain, Integers.plain, hval]

def letters : List (Char × Int) := [('A', 0), ('B', 255), ('C', 0)]

theorem letters_constants : Constants u8 letters := by
  simp only [letters, Constants, List.forall_mem_cons]
  exact ⟨⟨0, by decide, rfl⟩, ⟨255, by decide, rfl⟩, ⟨0, by decide, rfl⟩, nofun⟩

/-- The label `C` comes back as `A`, and 7 is no constant. -/
theorem enum_view_letters :
    ∃ v, buildEnumType Unsigned.plain "letters" .uint8 false (some fun _ => .ok 'X') letters =
        .ok v ∧
      (∃ mem', v.set unitPlatform 'C' ⟨.void, 4096, none⟩ (fun _ => 7) = some (.ok mem') ∧
        v.get unitPlatform ⟨.void, 4096, none⟩ mem' = .ok 'A') ∧
      v.get unitPlatform ⟨.void, 4096, none⟩ (fun _ => 7) = .ok 'X' := by
  obtain ⟨v, hbuild, hprim, hrun⟩ := enum_view (P := unitPlatform) Integers.plain_lawful
    Unsigned.plain_faithful (u := .uint8) rfl "letters" false (some fun _ => .ok 'X')
    letters_constants (by decide)
  obtain ⟨hlabel, hother⟩ := hrun ⟨.void, 4096, none⟩ fun _ => 7
  obtain ⟨mem', l', hset, hget, hfirst, -⟩ := hlabel 'C' 0 (by decide)
  cases hfirst
  have htyp : v.typ = .uint8T := (Option.some.inj hprim).symm
  refine ⟨v, hbuild, ⟨mem', hset, hget⟩, (hother 7 ?_ (by decide)).1 _ rfl⟩
  rw [htyp]
  rfl

end CtypesCbuf.Ctypes.Memory
