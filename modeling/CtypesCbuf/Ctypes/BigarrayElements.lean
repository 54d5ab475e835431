import CtypesCbuf.Ctypes.BigarrayArrays
import CtypesCbuf.Ctypes.ReadBack

/-!
The elements of a bigarray as the runtime of OCaml reads them and as C values.
Both read the same bytes; they disagree for the unsigned kinds, for which
`prim_of_kind` has signed types.
-/

namespace CtypesCbuf.Ctypes.Memory

open ByteMemory IntFormat
open CtypesCbuf.Runtime

/-! ### Elements in the runtime of OCaml -/

def copyTwoDoubles (re im : Nat) : Value := .flt .complex64 (re + 2 ^ 64 * im)

/-- The element at an address, as `get` returns it. -/
def Kind.get (m : Machine) (k : Kind) (mem : Memory) (a : Int) : Value :=
  let double (bits : Int) : Nat := m.convertFloat .float .double bits.toNat
  match k with
  | .float32 => .flt .double (double (fetch mem a 4))
  | .float64 => .flt .double (fetch mem a 8).toNat
  | .int8Signed => valLong (i8.wrap (fetch mem a 1))
  | .int8Unsigned => valLong (u8.wrap (fetch mem a 1))
  | .int16Signed => valLong (i16.wrap (fetch mem a 2))
  | .int16Unsigned => valLong (u16.wrap (fetch mem a 2))
  | .int32 => .boxed .int32 (i32.wrap (fetch mem a 4))
  | .int64 => .boxed .int64 (i64.wrap (fetch mem a 8))
  | .int => valLong (i64.wrap (fetch mem a 8))
  | .nativeint => .boxed .nativeint (i64.wrap (fetch mem a 8))
  | .complex32 => copyTwoDoubles (double (fetch mem a 4)) (double (fetch mem (a + 4) 4))
  | .complex64 => copyTwoDoubles (fetch mem a 8).toNat (fetch mem (a + 8) 8).toNat
  | .char => valLong (u8.wrap (fetch mem a 1))

def BigarrayOf.get {c : BigarrayClass} (m : Machine) (b : BigarrayOf c) (mem : Memory)
    (idx : List Int) : Value :=
  b.kind.get m mem (b.elementAddress idx)

/-- The values that `get` can return. -/
def Kind.CanHold (m : Machine) (k : Kind) (v : Value) : Prop := ∃ mem a, k.get m mem a = v

/-- The kind is unsigned, and the element is too large for the signed type. -/
def Kind.Misread (k : Kind) (mem : Memory) (a : Int) : Prop :=
  match k with
  | .int8Unsigned => 128 ≤ fetch mem a 1
  | .int16Unsigned => 32768 ≤ fetch mem a 2
  | _ => False

/-- What C says of conversions: a `float` is a `double` without loss, and
complex numbers are converted by parts. -/
structure ExactFloats (m : Machine) : Prop where
  fits : FloatsFit m
  exact : ∀ bits < 2 ^ 32,
    m.convertFloat .float .double
      (m.convertFloat .double .float (m.convertFloat .float .double bits)) =
      m.convertFloat .float .double bits
  widen : ∀ re < 2 ^ 32, ∀ im < 2 ^ 32,
    m.convertFloat .complex32 .complex64 (re + 2 ^ 32 * im) =
      m.convertFloat .float .double re + 2 ^ 64 * m.convertFloat .float .double im
  narrow : ∀ re < 2 ^ 64, ∀ im < 2 ^ 64,
    m.convertFloat .complex64 .complex32 (re + 2 ^ 64 * im) =
      m.convertFloat .double .float re + 2 ^ 32 * m.convertFloat .double .float im

variable {m : Machine} {k : Kind} {v : Value} {mem : Memory} {a : Int}

/-! ### Reading -/

theorem valLong_eq {i : Int} (h : i63.InRange i) : valLong i = .int i :=
  congrArg Value.int (wrap_of_inRange h)

/-- A signed format of so many bits reads what an unsigned one does up to the
top bit. -/
theorem valLong_signed_iff {n : Nat} (hn : n ≤ 62) {x : Int} (hx : 0 ≤ x)
    (hlt : x < (modulus ⟨false, n⟩ : Nat)) :
    valLong (wrap ⟨true, n⟩ x) = valLong (wrap ⟨false, n⟩ x) ↔
      2 * x < (modulus ⟨true, n⟩ : Nat) := by
  have hunsigned : wrap ⟨false, n⟩ x = x := wrap_of_inRange ⟨hx, hlt⟩
  have hwide : (modulus ⟨false, n⟩ : Int) ≤ modulus ⟨false, 62⟩ := by
    exact_mod_cast modulus_le (f := ⟨false, n⟩) (g := ⟨false, 62⟩) hn
  have hx63 : i63.InRange x := by
    have hmod62 : (modulus ⟨false, 62⟩ : Int) = 4611686018427387904 := rfl
    have hmod63 : (modulus i63 : Int) = 9223372036854775808 := rfl
    rw [InRange, if_pos (show i63.signed = true from rfl), hmod63]
    omega
  have hsigned : i63.InRange (wrap ⟨true, n⟩ x) :=
    (wrap_inRange _ _).mono rfl (show n ≤ 63 by omega)
  rw [hunsigned, valLong_eq hx63, valLong_eq hsigned, Value.int.injEq, wrap_eq_self_iff, InRange,
    if_pos rfl]
  exact ⟨fun h => h.2, fun h => ⟨by omega, h⟩⟩

theorem fetch_toNat_lt (mem : Memory) (a : Int) (n : Nat) : (fetch mem a n).toNat < 256 ^ n := by
  have hlt := fetch_lt mem a n
  rw [Int.toNat_lt (fetch_nonneg mem a n)]
  exact_mod_cast hlt

/-- The bits of two numbers that lie one after the other. -/
theorem fetch_pair (mem : Memory) (a : Int) (n : Nat) :
    (fetch mem a (n + n)).toNat =
      (fetch mem a n).toNat + 256 ^ n * (fetch mem (a + n) n).toNat := by
  have hlow := Int.toNat_of_nonneg (fetch_nonneg mem a n)
  have hhigh := Int.toNat_of_nonneg (fetch_nonneg mem (a + n) n)
  apply Int.ofNat_inj.mp
  rw [Int.toNat_of_nonneg (fetch_nonneg _ _ _), fetch_add, Int.natCast_add, Int.natCast_mul, hlow,
    hhigh, Int.natCast_pow]
  rfl

def readElement (m : Machine) (k : Kind) (mem : Memory) (a : Int) : CVal :=
  ctypesRead m (primOfKind k) (loadPrim m (primOfKind k) mem a)

/-- The bytes are those that the runtime reads, in the format of the C type. -/
theorem readElement_int {f : IntFormat} (hf : intFormat m.charSigned (primOfKind k) = some f)
    (mem : Memory) (a : Int) :
    readElement m k mem a =
      ctypesRead m (primOfKind k) (.int (f.wrap (fetch mem a k.elementSize))) := by
  rw [readElement, loadPrim_int hf, ← bigarrayKindSizeof_eq]
  rfl

/-- Both read the same value, unless the kind is unsigned and the top bit is
set. -/
theorem readElement_iff (hw : ExactFloats m) (k : Kind) (mem : Memory) (a : Int) :
    readElement m k mem a = .value (k.get m mem a) ↔ ¬ k.Misread mem a := by
  have himmediate : ∀ p ∈ [Prim.int8T, .int16T, .camlint], ∀ i,
      ctypesRead m p (.int i) = .value (valLong i) := by
    simp only [List.forall_mem_cons]
    exact ⟨fun _ => rfl, fun _ => rfl, fun _ => rfl, nofun⟩
  cases k with
  | int8Unsigned =>
      have hmod : ((modulus ⟨true, 8⟩ : Nat) : Int) = 256 := rfl
      have hlt : fetch mem a 1 < 256 := by simpa using fetch_lt mem a 1
      have hiff := valLong_signed_iff (n := 8) (by decide) (fetch_nonneg mem a 1) hlt
      rw [readElement_int (k := .int8Unsigned) rfl, himmediate _ (by simp [primOfKind]),
        CVal.value.injEq]
      refine hiff.trans ?_
      rw [hmod, Kind.Misread]
      omega
  | int16Unsigned =>
      have hmod : ((modulus ⟨true, 16⟩ : Nat) : Int) = 65536 := rfl
      have hlt : fetch mem a 2 < 65536 := by simpa using fetch_lt mem a 2
      have hiff := valLong_signed_iff (n := 16) (by decide) (fetch_nonneg mem a 2) hlt
      rw [readElement_int (k := .int16Unsigned) rfl, himmediate _ (by simp [primOfKind]),
        CVal.value.injEq]
      refine hiff.trans ?_
      rw [hmod, Kind.Misread]
      omega
  | int8Signed | int16Signed | int =>
      refine iff_of_true ((readElement_int (by rfl) mem a).trans ?_) id
      exact himmediate _ (by simp [primOfKind]) _
  | char =>
      refine iff_of_true ?_ id
      have hread : ∀ i, ctypesRead m .char (.int i) = .value (valLong (u8.wrap i)) := fun _ => rfl
      rw [readElement_int (k := .char) rfl, primOfKind, hread,
        wrap_wrap (g := ⟨m.charSigned, 8⟩) (Nat.le_refl 8)]
      rfl
  | int32 | int64 | nativeint =>
      refine iff_of_true ((readElement_int (by rfl) mem a).trans ?_) id
      exact congrArg (fun i => CVal.value (.boxed _ i)) (wrap_wrap (Nat.le_refl _))
  | complex32 =>
      refine iff_of_true ?_ id
      have hbits : readElement m .complex32 mem a = .value (.flt .complex64
          (m.convertFloat .complex32 .complex64 (fetch mem a (4 + 4)).toNat)) := rfl
      rw [hbits, fetch_pair]
      exact congrArg (fun bits => CVal.value (.flt .complex64 bits))
        (hw.widen _ (fetch_toNat_lt mem a 4) _ (fetch_toNat_lt mem (a + 4) 4))
  | complex64 =>
      refine iff_of_true ?_ id
      exact congrArg (fun bits => CVal.value (.flt .complex64 bits)) (fetch_pair mem a 8)
  | float32 | float64 => exact iff_of_true rfl id

/-! ### Writing -/

/-- The elements of the kind are integers in the format `g`, of which `make`
makes OCaml values. -/
structure IntegerKind (m : Machine) (k : Kind) (g : IntFormat) (make : Int → Value) : Prop where
  get : ∀ mem a, k.get m mem a = make (g.wrap (fetch mem a k.elementSize))
  bits : g.bits = 8 * k.elementSize
  denotes : ∀ x, ∃ j, Denotes m (mlPrim (primOfKind k)) (make (g.wrap x)) j ∧
    make (g.wrap j) = make (g.wrap x)

theorem denotes_valLong {g : IntFormat} (hbits : g.bits ≤ 63) (x : Int) :
    ∃ j, (valLong (g.wrap x) = .int j ∧ i63.InRange j) ∧
      valLong (g.wrap j) = valLong (g.wrap x) := by
  refine ⟨i63.wrap (g.wrap x), ⟨rfl, wrap_inRange _ _⟩, ?_⟩
  rw [wrap_wrap (g := i63) hbits, wrap_wrap (Nat.le_refl _)]

theorem exists_integerKind (m : Machine) (hk : Integral (primOfKind k)) :
    ∃ g make, IntegerKind m k g make := by
  have hboxed : ∀ (g : IntFormat) x, g.wrap (g.wrap x) = g.wrap x :=
    fun g x => wrap_wrap (Nat.le_refl _)
  cases k with
  | int8Signed => exact ⟨i8, valLong, fun _ _ => rfl, rfl, denotes_valLong (by decide)⟩
  | int8Unsigned => exact ⟨u8, valLong, fun _ _ => rfl, rfl, denotes_valLong (by decide)⟩
  | int16Signed => exact ⟨i16, valLong, fun _ _ => rfl, rfl, denotes_valLong (by decide)⟩
  | int16Unsigned => exact ⟨u16, valLong, fun _ _ => rfl, rfl, denotes_valLong (by decide)⟩
  | int32 =>
      exact ⟨i32, .boxed .int32, fun _ _ => rfl, rfl,
        fun x => ⟨_, ⟨rfl, wrap_inRange _ _⟩, congrArg _ (hboxed i32 x)⟩⟩
  | int64 =>
      exact ⟨i64, .boxed .int64, fun _ _ => rfl, rfl,
        fun x => ⟨_, ⟨rfl, wrap_inRange _ _⟩, congrArg _ (hboxed i64 x)⟩⟩
  | nativeint =>
      exact ⟨i64, .boxed .nativeint, fun _ _ => rfl, rfl,
        fun x => ⟨_, ⟨rfl, wrap_inRange _ _⟩, congrArg _ (hboxed i64 x)⟩⟩
  | int =>
      refine ⟨i64, valLong, fun _ _ => rfl, rfl, fun x => ?_⟩
      have hrange : i63.InRange (i63.wrap (i64.wrap x)) := wrap_inRange _ _
      have hwide : i64.wrap (i63.wrap (i64.wrap x)) = i63.wrap (i64.wrap x) :=
        wrap_of_inRange (hrange.mono rfl (by decide))
      refine ⟨i63.wrap (i64.wrap x), ⟨rfl, hrange⟩, ?_⟩
      rw [hwide, valLong_eq hrange]
      rfl
  | char =>
      refine ⟨u8, valLong, fun _ _ => rfl, rfl, fun x => ?_⟩
      have hbyte : 0 ≤ u8.wrap x ∧ u8.wrap x < 256 := wrap_inRange u8 x
      have hrange : i63.InRange (u8.wrap x) := by
        have hmod : ((modulus i63 : Nat) : Int) = 9223372036854775808 := rfl
        rw [InRange, if_pos (show i63.signed = true from rfl), hmod]
        omega
      refine ⟨u8.wrap x, ⟨valLong_eq hrange, hbyte⟩, ?_⟩
      rw [hboxed]
  | float32 | float64 | complex32 | complex64 => cases hk

def storeElement (m : Machine) (k : Kind) (v : Value) (mem : Memory) (a : Int) :
    Except Failure Memory :=
  (Access.primitive (primOfKind k) (ctypesWrite m (primOfKind k) v) a).perform mem

theorem get_storeElement_int (hm : m.integers.Lawful) (hp : Integral (primOfKind k))
    (hv : k.CanHold m v) (mem : Memory) (a : Int) :
    ∃ mem', storeElement m k v mem a = .ok mem' ∧ k.get m mem' a = v := by
  obtain ⟨mem0, a0, rfl⟩ := hv
  obtain ⟨g, make, hint⟩ := exists_integerKind m hp
  obtain ⟨f, hf⟩ := intFormat_of_integral (m := m) hp (by cases k <;> decide)
  rw [hint.get]
  obtain ⟨j, hj, hmake⟩ := hint.denotes (fetch mem0 a0 k.elementSize)
  have hsize : (primOfKind k).size = k.elementSize := bigarrayKindSizeof_eq k
  have hpow : (256 : Int) ^ k.elementSize = f.modulus := by rw [← hsize, pow_size hf]
  have hmod : g.modulus = f.modulus := by
    rw [modulus, modulus, hint.bits, intFormat_bits hf, hsize]
  refine ⟨store a (primOfKind k).size (f.wrap j) mem, ?_, ?_⟩
  · rw [storeElement, ctypesWrite_eq hm hp hj, convert_int hf]
    rfl
  · rw [hint.get, hsize, fetch_store, hpow, ← hmake]
    refine congrArg make (wrap_congr ?_)
    rw [hmod, Int.emod_emod_of_dvd _ (Int.dvd_refl _), wrap_emod]

/-- A float comes back as it is. -/
theorem ctypesRead_float (hw : ExactFloats m) (hk : ¬ Integral (primOfKind k))
    (hv : k.CanHold m v) : HasMlPrim m (mlPrim (primOfKind k)) v ∧ BitsFit v ∧
      ctypesRead m (primOfKind k) (ctypesWrite m (primOfKind k) v) = .value v := by
  obtain ⟨mem, a, rfl⟩ := hv
  have hfits : ∀ bits, m.convertFloat .float .double bits < 2 ^ 64 := hw.fits .float .double
  have hpair : ∀ re im, re < 2 ^ 64 → im < 2 ^ 64 → re + 2 ^ 64 * im < 256 ^ 16 := by
    intro re im hre him
    omega
  cases k with
  | float32 =>
      refine ⟨trivial, hw.fits .float .double _, ?_⟩
      exact congrArg (fun bits => CVal.value (.flt .double bits))
        (hw.exact _ (fetch_toNat_lt mem a 4))
  | float64 => exact ⟨trivial, fetch_toNat_lt mem a 8, rfl⟩
  | complex32 =>
      refine ⟨trivial, hpair _ _ (hfits _) (hfits _), ?_⟩
      have hnarrow : ∀ bits, m.convertFloat .double .float bits < 2 ^ 32 :=
        hw.fits .double .float
      have hback : ∀ bits,
          ctypesRead m .complex32 (ctypesWrite m .complex32 (.flt .complex64 bits)) =
            .value (.flt .complex64 (m.convertFloat .complex32 .complex64
            (m.convertFloat .complex64 .complex32 bits))) := fun _ => rfl
      rw [primOfKind, Kind.get, copyTwoDoubles, hback, hw.narrow _ (hfits _) _ (hfits _),
        hw.widen _ (hnarrow _) _ (hnarrow _), hw.exact _ (fetch_toNat_lt mem a 4),
        hw.exact _ (fetch_toNat_lt mem (a + 4) 4)]
  | complex64 =>
      exact ⟨trivial, hpair _ _ (fetch_toNat_lt mem a 8) (fetch_toNat_lt mem (a + 8) 8), rfl⟩
  | _ => exact absurd rfl hk

/-- The value that is stored is the one that `get` returns. -/
theorem get_storeElement (hm : m.integers.Lawful) (hw : ExactFloats m) (hv : k.CanHold m v)
    (mem : Memory) (a : Int) :
    ∃ mem', storeElement m k v mem a = .ok mem' ∧ k.get m mem' a = v := by
  by_cases hp : Integral (primOfKind k)
  · exact get_storeElement_int hm hp hv mem a
  · obtain ⟨htype, hbits, hback⟩ := ctypesRead_float hw hp hv
    obtain ⟨mem', u, hstore, -, hread, hwritten⟩ := stubsRead_back hm hw.fits htype hbits a mem
    rw [hback, CVal.value.injEq] at hwritten
    subst hwritten
    have hget : readElement m k mem' a = .value (k.get m mem' a) := by
      refine (readElement_iff hw k mem' a).mpr ?_
      cases k <;> first | exact id | exact absurd rfl hp
    rw [readElement, hread, CVal.value.injEq] at hget
    exact ⟨mem', hstore, hget.symm⟩

/-! ### Through pointers -/

section Pointers

variable {A : ViewId → Type} (P : Platform A) {c : BigarrayClass}

/-- The pointer to an element of the array that a bigarray is turned into. That
of a `Genarray` has one dimension. -/
def arrayElement : {c : BigarrayClass} → BigarrayOf c → List Int → Except Exn (FatPtr Typ)
  | .genarray, b, idx => (arrayOfBigarray b).elementPtr (b.number idx) []
  | _, b, idx => (arrayOfBigarray b).elementPtr (idx.headD 0) idx.tail

/-- The element by its number from `bigarray_start`, or by its index tuple in
the result of `array_of_bigarray`. -/
def PointsTo (b : BigarrayOf c) (idx : List Int) (p : FatPtr Typ) : Prop :=
  plus (bigarrayStart b) (b.number idx) = .ok p ∨ b.layout = .c ∧ arrayElement b idx = .ok p

/-- The element as a C value is what `get` of the bigarray returns, and a value
that is stored as one is what `get` returns then. -/
structure Agrees (b : BigarrayOf c) (idx : List Int) (p : FatPtr Typ) (mem : Memory) : Prop where
  reads : deref P (.primitive (primOfKind b.kind)) p mem = .ok (b.get P.machine mem idx)
  stores : ∀ v, b.kind.CanHold P.machine v →
    ∃ mem', assignAt P (.primitive (primOfKind b.kind)) p v mem = .ok mem' ∧
      b.get P.machine mem' idx = v

variable {P}

theorem start_element (b : BigarrayOf c) (idx : List Int) :
    plus (bigarrayStart b) (b.number idx) =
      .ok ⟨.primitive (primOfKind b.kind), b.elementAddress idx, some b.self⟩ := by
  rw [plus, bigarrayStart, sizeof_primOfKind]
  rfl

/-- At every class, the array has the element where the bigarray has it. -/
theorem arrayElement_eq {b : BigarrayOf c} {idx : List Int} (hlayout : b.layout = .c)
    (h : b.HasIndex idx) :
    arrayElement b idx =
      .ok ⟨.primitive (primOfKind b.kind), b.elementAddress idx, some b.self⟩ := by
  have hrange : RowMajor.InRange b.dims idx := by
    rwa [BigarrayOf.HasIndex, BigarrayOf.major, BigarrayOf.indices, hlayout] at h
  have hnumber : b.number idx = RowMajor.offset b.dims idx := by
    rw [BigarrayOf.number, BigarrayOf.major, BigarrayOf.indices, hlayout]
  have hs := sizeof_primOfKind b.kind
  by_cases hc : c = .genarray
  · subst hc
    have hlength : (arrayOfBigarray b).lengths [] = [RowMajor.volume b.dims] :=
      congrArg (fun d => [d]) ((RowMajor.foldl_mul 1 b.dims).trans (Int.one_mul _))
    obtain ⟨hnonneg, hlt⟩ := hrange.offset_mem
    have hflat : RowMajor.InRange ((arrayOfBigarray b).lengths []) [b.number idx] := by
      rw [hlength, hnumber]
      exact ⟨hnonneg, hlt, trivial⟩
    have hoffset : RowMajor.offset ((arrayOfBigarray b).lengths []) [b.number idx] =
        b.number idx := by simp [hlength]
    rw [arrayElement, CArray.elementPtr_eq hs rfl hflat, hoffset]
    rfl
  · obtain ⟨ds, hstart, -, hlengths⟩ := arrayOfBigarray_nested hc b
      fun d hd => Int.le_of_lt (hrange.pos d (List.mem_of_mem_tail hd))
    cases idx with
    | nil =>
        rw [← hlengths] at hrange
        exact hrange.elim
    | cons i is =>
        have helement : arrayElement b (i :: is) = (arrayOfBigarray b).elementPtr i is := by
          cases c <;> first | rfl | exact absurd rfl hc
        have ha :
            (arrayOfBigarray b).astart.reftyp = nested (.primitive (primOfKind b.kind)) ds := by
          rw [hstart]
        rw [← hlengths] at hrange
        rw [helement, CArray.elementPtr_eq hs ha hrange, hlengths, ← hnumber, hstart]
        rfl

/-- The C type of an unsigned kind is signed: such an element is read as
another value when its top bit is set, and all others as they are. -/
theorem agrees_iff (hm : P.machine.integers.Lawful) (hw : ExactFloats P.machine)
    (b : BigarrayOf c) {idx : List Int} (h : b.HasIndex idx) :
    (∃ p, plus (bigarrayStart b) (b.number idx) = .ok p) ∧
      (b.layout = .c → ∃ p, arrayElement b idx = .ok p) ∧
      ∀ p, PointsTo b idx p → ∀ mem,
        Agrees P b idx p mem ↔ ¬ b.kind.Misread mem (b.elementAddress idx) := by
  refine ⟨⟨_, start_element b idx⟩, fun hlayout => ⟨_, arrayElement_eq hlayout h⟩,
    fun p hp mem => ?_⟩
  have hraw : p.raw = b.elementAddress idx := by
    rcases hp with hp | ⟨hlayout, hp⟩
    · rw [start_element] at hp
      cases hp
      rfl
    · rw [arrayElement_eq hlayout h] at hp
      cases hp
      rfl
  rw [← readElement_iff hw]
  constructor
  · rintro ⟨hreads, -⟩
    rw [deref_primitive_iff P, hraw] at hreads
    exact hreads
  · intro hread
    refine ⟨?_, fun v hv => ?_⟩
    · rw [deref_primitive_iff P, hraw]
      exact hread
    · obtain ⟨mem', hstore, hget⟩ := get_storeElement hm hw hv mem (b.elementAddress idx)
      refine ⟨mem', ?_, hget⟩
      rw [← hstore, storeElement, ← hraw]
      rfl

/-! ### An unsigned byte -/

def bitsMachine : Machine :=
  { Machine.plain with
    convertFloat := fun k k' bits =>
      match k, k' with
      | .complex32, .complex64 => bits % 2 ^ 32 + 2 ^ 64 * (bits / 2 ^ 32 % 2 ^ 32)
      | .complex64, .complex32 => bits % 2 ^ 32 + 2 ^ 32 * (bits / 2 ^ 64 % 2 ^ 32)
      | _, k' => bits % 256 ^ floatSize k' }

theorem bitsMachine_exact : ExactFloats bitsMachine where
  fits k k' bits := by
    cases k <;> cases k' <;> simp only [bitsMachine, floatSize] <;> omega
  exact bits h := by
    simp only [bitsMachine, floatSize]
    omega
  widen re hre im him := by
    simp only [bitsMachine, floatSize]
    omega
  narrow re hre im him := by
    simp only [bitsMachine, floatSize]
    omega

def bitsPlatform : Platform fun _ => Unit := { unitPlatform with machine := bitsMachine }

def twoBytes : BigarrayOf .array1 := ⟨1, 4096, .int8Unsigned, .c, [2], rfl, none⟩

def twoBytesMemory : Memory := fun a => if a = 4096 then 200 else 7

def byteAt (a : Int) : FatPtr Typ := ⟨.primitive .int8T, a, some 1⟩

theorem unsigned_misread :
    twoBytes.HasIndex [0] ∧ arrayElement twoBytes [0] = .ok (byteAt 4096) ∧
      twoBytes.get bitsMachine twoBytesMemory [0] = .int 200 ∧
      deref bitsPlatform (.primitive .int8T) (byteAt 4096) twoBytesMemory =
        .ok (Value.int (-56)) ∧
      ¬ Agrees bitsPlatform twoBytes [0] (byteAt 4096) twoBytesMemory := by
  refine ⟨by decide, rfl, rfl, rfl, fun h => ?_⟩
  have hreads : (Except.ok (Value.int (-56)) : Except Failure Value) = .ok (.int 200) := h.reads
  cases hreads

theorem agrees_iff_second :
    Agrees bitsPlatform twoBytes [1] (byteAt 4097) twoBytesMemory ↔
      ¬ twoBytes.kind.Misread twoBytesMemory (twoBytes.elementAddress [1]) :=
  (agrees_iff (P := bitsPlatform) Integers.plain_lawful bitsMachine_exact twoBytes
    (by decide)).2.2 (byteAt 4097) (.inr ⟨rfl, rfl⟩) twoBytesMemory

end Pointers

end CtypesCbuf.Ctypes.Memory
