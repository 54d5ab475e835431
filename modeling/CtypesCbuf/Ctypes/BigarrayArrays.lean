import CtypesCbuf.Ctypes.Bigarrays

/-!
Bigarrays and C arrays over the same memory. A C array of arrays has at an index
tuple the address that row-major order gives, so a bigarray with the same start,
the same dimensions and elements of the same size has the same elements. The
dimensions and their products are taken to be below 2^62, so that the code has the
same numbers.
-/

namespace CtypesCbuf.Ctypes.Memory

open RowMajor

/-! ### Arrays of arrays -/

/-- Arrays of arrays of `t`, with their lengths from the outside in. -/
def nested (t : Typ) : List Nat → Typ
  | [] => t
  | d :: ds => .array (nested t ds) d

/-- How often the elements of a C array for the class are arrays themselves. -/
def BigarrayClass.depth : BigarrayClass → Nat
  | .genarray | .array1 => 0
  | .array2 => 1
  | .array3 => 2

/-- The dimensions of an array whose elements are of the type `nested t ds`. -/
def CArray.lengths (a : CArray) (ds : List Nat) : List Int := a.alength :: ds.map Nat.cast

variable {t : Typ} {s n : Nat} {ds : List Nat} {a : CArray} {i : Int} {is : List Int}

theorem sizeof_nested (hs : sizeof t = .ok s) (ds : List Nat) :
    ∃ n : Nat, sizeof (nested t ds) = .ok n ∧ (n : Int) = volume (ds.map Nat.cast) * s := by
  induction ds with
  | nil => exact ⟨s, hs, (Int.one_mul _).symm⟩
  | cons d ds ih =>
      obtain ⟨n, hn, heq⟩ := ih
      refine ⟨d * n, ?_, ?_⟩
      · rw [nested, sizeof, hn]
        rfl
      · rw [List.map_cons, volume_cons, Int.natCast_mul, heq, Int.mul_assoc]

/-- The elements of an array that has a size have one. -/
theorem sizeof_of_nested (h : sizeof (nested t ds) = .ok n) : ∃ s, sizeof t = .ok s := by
  induction ds generalizing n with
  | nil => exact ⟨n, h⟩
  | cons d ds ih =>
      rw [nested, sizeof] at h
      cases hs : sizeof (nested t ds) with
      | ok m => exact ih hs
      | error e =>
          rw [hs] at h
          cases h

namespace CArray

theorem pointerTo_eq (hs : sizeof a.astart.reftyp = .ok n) (hi : 0 ≤ i) (hlt : i < a.alength) :
    a.pointerTo i = .ok ⟨a.astart.reftyp, a.astart.raw + i * n, a.astart.managed⟩ := by
  rw [pointerTo, if_neg (by omega), plus, hs]
  rfl

theorem row_eq {d : Nat} (ht : a.astart.reftyp = .array t d) (hs : sizeof (.array t d) = .ok n)
    (hi : 0 ≤ i) (hlt : i < a.alength) :
    a.row i = .ok ⟨⟨t, a.astart.raw + i * n, a.astart.managed⟩, d⟩ := by
  have hn : sizeof a.astart.reftyp = .ok n := by rw [ht, hs]
  rw [row, pointerTo_eq hn hi hlt, ht]
  rfl

/-- The elements lie in row-major order. -/
theorem elementPtr_eq (hs : sizeof t = .ok s) (ha : a.astart.reftyp = nested t ds)
    (h : InRange (a.lengths ds) (i :: is)) :
    a.elementPtr i is =
      .ok ⟨t, a.astart.raw + offset (a.lengths ds) (i :: is) * s, a.astart.managed⟩ := by
  induction ds generalizing a i is with
  | nil =>
      obtain ⟨hi, hlt, hrest⟩ := h
      cases is with
      | cons j js => exact hrest.elim
      | nil =>
          have hn : sizeof a.astart.reftyp = .ok s := by rw [ha, nested, hs]
          have hoffset : offset (a.lengths []) [i] = i := by simp [lengths]
          rw [elementPtr, pointerTo_eq hn hi hlt, hoffset, ha, nested]
  | cons d ds ih =>
      obtain ⟨hi, hlt, hrest⟩ := h
      cases is with
      | nil => exact hrest.elim
      | cons j js =>
          obtain ⟨n, hn, heq⟩ := sizeof_nested hs (d :: ds)
          let r : CArray := ⟨⟨nested t ds, a.astart.raw + i * n, a.astart.managed⟩, d⟩
          have hrow : a.row i = .ok r := row_eq ha hn hi hlt
          have helement : a.elementPtr i (j :: js) = r.elementPtr j js := by
            rw [elementPtr, hrow]
            rfl
          have haddr : r.astart.raw + offset (r.lengths ds) (j :: js) * s =
              a.astart.raw + offset (a.lengths (d :: ds)) (i :: j :: js) * s := by
            show a.astart.raw + i * n + offset (d :: ds.map Nat.cast) (j :: js) * s =
              a.astart.raw + (i * volume ((d :: ds).map Nat.cast) +
                offset (d :: ds.map Nat.cast) (j :: js)) * s
            rw [heq, Int.add_mul, Int.mul_assoc, Int.add_assoc]
          rw [helement, ih (a := r) rfl hrest, haddr]

end CArray

/-! ### Dimensions -/

variable {c : BigarrayClass} {b : BigarrayOf c} {kind : Kind} (R : BigarrayRuntime)

/-- The classes differ in the depth of the types that they take apart. -/
theorem arrayDims_nested (ha : a.astart.reftyp = nested t ds) (hds : ds.length = c.depth) :
    ∃ d, arrayDims c a = .ok d ∧ dimensions c d = a.lengths ds := by
  cases c with
  | genarray =>
      cases List.length_eq_zero_iff.mp hds
      exact ⟨_, rfl, rfl⟩
  | array1 =>
      cases List.length_eq_zero_iff.mp hds
      exact ⟨_, rfl, rfl⟩
  | array2 =>
      obtain ⟨n, rfl⟩ := List.length_eq_one_iff.mp hds
      rw [arrayDims, ha]
      exact ⟨_, rfl, rfl⟩
  | array3 =>
      match ds, hds, ha with
      | [n, m], _, ha =>
          rw [arrayDims, ha]
          exact ⟨_, rfl, rfl⟩

theorem nested_of_arrayDims {d : c.Dims} (h : arrayDims c a = .ok d) :
    ∃ t ds, a.astart.reftyp = nested t ds ∧ ds.length = c.depth := by
  cases c with
  | genarray | array1 => exact ⟨_, [], rfl, rfl⟩
  | array2 =>
      rw [arrayDims] at h
      split at h
      · next t n ha => exact ⟨t, [n], ha, rfl⟩
      · cases h
  | array3 =>
      rw [arrayDims] at h
      split at h
      · next t m n ha => exact ⟨t, [n, m], ha, rfl⟩
      · cases h

@[simp] theorem view_dims (T : BigarrayTyp c) (p : FatPtr Typ) :
    (view R T p).dims = dimensions c T.dims := by
  rw [view]
  cases p.managed <;> rfl

@[simp] theorem view_kind (T : BigarrayTyp c) (p : FatPtr Typ) : (view R T p).kind = T.kind := by
  rw [view]
  cases p.managed <;> rfl

@[simp] theorem view_layout (T : BigarrayTyp c) (p : FatPtr Typ) :
    (view R T p).layout = T.layout := by
  rw [view]
  cases p.managed <;> rfl

theorem view_address (T : BigarrayTyp c) (p : FatPtr Typ) :
    (view R T p).address =
      if p.raw = 0 then R.malloc (volume (dimensions c T.dims) * T.kind.elementSize).toNat
      else p.raw := by
  rw [view]
  cases p.managed <;> rfl

/-- What the result of `bigarrayOfArray` is. -/
structure IsBigarrayOf (kind : Kind) (a : CArray) (ds : List Nat) (b : BigarrayOf c) : Prop where
  kind_eq : b.kind = kind
  layout_eq : b.layout = .c
  dims_eq : b.dims = a.lengths ds
  address_eq : b.address =
    if a.astart.raw = 0 then R.malloc (volume (a.lengths ds) * kind.elementSize).toNat
    else a.astart.raw

theorem bigarrayOfArray_nested (kind : Kind) (ha : a.astart.reftyp = nested t ds)
    (hds : ds.length = c.depth) :
    ∃ b, bigarrayOfArray R c kind a = .ok b ∧ IsBigarrayOf R kind a ds b := by
  obtain ⟨d, hd, hlengths⟩ := arrayDims_nested ha hds
  refine ⟨view R ⟨d, kind, .c⟩ a.astart, ?_, ?_⟩
  · rw [bigarrayOfArray, hd]
    rfl
  · refine ⟨view_kind R _ _, view_layout R _ _, ?_, ?_⟩
    · rw [view_dims, hlengths]
    · rw [view_address, hlengths]

theorem isBigarrayOf_of_ok (h : bigarrayOfArray R c kind a = .ok b) :
    ∃ t ds, a.astart.reftyp = nested t ds ∧ ds.length = c.depth ∧ IsBigarrayOf R kind a ds b := by
  cases hd : arrayDims c a with
  | error e =>
      rw [bigarrayOfArray, hd] at h
      cases h
  | ok d =>
      obtain ⟨t, ds, ha, hds⟩ := nested_of_arrayDims hd
      obtain ⟨b', hb', hspec⟩ := bigarrayOfArray_nested R kind ha hds
      rw [h] at hb'
      cases hb'
      exact ⟨t, ds, ha, hds, hspec⟩

/-- The array that a bigarray is turned into, where no dimension but the first
is negative. -/
theorem arrayOfBigarray_nested (hc : c ≠ .genarray) (b : BigarrayOf c)
    (hdims : ∀ d ∈ b.dims.tail, 0 ≤ d) :
    ∃ ds : List Nat, (arrayOfBigarray b).astart =
        ⟨nested (.primitive (primOfKind b.kind)) ds, b.address, some b.self⟩ ∧
      ds.length = c.depth ∧ (arrayOfBigarray b).lengths ds = b.dims := by
  obtain ⟨self, address, kind, layout, dims, rank, source⟩ := b
  cases c with
  | genarray => exact absurd rfl hc
  | array1 =>
      match dims, rank with
      | [x], _ => exact ⟨[], rfl, rfl, rfl⟩
  | array2 =>
      match dims, rank with
      | [x, y], _ =>
          have hy : ((y.toNat : Nat) : Int) = y := Int.toNat_of_nonneg (hdims y (by simp))
          exact ⟨[y.toNat], rfl, rfl, congrArg (fun y' => [x, y']) hy⟩
  | array3 =>
      match dims, rank with
      | [x, y, z], _ =>
          have hy : ((y.toNat : Nat) : Int) = y := Int.toNat_of_nonneg (hdims y (by simp))
          have hz : ((z.toNat : Nat) : Int) = z := Int.toNat_of_nonneg (hdims z (by simp))
          refine ⟨[y.toNat, z.toNat], rfl, rfl, ?_⟩
          show [x, (y.toNat : Int), (z.toNat : Int)] = [x, y, z]
          rw [hy, hz]

theorem sizeof_primOfKind (k : Kind) : sizeof (.primitive (primOfKind k)) = .ok k.elementSize :=
  congrArg Except.ok (bigarrayKindSizeof_eq k)

/-! ### The same elements -/

/-- At every index tuple of the bigarray, the array has the address of the
element of the bigarray. -/
def SameElements (b : BigarrayOf c) (a : CArray) : Prop :=
  ∀ i is, b.HasIndex (i :: is) →
    ∃ p, a.elementPtr i is = .ok p ∧ p.raw = b.elementAddress (i :: is)

theorem sameElements (hs : sizeof t = .ok b.kind.elementSize) (ha : a.astart.reftyp = nested t ds)
    (hlayout : b.layout = .c) (hdims : b.dims = a.lengths ds) (haddr : b.address = a.astart.raw) :
    SameElements b a := by
  intro i is h
  rw [BigarrayOf.HasIndex, BigarrayOf.major, BigarrayOf.indices, hlayout, hdims] at h
  refine ⟨_, CArray.elementPtr_eq hs ha h, ?_⟩
  rw [BigarrayOf.elementAddress, BigarrayOf.number, BigarrayOf.major, BigarrayOf.indices, hlayout,
    hdims, haddr]

/-- Both conversions keep the memory, the dimensions and their order; a C array
at the null pointer has no memory to keep. -/
theorem bigarrays_arrays (R : BigarrayRuntime) {c : BigarrayClass} (hc : c ≠ .genarray) :
    (∀ b : BigarrayOf c, b.layout = .c → SameElements b (arrayOfBigarray b)) ∧
    (∀ kind t ds (a : CArray), a.astart.reftyp = nested t ds → ds.length = c.depth →
      sizeof t = .ok kind.elementSize → a.astart.raw ≠ 0 →
      ∃ b, bigarrayOfArray R c kind a = .ok b ∧ b.address = a.astart.raw ∧
        b.dims = a.lengths ds ∧ SameElements b a ∧
        (arrayOfBigarray b).astart.raw = a.astart.raw ∧
        (arrayOfBigarray b).astart.reftyp = nested (.primitive (primOfKind kind)) ds ∧
        (arrayOfBigarray b).alength = a.alength) ∧
    ∀ b : BigarrayOf c, (∀ d ∈ b.dims, 0 ≤ d) → b.address ≠ 0 →
      ∃ b', bigarrayOfArray R c b.kind (arrayOfBigarray b) = .ok b' ∧
        b'.address = b.address ∧ b'.dims = b.dims := by
  refine ⟨fun b hlayout i is h => ?_, fun kind t ds a ha hds hs haddr => ?_,
    fun b hdims haddr => ?_⟩
  · -- an index tuple in range leaves no dimension negative
    have hrange := h
    rw [BigarrayOf.HasIndex, BigarrayOf.major, BigarrayOf.indices, hlayout] at hrange
    obtain ⟨ds, hstart, -, hlengths⟩ := arrayOfBigarray_nested hc b
      fun d hd => Int.le_of_lt (hrange.pos d (List.mem_of_mem_tail hd))
    refine sameElements (sizeof_primOfKind b.kind) ?_ hlayout hlengths.symm ?_ i is h
    · rw [hstart]
    · rw [hstart]
  · obtain ⟨b, hb, hkind, hlayout, hlengths, haddress⟩ := bigarrayOfArray_nested R kind ha hds
    rw [if_neg haddr] at haddress
    have hdims : ∀ d ∈ b.dims.tail, 0 ≤ d := by
      rw [hlengths]
      simp [CArray.lengths]
    obtain ⟨ds', hstart, hds', hlengths'⟩ := arrayOfBigarray_nested hc b hdims
    rw [hlengths, CArray.lengths, CArray.lengths, List.cons.injEq] at hlengths'
    have hsame : ds' = ds := (List.map_inj_right fun _ _ => Int.ofNat_inj.mp).mp hlengths'.2
    refine ⟨b, hb, haddress, hlengths, ?_, ?_, ?_, hlengths'.1⟩
    · exact sameElements (by rw [hkind, hs]) ha hlayout hlengths haddress
    · rw [hstart, haddress]
    · rw [hstart, hkind, hsame]
  · obtain ⟨ds, hstart, hds, hlengths⟩ := arrayOfBigarray_nested hc b
      fun d hd => hdims d (List.mem_of_mem_tail hd)
    have ha : (arrayOfBigarray b).astart.reftyp = nested (.primitive (primOfKind b.kind)) ds := by
      rw [hstart]
    obtain ⟨b', hb', -, -, hlengths', haddress⟩ := bigarrayOfArray_nested R b.kind ha hds
    have hraw : (arrayOfBigarray b).astart.raw = b.address := by rw [hstart]
    rw [hraw, if_neg haddr] at haddress
    exact ⟨b', hb', haddress, by rw [hlengths', hlengths]⟩

def plainRuntime : BigarrayRuntime := ⟨0, fun _ => 8192, fun _ _ => by decide⟩

def int32Matrix : BigarrayOf .array2 := ⟨1, 4096, .int32, .c, [2, 3], rfl, none⟩

def int32Rows (raw : Int) : CArray := ⟨⟨.array (.primitive .int32T) 3, raw, none⟩, 2⟩

theorem bigarrays_arrays_matrix :
    SameElements int32Matrix (arrayOfBigarray int32Matrix) ∧
      (∃ b, bigarrayOfArray plainRuntime .array2 .int32 (int32Rows 4096) = .ok b ∧
        b.address = 4096 ∧ b.dims = [2, 3]) ∧
      ∃ b', bigarrayOfArray plainRuntime .array2 .int32 (arrayOfBigarray int32Matrix) = .ok b' ∧
        b'.address = 4096 ∧ b'.dims = [2, 3] := by
  obtain ⟨hfirst, hsecond, hthird⟩ := bigarrays_arrays plainRuntime (c := .array2) (by decide)
  obtain ⟨b, hb, haddress, hdims, -⟩ := hsecond .int32 (.primitive .int32T) [3] (int32Rows 4096)
    rfl rfl rfl (by decide)
  exact ⟨hfirst int32Matrix rfl, ⟨b, hb, haddress, hdims⟩,
    hthird int32Matrix (by decide) (by decide)⟩

/-- At the null pointer the bigarray gets elements of its own. -/
theorem bigarrayOfArray_null :
    (int32Rows 0).astart.reftyp = nested (.primitive .int32T) [3] ∧
      sizeof (.primitive .int32T) = .ok Kind.int32.elementSize ∧
      ∃ b, bigarrayOfArray plainRuntime .array2 .int32 (int32Rows 0) = .ok b ∧
        b.address = 8192 ∧ (int32Rows 0).astart.raw = 0 :=
  ⟨rfl, rfl, _, rfl, rfl, rfl⟩

/-! ### The same memory -/

/-- The bigarray has the size of the array, and the element number `n` of one
lies where that of the other does. -/
structure Occupies (b : BigarrayOf c) (a : CArray) : Prop where
  size : ∃ n : Nat, sizeof a.astart.reftyp = .ok n ∧ b.byteSize = a.alength * n
  elements : ∀ n, 0 ≤ n → n < volume b.dims →
    ∃ i is p, b.HasIndex (i :: is) ∧ b.number (i :: is) = n ∧ a.elementPtr i is = .ok p ∧
      p.raw = b.elementAddress (i :: is)

/-- The C array has no elements, or they have the size of the kind and the
array is not at the null pointer. -/
def SameExtent (c : BigarrayClass) (kind : Kind) (a : CArray) : Prop :=
  ∃ t ds s, a.astart.reftyp = nested t ds ∧ ds.length = c.depth ∧ sizeof t = .ok s ∧
    (s = kind.elementSize ∨ volume (a.lengths ds) = 0) ∧
    (a.astart.raw ≠ 0 ∨ volume (a.lengths ds) ≤ 0)

theorem nested_inj {t' : Typ} {ds' : List Nat} (h : nested t ds = nested t' ds')
    (hds : ds.length = ds'.length) : t = t' ∧ ds = ds' := by
  induction ds generalizing ds' with
  | nil =>
      cases List.length_eq_zero_iff.mp hds.symm
      exact ⟨h, rfl⟩
  | cons d ds ih =>
      cases ds' with
      | nil => cases hds
      | cons d' ds' =>
          rw [nested, nested, Typ.array.injEq] at h
          obtain ⟨rfl, rfl⟩ := ih h.1 (Nat.succ.inj hds)
          rw [h.2]
          exact ⟨rfl, rfl⟩

/-- Without negative dimensions, or without elements. -/
theorem unravel_lengths (hn : 0 ≤ i) (hlt : i < volume (a.lengths ds)) :
    InRange (a.lengths ds) (unravel (a.lengths ds) i) ∧
      offset (a.lengths ds) (unravel (a.lengths ds) i) = i := by
  refine unravel_spec ?_ hn hlt
  have htail : ∀ d ∈ ds.map (Nat.cast : Nat → Int), 0 ≤ d := by simp
  have hvolume := volume_nonneg htail
  rw [CArray.lengths, volume_cons] at hlt
  rw [CArray.lengths, List.forall_mem_cons]
  refine ⟨?_, htail⟩
  by_contra hneg
  have := Int.mul_le_mul_of_nonneg_right (show a.alength ≤ 0 by omega) hvolume
  omega

/-- `bigarray_of_array` relates OCaml types, the memory is the same when the
sizes agree. -/
theorem occupies_iff (R : BigarrayRuntime) (h : bigarrayOfArray R c kind a = .ok b) :
    Occupies b a ↔ SameExtent c kind a := by
  obtain ⟨t, ds, ha, hds, hkind, hlayout, hdims, haddress⟩ := isBigarrayOf_of_ok R h
  have hmajor : b.major = a.lengths ds := by rw [BigarrayOf.major, hlayout, hdims]
  have hindices : ∀ idx, b.indices idx = idx := fun idx => by rw [BigarrayOf.indices, hlayout]
  have hpos : (0 : Int) < kind.elementSize := by exact_mod_cast kind.elementSize_pos
  constructor
  · rintro ⟨⟨n, hn, hbytes⟩, helements⟩
    rw [ha] at hn
    obtain ⟨s, hs⟩ := sizeof_of_nested hn
    obtain ⟨n', hn', heq⟩ := sizeof_nested hs ds
    rw [hn] at hn'
    cases hn'
    have hsizes : volume (a.lengths ds) * kind.elementSize = volume (a.lengths ds) * s := by
      rw [BigarrayOf.byteSize, hdims, hkind, heq, ← Int.mul_assoc] at hbytes
      exact hbytes
    refine ⟨t, ds, s, ha, hds, hs, ?_, ?_⟩
    · by_cases hvolume : volume (a.lengths ds) = 0
      · exact .inr hvolume
      · exact .inl (Int.ofNat_inj.mp ((Int.mul_eq_mul_left_iff hvolume).mp hsizes).symm)
    · by_contra hnot
      obtain ⟨hraw, hvolume⟩ := not_or.mp hnot
      have hnull : a.astart.raw = 0 := not_not.mp hraw
      have hsome : 0 < volume (a.lengths ds) := Int.not_le.mp hvolume
      -- the first element of the array is at the null pointer
      obtain ⟨i, is, p, hindex, hnumber, hp, hpraw⟩ := helements 0 (Int.le_refl 0) (hdims ▸ hsome)
      rw [BigarrayOf.HasIndex, hmajor, hindices] at hindex
      rw [BigarrayOf.elementAddress, hnumber] at hpraw
      rw [BigarrayOf.number, hmajor, hindices] at hnumber
      rw [CArray.elementPtr_eq hs ha hindex, hnumber, hnull] at hp
      cases hp
      have hzero : b.address = 0 := by simpa using hpraw.symm
      have hsize : 0 < volume (a.lengths ds) * kind.elementSize := Int.mul_pos hsome hpos
      rw [haddress, if_pos hnull] at hzero
      exact R.malloc_ne _ (by omega) hzero
  · rintro ⟨t', ds', s, ha', hds', hs, hsize, hnull⟩
    obtain ⟨rfl, rfl⟩ := nested_inj (ha.symm.trans ha') (hds.trans hds'.symm)
    obtain ⟨n, hn, heq⟩ := sizeof_nested hs ds
    constructor
    · refine ⟨n, by rw [ha, hn], ?_⟩
      rw [BigarrayOf.byteSize, hdims, hkind, heq, ← Int.mul_assoc]
      rcases hsize with rfl | hvolume
      · rfl
      · rw [CArray.lengths, volume_cons] at hvolume ⊢
        rw [hvolume, Int.zero_mul, Int.zero_mul]
    · intro n hn hlt
      rw [hdims] at hlt
      have hs' : s = kind.elementSize := hsize.resolve_right (by omega)
      have hraw : a.astart.raw ≠ 0 := hnull.resolve_right (by omega)
      obtain ⟨hrange, hoffset⟩ := unravel_lengths hn hlt
      rw [CArray.lengths, unravel] at hrange hoffset
      refine ⟨_, _, _, ?_, ?_, CArray.elementPtr_eq hs ha hrange, ?_⟩
      · rw [BigarrayOf.HasIndex, hmajor, hindices]
        exact hrange
      · rw [BigarrayOf.number, hmajor, hindices]
        exact hoffset
      · rw [BigarrayOf.elementAddress, BigarrayOf.number, hmajor, hindices, hkind, haddress,
          if_neg hraw, hs']

/-! ### Types that agree in OCaml -/

def Kind.element : Kind → MlPrim
  | .float32 | .float64 => .float
  | .int8Signed | .int8Unsigned | .int16Signed | .int16Unsigned | .int => .int
  | .int32 => .int32
  | .int64 => .int64
  | .nativeint => .nativeint
  | .complex32 | .complex64 => .complex
  | .char => .char

/-- The values of the C type have, under so many arrays, the OCaml type `l`. A
view can have any. -/
def HasElements : Nat → Typ → MlPrim → Prop
  | 0, .primitive p, l => mlPrim p = l
  | _, .view _ _, _ => True
  | n + 1, .array t _, l => HasElements n t l
  | _, _, _ => False

/-- OCaml accepts `bigarray_of_array` of the class, the kind and the array. -/
def TypeChecks (c : BigarrayClass) (kind : Kind) (a : CArray) : Prop :=
  HasElements c.depth a.astart.reftyp kind.element

def threeInts : CArray := ⟨⟨int, 4096, none⟩, 3⟩

/-- Seen as a bigarray of OCaml integers, they have twice their size. -/
theorem ints_not_occupied :
    TypeChecks .array1 .int threeInts ∧
      ∃ b, bigarrayOfArray plainRuntime .array1 .int threeInts = .ok b ∧ b.byteSize = 24 ∧
        sizeof threeInts.astart.reftyp = .ok 4 ∧ ¬ Occupies b threeInts := by
  refine ⟨rfl, _, rfl, rfl, rfl, ?_⟩
  rintro ⟨⟨n, hn, hbytes⟩, -⟩
  cases hn
  exact absurd hbytes (by decide)

/-- Of 32-bit integers in OCaml, they are what the bigarray occupies. -/
theorem occupies_iff_int32 :
    ∃ b, bigarrayOfArray plainRuntime .array2 .int32 (int32Rows 4096) = .ok b ∧
      (Occupies b (int32Rows 4096) ↔ SameExtent .array2 .int32 (int32Rows 4096)) :=
  ⟨_, rfl, occupies_iff plainRuntime rfl⟩

end CtypesCbuf.Ctypes.Memory
