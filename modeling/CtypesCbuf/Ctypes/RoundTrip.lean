import CtypesCbuf.Ctypes.Extents

/-!
What is written to C memory is read back. An integer comes back reduced to
its type, a pointer with its address, an aggregate as a reference to a copy of
its bytes. The copy is `memcpy`, so this holds of aggregates that do not
overlap the destination.
-/

namespace CtypesCbuf.Ctypes.Memory

open ByteMemory IntFormat
open CtypesCbuf.Runtime

/-- The integer that the type `p` keeps of `i`, as OCaml reads it: a `char` is
read as unsigned. -/
def reduced (p : Prim) (i : Int) : Int :=
  match intFormat false p with
  | some f => f.wrap i
  | none => i

/-! ### Integers -/

section Integers

variable {m : Machine} {p : Prim} {v : Value} {i : Int}

theorem pow_size {charSigned : Bool} {f : IntFormat} (hf : intFormat charSigned p = some f) :
    (256 : Int) ^ p.size = f.modulus := by
  rw [modulus, intFormat_bits hf, Nat.pow_mul]
  simp

/-- What `ctypes_read` makes of an integer that `ctypes_write` stores. -/
theorem ctypesRead_convert (hp : Integral p) (hv : Denotes m (mlPrim p) v i) :
    ∃ u, ctypesRead m p (convert m p (.int i)) = .value u ∧
      Denotes m (mlPrim p) u (reduced p i) := by
  have hnarrow : ∀ {f : IntFormat} (j : Int), f.signed = true → f.bits ≤ 63 →
      valLong (f.wrap j) = .int (f.wrap j) := by
    intro f j hs hb
    rw [valLong, wrap_of_inRange ((wrap_inRange f j).mono hs hb)]
  cases p with
  | char =>
      obtain ⟨rfl, hi0, hi⟩ := hv
      have hu8 : u8.wrap i = i := wrap_of_inRange ⟨hi0, hi⟩
      have hchar : u8.wrap (wrap ⟨m.charSigned, 8⟩ i) = i := by
        rw [wrap_wrap (g := ⟨m.charSigned, 8⟩) (Nat.le_refl 8), hu8]
      refine ⟨.int i, ?_, ?_⟩
      · show CVal.value (valLong (u8.wrap (wrap ⟨m.charSigned, 8⟩ i))) = _
        have hrange : i63.InRange i := by
          have hmod : (modulus i63 : Int) = 9223372036854775808 := rfl
          rw [InRange, if_pos (show i63.signed = true from rfl), hmod]
          omega
        rw [hchar, valLong, wrap_of_inRange hrange]
      · show Value.int i = .int (u8.wrap i) ∧ 0 ≤ u8.wrap i ∧ u8.wrap i < 256
        rw [hu8]
        exact ⟨rfl, hi0, hi⟩
  | bool =>
      obtain ⟨rfl, rfl | rfl⟩ := hv
      · exact ⟨.int 0, rfl, rfl, .inl rfl⟩
      · exact ⟨.int 1, rfl, rfl, .inr rfl⟩
  | schar | short | int | int8T | int16T =>
      refine ⟨_, rfl, ?_, ?_⟩
      · exact hnarrow _ rfl (by decide)
      · exact (wrap_inRange _ _).mono rfl (by decide)
  | camlint =>
      obtain ⟨rfl, hi⟩ := hv
      have hi64 : i64.wrap i = i := wrap_of_inRange (hi.mono rfl (by decide))
      refine ⟨.int i, ?_, ?_⟩
      · show CVal.value (valLong (i64.wrap i)) = _
        rw [hi64, valLong, wrap_of_inRange hi]
      · show Value.int i = .int (i64.wrap i) ∧ i63.InRange (i64.wrap i)
        rw [hi64]
        exact ⟨rfl, hi⟩
  | int32T | sint | int64T | long | llong | nativeint =>
      refine ⟨_, rfl, ?_, wrap_inRange _ _⟩
      exact congrArg (Value.boxed _) (wrap_wrap (Nat.le_refl _))
  | uchar | uint8T | ushort | uint16T | uint | uint32T | ulong | ullong | sizeT | uint64T =>
      refine ⟨_, rfl, ?_, wrap_inRange _ _⟩
      exact congrArg _ (wrap_wrap (Nat.le_refl _))
  | float | double | ldouble | complex32 | complex64 | complexld => cases hp

/-- The C value in memory after a store. -/
theorem loadPrim_store (hp : Integral p) (hv : Denotes m (mlPrim p) v i) {j : Int}
    (hj : convert m p (.int i) = .int j) (dst : Int) (mem : Memory) :
    loadPrim m p (store dst p.size j mem) dst = .int j := by
  have hfloat : floatKind p = none := hp
  by_cases hbool : p = .bool
  · subst hbool
    obtain ⟨-, rfl | rfl⟩ := hv
    · cases hj
      rw [loadPrim, fetch_store]
      rfl
    · cases hj
      rw [loadPrim, fetch_store]
      rfl
  · obtain ⟨f, hf⟩ := intFormat_of_integral (m := m) hp hbool
    rw [convert_int hf, CVal.int.injEq] at hj
    have hwrap : f.wrap (f.wrap i % f.modulus) = f.wrap i := by
      refine wrap_congr ?_
      rw [Int.emod_emod_of_dvd _ (Int.dvd_refl _), wrap_emod]
    rw [loadPrim, hfloat, hf]
    dsimp only
    rw [fetch_store, pow_size hf, ← hj, hwrap]

/-- An integer that is written is read back reduced. -/
theorem stubsRead_written (hm : m.integers.Lawful) (hp : Integral p)
    (hv : Denotes m (mlPrim p) v i) (dst : Int) (mem : Memory) :
    ∃ mem' u, (Access.primitive p (ctypesWrite m p v) dst).perform mem = .ok mem' ∧
      (∀ a, ¬ In dst p.size a → mem' a = mem a) ∧
      ctypesRead m p (loadPrim m p mem' dst) = .value u ∧
      Denotes m (mlPrim p) u (reduced p i) := by
  have hconv : ∃ j, convert m p (.int i) = .int j := by
    by_cases hbool : p = .bool
    · subst hbool
      exact ⟨_, rfl⟩
    · obtain ⟨f, hf⟩ := intFormat_of_integral (m := m) hp hbool
      exact ⟨_, convert_int hf i⟩
  obtain ⟨j, hj⟩ := hconv
  obtain ⟨u, hread, hu⟩ := ctypesRead_convert hp hv
  refine ⟨store dst p.size j mem, u, ?_, fun a ha => store_of_notIn ha, ?_, hu⟩
  · rw [ctypesWrite_eq hm hp hv, hj]
    rfl
  · rw [loadPrim_store hp hv hj, ← hj]
    exact hread

end Integers

/-! ### What is read back -/

/-- The `size` bytes at `q` in `mem'` are those at `p` in `mem`. -/
def SameBytes (size : Nat) (p : Int) (mem : Memory) (q : Int) (mem' : Memory) : Prop :=
  ∀ k < size, mem' (q + (k : Nat)) = mem (p + (k : Nat))

variable {A : ViewId → Type} (P : Platform A)

/-- `r`, in the memory `mem'`, is what comes back of `v`, in the memory `mem`.
A view whose read function inverts its write function gives `v` itself. -/
def Yields : (t : Typ) → Val A t → Memory → Val A t → Memory → Prop
  | .primitive p, v, _, r, _ =>
      ∃ i, Denotes P.machine (mlPrim p) v i ∧ Denotes P.machine (mlPrim p) r (reduced p i)
  | .pointer t, (v : FatPtr Typ), _, (r : FatPtr Typ), _ => r.raw = v.raw ∧ r.reftyp = t
  | .funptr fn, (v : FatPtr Fn), _, (r : FatPtr Fn), _ => r.raw = v.raw ∧ r.reftyp = fn
  | .array t n, (v : CArray), mem, (r : CArray), mem' =>
      r.alength = n ∧ r.astart.reftyp = t ∧
        SameBytes (ownSize (.array t n)) v.astart.raw mem r.astart.raw mem'
  | .struct tag spec fields, (v : FatPtr Typ), mem, (r : FatPtr Typ), mem' =>
      SameBytes (ownSize (.struct tag spec fields)) v.raw mem r.raw mem'
  | .union utag uspec ufields, (v : FatPtr Typ), mem, (r : FatPtr Typ), mem' =>
      SameBytes (ownSize (.union utag uspec ufields)) v.raw mem r.raw mem'
  | .abstract a, (v : FatPtr Typ), mem, (r : FatPtr Typ), mem' =>
      SameBytes a.asize v.raw mem r.raw mem'
  | .view w ty, v, mem, r, mem' =>
      let (u, mem1) := P.write w ty v mem
      (∃ u', Yields ty u mem1 u' mem' ∧ r = P.read w ty u' mem') ∧
        ((∀ u', Yields ty u mem1 u' mem' → P.read w ty u' mem' = v) → r = v)
  | .void, _, _, _, _ | .bigarray _, _, _, _, _ | .ocaml _, _, _, _, _ => False

/-- The types that can be stored, bigarrays and floats left out. -/
def Storable : Typ → Prop
  | .primitive p => Integral p
  | .pointer _ | .funptr _ => True
  | .struct _ (.complete _ _) _ => True
  | .union _ (some _) _ => True
  | .abstract _ => True
  | .array t n => ∃ size, sizeof (.array t n) = .ok size
  | .view _ ty => Storable ty
  | _ => False

/-- `v` is a value of the OCaml type of `t`; an array has the length that `t`
declares, and an address has 64 bits. -/
def HasTyp : (t : Typ) → Val A t → Memory → Prop
  | .primitive p, v, _ => ∃ i, Denotes P.machine (mlPrim p) v i
  | .pointer _, (v : FatPtr Typ), _ => i64.InRange v.raw
  | .funptr _, (v : FatPtr Fn), _ => i64.InRange v.raw
  | .array _ n, (v : CArray), _ => v.alength = n
  | .view w ty, v, mem => HasTyp ty (P.write w ty v mem).1 (P.write w ty v mem).2
  | _, _, _ => True

/-- The memory that the write functions of the views leave. -/
def converted : (t : Typ) → Val A t → Memory → Memory
  | .view w ty, v, mem => converted ty (P.write w ty v mem).1 (P.write w ty v mem).2
  | _, _, mem => mem

/-- After `p <-@ v` the dereference of `p` gives `v` back, and only the bytes
of the type at `p` have changed. -/
def RoundTrip (p : FatPtr Typ) (v : Val A p.reftyp) (mem : Memory) : Prop :=
  ∃ mem' r, assign P p v mem = .ok mem' ∧ deref P p.reftyp p mem' = .ok r ∧
    Yields P p.reftyp v mem r mem' ∧
    ∀ a, ¬ In p.raw (ownSize p.reftyp) a → mem' a = converted P p.reftyp v mem a

/-- An aggregate that is written does not overlap the destination. -/
def Apart (p : FatPtr Typ) (v : Val A p.reftyp) (mem : Memory) : Prop :=
  ∀ s ∈ storage P p.reftyp v mem, ¬ Overlap p.raw s.1 (ownSize p.reftyp)

/-! ### One type at a time -/

/-- The outcome of a write through `dst` and a read through `ptr`, when the
access is `a` and the views leave `mem`. -/
structure Stores (t : Typ) (v : Val A t) (mem : Memory) (dst : Int) (ptr : FatPtr Typ)
    (a : Access) (mem1 : Memory) : Prop where
  memory : mem1 = converted P t v mem
  apart : (∀ s ∈ storage P t v mem, ¬ Overlap dst s.1 (ownSize t)) →
    ∃ mem' r, a.perform mem1 = .ok mem' ∧ deref P t ptr mem' = .ok r ∧
      Yields P t v mem r mem' ∧ ∀ b, ¬ In dst (ownSize t) b → mem' b = mem1 b
  overlap : ∀ s ∈ storage P t v mem, Overlap dst s.1 (ownSize t) →
    a.perform mem1 = .error .undefined

theorem perform_memcpy {dst src : Int} {size : Nat} (h : ¬ Overlap dst src size) (mem : Memory) :
    (Access.memcpy dst src size).perform mem = .ok (copy dst src size mem) := if_neg h

theorem sameBytes_copy (dst src : Int) (size : Nat) (mem : Memory) :
    SameBytes size src mem dst (copy dst src size mem) :=
  fun _ hk => copy_at hk

/-- Aggregates are copied, and read as references. -/
theorem stores_aggregate {t : Typ} {v r : Val A t} {mem : Memory} {dst src : Int} {own : Nat}
    {ptr : FatPtr Typ} (hconv : converted P t v mem = mem)
    (hstorage : storage P t v mem = some (src, own))
    (hderef : ∀ mem', deref P t ptr mem' = .ok r)
    (hyields : ∀ mem', SameBytes (ownSize t) src mem dst mem' → Yields P t v mem r mem') :
    Stores P t v mem dst ptr (.memcpy dst src (ownSize t)) mem where
  memory := hconv.symm
  apart h := by
    have hapart : ¬ Overlap dst src (ownSize t) := h _ hstorage
    exact ⟨_, r, perform_memcpy hapart mem, hderef _, hyields _ (sameBytes_copy dst src _ mem),
      fun b hb => copy_of_notIn hb⟩
  overlap s hs h := by
    rw [hstorage] at hs
    cases hs
    exact if_pos h

/-- A pointer is read with the address it was written with. -/
theorem readPointer_store {raw : Int} (h : i64.InRange raw) (dst : Int) (mem : Memory) :
    readPointer (store dst pointerSize raw mem) dst = raw := by
  have hmod : (256 : Int) ^ pointerSize = i64.modulus := rfl
  rw [readPointer, fetch_store, hmod]
  have hwrap : i64.wrap (raw % i64.modulus) = i64.wrap raw := by
    refine wrap_congr ?_
    rw [Int.emod_emod_of_dvd _ (Int.dvd_refl _)]
  rw [hwrap, wrap_of_inRange h]

/-- A view stores as the type it is over. -/
theorem stores_view {w : ViewId} {ty : Typ} {v : Val A (.view w ty)} {mem mem1 : Memory}
    {dst : Int} {ptr : FatPtr Typ} {a : Access}
    (h : Stores P ty (P.write w ty v mem).1 (P.write w ty v mem).2 dst (ptr.coerce ty) a mem1) :
    Stores P (.view w ty) v mem dst ptr a mem1 where
  memory := h.memory
  apart hapart := by
    obtain ⟨mem', u, hperform, hderef, hyields, hframe⟩ := h.apart hapart
    refine ⟨mem', P.read w ty u mem', hperform, ?_, ⟨⟨u, hyields, rfl⟩, fun hinv => ?_⟩, hframe⟩
    · rw [deref, hderef]
      rfl
    · exact hinv u hyields
  overlap := h.overlap

/-- What a write through `dst` does, and what a read at the same address
gives afterwards. -/
theorem stores (hm : P.machine.integers.Lawful) {t : Typ} (hs : Storable t) {v : Val A t}
    {mem : Memory} (hv : HasTyp P t v mem) (dst ptr : FatPtr Typ) (hptr : ptr.raw = dst.raw) :
    ∃ w, write P t = .ok w ∧
      Stores P t v mem dst.raw ptr (w v dst mem).1 (w v dst mem).2 := by
  induction t using Typ.core.induct generalizing mem ptr with
  | case1 u ty ih =>
      obtain ⟨w, hw, hstores⟩ := ih hs hv (ptr.coerce ty) hptr
      rw [write, hw]
      exact ⟨_, rfl, stores_view P hstores⟩
  | case2 t hview =>
      cases t with
      | view u ty => exact absurd rfl (hview u ty)
      | void | bigarray ba | ocaml ty => cases hs
      | primitive p =>
          obtain ⟨i, hi⟩ := hv
          obtain ⟨mem', u, hperform, hframe, hread, hu⟩ :=
            stubsRead_written hm hs hi dst.raw mem
          refine ⟨_, rfl, rfl, fun _ => ⟨mem', u, hperform, ?_, ⟨i, hi, hu⟩, hframe⟩,
            fun _ hmem => by cases hmem⟩
          show ((stubsRead P p ptr.raw mem').map _).map _ = _
          rw [stubsRead, hptr, hread]
          rfl
      | pointer t =>
          refine ⟨_, rfl, rfl, fun _ => ⟨_, (⟨t, v.raw, none⟩ : FatPtr Typ), rfl, ?_,
            ⟨rfl, rfl⟩, fun a ha => store_of_notIn ha⟩,
            fun _ hmem => by cases hmem⟩
          show Except.ok (⟨t, readPointer _ ptr.raw, none⟩ : FatPtr Typ) = _
          rw [hptr, readPointer_store hv]
          rfl
      | funptr fn =>
          refine ⟨_, rfl, rfl, fun _ => ⟨_, (⟨fn, v.raw, none⟩ : FatPtr Fn), rfl, ?_,
            ⟨rfl, rfl⟩, fun a ha => store_of_notIn ha⟩,
            fun _ hmem => by cases hmem⟩
          show Except.ok (⟨fn, readPointer _ ptr.raw, none⟩ : FatPtr Fn) = _
          rw [hptr, readPointer_store hv]
          rfl
      | struct tag spec fields =>
          cases spec with
          | incomplete isize => cases hs
          | complete size align =>
              refine ⟨_, rfl, stores_aggregate P (t := .struct tag (.complete size align) fields)
                (r := ptr) rfl rfl (fun _ => rfl) fun mem' h => ?_⟩
              rw [← hptr] at h
              exact h
      | union utag uspec ufields =>
          cases uspec with
          | none => cases hs
          | some spec =>
              refine ⟨_, rfl, stores_aggregate P (t := .union utag (some spec) ufields)
                (r := ptr) rfl rfl (fun _ => rfl) fun mem' h => ?_⟩
              rw [← hptr] at h
              exact h
      | abstract a =>
          refine ⟨_, rfl, stores_aggregate P (t := .abstract a)
            (r := ptr) rfl rfl (fun _ => rfl) fun mem' h => ?_⟩
          rw [← hptr] at h
          exact h
      | array t n =>
          obtain ⟨size, hsize⟩ := hs
          have hown : ownSize (.array t n) = size := by rw [ownSize, hsize]; rfl
          rw [write, hsize, ← hown]
          refine ⟨_, rfl, stores_aggregate P (t := .array t n)
            (r := (⟨ptr.coerce t, n⟩ : CArray)) rfl rfl (fun _ => rfl) fun mem' h => ?_⟩
          rw [← hptr] at h
          exact ⟨rfl, rfl, h⟩

/-- A value that is written is read back exactly when `memcpy` may copy it. -/
theorem roundTrip_iff (hm : P.machine.integers.Lawful) {p : FatPtr Typ}
    (hs : Storable p.reftyp) {v : Val A p.reftyp} {mem : Memory}
    (hv : HasTyp P p.reftyp v mem) : RoundTrip P p v mem ↔ Apart P p v mem := by
  obtain ⟨w, hw, hstores⟩ := stores P hm hs hv p p rfl
  have hassign : assign P p v mem = (w v p mem).1.perform (w v p mem).2 := by
    rw [assign, hw]
  constructor
  · rintro ⟨mem', r, hok, -⟩ s hmem hover
    rw [hassign, hstores.overlap s hmem hover] at hok
    cases hok
  · intro hapart
    obtain ⟨mem', r, hperform, hderef, hyields, hframe⟩ := hstores.apart hapart
    refine ⟨mem', r, hassign.trans hperform, hderef, hyields, fun a ha => ?_⟩
    rw [hframe a ha, hstores.memory]

/-- `array 8 char`, at the address `raw`. -/
def eightChars (raw : Int) : FatPtr Typ := ⟨.array (.primitive .char) 8, raw, none⟩

def eightCharsAt (raw : Int) : CArray := ⟨⟨.primitive .char, raw, none⟩, 8⟩

/-- To a place behind the array. -/
theorem roundTrip_behind :
    RoundTrip unitPlatform (eightChars 8) (eightCharsAt 0) (fun a => UInt8.ofNat a.toNat) :=
  (roundTrip_iff unitPlatform Integers.plain_lawful (p := eightChars 8)
    (v := eightCharsAt 0) ⟨8, rfl⟩ rfl).mpr fun s hs => by
      cases hs
      decide

/-- To a place in the middle of the array, by four bytes. -/
theorem shifted_not_roundTrip :
    Storable (eightChars 4).reftyp ∧
      HasTyp unitPlatform (eightChars 4).reftyp (eightCharsAt 0) (fun a => UInt8.ofNat a.toNat) ∧
      ¬ RoundTrip unitPlatform (eightChars 4) (eightCharsAt 0)
        (fun a => UInt8.ofNat a.toNat) := by
  refine ⟨⟨8, rfl⟩, rfl, ?_⟩
  rintro ⟨mem', r, hassign, -⟩
  cases hassign

end CtypesCbuf.Ctypes.Memory
