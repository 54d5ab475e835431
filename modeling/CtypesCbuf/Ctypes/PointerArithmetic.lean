import Mathlib.Tactic.SplitIfs
import CtypesCbuf.Ctypes.CArray
import CtypesCbuf.Lib.IntFormat

/-!
Arithmetic on pointers as `Ctypes_ptr.Fat` does it on native integers, which
are signed. A size, and an index times a size, are OCaml integers, one bit
narrower.
-/

namespace CtypesCbuf.Ctypes.PointerArithmetic

variable {R : Type} (w : Nat)

/-- `Ctypes_ptr.Raw`, for addresses of `w` bits. -/
def nativeint : IntFormat := ⟨true, w⟩

def ocamlInt : IntFormat := ⟨true, w - 1⟩

/-! ### Fat pointers -/

def addBytes (p : FatPtr R) (bytes : Int) : FatPtr R :=
  { p with raw := (nativeint w).wrap (p.raw + bytes) }

def compare (l r : FatPtr R) : Int :=
  if l.raw < r.raw then -1 else if l.raw = r.raw then 0 else 1

def diffBytes (l r : FatPtr R) : Int :=
  (ocamlInt w).wrap ((nativeint w).wrap (r.raw - l.raw))

/-! ### Pointers -/

inductive PointerKind
  | c | ocaml
  deriving DecidableEq, Repr

inductive Pointer (R : Type) : PointerKind → Type
  | cPointer (p : FatPtr R) : Pointer R .c
  | ocamlRef (offset : Int) (obj : Obj) (ty : OcamlType) : Pointer R .ocaml

variable (sizeof : R → Except Exn Int)

/-- `(/)` on OCaml integers. -/
def divide (x y : Int) : Except Exn Int :=
  if y = 0 then .error .divisionByZero else .ok ((ocamlInt w).wrap (x.tdiv y))

def ptrDiff {k : PointerKind} : Pointer R k → Pointer R k → Except Exn Int
  | .cPointer lp, .cPointer rp => do
      let size ← sizeof lp.reftyp
      divide w (diffBytes w lp rp) size
  | .ocamlRef lo l _, .ocamlRef ro r _ =>
      if l ≠ r then .error (.invalidArg "Ctypes.ptr_diff") else .ok ((ocamlInt w).wrap (ro - lo))

/-- `p +@ x`. -/
def plus {k : PointerKind} (p : Pointer R k) (x : Int) : Except Exn (Pointer R k) :=
  match p with
  | .cPointer p => do
      let size ← sizeof p.reftyp
      return .cPointer (addBytes w p ((ocamlInt w).wrap (x * size)))
  | .ocamlRef offset obj ty => return .ocamlRef ((ocamlInt w).wrap (offset + x)) obj ty

/-- `p -@ x`. -/
def minus {k : PointerKind} (p : Pointer R k) (x : Int) : Except Exn (Pointer R k) :=
  plus w sizeof p ((ocamlInt w).wrap (-x))

def ptrCompare : Pointer R .c → Pointer R .c → Int
  | .cPointer l, .cPointer r => compare l r

/-! ### Arrays -/

/-- `p` points to `n` elements of `s` bytes, from the unsigned address `base` on.
The OCaml integer `c` that `sizeof` computes is the size if that fits. -/
structure ArrayAt (p : FatPtr R) (base n s : Nat) (c : Int) : Prop where
  raw : p.raw = (nativeint w).wrap base
  size : sizeof p.reftyp = .ok c
  size_pos : 0 < s
  fits : base + n * s ≤ 2 ^ w
  inRange : (ocamlInt w).InRange c
  size_eq : (ocamlInt w).InRange s → c = s

/-- Difference and comparison of `p +@ i` and `p +@ j` are those of the indices. -/
def IndexesAgree (p : FatPtr R) (i j : Nat) : Prop :=
  ∃ l r, plus w sizeof (.cPointer p) i = .ok l ∧ plus w sizeof (.cPointer p) j = .ok r ∧
    ptrDiff w sizeof l r = .ok ((j : Int) - i) ∧
    (ptrCompare l r < 0 ↔ i < j) ∧ (ptrCompare l r = 0 ↔ i = j) ∧ (0 < ptrCompare l r ↔ j < i)

/-- The offset is off by half of the address space when it has been brought
into the range of OCaml integers. -/
def HalfOff (x : Int) : Prop := 2 ^ (w - 2) ≤ x % 2 ^ w ∧ x % 2 ^ w < 3 * 2 ^ (w - 2)

instance (x : Int) : Decidable (HalfOff w x) := inferInstanceAs (Decidable (_ ∧ _))

/-- The address at the offset `x` is computed in the upper half of the address
space, as a negative integer. -/
def Negative (base : Nat) (x : Int) : Prop :=
  2 ^ (w - 1) ≤ (base + x) % 2 ^ w ↔ ¬ HalfOff w x

instance (base : Nat) (x : Int) : Decidable (Negative w base x) :=
  inferInstanceAs (Decidable (_ ↔ _))

/-- The address at the offset `x` is computed as a smaller integer than the one
at the offset `y`. -/
def InOrder (base : Nat) (x y : Int) : Prop :=
  (Negative w base x ∧ ¬ Negative w base y) ∨
    ((Negative w base x ↔ Negative w base y) ∧ (x < y ↔ (HalfOff w x ↔ HalfOff w y)))

instance (base : Nat) (x y : Int) : Decidable (InOrder w base x y) :=
  inferInstanceAs (Decidable (_ ∨ _))

/-! ### The computed addresses -/

/-- The address that is computed for the offset `x`. -/
def address (base : Nat) (x : Int) : Int := (nativeint w).wrap (base + (ocamlInt w).wrap x)

variable {w} {sizeof} {p : FatPtr R} {base n s i j : Nat} {c x y : Int}

theorem plus_eq (h : ArrayAt w sizeof p base n s c) (i : Nat) :
    plus w sizeof (.cPointer p) i = .ok (.cPointer { p with raw := address w base (i * c) }) := by
  have hraw : (addBytes w p ((ocamlInt w).wrap (i * c))).raw = address w base (i * c) := by
    rw [addBytes, h.raw, IntFormat.wrap_wrap_add, address]
  rw [plus, h.size, ← hraw]
  rfl

/-- Everything is a multiple of a quarter of the address space. -/
theorem two_pow_eq (hw : 2 ≤ w) : 2 ^ w = 4 * 2 ^ (w - 2) ∧ 2 ^ (w - 1) = 2 * 2 ^ (w - 2) := by
  obtain ⟨k, rfl⟩ := Nat.exists_eq_add_of_le' hw
  constructor
  · rw [Nat.pow_add, Nat.mul_comm, Nat.add_sub_cancel]
  · rw [Nat.add_sub_cancel, show k + 2 - 1 = k + 1 from rfl, Nat.pow_succ, Nat.mul_comm]

theorem modulus_ocamlInt (hw : 2 ≤ w) : (ocamlInt w).modulus = 2 * 2 ^ (w - 2) :=
  (two_pow_eq hw).2

theorem modulus_nativeint (hw : 2 ≤ w) : (nativeint w).modulus = 4 * 2 ^ (w - 2) :=
  (two_pow_eq hw).1

theorem inRange_ocamlInt (hw : 2 ≤ w) (z : Int) :
    (ocamlInt w).InRange z ↔ -(2 ^ (w - 2) : Nat) ≤ z ∧ z < (2 ^ (w - 2) : Nat) := by
  rw [IntFormat.InRange, modulus_ocamlInt hw]
  generalize 2 ^ (w - 2) = q
  simp only [ocamlInt, if_true]
  omega

theorem inRange_nativeint (hw : 2 ≤ w) (z : Int) :
    (nativeint w).InRange z ↔ -(2 * 2 ^ (w - 2) : Nat) ≤ z ∧ z < (2 * 2 ^ (w - 2) : Nat) := by
  rw [IntFormat.InRange, modulus_nativeint hw]
  generalize 2 ^ (w - 2) = q
  simp only [nativeint, if_true]
  omega

/-- Remainders of integers that are not far from the range. -/
theorem emod_near {z m : Int} (hlo : -m ≤ z) (hhi : z < 2 * m) :
    z % m = if z < 0 then z + m else if z < m then z else z - m := by
  split
  · rw [← Int.add_emod_right]
    exact Int.emod_eq_of_lt (by omega) (by omega)
  · split
    · exact Int.emod_eq_of_lt (by omega) (by omega)
    · rw [← Int.sub_emod_right]
      exact Int.emod_eq_of_lt (by omega) (by omega)

/-- An integer with this remainder is below zero in the upper half. -/
theorem neg_iff_of_emod {q a z : Int} {h : Prop} [Decidable h] (hlo : -(2 * q) ≤ z)
    (hhi : z < 2 * q) (hz : z % (4 * q) = (a + if h then 2 * q else 0) % (4 * q)) :
    z < 0 ↔ (2 * q ≤ a % (4 * q) ↔ ¬ h) := by
  have hq : 0 < 4 * q := by omega
  have hnonneg := Int.emod_nonneg a (Int.ne_of_gt hq)
  have hlt := Int.emod_lt_of_pos a hq
  rw [emod_near (by omega) (by omega), ← Int.emod_add_emod] at hz
  generalize a % (4 * q) = r at *
  by_cases hh : h
  · rw [if_pos hh, emod_near (by omega) (by omega)] at hz
    simp only [hh, not_true_eq_false, iff_false]
    split_ifs at hz <;> omega
  · rw [if_neg hh, emod_near (by omega) (by omega)] at hz
    simp only [hh, not_false_eq_true, iff_true]
    split_ifs at hz <;> omega

/-- Two integers that are close together are ordered as what they have the
remainders of, unless half of the modulus has been added to one of them. -/
theorem lt_iff_of_emod {q a b y z : Int} {h h' : Prop} [Decidable h] [Decidable h']
    (hlo : -(2 * q) < z - y) (hhi : z - y < 2 * q) (hab : b ≤ a + q) (hba : a ≤ b + q)
    (hy : y % (4 * q) = (a + if h then 2 * q else 0) % (4 * q))
    (hz : z % (4 * q) = (b + if h' then 2 * q else 0) % (4 * q)) :
    y < z ↔ (a < b ↔ (h ↔ h')) := by
  have hdiff : (z - y) % (4 * q) = (b - a + ((if h' then 2 * q else 0) -
      if h then 2 * q else 0)) % (4 * q) := by
    rw [Int.sub_emod, hy, hz, ← Int.sub_emod]
    congr 1
    omega
  rw [emod_near (by omega) (by omega)] at hdiff
  by_cases hh : h <;> by_cases hh' : h'
  all_goals
    simp only [hh, hh', if_true, if_false, iff_true, iff_false, not_true_eq_false] at hdiff ⊢
    rw [emod_near (by omega) (by omega)] at hdiff
    split_ifs at hdiff <;> omega

/-- What an offset becomes as an OCaml integer, up to turns around the address
space. -/
theorem wrap_offset (hw : 2 ≤ w) (x : Int) : (ocamlInt w).wrap x % 2 ^ w =
    (x + if HalfOff w x then 2 * 2 ^ (w - 2) else 0) % 2 ^ w := by
  have hin := (inRange_ocamlInt hw _).mp ((ocamlInt w).wrap_inRange x)
  have hmod := (ocamlInt w).wrap_emod x
  have hpow : (2 ^ w : Int) = 4 * 2 ^ (w - 2) := by exact_mod_cast (two_pow_eq hw).1
  have hhalf : HalfOff w x ↔ 2 ^ (w - 2) ≤ x % (4 * 2 ^ (w - 2)) ∧
      x % (4 * 2 ^ (w - 2)) < 3 * 2 ^ (w - 2) := by rw [HalfOff, hpow]
  have hdvd : (2 * 2 ^ (w - 2) : Int) ∣ 4 * 2 ^ (w - 2) := ⟨2, by omega⟩
  rw [modulus_ocamlInt hw] at hmod
  push_cast at hin hmod
  rw [hpow, ← Int.emod_add_emod x]
  rw [← Int.emod_emod_of_dvd x hdvd] at hmod
  have hq : 0 < (2 : Int) ^ (w - 2) := Int.pow_pos (by decide)
  have hnonneg := Int.emod_nonneg x (show (4 * 2 ^ (w - 2) : Int) ≠ 0 by omega)
  have hlt := Int.emod_lt_of_pos x (show (0 : Int) < 4 * 2 ^ (w - 2) by omega)
  generalize (ocamlInt w).wrap x = v at *
  generalize x % (4 * 2 ^ (w - 2)) = r at *
  generalize (2 : Int) ^ (w - 2) = q at *
  rw [emod_near (by omega) (by omega), emod_near (by omega) (by omega)] at hmod
  by_cases hh : HalfOff w x
  · have hrange := hhalf.mp hh
    rw [if_pos hh, emod_near (by omega) (by omega), emod_near (by omega) (by omega)]
    clear hhalf hh
    split_ifs at * <;> omega
  · have hrange := hhalf.not.mp hh
    rw [if_neg hh, emod_near (by omega) (by omega), emod_near (by omega) (by omega)]
    clear hhalf hh
    split_ifs at * <;> omega

theorem address_emod_full (hw : 2 ≤ w) (base : Nat) (x : Int) : address w base x % 2 ^ w =
    (base + x + if HalfOff w x then 2 * 2 ^ (w - 2) else 0) % 2 ^ w := by
  have hnative := (nativeint w).wrap_emod (base + (ocamlInt w).wrap x)
  have hmod : ((nativeint w).modulus : Int) = 2 ^ w := by
    rw [IntFormat.modulus, nativeint, Nat.cast_pow, Nat.cast_ofNat]
  rw [hmod] at hnative
  rw [address, hnative, ← Int.add_emod_emod, wrap_offset hw, Int.add_emod_emod, Int.add_assoc]

/-- For offsets that are close together, the computed addresses are ordered
as the offsets exactly when the sign does not change the wrong way. -/
theorem address_lt_iff (hw : 2 ≤ w) (hxy : y ≤ x + 2 ^ (w - 2))
    (hyx : x ≤ y + 2 ^ (w - 2)) :
    address w base x < address w base y ↔ InOrder w base x y := by
  have hpow : (2 ^ w : Int) = 4 * 2 ^ (w - 2) := by exact_mod_cast (two_pow_eq hw).1
  have hhalf : (2 ^ (w - 1) : Int) = 2 * 2 ^ (w - 2) := by exact_mod_cast (two_pow_eq hw).2
  have hin : ∀ z, -(2 * 2 ^ (w - 2)) ≤ address w base z ∧ address w base z < 2 * 2 ^ (w - 2) :=
    fun z => by exact_mod_cast (inRange_nativeint hw _).mp ((nativeint w).wrap_inRange _)
  have hx := address_emod_full hw base x
  have hy := address_emod_full hw base y
  have hinx := hin x
  have hiny := hin y
  rw [hpow] at hx hy
  have hnegx := neg_iff_of_emod hinx.1 hinx.2 hx
  have hnegy := neg_iff_of_emod hiny.1 hiny.2 hy
  rw [InOrder, Negative, Negative, hhalf, hpow, ← hnegx, ← hnegy]
  clear hnegx hnegy hin hpow hhalf
  generalize address w base x = y₁ at *
  generalize address w base y = y₂ at *
  generalize (2 : Int) ^ (w - 2) = q at *
  by_cases hsame : y₁ < 0 ↔ y₂ < 0
  · have hdiff : -(2 * q) < y₂ - y₁ ∧ y₂ - y₁ < 2 * q := by
      clear hx hy
      omega
    have hlt := lt_iff_of_emod hdiff.1 hdiff.2 (by omega) (by omega) hx hy
    rw [hlt, Int.add_lt_add_iff_left]
    refine ⟨fun h => .inr ⟨hsame, h⟩, ?_⟩
    rintro (⟨h1, h2⟩ | ⟨-, h⟩)
    · exact absurd (hsame.mp h1) h2
    · exact h
  · have hsign : y₁ < y₂ ↔ y₁ < 0 ∧ ¬ y₂ < 0 := by
      clear hx hy
      omega
    rw [hsign]
    exact ⟨.inl, fun h => h.elim id fun h => absurd h.1 hsame⟩

/-! ### Differences -/

theorem address_emod (base : Nat) (x : Int) :
    address w base x % (ocamlInt w).modulus = (base + x) % (ocamlInt w).modulus := by
  have hdvd : ((ocamlInt w).modulus : Int) ∣ (nativeint w).modulus :=
    Int.natCast_dvd_natCast.mpr (IntFormat.modulus_dvd (Nat.sub_le w 1))
  have hnative := congrArg (fun z : Int => z % (ocamlInt w).modulus)
    ((nativeint w).wrap_emod (base + (ocamlInt w).wrap x))
  simp only [Int.emod_emod_of_dvd _ hdvd] at hnative
  rw [address, hnative, Int.add_emod, IntFormat.wrap_emod, ← Int.add_emod]

/-- The common part of two addresses cancels, whatever has been cut off. -/
theorem diffBytes_address (l r : FatPtr R) (hl : l.raw = address w base x)
    (hr : r.raw = address w base y) : diffBytes w l r = (ocamlInt w).wrap (y - x) := by
  have hbits : (ocamlInt w).bits ≤ (nativeint w).bits := Nat.sub_le w 1
  rw [diffBytes, IntFormat.wrap_wrap hbits]
  refine IntFormat.wrap_congr ?_
  rw [hl, hr, Int.sub_emod, address_emod, address_emod, ← Int.sub_emod]
  congr 1
  omega

/-- A quotient is not further from zero than the dividend, and neither is its
product with the divisor. -/
theorem tdiv_between (z s : Int) : (z.tdiv s).natAbs ≤ z.natAbs ∧
    ((0 ≤ s * z.tdiv s ∧ s * z.tdiv s ≤ z) ∨ (s * z.tdiv s ≤ 0 ∧ z ≤ s * z.tdiv s)) := by
  refine ⟨Int.natAbs_tdiv_le_natAbs z s, ?_⟩
  have hdiv := Int.mul_tdiv_add_tmod z s
  have habs := Int.natAbs_tmod z s
  have hle := Nat.mod_le z.natAbs s.natAbs
  rcases Int.le_total 0 z with hz | hz
  · have hmod := Int.tmod_nonneg s hz
    exact .inl ⟨by omega, by omega⟩
  · have hmod := Int.tmod_nonneg s (Int.neg_nonneg_of_nonpos hz)
    rw [Int.neg_tmod] at hmod
    exact .inr ⟨by omega, by omega⟩

theorem divide_wrap_iff (hw : 2 ≤ w) {d : Int} (hd : -(2 ^ (w - 2) : Nat) < d)
    (hd' : d < (2 ^ (w - 2) : Nat)) :
    divide w ((ocamlInt w).wrap (d * c)) c = .ok d ↔ c ≠ 0 ∧ (ocamlInt w).InRange (d * c) := by
  by_cases hc : c = 0
  · rw [divide, if_pos hc]
    exact iff_of_false nofun fun h => h.1 hc
  have hin := (ocamlInt w).wrap_inRange (d * c)
  rw [divide, if_neg hc, Except.ok.injEq, and_iff_right hc]
  constructor
  · intro h
    generalize (ocamlInt w).wrap (d * c) = z at *
    obtain ⟨hsmall, hbetween⟩ := tdiv_between z c
    -- only the least integer divided by -1 is not an integer of its format
    have hquot : (ocamlInt w).InRange (z.tdiv c) := by
      by_contra hout
      have hlarge : z.tdiv c = (2 ^ (w - 2) : Nat) := by
        rw [inRange_ocamlInt hw] at hin hout
        omega
      have hwrap : (ocamlInt w).wrap (z.tdiv c) = -(2 ^ (w - 2) : Nat) := by
        refine @IntFormat.wrap_eq_of_add_mul _ _ _ 1 ((inRange_ocamlInt hw _).mpr ?_) ?_
        · omega
        · rw [hlarge, modulus_ocamlInt hw]
          push_cast
          omega
      omega
    rw [IntFormat.wrap_of_inRange hquot] at h
    rw [inRange_ocamlInt hw] at hin ⊢
    rw [h] at hbetween
    rw [Int.mul_comm d c]
    omega
  · intro h
    rw [IntFormat.wrap_of_inRange h, Int.mul_tdiv_cancel _ hc]
    refine IntFormat.wrap_of_inRange ((inRange_ocamlInt hw d).mpr ?_)
    omega

theorem compare_cases (l r : FatPtr R) :
    (l.raw < r.raw ∧ compare l r = -1) ∨ (l.raw = r.raw ∧ compare l r = 0) ∨
      (r.raw < l.raw ∧ compare l r = 1) := by
  rw [compare]
  split
  · exact .inl ⟨‹_›, rfl⟩
  · split
    · exact .inr (.inl ⟨‹_›, rfl⟩)
    · exact .inr (.inr ⟨by omega, rfl⟩)

theorem compare_lt {l r : FatPtr R} : compare l r < 0 ↔ l.raw < r.raw := by
  have hcases := compare_cases l r
  omega

theorem compare_eq {l r : FatPtr R} : compare l r = 0 ↔ l.raw = r.raw := by
  have hcases := compare_cases l r
  omega

theorem compare_gt {l r : FatPtr R} : 0 < compare l r ↔ r.raw < l.raw := by
  have hcases := compare_cases l r
  omega

/-! ### Indices -/

theorem ptrDiff_eq (h : ArrayAt w sizeof p base n s c) (hw : 2 ≤ w)
    (hi : (ocamlInt w).InRange i) (hj : (ocamlInt w).InRange j) :
    ptrDiff w sizeof (.cPointer { p with raw := address w base (i * c) })
        (.cPointer { p with raw := address w base (j * c) }) = .ok ((j : Int) - i) ↔
      c ≠ 0 ∧ (ocamlInt w).InRange (((j : Int) - i) * c) := by
  rw [inRange_ocamlInt hw] at hi hj
  rw [← divide_wrap_iff hw (by omega) (by omega), ptrDiff, h.size,
    diffBytes_address _ _ rfl rfl, Int.sub_mul]
  rfl

/-- Difference and comparison follow the indices when the difference in bytes
is an OCaml integer and the addresses are computed in order. -/
theorem indexesAgree_iff (hw : 2 ≤ w) (h : ArrayAt w sizeof p base n s c)
    (hi : (ocamlInt w).InRange i) (hj : (ocamlInt w).InRange j) :
    IndexesAgree w sizeof p i j ↔
      (c ≠ 0 ∧ (ocamlInt w).InRange (((j : Int) - i) * c)) ∧
        (i < j → InOrder w base (i * c) (j * c)) ∧ (j < i → InOrder w base (j * c) (i * c)) := by
  simp only [IndexesAgree, plus_eq h, Except.ok.injEq, exists_and_left, exists_eq_left',
    ptrDiff_eq h hw hi hj, ptrCompare, compare_lt, compare_eq, compare_gt]
  refine and_congr_right fun ⟨_, hin⟩ => ?_
  have hnear : (j : Int) * c ≤ i * c + 2 ^ (w - 2) ∧ (i : Int) * c ≤ j * c + 2 ^ (w - 2) := by
    rw [inRange_ocamlInt hw, Int.sub_mul] at hin
    push_cast at hin
    omega
  rcases Nat.lt_trichotomy i j with hlt | rfl | hlt
  · rw [← address_lt_iff hw hnear.1 hnear.2]
    omega
  · simp
  · rw [← address_lt_iff hw hnear.2 hnear.1]
    omega

/-- Elements of an array of integers, on addresses of 64 bits. -/
theorem indexesAgree_ints :
    IndexesAgree 64 (fun t => (Ctypes.sizeof t).map Int.ofNat)
      (⟨.primitive .int, 4096, none⟩ : FatPtr Typ) 1 3 :=
  (indexesAgree_iff (by decide)
    (⟨by decide, rfl, by decide, by decide, by decide, fun _ => rfl⟩ :
      ArrayAt 64 (fun t => (Ctypes.sizeof t).map Int.ofNat) _ 4096 4 4 4)
    (by decide) (by decide)).mpr
      ⟨⟨by decide, by decide⟩, fun _ => by decide, fun h => absurd h (by decide)⟩

/-- Two elements on both sides of the middle of the address space, where the
addresses turn negative. -/
theorem straddling_not_indexesAgree :
    ArrayAt 32 (fun _ => .ok 4) (⟨(), 2 ^ 31 - 4, none⟩ : FatPtr Unit) (2 ^ 31 - 4) 2 4 4 ∧
      ¬ IndexesAgree 32 (fun _ => .ok 4) (⟨(), 2 ^ 31 - 4, none⟩ : FatPtr Unit) 0 1 := by
  refine ⟨⟨by decide, rfl, by decide, by decide, by decide, fun _ => rfl⟩, ?_⟩
  rintro ⟨l, r, hl, hr, -, hlt, -⟩
  cases hl
  cases hr
  exact absurd (hlt.mpr (by decide)) (by decide)

end CtypesCbuf.Ctypes.PointerArithmetic
