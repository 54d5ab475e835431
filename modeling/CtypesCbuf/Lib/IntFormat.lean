import Mathlib.Data.Int.Lemmas

/-!
Fixed-width integers as mathematical integers. A format keeps so many bits
and reads them as signed or unsigned; `wrap` is the conversion of an integer
to the format. Converting first to a wider format changes nothing.
-/

structure IntFormat where
  signed : Bool
  bits : Nat
  deriving DecidableEq, Repr

namespace IntFormat

def i8 : IntFormat := ⟨true, 8⟩
def i16 : IntFormat := ⟨true, 16⟩
def i32 : IntFormat := ⟨true, 32⟩
def i63 : IntFormat := ⟨true, 63⟩
def i64 : IntFormat := ⟨true, 64⟩
def u8 : IntFormat := ⟨false, 8⟩
def u16 : IntFormat := ⟨false, 16⟩
def u32 : IntFormat := ⟨false, 32⟩
def u64 : IntFormat := ⟨false, 64⟩

def modulus (f : IntFormat) : Nat := 2 ^ f.bits

/-- The integers of the format. The bounds of a signed one are doubled. -/
def InRange (f : IntFormat) (i : Int) : Prop :=
  if f.signed then -(f.modulus : Int) ≤ 2 * i ∧ 2 * i < f.modulus
  else 0 ≤ i ∧ i < f.modulus

instance (f : IntFormat) (i : Int) : Decidable (f.InRange i) := by
  unfold InRange
  infer_instance

def wrap (f : IntFormat) (i : Int) : Int :=
  if f.signed then i.bmod f.modulus else i % f.modulus

variable {f g : IntFormat} {i j : Int}

theorem modulus_pos (f : IntFormat) : 0 < f.modulus := Nat.two_pow_pos _

theorem modulus_dvd (h : f.bits ≤ g.bits) : f.modulus ∣ g.modulus := Nat.pow_dvd_pow 2 h

theorem modulus_le (h : f.bits ≤ g.bits) : f.modulus ≤ g.modulus :=
  Nat.pow_le_pow_right (by omega) h

/-- A wider format of the same sign holds the same integers. -/
theorem InRange.mono (hi : f.InRange i) (hsigned : f.signed = g.signed)
    (hbits : f.bits ≤ g.bits) : g.InRange i := by
  have hle := modulus_le hbits
  rw [InRange] at hi ⊢
  rw [← hsigned]
  split
  · rw [if_pos ‹_›] at hi
    omega
  · rw [if_neg ‹_›] at hi
    omega

theorem inRange_zero (f : IntFormat) : f.InRange 0 := by
  have hpos := f.modulus_pos
  rw [InRange]
  split <;> omega

theorem wrap_inRange (f : IntFormat) (i : Int) : f.InRange (f.wrap i) := by
  have hpos := f.modulus_pos
  rw [InRange, wrap]
  split
  · have hle := Int.le_bmod (x := i) hpos
    have hlt := Int.bmod_lt (x := i) hpos
    -- a power of two is one or even
    have heven : f.modulus = 1 ∨ 2 ∣ f.modulus := by
      rw [modulus]
      cases f.bits with
      | zero => exact .inl rfl
      | succ n => exact .inr ⟨2 ^ n, by rw [Nat.pow_succ, Nat.mul_comm]⟩
    omega
  · exact ⟨Int.emod_nonneg i (by omega), Int.emod_lt_of_pos i (by omega)⟩

theorem wrap_of_inRange (h : f.InRange i) : f.wrap i = i := by
  rw [InRange] at h
  rw [wrap]
  split
  · rw [if_pos ‹_›] at h
    exact Int.bmod_eq_of_le_mul_two (by omega) (by omega)
  · rw [if_neg ‹_›] at h
    exact Int.emod_eq_of_lt h.1 h.2

theorem wrap_eq_self_iff : f.wrap i = i ↔ f.InRange i :=
  ⟨fun h => h ▸ f.wrap_inRange i, wrap_of_inRange⟩

theorem wrap_emod (f : IntFormat) (i : Int) : f.wrap i % f.modulus = i % f.modulus := by
  rw [wrap]
  split
  · exact Int.bmod_emod
  · exact Int.emod_emod_of_dvd i (Int.dvd_refl _)

/-- The remainder decides the result. -/
theorem wrap_congr (h : i % f.modulus = j % f.modulus) : f.wrap i = f.wrap j := by
  rw [wrap, wrap]
  split
  · rw [← Int.emod_bmod i, ← Int.emod_bmod j, h]
  · exact h

/-- An integer wraps to the one of the format that is a multiple of the modulus
away. -/
theorem wrap_eq_of_add_mul {k : Int} (hj : f.InRange j) (h : i = j + k * f.modulus) :
    f.wrap i = j := by
  rw [← wrap_of_inRange hj]
  refine wrap_congr ?_
  rw [h, Int.add_mul_emod_self_right]

theorem wrap_wrap_add (f : IntFormat) (i j : Int) : f.wrap (f.wrap i + j) = f.wrap (i + j) := by
  refine wrap_congr ?_
  rw [Int.add_emod, wrap_emod, ← Int.add_emod]

theorem wrap_mul_wrap (f : IntFormat) (i j : Int) : f.wrap (i * f.wrap j) = f.wrap (i * j) := by
  refine wrap_congr ?_
  rw [Int.mul_emod, wrap_emod, ← Int.mul_emod]

/-- What OCaml integers hold of the natural numbers. -/
theorem inRange_i63_natCast {n : Nat} : i63.InRange n ↔ n < 2 ^ 62 := by
  show -((2 ^ 63 : Nat) : Int) ≤ 2 * n ∧ 2 * (n : Int) < (2 ^ 63 : Nat) ↔ n < 2 ^ 62
  omega

theorem wrap_wrap (h : f.bits ≤ g.bits) : f.wrap (g.wrap i) = f.wrap i := by
  refine wrap_congr ?_
  have hdvd : (f.modulus : Int) ∣ g.modulus := Int.natCast_dvd_natCast.mpr (modulus_dvd h)
  calc g.wrap i % f.modulus
      = g.wrap i % g.modulus % f.modulus := (Int.emod_emod_of_dvd _ hdvd).symm
    _ = i % g.modulus % f.modulus := by rw [wrap_emod]
    _ = i % f.modulus := Int.emod_emod_of_dvd _ hdvd

end IntFormat
