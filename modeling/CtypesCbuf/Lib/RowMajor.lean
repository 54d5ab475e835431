import Mathlib.Data.Int.Lemmas

/-!
Arrays of several dimensions in row-major order: the last index runs fastest.
`offset` is the number of the element with an index tuple, `unravel` the index
tuple of a number.
-/

namespace RowMajor

def volume : List Int → Int
  | [] => 1
  | d :: ds => d * volume ds

def offset : List Int → List Int → Int
  | _ :: ds, i :: is => i * volume ds + offset ds is
  | _, _ => 0

def unravel : List Int → Int → List Int
  | [], _ => []
  | _ :: ds, n => n / volume ds :: unravel ds (n % volume ds)

/-- There is one index for each dimension, and it is in range. -/
def InRange : List Int → List Int → Prop
  | [], [] => True
  | d :: ds, i :: is => 0 ≤ i ∧ i < d ∧ InRange ds is
  | _, _ => False

instance decidableInRange : (dims idx : List Int) → Decidable (InRange dims idx)
  | [], [] => isTrue trivial
  | [], _ :: _ => isFalse id
  | _ :: _, [] => isFalse id
  | d :: ds, i :: is =>
      have := decidableInRange ds is
      inferInstanceAs (Decidable (0 ≤ i ∧ i < d ∧ InRange ds is))

variable {d i n : Int} {dims idx ds is : List Int}

@[simp] theorem volume_nil : volume [] = 1 := rfl

@[simp] theorem volume_cons : volume (d :: ds) = d * volume ds := rfl

@[simp] theorem offset_nil : offset [] idx = 0 := by
  cases idx <;> rfl

@[simp] theorem offset_cons : offset (d :: ds) (i :: is) = i * volume ds + offset ds is := rfl

@[simp] theorem inRange_cons : InRange (d :: ds) (i :: is) ↔ 0 ≤ i ∧ i < d ∧ InRange ds is :=
  Iff.rfl

/-- The product as a loop computes it. -/
theorem foldl_mul (k : Int) (dims : List Int) : dims.foldl (· * ·) k = k * volume dims := by
  induction dims generalizing k with
  | nil => rw [List.foldl_nil, volume_nil, Int.mul_one]
  | cons d ds ih => rw [List.foldl_cons, ih, volume_cons, Int.mul_assoc]

theorem InRange.pos (h : InRange dims idx) : ∀ d ∈ dims, 0 < d := by
  induction dims generalizing idx with
  | nil => simp
  | cons d ds ih =>
      cases idx with
      | nil => exact h.elim
      | cons i is =>
          obtain ⟨hi, hlt, hrest⟩ := h
          intro e he
          rcases List.mem_cons.mp he with rfl | he
          · omega
          · exact ih hrest e he

theorem volume_nonneg (h : ∀ d ∈ dims, 0 ≤ d) : 0 ≤ volume dims := by
  induction dims with
  | nil => decide
  | cons d ds ih =>
      rw [List.forall_mem_cons] at h
      exact Int.mul_nonneg h.1 (ih h.2)

/-- A tuple in range has a number below that of the elements. -/
theorem InRange.offset_mem (h : InRange dims idx) :
    0 ≤ offset dims idx ∧ offset dims idx < volume dims := by
  induction dims generalizing idx with
  | nil => exact ⟨Int.le_of_eq offset_nil.symm, by rw [offset_nil]; decide⟩
  | cons d ds ih =>
      cases idx with
      | nil => exact h.elim
      | cons i is =>
          obtain ⟨hi, hlt, hrest⟩ := h
          obtain ⟨hnonneg, hless⟩ := ih hrest
          have hvolume : 0 < volume ds := by omega
          have hrow : 0 ≤ i * volume ds := Int.mul_nonneg hi (Int.le_of_lt hvolume)
          have hnext : (i + 1) * volume ds ≤ d * volume ds :=
            Int.mul_le_mul_of_nonneg_right hlt (Int.le_of_lt hvolume)
          rw [Int.add_mul, Int.one_mul] at hnext
          rw [offset_cons, volume_cons]
          omega

/-- Every number below that of the elements is that of its tuple. -/
theorem unravel_spec (hdims : ∀ d ∈ dims, 0 ≤ d) (hn : 0 ≤ n) (hlt : n < volume dims) :
    InRange dims (unravel dims n) ∧ offset dims (unravel dims n) = n := by
  induction dims generalizing n with
  | nil =>
      have hzero : n < 1 := hlt
      refine ⟨trivial, ?_⟩
      rw [offset_nil]
      omega
  | cons d ds ih =>
      rw [List.forall_mem_cons] at hdims
      have hvolume : 0 < volume ds := by
        rcases Int.lt_or_eq_of_le (volume_nonneg hdims.2) with h | h
        · exact h
        · rw [volume_cons, ← h, Int.mul_zero] at hlt
          omega
      obtain ⟨hrange, hoffset⟩ :=
        ih hdims.2 (Int.emod_nonneg n (by omega)) (Int.emod_lt_of_pos n hvolume)
      refine ⟨⟨Int.ediv_nonneg hn (by omega), ?_, hrange⟩, ?_⟩
      · exact Int.ediv_lt_of_lt_mul hvolume hlt
      · rw [unravel, offset_cons, hoffset, Int.mul_comm]
        exact Int.mul_ediv_add_emod n (volume ds)

end RowMajor
