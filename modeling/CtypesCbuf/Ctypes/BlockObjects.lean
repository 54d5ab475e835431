import CtypesCbuf.Ctypes.ArrayContents
import CtypesCbuf.Ctypes.FieldAccess

/-!
The objects that lie in an allocated block: the ones it was allocated for, the
elements of arrays, the fields of structures and unions, and the bytes of all
of these. None of them goes beyond the block.
-/

namespace CtypesCbuf.Ctypes.Mutable

open Alignment

variable {σ : Store} {t t' : Typ} {c m s : Nat}

/-- `count` objects of one type, one after another from the address `base`. -/
structure Block where
  base : Int
  typ : Typ
  count : Nat
  deriving DecidableEq, Repr

/-- At the offset `o` of the block there are `c` objects of the type `t`. -/
inductive Block.Objects (σ : Store) (B : Block) : (o : Nat) → (t : Typ) → (c : Nat) → Prop
  | block : B.Objects σ 0 B.typ B.count
  | elements {o i c n s : Nat} {t : Typ} (h : B.Objects σ o (.array t n) c) (hi : i < c)
      (hs : sizeof σ (.array t n) = .ok s) : B.Objects σ (o + i * s) t n
  | field {o i c s : Nat} {t : Typ} {f : Field} (h : B.Objects σ o t c) (hi : i < c)
      (hs : sizeof σ t = .ok s) (hf : σ.HasField t f) :
      B.Objects σ (o + i * s + f.foffset) f.ftype 1
  /-- A view has the representation of the type below. -/
  | view {o c : Nat} {t t' : Typ} (h : B.Objects σ o t c) (hcore : t'.core = t.core) :
      B.Objects σ o t' c
  | bytes {o c s : Nat} {t : Typ} {p : Prim} (h : B.Objects σ o t c) (hs : sizeof σ t = .ok s)
      (hp : p.size = 1) : B.Objects σ o (.primitive p) (c * s)

theorem sizeof_array {n : Nat} (h : sizeof σ (.array t n) = .ok s) :
    ∃ l, sizeof σ t = .ok l ∧ s = n * l := by
  rw [sizeof] at h
  cases hl : sizeof σ t with
  | error e =>
      rw [hl] at h
      cases h
  | ok l =>
      rw [hl] at h
      cases h
      exact ⟨l, rfl, rfl⟩

/-- No object goes beyond the block. -/
theorem Block.Objects.le (hσ : σ.Sound) {B : Block} {o s₀ : Nat} (hs₀ : sizeof σ B.typ = .ok s₀)
    (h : B.Objects σ o t c) : ∃ s, sizeof σ t = .ok s ∧ o + c * s ≤ B.count * s₀ := by
  induction h with
  | block => exact ⟨s₀, hs₀, by omega⟩
  | @elements o i c n s t _ hi hs ih =>
      obtain ⟨s', hs', hle⟩ := ih
      rw [hs] at hs'
      cases hs'
      obtain ⟨l, hl, rfl⟩ := sizeof_array hs
      have hitem := Memory.element_le (n := n * l) hi
      exact ⟨l, hl, by omega⟩
  | @field o i c s t f _ hi hs hf ih =>
      obtain ⟨s', hs', hle⟩ := ih
      rw [hs] at hs'
      cases hs'
      obtain ⟨n, hn, hfits⟩ := hf.fits hσ hs
      have hitem := Memory.element_le (n := s) hi
      exact ⟨n, hn, by omega⟩
  | view _ hcore ih =>
      obtain ⟨s, hs, hle⟩ := ih
      refine ⟨s, ?_, hle⟩
      rw [← sizeof_core, hcore, sizeof_core]
      exact hs
  | @bytes o c s t p _ hs hp ih =>
      obtain ⟨s', hs', hle⟩ := ih
      rw [hs] at hs'
      cases hs'
      exact ⟨1, by rw [sizeof, hp], by omega⟩

/-! ### Addresses -/

variable {B : Block} {a x : Int}

/-- From the address `a` on there are `c` objects of the type `t`. -/
def Block.Holds (σ : Store) (B : Block) (a : Int) (t : Typ) (c : Nat) : Prop :=
  ∃ o m i s, B.Objects σ o t m ∧ sizeof σ t = .ok s ∧ i + c ≤ m ∧ a = B.base + (o + i * s : Nat)

/-- The address `a` is that of an object of the type `t`, and `x` objects on
there is one as well. -/
def Block.Index (σ : Store) (B : Block) (a : Int) (t : Typ) (x : Int) : Prop :=
  ∃ (o m i s : Nat), B.Objects σ o t m ∧ sizeof σ t = .ok s ∧ a = B.base + (o + i * s : Nat) ∧
    0 ≤ i + x ∧ i + x < m

theorem Block.Index.holds (h : B.Index σ a t x) (hs : sizeof σ t = .ok s) :
    B.Holds σ (a + x * s) t 1 := by
  obtain ⟨o, m, i, s', hobjects, hs', rfl, hlow, hhigh⟩ := h
  rw [hs] at hs'
  cases hs'
  obtain ⟨j, hj⟩ := Int.eq_ofNat_of_zero_le hlow
  refine ⟨o, m, j, s, hobjects, hs, by omega, ?_⟩
  have hmul : (j : Int) * s = i * s + x * s := by
    rw [← hj, Int.add_mul]
  push_cast
  omega

theorem Block.Holds.index (h : B.Holds σ a t c) (hlow : 0 ≤ x) (hhigh : x < c) :
    B.Index σ a t x := by
  obtain ⟨o, m, i, s, hobjects, hs, hle, ha⟩ := h
  exact ⟨o, m, i, s, hobjects, hs, ha, by omega, by omega⟩

theorem Block.Holds.mono (h : B.Holds σ a t c) {k : Nat} (hk : k ≤ c) : B.Holds σ a t k := by
  obtain ⟨o, m, i, s, hobjects, hs, hle, ha⟩ := h
  exact ⟨o, m, i, s, hobjects, hs, by omega, ha⟩

theorem Block.Holds.field (hσ : σ.Sound) (h : B.Holds σ a t 1) {f : Field}
    (hf : σ.HasField t f) : B.Holds σ (a + f.foffset) f.ftype 1 := by
  obtain ⟨o, m, i, s, hobjects, hs, hle, rfl⟩ := h
  obtain ⟨n, hn, -⟩ := hf.fits hσ hs
  refine ⟨_, 1, 0, n, hobjects.field hle hs hf, hn, by omega, ?_⟩
  push_cast
  omega

theorem Block.Holds.elements {n : Nat} (h : B.Holds σ a (.array t n) 1) : B.Holds σ a t n := by
  obtain ⟨o, m, i, s, hobjects, hs, hle, rfl⟩ := h
  obtain ⟨l, hl, -⟩ := sizeof_array hs
  refine ⟨_, n, 0, l, hobjects.elements hle hs, hl, by omega, ?_⟩
  push_cast
  omega

theorem Block.holds_base {s₀ : Nat} (hs₀ : sizeof σ B.typ = .ok s₀) (hc : c ≤ B.count) :
    B.Holds σ B.base B.typ c :=
  ⟨0, B.count, 0, s₀, .block, hs₀, by omega, by simp⟩

/-- The objects lie within the block. -/
theorem Block.Holds.within (hσ : σ.Sound) {s₀ : Nat} (hs₀ : sizeof σ B.typ = .ok s₀)
    (h : B.Holds σ a t c) : ∃ s, sizeof σ t = .ok s ∧ B.base ≤ a ∧
      a + (c * s : Nat) ≤ B.base + (B.count * s₀ : Nat) := by
  obtain ⟨o, m, i, s, hobjects, hs, hle, rfl⟩ := h
  obtain ⟨s', hs', hbound⟩ := hobjects.le hσ hs₀
  rw [hs] at hs'
  cases hs'
  have hmul : i * s + c * s ≤ m * s := by
    rw [← Nat.add_mul]
    exact Nat.mul_le_mul_right s hle
  exact ⟨s, hs, by omega, by omega⟩

end CtypesCbuf.Ctypes.Mutable
