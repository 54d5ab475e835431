import CtypesCbuf.Ctypes.Memory

/-!
The bytes that a write reads. A write copies as many bytes as the type of the
destination has, from a value that may have fewer: the length of an array is
not part of its OCaml type. Sizes are below 2^62, where the code has the same ones.
-/

namespace CtypesCbuf.Ctypes.Memory

open ByteMemory
open CtypesCbuf.Runtime

variable {A : ViewId → Type} (P : Platform A)

/-- The bytes of a value of the type `t`, none when the type has no size. -/
def ownSize (t : Typ) : Nat := (sizeof t).toOption.getD 0

/-- The block of C memory that a value stands for: its address and size. The
value of a view is the one that its write function makes. -/
def storage : (t : Typ) → Val A t → Memory → Option (Int × Nat)
  | .struct _ _ _, (v : FatPtr Typ), _ => some (v.raw, ownSize v.reftyp)
  | .union _ _ _, (v : FatPtr Typ), _ => some (v.raw, ownSize v.reftyp)
  | .abstract _, (v : FatPtr Typ), _ => some (v.raw, ownSize v.reftyp)
  | .array _ _, (v : CArray), _ =>
      some (v.astart.raw, v.alength.toNat * ownSize v.astart.reftyp)
  | .bigarray _, (v : BigarrayValue), _ =>
      some (v.address, v.dimensions.foldl (· * ·) 1 * v.elementType.size)
  | .view w ty, v, mem => storage ty (P.write w ty v mem).1 (P.write w ty v mem).2
  | .void, _, _ | .primitive _, _, _ | .pointer _, _, _ | .funptr _, _, _ | .ocaml _, _, _ => none

/-- The write raises an exception or reads only bytes of the value. -/
def ReadsOwn (p : FatPtr Typ) (v : Val A p.reftyp) (mem : Memory) : Prop :=
  ∀ w, write P p.reftyp = .ok w → ∀ a, (w v p mem).1.Reads a →
    ∃ s ∈ storage P p.reftyp v mem, In s.1 s.2 a

/-- The type of the destination has at most the bytes of the value. -/
def FitsIn (p : FatPtr Typ) (v : Val A p.reftyp) (mem : Memory) : Prop :=
  ∀ size, sizeof p.reftyp = .ok size → ∀ s ∈ storage P p.reftyp v mem, size ≤ s.2

/-- A copy from a block stays in it if it is not longer. -/
theorem forall_in_iff {src : Int} {size n : Nat} :
    (∀ a, In src size a → In src n a) ↔ size ≤ n := by
  constructor
  · intro h
    by_contra hlt
    have hlast : In src size (src + n) := ⟨by omega, by omega⟩
    have := (h _ hlast).2
    omega
  · rintro hle a ⟨h1, h2⟩
    exact ⟨h1, by omega⟩

/-- A write copies from the value's block, as much as the type of the
destination has, or reads no C memory. -/
theorem write_spec {t : Typ} {w : Val A t → FatPtr Typ → Memory → Access × Memory}
    (hw : write P t = .ok w) (v : Val A t) (dst : FatPtr Typ) (mem : Memory) :
    (∃ s size, storage P t v mem = some s ∧ sizeof t = .ok size ∧
        (w v dst mem).1 = .memcpy dst.raw s.1 size) ∨
      (storage P t v mem = none ∧ ∀ a, ¬ (w v dst mem).1.Reads a) := by
  induction t using Typ.core.induct generalizing mem with
  | case1 u ty ih =>
      cases hty : write P ty with
      | error e =>
          rw [write, hty] at hw
          cases hw
      | ok writety =>
          rw [write, hty] at hw
          cases hw
          exact ih hty (P.write u ty v mem).1 (P.write u ty v mem).2
  | case2 t hview =>
      cases t with
      | view u ty => exact absurd rfl (hview u ty)
      | void | primitive p | pointer t | funptr fn =>
          cases hw
          exact .inr ⟨rfl, fun _ h => h⟩
      | struct tag spec fields =>
          cases spec with
          | incomplete isize => cases hw
          | complete size align =>
              cases hw
              exact .inl ⟨_, size, rfl, rfl, rfl⟩
      | union utag uspec ufields =>
          cases uspec with
          | none => cases hw
          | some spec =>
              cases hw
              exact .inl ⟨_, spec.size, rfl, rfl, rfl⟩
      | abstract a =>
          cases hw
          exact .inl ⟨_, a.asize, rfl, rfl, rfl⟩
      | array t n =>
          cases hsize : sizeof (.array t n) with
          | error e =>
              rw [write, hsize] at hw
              cases hw
          | ok size =>
              rw [write, hsize] at hw
              cases hw
              exact .inl ⟨_, size, rfl, rfl, rfl⟩
      | bigarray ba =>
          cases hw
          exact .inl ⟨_, _, rfl, rfl, rfl⟩
      | ocaml ty => cases hw

/-- A type with a size can be written. -/
theorem write_of_sizeof {t : Typ} {size : Nat} (h : sizeof t = .ok size) :
    ∃ w, write P t = .ok w := by
  induction t using Typ.core.induct with
  | case1 u ty ih =>
      obtain ⟨w, hw⟩ := ih h
      rw [write, hw]
      exact ⟨_, rfl⟩
  | case2 t hview =>
      cases t with
      | view u ty => exact absurd rfl (hview u ty)
      | void | ocaml ty => cases h
      | struct tag spec fields =>
          cases spec with
          | incomplete isize => cases h
          | complete size align => exact ⟨_, rfl⟩
      | union utag uspec ufields =>
          cases uspec with
          | none => cases h
          | some spec => exact ⟨_, rfl⟩
      | array t n =>
          rw [write, h]
          exact ⟨_, rfl⟩
      | _ => exact ⟨_, rfl⟩

/-- A write reads bytes that are not the value's exactly when the type of the
destination is larger than the value. -/
theorem readsOwn_iff (p : FatPtr Typ) (v : Val A p.reftyp) (mem : Memory) :
    ReadsOwn P p v mem ↔ FitsIn P p v mem := by
  constructor
  · intro hown size hsize s hs
    obtain ⟨w, hw⟩ := write_of_sizeof P hsize
    rcases write_spec P hw v p mem with ⟨s', size', hs', hsize', hcopy⟩ | ⟨hnone, -⟩
    · rw [hsize] at hsize'
      rw [hs'] at hs
      cases hsize'
      cases hs
      have hin : ∀ a, In s.1 size a → In s.1 s.2 a := by
        intro a ha
        obtain ⟨s'', hs'', hin⟩ := hown w hw a (by rw [hcopy]; exact ha)
        rw [hs'] at hs''
        cases hs''
        exact hin
      exact forall_in_iff.mp hin
    · rw [hnone] at hs
      cases hs
  · intro hfits w hw a ha
    rcases write_spec P hw v p mem with ⟨s, size, hs, hsize, hcopy⟩ | ⟨-, hnone⟩
    · rw [hcopy] at ha
      exact ⟨s, hs, forall_in_iff.mpr (hfits size hsize s hs) a ha⟩
    · exact absurd ha (hnone a)

/-! ### A short array in a field -/

def unitPlatform : Platform fun _ => Unit where
  machine := .plain
  read _ _ _ _ := ()
  write _ ty _ mem := (valueWith (fun _ => ()) ty, mem)
  allocate size _ := (4096, size)

/-- A field of type `array 4 int`. -/
def fourInts : Field := ⟨.array int 4, 0, "a"⟩

/-- `setf` with an array of two integers copies four. -/
theorem setf_reads_beyond :
    let s : FatPtr Typ := ⟨.struct "s" (.complete 16 4) (.cons (.array int 4) 0 "a" .nil), 0, none⟩
    let v : CArray := ⟨⟨int, 4096, none⟩, 2⟩
    storage unitPlatform fourInts.ftype v (fun _ => 0) = some (4096, 8) ∧
      (∃ mem, setf unitPlatform s fourInts v (fun _ => 0) = .ok mem) ∧
      ¬ ReadsOwn unitPlatform (fieldPtr s fourInts) v (fun _ => 0) := by
  intro s v
  refine ⟨rfl, ⟨_, rfl⟩, fun hown => ?_⟩
  obtain ⟨s, hs, -, hlt⟩ := hown _ rfl (4096 + 8) ⟨by decide, by decide⟩
  cases hs
  revert hlt
  decide

end CtypesCbuf.Ctypes.Memory
