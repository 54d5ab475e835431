import CtypesCbuf.Ctypes.CArray
import CtypesCbuf.Ctypes.RoundTrip

/-!
What a C array holds. The elements are integers, pointers and views over them
that come back from memory as they were written; an array holds a list when
each of its elements does.
-/

namespace CtypesCbuf.Ctypes.Memory

open ByteMemory IntFormat Loops
open CtypesCbuf.Runtime

variable {A : ViewId → Type} (P : Platform A)

/-! ### Elements -/

/-- The same value; a pointer is read from memory without the object that
manages it. -/
def Same : (t : Typ) → Val A t → Val A t → Prop
  | .pointer _, (v : FatPtr Typ), (w : FatPtr Typ) => w.raw = v.raw ∧ w.reftyp = v.reftyp
  | .funptr _, (v : FatPtr Fn), (w : FatPtr Fn) => w.raw = v.raw ∧ w.reftyp = v.reftyp
  | _, v, w => w = v

/-- `v` is an integer in the range of `t`, a pointer, or the value of a view
over these whose functions do not touch memory and invert each other. -/
def Exact : (t : Typ) → Val A t → Prop
  | .primitive p, (v : Value) => ∃ i, Denotes P.machine (mlPrim p) v i ∧ reduced p i = i
  | .pointer t, (v : FatPtr Typ) => i64.InRange v.raw ∧ v.reftyp = t
  | .funptr fn, (v : FatPtr Fn) => i64.InRange v.raw ∧ v.reftyp = fn
  | .view w ty, v => ∀ mem, (P.write w ty v mem).2 = mem ∧ Exact ty (P.write w ty v mem).1 ∧
      ∀ u mem', Same ty (P.write w ty v mem).1 u → P.read w ty u mem' = v
  | _, _ => False

/-- The bytes at `a` are read as `v`. -/
def Stored : (t : Typ) → Int → Val A t → Memory → Prop
  | .primitive p, a, (v : Value), mem =>
      ctypesRead P.machine p (loadPrim P.machine p mem a) = .value v
  | .pointer t, a, (v : FatPtr Typ), mem => v = ⟨t, readPointer mem a, none⟩
  | .funptr fn, a, (v : FatPtr Fn), mem => v = ⟨fn, readPointer mem a, none⟩
  | .view w ty, a, v, mem => ∃ u, Stored ty a u mem ∧ ∀ mem', P.read w ty u mem' = v
  | _, _, _, _ => False

variable {P} {t : Typ} {v : Val A t} {mem mem' : Memory} {a b : Int} {n : Nat}

/-- The bytes may be copied elsewhere. -/
theorem Stored.moved (hs : sizeof t = .ok n) (h : Stored P t a v mem)
    (hbytes : ∀ k < n, mem' (b + (k : Nat)) = mem (a + (k : Nat))) : Stored P t b v mem' := by
  induction t using Typ.core.induct with
  | case1 w ty ih =>
      obtain ⟨u, hu, hread⟩ := h
      exact ⟨u, ih hs hu, hread⟩
  | case2 t hview =>
      cases t with
      | view w ty => exact absurd rfl (hview w ty)
      | primitive p =>
          cases hs
          have hload : loadPrim P.machine p mem' b = loadPrim P.machine p mem a := by
            rw [loadPrim, loadPrim, fetch_moved hbytes]
          show ctypesRead P.machine p (loadPrim P.machine p mem' b) = .value v
          rw [hload]
          exact h
      | pointer t =>
          cases hs
          have hread : readPointer mem' b = readPointer mem a := by
            rw [readPointer, readPointer, fetch_moved hbytes]
          show v = (⟨t, readPointer mem' b, none⟩ : FatPtr Typ)
          rw [hread]
          exact h
      | funptr fn =>
          cases hs
          have hread : readPointer mem' b = readPointer mem a := by
            rw [readPointer, readPointer, fetch_moved hbytes]
          show v = (⟨fn, readPointer mem' b, none⟩ : FatPtr Fn)
          rw [hread]
          exact h
      | _ => exact h.elim

theorem Stored.congr (hs : sizeof t = .ok n) (h : Stored P t a v mem)
    (hbytes : ∀ b, In a n b → mem' b = mem b) : Stored P t a v mem' :=
  h.moved hs fun k hk => hbytes _ ⟨by omega, by omega⟩

theorem Stored.deref {p : FatPtr Typ} (h : Stored P t p.raw v mem) :
    deref P t p mem = .ok v := by
  induction t using Typ.core.induct generalizing p with
  | case1 w ty ih =>
      obtain ⟨u, hu, hread⟩ := h
      rw [Memory.deref, ih (p := p.coerce ty) hu]
      exact congrArg Except.ok (hread mem)
  | case2 t hview =>
      cases t with
      | view w ty => exact absurd rfl (hview w ty)
      | primitive p =>
          show ((stubsRead P _ _ mem).map _).map _ = _
          rw [stubsRead, show ctypesRead _ _ _ = _ from h]
          rfl
      | pointer t => exact congrArg Except.ok (Eq.symm h)
      | funptr fn => exact congrArg Except.ok (Eq.symm h)
      | _ => exact h.elim

/-- An exact value is written as one access, and is read back. -/
theorem Exact.write (hm : P.machine.integers.Lawful) (hs : sizeof t = .ok n)
    (hv : Exact P t v) :
    ∃ w, write P t = .ok w ∧ ∀ (p : FatPtr Typ) mem0, (w v p mem0).2 = mem0 ∧
      ∀ mem, ∃ mem' u, (w v p mem0).1.perform mem = .ok mem' ∧ Same t v u ∧
        Stored P t p.raw u mem' ∧ ∀ b, ¬ In p.raw n b → mem' b = mem b := by
  induction t using Typ.core.induct with
  | case1 w ty ih =>
      obtain ⟨write1, hwrite1, -⟩ := ih hs (hv fun _ => 0).2.1
      rw [Memory.write, hwrite1]
      refine ⟨_, rfl, fun p mem0 => ?_⟩
      obtain ⟨hmem0, hexact, hread⟩ := hv mem0
      obtain ⟨write2, hwrite2, hspec⟩ := ih hs hexact
      cases hwrite1.symm.trans hwrite2
      simp only [hmem0]
      refine ⟨(hspec p mem0).1, fun mem => ?_⟩
      obtain ⟨mem', u, hperform, hsame, hstored, hframe⟩ := (hspec p mem0).2 mem
      exact ⟨mem', v, hperform, rfl, ⟨u, hstored, fun mem'' => hread u mem'' hsame⟩, hframe⟩
  | case2 t hview =>
      cases t with
      | view w ty => exact absurd rfl (hview w ty)
      | primitive p =>
          cases hs
          obtain ⟨i, hi, hreduced⟩ := hv
          have hp : Integral p := by
            cases p <;> first | rfl | exact hi.elim
          refine ⟨_, rfl, fun q mem0 => ⟨rfl, fun mem => ?_⟩⟩
          obtain ⟨mem', u, hperform, hframe, hread, hu⟩ := stubsRead_written hm hp hi q.raw mem
          rw [hreduced] at hu
          exact ⟨mem', u, hperform, denotes_unique hu hi, hread, hframe⟩
      | pointer t =>
          cases hs
          refine ⟨_, rfl, fun q mem0 => ⟨rfl, fun mem => ⟨_, ⟨t, v.raw, none⟩, rfl,
            ⟨rfl, hv.2.symm⟩, ?_, fun b hb => store_of_notIn hb⟩⟩⟩
          rw [Stored, readPointer_store hv.1]
      | funptr fn =>
          cases hs
          refine ⟨_, rfl, fun q mem0 => ⟨rfl, fun mem => ⟨_, ⟨fn, v.raw, none⟩, rfl,
            ⟨rfl, hv.2.symm⟩, ?_, fun b hb => store_of_notIn hb⟩⟩⟩
          rw [Stored, readPointer_store hv.1]
      | _ => exact hv.elim

/-! ### Rows of elements -/

variable (P) in
/-- The elements from `a` on are read as `vs`. -/
def Row (t : Typ) (a : Int) (vs : List (Val A t)) (mem : Memory) : Prop :=
  ∀ (i : Nat) (hi : i < vs.length), Stored P t (a + (i * ownSize t : Nat)) vs[i] mem

variable {vs : List (Val A t)}

theorem row_nil : Row P t a [] mem := fun _ hi => (nomatch hi)

/-- The place of an element ends within its row. -/
theorem element_le {i l : Nat} (hi : i < l) : i * n + n ≤ l * n := by
  rw [← Nat.succ_mul]
  exact Nat.mul_le_mul_right n hi

theorem Row.moved (hs : sizeof t = .ok n) (h : Row P t a vs mem)
    (hbytes : ∀ k < vs.length * n, mem' (b + (k : Nat)) = mem (a + (k : Nat))) :
    Row P t b vs mem' := by
  intro i hi
  have hown : ownSize t = n := by rw [ownSize, hs]; rfl
  have hle := element_le (n := n) hi
  refine (h i hi).moved hs fun k hk => ?_
  have hk' := hbytes (i * n + k) (by omega)
  rw [hown, Int.add_assoc, Int.add_assoc, ← Int.natCast_add]
  exact hk'

theorem Row.congr (hs : sizeof t = .ok n) (h : Row P t a vs mem)
    (hbytes : ∀ b, In a (vs.length * n) b → mem' b = mem b) : Row P t a vs mem' :=
  h.moved hs fun k hk => hbytes _ ⟨by omega, by omega⟩

theorem Row.snoc (h : Row P t a vs mem)
    (hv : Stored P t (a + (vs.length * ownSize t : Nat)) v mem) : Row P t a (vs ++ [v]) mem := by
  intro i hi
  by_cases hlt : i < vs.length
  · rw [List.getElem_append_left hlt]
    exact h i hlt
  · obtain rfl : i = vs.length := by
      rw [List.length_append, List.length_singleton] at hi
      omega
    rw [List.getElem_append_right (Nat.le_refl _)]
    simpa using hv

/-- One element is replaced. -/
theorem Row.set (hs : sizeof t = .ok n) (h : Row P t a vs mem) {i : Nat}
    (hv : Stored P t (a + (i * n : Nat)) v mem')
    (hframe : ∀ b, ¬ In (a + (i * n : Nat)) n b → mem' b = mem b) :
    Row P t a (vs.set i v) mem' := by
  intro j hj
  rw [List.length_set] at hj
  have hown : ownSize t = n := by rw [ownSize, hs]; rfl
  have hrow := h j hj
  rw [hown] at hrow ⊢
  by_cases hij : i = j
  · subst hij
    rw [List.getElem_set_self]
    exact hv
  · rw [List.getElem_set_ne hij]
    refine hrow.congr hs fun b hb => hframe b ?_
    have hapart : i * n + n ≤ j * n ∨ j * n + n ≤ i * n := by
      rcases Nat.lt_or_gt_of_ne hij with hlt | hlt
      · exact .inl (element_le hlt)
      · exact .inr (element_le hlt)
    rintro ⟨h1, h2⟩
    obtain ⟨h3, h4⟩ := hb
    omega

/-- A part of a row. -/
theorem Row.slice (hs : sizeof t = .ok n) (h : Row P t a vs mem) {pos len : Nat}
    (hle : pos + len ≤ vs.length) :
    Row P t (a + (pos * n : Nat)) ((vs.drop pos).take len) mem := by
  intro i hi
  have hown : ownSize t = n := by rw [ownSize, hs]; rfl
  rw [List.length_take, List.length_drop] at hi
  have hrow := h (pos + i) (by omega)
  rw [hown] at hrow ⊢
  rw [List.getElem_take, List.getElem_drop, Int.add_assoc, ← Int.natCast_add, ← Nat.add_mul]
  exact hrow

/-! ### Arrays -/

variable (P) in
/-- The array holds the list, in memory that is in use. -/
structure Holds (arr : ArrayOf t) (vs : List (Val A t)) (h : Heap) : Prop where
  length : arr.alength = vs.length
  row : Row P t arr.raw vs h.bytes
  live : ∃ c ∈ h.live, c.1 ≤ arr.raw ∧ arr.raw + (vs.length * ownSize t : Nat) ≤ c.1 + c.2

def ArrayOf.bytes (arr : ArrayOf t) : Nat := arr.alength.toNat * ownSize t

def Separate {u : Typ} (arr : ArrayOf t) (brr : ArrayOf u) : Prop :=
  arr.raw + arr.bytes ≤ brr.raw ∨ brr.raw + brr.bytes ≤ arr.raw

/-- Only bytes of the array have changed. -/
structure WritesOnly (arr : ArrayOf t) (h h' : Heap) : Prop where
  live : h'.live = h.live
  bytes : ∀ b, ¬ In arr.raw arr.bytes b → h'.bytes b = h.bytes b

theorem Holds.bytes_eq {arr : ArrayOf t} {h : Heap} (hs : sizeof t = .ok n)
    (hh : Holds P arr vs h) : arr.bytes = vs.length * n := by
  rw [ArrayOf.bytes, hh.length, Int.toNat_natCast, ownSize, hs]
  rfl

theorem Holds.lt_alength {arr : ArrayOf t} {h : Heap} (hh : Holds P arr vs h) {i : Nat}
    (hi : i < vs.length) : i < arr.alength.toNat := by
  rw [hh.length, Int.toNat_natCast]
  exact hi

/-- What is written to an array does not change a separate one. -/
theorem Holds.independent {u : Typ} {arr : ArrayOf t} {brr : ArrayOf u} {h h' : Heap}
    (hs : sizeof t = .ok n) (hsep : Separate brr arr) (hh : Holds P arr vs h)
    (hw : WritesOnly brr h h') : Holds P arr vs h' where
  length := hh.length
  row := by
    refine hh.row.congr hs fun b hb => hw.bytes b ?_
    rintro ⟨h1, h2⟩
    obtain ⟨h3, h4⟩ := hb
    rw [Separate, hh.bytes_eq hs] at hsep
    omega
  live := by
    rw [hw.live]
    exact hh.live

end CtypesCbuf.Ctypes.Memory
