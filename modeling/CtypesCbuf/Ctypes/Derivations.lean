import Mathlib.Logic.Relation
import CtypesCbuf.Ctypes.ArrayOperations
import CtypesCbuf.Ctypes.BlockObjects
import CtypesCbuf.Ctypes.PointerArithmetic

/-!
Pointers, structured values and arrays that are derived from one allocation,
by the operations of `Ctypes_memory` and by coercions. Each keeps the value
that manages the block. Sizes and offsets are OCaml integers and addresses
native integers here, as they are in the code. As long as the bytes of the
block are counted by an OCaml integer, the indices are in range and the fields
are those of the types in the block, none leaves the block.
-/

namespace CtypesCbuf.Ctypes.Memory

open ByteMemory Loops
open CtypesCbuf.Runtime
open IntFormat (i63 i64 u64)
open Mutable (Block)
open Mutable.Wrapping (calls cTypes)

variable {A : ViewId → Type}

/-! ### Operations on integers -/

namespace Ints

/-- `Ctypes_static.sizeof` of a type that is described. -/
def sizeof (t : Typ) : Except Exn Int := (Ctypes.sizeof t).map fun n : Nat => i63.wrap n

def pointer : PointerArithmetic.Pointer Typ .c → FatPtr Typ
  | .cPointer p => p

/-- `p +@ x`. -/
def plus (p : FatPtr Typ) (x : Int) : Except Exn (FatPtr Typ) :=
  (PointerArithmetic.plus 64 sizeof (.cPointer p) x).map pointer

/-- `p -@ x`. -/
def minus (p : FatPtr Typ) (x : Int) : Except Exn (FatPtr Typ) :=
  (PointerArithmetic.minus 64 sizeof (.cPointer p) x).map pointer

/-- `p |-> f`. -/
def arrow (p : FatPtr Typ) (f : Field) : FatPtr Typ :=
  PointerArithmetic.addBytes 64 (p.coerce f.ftype) (i63.wrap f.foffset)

/-- The bytes that `calloc` is asked for. It takes both numbers as `size_t`. -/
def blockSize (count size : Int) : Nat := (u64.wrap count).toNat * (u64.wrap size).toNat

def stubsAllocate (allocator : Allocator) (count size : Int) : CProgram Id (Int × Obj) := fun h =>
  ExceptT.mk (pure ((allocator (u64.wrap count) (u64.wrap size).toNat h).map fun b =>
    (b, h.calloc b.1 (blockSize count size))))

def package (reftyp : Typ) (block : Int × Obj) : FatPtr Typ :=
  ⟨reftyp, i64.wrap block.1, some block.2⟩

def allocateN (allocator : Allocator) (reftyp : Typ) (count : Int) : CProgram Id (FatPtr Typ) := do
  let size ← ofExcept (sizeof reftyp)
  let p ← stubsAllocate allocator count size
  return package reftyp p

section Blocks

variable (P : Platform A) (allocator : Allocator)

def allocate (reftype : Typ) (v : Val A reftype) : CProgram Id (FatPtr Typ) := do
  let p ← allocateN allocator reftype 1
  updating (assignAt P reftype p v)
  return p

/-- `CArray.fill`. -/
def fill (arr : CArray) (t : Typ) (v : Val A t) : CProgram Id Unit := do
  let size ← ofExcept (sizeof t)
  let w ← ofExcept (write P t)
  let h ← MonadState.get
  updating fun mem => .ok (w v arr.astart mem).2
  forUp (fun i _ =>
    let p := PointerArithmetic.addBytes 64 arr.astart (i63.wrap (i * size))
    updating (w v p h.bytes).1.perform) 0 arr.alength.toNat ()

/-- `CArray.make`. -/
def make (reftype : Typ) (initial : Option (Val A reftype)) (count : Int) :
    CProgram Id CArray := do
  let astart ← allocateN allocator reftype count
  let arr : CArray := ⟨astart, count⟩
  match initial with
  | none => pure arr
  | some v => do
      fill P arr reftype v
      pure arr

/-- `CArray.get`. -/
def get (a : CArray) (n : Int) (mem : Memory) : Except Failure (Val A a.astart.reftyp) :=
  if n < 0 ∨ n ≥ a.alength then .error (.raises (.invalidArg "index out of bounds"))
  else
    match plus a.astart n with
    | .ok p => deref P a.astart.reftyp p mem
    | .error e => .error (.raises e)

end Blocks

end Ints

/-! ### Allocation -/

/-- What a pointer, a `structured` or a `carray` is for. -/
inductive Derived
  | ptr (p : FatPtr Typ)
  | structured (p : FatPtr Typ)
  | carray (a : CArray)
  deriving DecidableEq, Repr

def Derived.pointer : Derived → FatPtr Typ
  | .ptr p => p
  | .structured p => p
  | .carray a => a.astart

/-- For how many objects of its reference type it stands. -/
def Derived.count : Derived → Int
  | .ptr _ => 1
  | .structured _ => 1
  | .carray a => a.alength

inductive Origin (A : ViewId → Type)
  | allocate (reftype : Typ) (v : Val A reftype)
  | allocateN (reftyp : Typ) (count : Int)
  | makeArray (reftype : Typ) (initial : Option (Val A reftype)) (count : Int)
  | make (s : Typ)

def Origin.reftyp : Origin A → Typ
  | .allocate reftype _ => reftype
  | .allocateN reftyp _ => reftyp
  | .makeArray reftype _ _ => reftype
  | .make s => s

def Origin.count : Origin A → Int
  | .allocate _ _ => 1
  | .allocateN _ count => count
  | .makeArray _ _ count => count
  | .make _ => 1

def Origin.run (P : Platform A) (allocator : Allocator) : Origin A → CProgram Id Derived
  | .allocate reftype v => do return .ptr (← Ints.allocate P allocator reftype v)
  | .allocateN reftyp count => do return .ptr (← Ints.allocateN allocator reftyp count)
  | .makeArray reftype initial count => do
      return .carray (← Ints.make P allocator reftype initial count)
  | .make s => do return .structured (← Ints.allocateN allocator s 1)

/-! ### Derivations -/

inductive Derivation
  /-- `+@` and `-@`. -/
  | plus (x : Int)
  | minus (x : Int)
  /-- `|->` and `@.`. -/
  | arrow (f : Field)
  | member (f : Field)
  | addr
  | coerce (atyp btyp : Typ)
  | castp (reftype : Typ)
  | start
  | fromPtr (alength : Int)
  /-- `!@` -/
  | deref
  | get (n : Int)
  deriving DecidableEq, Repr

/-- A value that `!@` and `CArray.get` give without reading the memory. -/
def reference : (t : Typ) → Val A t → Option Derived
  | .struct _ _ _, p => some (.structured p)
  | .union _ _ _, p => some (.structured p)
  | .abstract _, p => some (.structured p)
  | .array _ _, a => some (.carray a)
  | _, _ => none

/-- One derivation, whatever there is in memory when it is made. -/
inductive Step (P : Platform A) (F : ViewFns (mlTypes A)) : Derivation → Derived → Derived → Prop
  | plus {p q : FatPtr Typ} {x : Int} (h : Ints.plus p x = .ok q) :
      Step P F (.plus x) (.ptr p) (.ptr q)
  | minus {p q : FatPtr Typ} {x : Int} (h : Ints.minus p x = .ok q) :
      Step P F (.minus x) (.ptr p) (.ptr q)
  | arrow (p : FatPtr Typ) (f : Field) : Step P F (.arrow f) (.ptr p) (.ptr (Ints.arrow p f))
  | member (p : FatPtr Typ) (f : Field) :
      Step P F (.member f) (.structured p) (.ptr (Ints.arrow p f))
  | addr (p : FatPtr Typ) : Step P F .addr (.structured p) (.ptr p)
  | coerce {atyp btyp : Typ} {f : FatPtr Typ → FatPtr Typ} (p : FatPtr Typ)
      (h : Ctypes.coerce F (.pointer atyp) (.pointer btyp) = .ok f) :
      Step P F (.coerce atyp btyp) (.ptr p) (.ptr (f p))
  | castp (p : FatPtr Typ) (reftype : Typ) :
      Step P F (.castp reftype) (.ptr p) (.ptr (p.coerce reftype))
  | start (a : CArray) : Step P F .start (.carray a) (.ptr a.astart)
  | fromPtr (p : FatPtr Typ) (alength : Int) :
      Step P F (.fromPtr alength) (.ptr p) (.carray ⟨p, alength⟩)
  | deref {p : FatPtr Typ} {m : Memory} {v : Val A p.reftyp} {d : Derived}
      (hv : Memory.deref P p.reftyp p m = .ok v) (hd : reference p.reftyp v = some d) :
      Step P F .deref (.ptr p) d
  | get {a : CArray} {n : Int} {m : Memory} {v : Val A a.astart.reftyp} {d : Derived}
      (hv : Ints.get P a n m = .ok v) (hd : reference a.astart.reftyp v = some d) :
      Step P F (.get n) (.carray a) d

/-! ### What a step does -/

variable {P : Platform A} {F : ViewFns (mlTypes A)} {op : Derivation} {d d' : Derived}
  {p q : FatPtr Typ}

theorem plus_eq_ok {x : Int} (h : Ints.plus p x = .ok q) : ∃ s, Ints.sizeof p.reftyp = .ok s ∧
    q = { p with raw := i64.wrap (p.raw + i63.wrap (x * s)) } := by
  rw [Ints.plus, PointerArithmetic.plus] at h
  cases hs : Ints.sizeof p.reftyp with
  | error e =>
      rw [hs] at h
      cases h
  | ok s =>
      rw [hs] at h
      cases h
      exact ⟨s, rfl, rfl⟩

/-- To take away an index is to add its opposite, wrapped around or not. -/
theorem minus_eq (p : FatPtr Typ) (x : Int) : Ints.minus p x = Ints.plus p (-x) := by
  have hwrap (s : Int) : i63.wrap (i63.wrap (-x) * s) = i63.wrap (-x * s) := by
    rw [Int.mul_comm, IntFormat.wrap_mul_wrap, Int.mul_comm]
  rw [Ints.minus, Ints.plus, PointerArithmetic.minus, PointerArithmetic.plus,
    PointerArithmetic.plus]
  cases hs : Ints.sizeof p.reftyp with
  | error e => rfl
  | ok s =>
      show Except.ok (PointerArithmetic.addBytes 64 p (i63.wrap (i63.wrap (-x) * s))) =
        Except.ok (PointerArithmetic.addBytes 64 p (i63.wrap (-x * s)))
      rw [hwrap]

theorem coerce_pointer {a b : Typ} {f : FatPtr Typ → FatPtr Typ}
    (h : Ctypes.coerce F (.pointer a) (.pointer b) = .ok f) : f p = p ∨ f p = p.coerce b := by
  rw [Ctypes.coerce, coercion] at h
  split at h
  · cases h
    exact .inl rfl
  · cases h
    exact .inr rfl
  · cases h
    exact .inr rfl

/-- A reference is taken, to the whole or to the first element. -/
theorem deref_reference {t : Typ} {mem : Memory} {v : Val A t} (hv : deref P t p mem = .ok v)
    (hd : reference t v = some d) :
    d = .structured p ∨ ∃ e n, t = .array e n ∧ d = .carray ⟨p.coerce e, n⟩ := by
  cases t with
  | struct tag spec fields =>
      cases spec <;> cases hv
      cases hd
      exact .inl rfl
  | union utag uspec ufields =>
      cases uspec <;> cases hv
      cases hd
      exact .inl rfl
  | abstract a =>
      cases hv
      cases hd
      exact .inl rfl
  | array e n =>
      cases hv
      cases hd
      exact .inr ⟨e, n, rfl, rfl⟩
  | void => cases hd
  | primitive _ => cases hd
  | pointer _ => cases hd
  | funptr _ => cases hd
  | view _ _ => cases hd
  | bigarray _ => cases hd
  | ocaml _ => cases hd

theorem ofExcept_ends {α : Type} {x : Except Exn α} {a : α} {h h' : Heap}
    (hx : Ends (ofExcept x : CProgram Id α) h a h') : x = .ok a ∧ h = h' := by
  cases x with
  | error e => cases hx
  | ok b =>
      cases hx
      exact ⟨rfl, rfl⟩

/-- `CArray.get` takes the element. -/
theorem get_eq_ok {a : CArray} {n : Int} {mem : Memory} {v : Val A a.astart.reftyp}
    (hv : Ints.get P a n mem = .ok v) :
    ∃ q, Ints.plus a.astart n = .ok q ∧ deref P a.astart.reftyp q mem = .ok v := by
  rw [Ints.get] at hv
  split at hv
  · cases hv
  · cases hq : Ints.plus a.astart n with
    | error e =>
        rw [hq] at hv
        cases hv
    | ok q =>
        rw [hq] at hv
        exact ⟨q, rfl, hv⟩

/-- A step keeps the owner. -/
theorem Step.managed (h : Step P F op d d') : d'.pointer.managed = d.pointer.managed := by
  cases h with
  | plus h =>
      obtain ⟨s, -, rfl⟩ := plus_eq_ok h
      rfl
  | minus h =>
      rw [minus_eq] at h
      obtain ⟨s, -, rfl⟩ := plus_eq_ok h
      rfl
  | arrow p f => rfl
  | member p f => rfl
  | addr p => rfl
  | coerce p h =>
      rcases coerce_pointer (p := p) h with heq | heq
      · exact congrArg FatPtr.managed heq
      · exact (congrArg FatPtr.managed heq).trans rfl
  | castp p reftype => rfl
  | start a => rfl
  | fromPtr p alength => rfl
  | deref hv hd =>
      rcases deref_reference hv hd with rfl | ⟨e, n, -, rfl⟩
      · rfl
      · rfl
  | get hv hd =>
      obtain ⟨q, hq, hv⟩ := get_eq_ok hv
      obtain ⟨s, -, rfl⟩ := plus_eq_ok hq
      rcases deref_reference hv hd with rfl | ⟨e, n, -, rfl⟩
      · rfl
      · rfl

/-! ### Indices in range and fields of the type -/

section Bounds

variable (cs : List Mutable.Call) (B : Block)

/-- The pointer is to the address `a`, of which it has 64 bits, and its
reference type describes `t`. -/
structure RefersTo (p : FatPtr Typ) (a : Int) (t : Mutable.Typ) : Prop where
  raw : p.raw = i64.wrap a
  reftyp : (calls cs .empty).describe t = p.reftyp

def blockStop : Int := B.base + (B.count * Mutable.measure (Mutable.sizeof (cTypes cs) B.typ) : Nat)

def IndexInRange (p : FatPtr Typ) (x : Int) : Prop :=
  ∃ a t, RefersTo cs p a t ∧ a ≤ blockStop cs B ∧ B.Index (cTypes cs) a t x

/-- The pointer is to an object of its reference type, which has the field. -/
def FieldInRange (p : FatPtr Typ) (f : Field) : Prop :=
  ∃ a t g, RefersTo cs p a t ∧ B.Holds (cTypes cs) a t 1 ∧ (calls cs .empty).HasField t g ∧
    (calls cs .empty).describeField g = f

/-- The index is in range, and the field is one of the type of the object. -/
def Derivation.InRange : Derivation → Derived → Prop
  | .plus x, .ptr p => IndexInRange cs B p x
  | .minus x, .ptr p => IndexInRange cs B p (-x)
  | .arrow f, .ptr p => FieldInRange cs B p f
  | .member f, .structured p => FieldInRange cs B p f
  | .start, .carray a => 0 < a.alength
  | .fromPtr alength, .ptr p =>
      ∃ a t, RefersTo cs p a t ∧ B.Holds (cTypes cs) a t alength.toNat
  | .get n, .carray a => IndexInRange cs B a.astart n
  | _, _ => True

def Origin.InRange : Origin A → Prop
  | .allocateN _ count => 0 < count
  | _ => True

def Derived.Located (d : Derived) : Prop :=
  0 < d.count → ∃ a t, d.pointer.raw = i64.wrap a ∧ B.Holds (cTypes cs) a t 1

def Derived.Typed (d : Derived) : Prop :=
  ∃ a t, RefersTo cs d.pointer a t ∧ B.Holds (cTypes cs) a t d.count.toNat

/-- A pointer to `void` stands for no object. -/
def Derived.TypedOrVoid (d : Derived) : Prop := d.Typed cs B ∨ d.pointer.reftyp = .void

def Derivation.IsCast : Derivation → Prop
  | .coerce _ _ | .castp _ => True
  | _ => False

variable (P F)

def Derives : Derived → Derived → Prop := Relation.ReflTransGen fun d d' => ∃ op, Step P F op d d'

def DerivesInRange : Derived → Derived → Prop :=
  Relation.ReflTransGen fun d d' => ∃ op, Step P F op d d' ∧ op.InRange cs B d

/-- A chain of derivations in range, in which a pointer is cast only to `void`
and to the types of objects at its address. -/
def DerivesTyped : Derived → Derived → Prop :=
  Relation.ReflTransGen fun d d' =>
    ∃ op, Step P F op d d' ∧ op.InRange cs B d ∧ (op.IsCast → d'.TypedOrVoid cs B)

/-- The bytes of the block are counted by an OCaml integer. -/
structure Small (s : Nat) : Prop where
  size : Mutable.sizeof (cTypes cs) B.typ = .ok s
  small : B.count * s < 2 ^ 62

end Bounds

variable {cs : List Mutable.Call} {B : Block} {d₀ : Derived} {s : Nat} {a : Int}
  {t : Mutable.Typ}

theorem Derives.managed (h : Derives P F d₀ d) : d.pointer.managed = d₀.pointer.managed := by
  induction h with
  | refl => rfl
  | tail _ hstep ih =>
      obtain ⟨op, hstep⟩ := hstep
      exact hstep.managed.trans ih

theorem DerivesInRange.derives (h : DerivesInRange P F cs B d₀ d) : Derives P F d₀ d :=
  Relation.ReflTransGen.mono (fun _ _ ⟨op, hstep, _⟩ => ⟨op, hstep⟩) _ _ h

theorem DerivesTyped.inRange (h : DerivesTyped P F cs B d₀ d) : DerivesInRange P F cs B d₀ d :=
  Relation.ReflTransGen.mono (fun _ _ ⟨op, hstep, hrange, _⟩ => ⟨op, hstep, hrange⟩) _ _ h

/-! ### Bounds -/

theorem sound_cTypes (cs : List Mutable.Call) : (cTypes cs).Sound :=
  (Mutable.Wrapping.cTypes_reachable cs).sound

/-- The size of a described type is the one that the code computes. -/
theorem sizeof_describe (cs : List Mutable.Call) (t : Mutable.Typ) :
    Ints.sizeof ((calls cs .empty).describe t) = Mutable.Wrapping.sizeof (calls cs .empty) t :=
  Mutable.Wrapping.wrap_sizeof_describe (Mutable.Wrapping.twin_cTypes cs) t

/-- It is the size in C if that is an OCaml integer. -/
theorem RefersTo.sizeof (h : RefersTo cs p a t) (hs : Mutable.sizeof (cTypes cs) t = .ok s)
    (hlt : s < 2 ^ 62) : Ints.sizeof p.reftyp = .ok (s : Int) := by
  have hsize := (Mutable.Wrapping.twin_cTypes cs).sizeof t
  rw [hs] at hsize
  obtain ⟨z, hz, hcomputes⟩ := hsize.of_ok
  rw [← h.reftyp, sizeof_describe, hz, hcomputes.eq hlt]

theorem describe_array {e : Typ} {n : Nat} (h : (calls cs .empty).describe t = .array e n) :
    ∃ u, t = .array u n ∧ (calls cs .empty).describe u = e := by
  cases t with
  | array u m =>
      rw [Mutable.Wrapping.Store.describe] at h
      cases h
      exact ⟨u, rfl, rfl⟩
  | _ => rw [Mutable.Wrapping.Store.describe] at h; cases h

theorem Derived.Typed.located (h : d.Typed cs B) : d.Located cs B := by
  obtain ⟨a, t, hp, hholds⟩ := h
  exact fun hcount => ⟨a, t, hp.raw, hholds.mono (by omega)⟩

/-- Addresses wrap around, so it does not matter when they do. -/
theorem wrap_add (a x : Int) : i64.wrap (i64.wrap a + x) = i64.wrap (a + x) :=
  IntFormat.wrap_wrap_add ..

/-- The objects lie within the block. -/
theorem holds_within (hB : Small cs B s) {c : Nat} (h : B.Holds (cTypes cs) a t c) :
    ∃ n, Mutable.sizeof (cTypes cs) t = .ok n ∧ B.base ≤ a ∧
      a + (c * n : Nat) ≤ blockStop cs B := by
  obtain ⟨n, hn, hlow, hhigh⟩ := h.within (sound_cTypes cs) hB.size
  refine ⟨n, hn, hlow, ?_⟩
  rw [blockStop, hB.size]
  exact hhigh

theorem blockStop_eq (hB : Small cs B s) : blockStop cs B = B.base + (B.count * s : Nat) := by
  rw [blockStop, hB.size, Mutable.measure]

/-- An object at an index in range. No product and no address is lost to
wrapping around. -/
theorem typed_plus (hB : Small cs B s) {x : Int} (h : Ints.plus p x = .ok q)
    (hx : IndexInRange cs B p x) : (Derived.ptr q).Typed cs B := by
  obtain ⟨a, t, hp, hstop, hindex⟩ := hx
  have hlow : B.base ≤ a := by
    obtain ⟨o, m, i, l, -, -, rfl, -⟩ := hindex
    omega
  obtain ⟨n, hn⟩ : ∃ n, Mutable.sizeof (cTypes cs) t = .ok n := by
    obtain ⟨o, m, i, l, -, hl, -⟩ := hindex
    exact ⟨l, hl⟩
  have hholds := hindex.holds hn
  obtain ⟨n', hn', hlow', hhigh⟩ := holds_within hB hholds
  rw [hn] at hn'
  cases hn'
  have hsmall := hB.small
  rw [blockStop_eq hB] at hstop hhigh
  have hsize := hp.sizeof hn (by omega)
  have hin : i63.InRange (x * n) := by
    have hmax : i63.InRange ((2 ^ 62 - 1 : Nat) : Int) := by decide
    rw [IntFormat.InRange] at hmax ⊢
    split
    · rw [if_pos ‹_›] at hmax
      omega
    · exact absurd rfl ‹_›
  obtain ⟨z, hz, rfl⟩ := plus_eq_ok h
  rw [hsize] at hz
  cases hz
  refine ⟨a + x * n, t, ⟨?_, hp.reftyp⟩, hholds⟩
  show i64.wrap (p.raw + i63.wrap (x * n)) = _
  rw [hp.raw, IntFormat.wrap_of_inRange hin, wrap_add]

theorem typed_arrow (hB : Small cs B s) {f : Field} (h : FieldInRange cs B p f) :
    (Derived.ptr (Ints.arrow p f)).Typed cs B := by
  obtain ⟨a, t, g, hp, hholds, hg, rfl⟩ := h
  obtain ⟨g', hg', htwin⟩ := (Mutable.Wrapping.twin_cTypes cs).hasField hg
  have hfield := hholds.field (sound_cTypes cs) hg'
  have hlow := (holds_within hB hholds).choose_spec.2.1
  obtain ⟨n, -, -, hhigh⟩ := holds_within hB hfield
  rw [blockStop_eq hB] at hhigh
  have hsmall := hB.small
  have hoffset : g.foffset = g'.foffset := htwin.foffset.eq (by omega)
  refine ⟨a + g'.foffset, g'.ftype, ⟨?_, ?_⟩, hfield⟩
  · show i64.wrap (p.raw + i63.wrap (Mutable.Wrapping.word g.foffset)) = _
    rw [Mutable.Wrapping.wrap_word htwin.foffset.inRange, hoffset, hp.raw, wrap_add]
  · rw [← htwin.ftype]
    rfl

theorem typed_reference {t : Typ} {mem : Memory} {v : Val A t} (hv : deref P t p mem = .ok v)
    (hd : reference t v = some d) (ht : p.reftyp = t) (h : (Derived.ptr p).Typed cs B) :
    d.Typed cs B := by
  rcases deref_reference hv hd with rfl | ⟨e, n, rfl, rfl⟩
  · exact h
  · obtain ⟨a, u, hp, hholds⟩ := h
    obtain ⟨u', rfl, hu'⟩ := describe_array (hp.reftyp.trans ht)
    exact ⟨a, u', ⟨hp.raw, hu'⟩, hholds.elements⟩

/-- Casts are the only steps in range that can leave the types of the block. -/
theorem Step.typedOrVoid (hB : Small cs B s) (h : Step P F op d d') (hrange : op.InRange cs B d)
    (hcast : op.IsCast → d'.TypedOrVoid cs B) (hd : d.TypedOrVoid cs B) :
    d'.TypedOrVoid cs B := by
  cases h with
  | plus h => exact .inl (typed_plus hB h hrange)
  | minus h =>
      rw [minus_eq] at h
      exact .inl (typed_plus hB h hrange)
  | arrow p f => exact .inl (typed_arrow hB hrange)
  | member p f => exact .inl (typed_arrow hB hrange)
  | addr p => exact hd
  | coerce p h => exact hcast trivial
  | castp p reftype => exact hcast trivial
  | start a =>
      rcases hd with ⟨b, t, hp, hholds⟩ | hvoid
      · have hpos : 0 < a.alength := hrange
        have hcount : 1 ≤ (Derived.carray a).count.toNat := by
          show 1 ≤ a.alength.toNat
          omega
        exact .inl ⟨b, t, hp, hholds.mono hcount⟩
      · exact .inr hvoid
  | fromPtr p alength =>
      obtain ⟨a, t, hp, hholds⟩ := hrange
      exact .inl ⟨a, t, ⟨hp.raw, hp.reftyp⟩, hholds⟩
  | @deref p mem v d hv hd' =>
      rcases hd with htyped | hvoid
      · exact .inl (typed_reference hv hd' rfl htyped)
      · rcases deref_reference hv hd' with rfl | ⟨e, n, harray, rfl⟩
        · exact .inr hvoid
        · exact absurd (harray.symm.trans hvoid) nofun
  | get hv hd' =>
      obtain ⟨q, hq, hv⟩ := get_eq_ok hv
      have htyped := typed_plus hB hq hrange
      obtain ⟨z, -, rfl⟩ := plus_eq_ok hq
      exact .inl (typed_reference hv hd' rfl htyped)

theorem Step.located (hB : Small cs B s) (h : Step P F op d d') (hrange : op.InRange cs B d)
    (hd : d.Located cs B) : d'.Located cs B := by
  cases h with
  | plus h => exact (typed_plus hB h hrange).located
  | minus h =>
      rw [minus_eq] at h
      exact (typed_plus hB h hrange).located
  | arrow p f => exact (typed_arrow hB hrange).located
  | member p f => exact (typed_arrow hB hrange).located
  | addr p => exact hd
  | @coerce atyp btyp f p h =>
      have hraw : (f p).raw = p.raw := by
        rcases coerce_pointer (p := p) h with heq | heq
        · rw [heq]
        · rw [heq, FatPtr.coerce]
      intro hcount
      show ∃ a t, (f p).raw = i64.wrap a ∧ B.Holds (cTypes cs) a t 1
      rw [hraw]
      exact hd hcount
  | castp p reftype => exact hd
  | start a => exact fun _ => hd hrange
  | fromPtr p alength =>
      obtain ⟨a, t, hp, hholds⟩ := hrange
      have htyped : (Derived.carray ⟨p, alength⟩).Typed cs B :=
        ⟨a, t, ⟨hp.raw, hp.reftyp⟩, hholds⟩
      exact htyped.located
  | deref hv hd' =>
      rcases deref_reference hv hd' with rfl | ⟨e, n, -, rfl⟩
      · exact hd
      · exact fun _ => hd Int.one_pos
  | get hv hd' =>
      obtain ⟨q, hq, hv⟩ := get_eq_ok hv
      obtain ⟨b, t, hraw, hholds⟩ := (typed_plus hB hq hrange).located Int.one_pos
      rcases deref_reference hv hd' with rfl | ⟨e, n, -, rfl⟩
      · exact fun _ => ⟨b, t, hraw, hholds⟩
      · exact fun _ => ⟨b, t, hraw, hholds⟩

theorem DerivesInRange.located (hB : Small cs B s) (h : DerivesInRange P F cs B d₀ d)
    (hd : d₀.Located cs B) : d.Located cs B := by
  induction h with
  | refl => exact hd
  | tail _ hstep ih =>
      obtain ⟨op, hstep, hrange⟩ := hstep
      exact hstep.located hB hrange ih

theorem DerivesTyped.typedOrVoid (hB : Small cs B s) (h : DerivesTyped P F cs B d₀ d)
    (hd : d₀.Typed cs B) : d.TypedOrVoid cs B := by
  induction h with
  | refl => exact .inl hd
  | tail _ hstep ih =>
      obtain ⟨op, hstep, hrange, hcast⟩ := hstep
      exact hstep.typedOrVoid hB hrange hcast ih

/-- What it stands for lies within the block. -/
theorem Derived.TypedOrVoid.within (hB : Small cs B s) {z : Int} (h : d.TypedOrVoid cs B)
    (hz : Ints.sizeof d.pointer.reftyp = .ok z) : ∃ a, d.pointer.raw = i64.wrap a ∧ B.base ≤ a ∧
      a + d.count.toNat * z ≤ blockStop cs B := by
  rcases h with ⟨a, t, hp, hholds⟩ | hvoid
  · obtain ⟨n, hn, hlow, hhigh⟩ := holds_within hB hholds
    refine ⟨a, hp.raw, hlow, ?_⟩
    rcases Nat.eq_zero_or_pos d.count.toNat with hzero | hpos
    · rw [hzero] at hhigh ⊢
      omega
    · have hle : n ≤ d.count.toNat * n := Nat.le_mul_of_pos_left n hpos
      have hsmall := hB.small
      rw [blockStop_eq hB] at hhigh ⊢
      rw [hp.sizeof hn (by omega)] at hz
      cases hz
      push_cast at hhigh ⊢
      exact hhigh
  · rw [hvoid] at hz
    cases hz

/-! ### From the allocation on -/

variable {allocator : Allocator} {origin : Origin A} {h h₀ : Heap}

theorem allocate_ends {t : Typ} {count : Int} {p : FatPtr Typ} {h₁ : Heap}
    (hrun : Ends (Ints.allocateN allocator t count) h p h₁) :
    ∃ size block, Ints.sizeof t = .ok size ∧
      Ends (Ints.stubsAllocate allocator count size) h block h₁ ∧ p = Ints.package t block := by
  obtain ⟨size, h₂, hends, hrun⟩ := hrun.of_bind
  obtain ⟨hsize, rfl⟩ := ofExcept_ends hends
  obtain ⟨block, h₃, hblock, hp⟩ := hrun.of_bind
  cases hp
  exact ⟨size, block, hsize, hblock, rfl⟩

/-- The block of an allocation, and the pointer to its start. -/
theorem Origin.run_spec (hrun : Ends (origin.run P allocator) h d₀ h₀) :
    ∃ p h₁, Ends (Ints.allocateN allocator origin.reftyp origin.count) h p h₁ ∧
      d₀.pointer = p ∧ (origin.InRange → d₀.count ≤ origin.count) := by
  cases origin with
  | allocate reftype v =>
      obtain ⟨p, h₁, hp, hd⟩ := hrun.of_bind
      obtain ⟨q, h₂, hq, hp⟩ := hp.of_bind
      obtain ⟨_, h₃, _, hp⟩ := hp.of_bind
      cases hp
      cases hd
      exact ⟨p, h₂, hq, rfl, fun _ => Int.le_refl 1⟩
  | allocateN reftyp count =>
      obtain ⟨p, h₁, hp, hd⟩ := hrun.of_bind
      cases hd
      exact ⟨p, _, hp, rfl, fun hpos => hpos⟩
  | makeArray reftype initial count =>
      obtain ⟨arr, h₁, harr, hd⟩ := hrun.of_bind
      cases hd
      obtain ⟨p, h₂, hp, harr⟩ := harr.of_bind
      have heq : arr = ⟨p, count⟩ := by
        cases initial with
        | none =>
            cases harr
            rfl
        | some v =>
            obtain ⟨_, h₃, _, harr⟩ := harr.of_bind
            cases harr
            rfl
      rw [heq]
      exact ⟨p, h₂, hp, rfl, fun _ => Int.le_refl count⟩
  | make s =>
      obtain ⟨p, h₁, hp, hd⟩ := hrun.of_bind
      cases hd
      exact ⟨p, _, hp, rfl, fun _ => Int.le_refl 1⟩

theorem wrap_u64 {i : Int} (hi : 0 ≤ i) (hlt : i < 2 ^ 62) : (u64.wrap i).toNat = i.toNat := by
  have hin : u64.InRange i := by
    show 0 ≤ i ∧ i < ((2 ^ 64 : Nat) : Int)
    omega
  rw [IntFormat.wrap_of_inRange hin]

/-- `calloc` is asked for the bytes that there are in C. -/
theorem le_blockSize {count size : Int} (hsmall : count.toNat * s < 2 ^ 62)
    (hsize : s < 2 ^ 62 → size = s) : count.toNat * s ≤ Ints.blockSize count size := by
  rcases Nat.eq_zero_or_pos count.toNat with hzero | hpos
  · rw [hzero, Nat.zero_mul]
    exact Nat.zero_le _
  · have hle : s ≤ count.toNat * s := Nat.le_mul_of_pos_left s hpos
    rw [hsize (by omega)]
    rcases Nat.eq_zero_or_pos s with rfl | hs
    · exact Nat.zero_le _
    · have hle' : count.toNat ≤ count.toNat * s := Nat.le_mul_of_pos_right _ hs
      rw [Ints.blockSize, wrap_u64 (by omega) (by omega), wrap_u64 (by omega) (by omega),
        Int.toNat_natCast]

/-- What is derived from an allocation has its owner. If the bytes allocated in
C are counted by an OCaml integer, then in a chain of derivations in range an
object of the block starts at every address, and if pointers are cast only to
`void` and to the types of objects at their addresses, what is derived lies
within the block. -/
theorem derived_owned (cs : List Mutable.Call) {t : Mutable.Typ}
    (ht : (calls cs .empty).describe t = origin.reftyp)
    (hrun : Ends (origin.run P allocator) h d₀ h₀) :
    ∃ block h₁ size, Ends (Ints.stubsAllocate allocator origin.count size) h block h₁ ∧
      Ints.sizeof origin.reftyp = .ok size ∧
      (∀ d, Derives P F d₀ d → d.pointer.managed = some block.2) ∧
      ∀ s, Mutable.sizeof (cTypes cs) t = .ok s → origin.count.toNat * s < 2 ^ 62 →
        origin.InRange →
        (∀ d, DerivesInRange P F cs ⟨block.1, t, origin.count.toNat⟩ d₀ d → 0 < d.count →
          ∃ a t' s', d.pointer.raw = i64.wrap a ∧
            Block.Holds (cTypes cs) ⟨block.1, t, origin.count.toNat⟩ a t' 1 ∧
            Mutable.sizeof (cTypes cs) t' = .ok s' ∧ block.1 ≤ a ∧
            a + s' ≤ block.1 + Ints.blockSize origin.count size) ∧
        ∀ d, DerivesTyped P F cs ⟨block.1, t, origin.count.toNat⟩ d₀ d →
          ∀ z, Ints.sizeof d.pointer.reftyp = .ok z → ∃ a, d.pointer.raw = i64.wrap a ∧
            block.1 ≤ a ∧ a + d.count.toNat * z ≤ block.1 + Ints.blockSize origin.count size := by
  obtain ⟨p, h₁, hp, hpointer, hcount⟩ := Origin.run_spec hrun
  obtain ⟨size, block, hsize, hblock, rfl⟩ := allocate_ends hp
  refine ⟨block, h₁, size, hblock, hsize, fun d hd => ?_, fun s hs hsmall hrange => ?_⟩
  · rw [hd.managed, hpointer]
    rfl
  have hB : Small cs ⟨block.1, t, origin.count.toNat⟩ s := ⟨hs, hsmall⟩
  have hpoints : RefersTo cs d₀.pointer block.1 t := by
    rw [hpointer]
    exact ⟨rfl, ht⟩
  have htyped : d₀.Typed cs ⟨block.1, t, origin.count.toNat⟩ :=
    ⟨block.1, t, hpoints, Block.holds_base hs (Int.toNat_le_toNat (hcount hrange))⟩
  have hbytes : blockStop cs ⟨block.1, t, origin.count.toNat⟩ ≤
      block.1 + Ints.blockSize origin.count size := by
    have hle : origin.count.toNat * s ≤ Ints.blockSize origin.count size :=
      le_blockSize hsmall fun hlt => by
        have hpoints' : RefersTo cs ⟨origin.reftyp, i64.wrap block.1, none⟩ block.1 t := ⟨rfl, ht⟩
        have heq := hsize.symm.trans (hpoints'.sizeof hs hlt)
        cases heq
        rfl
    rw [blockStop_eq hB]
    show block.1 + ((origin.count.toNat * s : Nat) : Int) ≤ _
    omega
  refine ⟨fun d hd hpos => ?_, fun d hd z hz => ?_⟩
  · obtain ⟨a, t', hraw, hholds⟩ := hd.located hB htyped.located hpos
    obtain ⟨s', hs', hlow, hhigh⟩ := holds_within hB hholds
    rw [Nat.one_mul] at hhigh
    exact ⟨a, t', s', hraw, hholds, hs', hlow, hhigh.trans hbytes⟩
  · obtain ⟨a, hraw, hlow, hhigh⟩ := (hd.typedOrVoid hB htyped).within hB hz
    exact ⟨a, hraw, hlow, hhigh.trans hbytes⟩

def lookingViews : ViewFns (mlTypes fun _ => Int) where
  read _ _ _ := (0 : Int)
  write _ ty _ := valueWith (fun _ => 0) ty

def twoStructs : Block := ⟨8192, .struct 0, 2⟩

def makeTwo : Origin fun _ => Int := .makeArray (lookingTypes.describe (.struct 0)) none 2

def allocateAt8192 : Allocator := fun _ _ _ => .ok (8192, 7)

def twoArray : CArray := ⟨⟨lookingTypes.describe (.struct 0), 8192, some 7⟩, 2⟩

def secondField : FatPtr Typ := ⟨.primitive .char, 8192 + 16, some 7⟩

/-- On the way the pointer is one to `void`. -/
theorem secondField_derives : DerivesTyped lookingPlatform lookingViews lookingCalls twoStructs
    (.carray twoArray) (.ptr secondField) := by
  have hblock : twoStructs.Holds (cTypes lookingCalls) 8192 (.struct 0) 2 :=
    @Block.holds_base _ 2 twoStructs 16 rfl (by decide)
  have hindex : twoStructs.Index (cTypes lookingCalls) 8192 (.struct 0) 1 :=
    hblock.index (by decide) (by decide)
  have hsecond : twoStructs.Holds (cTypes lookingCalls) (8192 + 16) (.struct 0) 1 :=
    hindex.holds (s := 16) rfl
  have hfield : (calls lookingCalls .empty).HasField (.struct 0) charField :=
    ⟨"s", 16, 8, [charField, pointedField], rfl, by decide⟩
  have hchar : twoStructs.Holds (cTypes lookingCalls) (8192 + 16) (.primitive .char) 1 :=
    hsecond.field (f := ⟨.primitive .char, 0, "c"⟩) (sound_cTypes lookingCalls)
      ⟨"s", 16, 8, _, rfl, .head _⟩
  refine .head ⟨.get 1, .get (m := fun _ => 0) rfl rfl,
    ⟨8192, .struct 0, ⟨rfl, rfl⟩, by decide, hindex⟩, nofun⟩ ?_
  refine .head ⟨_, .member _ (lookingTypes.describeField charField),
    ⟨8192 + 16, .struct 0, charField, ⟨rfl, rfl⟩, hsecond, hfield, rfl⟩, nofun⟩ ?_
  refine .head ⟨_, .castp _ .void, trivial, fun _ => .inr rfl⟩ ?_
  exact .head ⟨_, .castp _ (.primitive .char), trivial,
    fun _ => .inl ⟨8192 + 16, .primitive .char, ⟨rfl, rfl⟩, hchar⟩⟩ .refl

theorem secondField_owned : secondField.managed = some 7 ∧
    (∃ a t' s', secondField.raw = i64.wrap a ∧
      twoStructs.Holds (cTypes lookingCalls) a t' 1 ∧
      Mutable.sizeof (cTypes lookingCalls) t' = .ok s' ∧ 8192 ≤ a ∧ a + s' ≤ 8192 + 32) ∧
    ∃ a, secondField.raw = i64.wrap a ∧ 8192 ≤ a ∧ a + 1 ≤ 8192 + 32 := by
  have hrun : Ends (makeTwo.run lookingPlatform allocateAt8192) ⟨fun _ => 0, []⟩
      (.carray twoArray) (Heap.calloc ⟨fun _ => 0, []⟩ 8192 32) := rfl
  obtain ⟨block, h₁, size, hblock, hsize, hmanaged, hbound⟩ :=
    derived_owned (P := lookingPlatform) (F := lookingViews) lookingCalls (t := .struct 0) rfl hrun
  cases hblock
  cases hsize
  have hchain := secondField_derives
  obtain ⟨hlocated, hwithin⟩ := hbound 16 rfl (by decide) trivial
  exact ⟨hmanaged _ hchain.inRange.derives, hlocated _ hchain.inRange Int.one_pos,
    hwithin _ hchain 1 rfl⟩

/-! ### A size that wraps around to zero -/

def hugeArray : Mutable.Typ := .array (.primitive .int64T) (2 ^ 60)

/-- Nothing is allocated for the array, and the index 5 is in range. -/
theorem hugeArray_not_within :
    let τ := calls [] .empty
    let origin : Origin fun _ => Int := .allocateN (τ.describe hugeArray) 1
    let p : FatPtr Typ := ⟨.primitive .int64T, 8192 + 40, some 7⟩
    ∃ d₀ h₀, Ends (origin.run lookingPlatform allocateAt8192) ⟨fun _ => 0, []⟩ d₀ h₀ ∧
      Ints.sizeof origin.reftyp = .ok 0 ∧ Ints.blockSize 1 0 = 0 ∧ origin.InRange ∧
      DerivesTyped lookingPlatform lookingViews [] ⟨8192, hugeArray, 1⟩ d₀ (.ptr p) ∧
      ∀ a, ¬ (8192 ≤ a ∧ a + 8 ≤ 8192 + (Ints.blockSize 1 0 : Int)) := by
  intro τ origin p
  have hobjects : Block.Objects (cTypes []) ⟨8192, hugeArray, 1⟩ (0 + 0 * 2 ^ 63)
      (.primitive .int64T) (2 ^ 60) :=
    @Block.Objects.elements _ _ 0 0 1 (2 ^ 60) (2 ^ 63) _ .block (by decide) rfl
  have hindex : Block.Index (cTypes []) ⟨8192, hugeArray, 1⟩ 8192 (.primitive .int64T) 5 :=
    ⟨_, 2 ^ 60, 0, 8, hobjects, rfl, rfl, by decide, by decide⟩
  refine ⟨_, _, rfl, rfl, rfl, Int.one_pos, ?_, fun a h => ?_⟩
  · refine .head ⟨.deref, .deref (m := fun _ => 0) rfl rfl, trivial, nofun⟩ ?_
    have hpos : (0 : Int) < (2 ^ 60 : Nat) := by decide
    refine .head ⟨.start, .start _, hpos, nofun⟩ ?_
    exact .head ⟨.plus 5, .plus rfl, ⟨8192, .primitive .int64T, ⟨rfl, rfl⟩, by decide, hindex⟩,
      nofun⟩ .refl
  · have hzero : Ints.blockSize 1 0 = 0 := rfl
    rw [hzero] at h
    omega

end CtypesCbuf.Ctypes.Memory
