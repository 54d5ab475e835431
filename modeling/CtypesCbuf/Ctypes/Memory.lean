import CtypesCbuf.Lib.ByteMemory
import CtypesCbuf.Runtime.Accesses
import CtypesCbuf.Ctypes.Coerce

/-!
Reading and writing C memory, `Ctypes_memory`. A write is split into the
access to memory that it comes to and the execution of this access, so that
the bytes it reads can be told. What C leaves undefined is a failure. Sizes and
offsets are those that types have in C. The code has OCaml integers for them,
which are the same below 2^62, so for whatever lies in memory.
-/

namespace CtypesCbuf.Ctypes.Memory

open ByteMemory
open CtypesCbuf.Runtime

/-! ### Values -/

/-- `'a carray`. -/
structure CArray where
  astart : FatPtr Typ
  alength : Int
  deriving DecidableEq, Repr

/-- A bigarray, as C code finds it. -/
structure BigarrayValue where
  address : Int
  elementType : Prim
  dimensions : List Nat
  deriving DecidableEq, Repr

/-- A structured value is the pointer to it. Views have values in `A`. -/
def mlTypes (A : ViewId → Type) : MlTypes where
  prim _ := Value
  view := A
  other
    | .array _ _ => CArray
    | .bigarray _ => BigarrayValue
    | .ocaml _ => Int × Obj
    | _ => FatPtr Typ

abbrev Val (A : ViewId → Type) (t : Typ) : Type := t.Val (mlTypes A)

/-- A value of every type, with `a` for views. -/
def valueWith {A : ViewId → Type} (a : ∀ w, A w) (t : Typ) : Val A t :=
  t.sample (fun _ => Value.int 0) a fun
    | .void => (⟨.void, 0, none⟩ : FatPtr Typ)
    | .primitive p => (⟨.primitive p, 0, none⟩ : FatPtr Typ)
    | .pointer t => (⟨.pointer t, 0, none⟩ : FatPtr Typ)
    | .funptr f => (⟨.funptr f, 0, none⟩ : FatPtr Typ)
    | .view w ty => (⟨.view w ty, 0, none⟩ : FatPtr Typ)
    | .struct tag spec fields => (⟨.struct tag spec fields, 0, none⟩ : FatPtr Typ)
    | .union utag uspec ufields => (⟨.union utag uspec ufields, 0, none⟩ : FatPtr Typ)
    | .abstract b => (⟨.abstract b, 0, none⟩ : FatPtr Typ)
    | .array t n => (⟨⟨t, 0, none⟩, n⟩ : CArray)
    | .bigarray ba => (⟨0, ba.elementType, ba.dimensions⟩ : BigarrayValue)
    | .ocaml _ => ((0, 0) : Int × Obj)

/-- What accesses to memory depend on. The functions of views may read memory,
and a write function may allocate and fill memory of its own. -/
structure Platform (A : ViewId → Type) where
  machine : Machine
  read : ∀ (v : ViewId) (ty : Typ), Val A ty → Memory → A v
  write : ∀ (v : ViewId) (ty : Typ), A v → Memory → Val A ty × Memory
  /-- The address of a new block of so many bytes, and the value that manages it. -/
  allocate : Nat → Memory → Int × Obj

inductive Failure
  | raises (e : Exn)
  /-- The behaviour of the C code is undefined. -/
  | undefined
  deriving DecidableEq, Repr

/-! ### Accesses -/

/-- An access that writes to C memory. -/
inductive Access
  | none
  | primitive (p : Prim) (c : CVal) (dst : Int)
  | pointer (raw dst : Int)
  | memcpy (dst src : Int) (size : Nat)
  deriving DecidableEq, Repr

/-- `memcpy` is undefined for blocks that overlap. -/
def Access.perform : Access → Memory → Except Failure Memory
  | .none, m => .ok m
  | .primitive p (.int i) dst, m => .ok (store dst p.size i m)
  | .primitive p (.flt _ bits) dst, m => .ok (store dst p.size bits m)
  | .primitive _ _ _, _ => .error .undefined
  | .pointer raw dst, m => .ok (store dst pointerSize raw m)
  | .memcpy dst src size, m =>
      if Overlap dst src size then .error .undefined else .ok (copy dst src size m)

def Access.Reads : Access → Int → Prop
  | .memcpy _ src size, a => In src size a
  | _, _ => False

def loadPrim (m : Machine) (p : Prim) (mem : Memory) (src : Int) : CVal :=
  match floatKind p, intFormat m.charSigned p with
  | some k, _ => .flt k (fetch mem src p.size).toNat
  | none, some f => .int (f.wrap (fetch mem src p.size))
  | none, none => .int (if fetch mem src p.size = 0 then 0 else 1)

def readPointer (mem : Memory) (src : Int) : Int := IntFormat.i64.wrap (fetch mem src pointerSize)

section Accesses

variable {A : ViewId → Type} (P : Platform A)

def stubsRead (p : Prim) (src : Int) (mem : Memory) : Except Failure Value :=
  match ctypesRead P.machine p (loadPrim P.machine p mem src) with
  | .value v => .ok v
  | _ => .error .undefined

/-- Describes how to read a value, for example from a return buffer. -/
def build : (t : Typ) →
    Except Exn (FatPtr Typ → Memory → Except Failure (Val A t × Memory))
  | .void => .ok fun _ mem => .ok ((), mem)
  | .primitive p => .ok fun buf mem => (stubsRead P p buf.raw mem).map fun v => (v, mem)
  | .struct _ (.incomplete _) _ => .error .incompleteType
  | .struct tag (.complete size align) fields => .ok fun buf mem =>
      let (dst, p) := P.allocate size mem
      ((Access.memcpy dst buf.raw size).perform mem).map fun mem' =>
        (⟨.struct tag (.complete size align) fields, dst, some p⟩, mem')
  | .pointer reftyp => .ok fun buf mem => .ok (⟨reftyp, readPointer mem buf.raw, none⟩, mem)
  | .funptr fn => .ok fun buf mem => .ok (⟨fn, readPointer mem buf.raw, none⟩, mem)
  | .view v ty => do
      let buildty ← build ty
      return fun buf mem => (buildty buf mem).map fun r => (P.read v ty r.1 r.2, r.2)
  | .ocaml _ => .ok fun _ _ => .error (.raises .assertFailure)
  -- non-struct aggregate types are excluded during type construction
  | .union _ _ _ | .array _ _ | .bigarray _ | .abstract _ => .error .assertFailure

def writeAggregate (size : Nat) (src dst : FatPtr Typ) (mem : Memory) : Access × Memory :=
  (.memcpy dst.raw src.raw size, mem)

/-- The access that a write comes to, and the memory that the views leave. -/
def write : (t : Typ) → Except Exn (Val A t → FatPtr Typ → Memory → Access × Memory)
  | .void => .ok fun _ _ mem => (.none, mem)
  | .primitive p => .ok fun v dst mem =>
      (.primitive p (ctypesWrite P.machine p v) dst.raw, mem)
  | .pointer _ => .ok fun (p : FatPtr Typ) dst mem => (.pointer p.raw dst.raw, mem)
  | .funptr _ => .ok fun (p : FatPtr Fn) dst mem => (.pointer p.raw dst.raw, mem)
  | .struct _ (.incomplete _) _ => .error .incompleteType
  | .struct _ (.complete size _) _ => .ok (writeAggregate size)
  | .union _ none _ => .error .incompleteType
  | .union _ (some spec) _ => .ok (writeAggregate spec.size)
  | .abstract a => .ok (writeAggregate a.asize)
  | .array t n => do
      let size ← sizeof (.array t n)
      return fun (v : CArray) dst mem => (.memcpy dst.raw v.astart.raw size, mem)
  | .bigarray ba => do
      let size ← sizeof (.bigarray ba)
      return fun (v : BigarrayValue) dst mem => (.memcpy dst.raw v.address size, mem)
  | .view w ty => do
      let writety ← write ty
      return fun v dst mem => writety (P.write w ty v mem).1 dst (P.write w ty v mem).2
  | .ocaml _ => .error .incompleteType

/-- `build` applied to a buffer. -/
def buildFrom (t : Typ) (buf : FatPtr Typ) (mem : Memory) : Except Failure (Val A t) :=
  match build P t with
  | .ok b => (b buf mem).map fun r => r.1
  | .error e => .error (.raises e)

/-- `(!@)`, on a pointer with the reference type `t`. -/
def deref : (t : Typ) → FatPtr Typ → Memory → Except Failure (Val A t)
  | .void, _, _ => .error (.raises .incompleteType)
  | .union _ none _, _, _ => .error (.raises .incompleteType)
  | .struct _ (.incomplete _) _, _, _ => .error (.raises .incompleteType)
  | .view v ty, cptr, mem => (deref ty (cptr.coerce ty) mem).map fun u => P.read v ty u mem
  -- if it is a reference type then we take a reference
  | .union _ (some _) _, ptr, _ => .ok ptr
  | .struct _ (.complete _ _) _, ptr, _ => .ok ptr
  | .array elemtype alength, cptr, _ => .ok (⟨cptr.coerce elemtype, alength⟩ : CArray)
  | .bigarray ba, cptr, _ =>
      .ok (⟨cptr.raw, ba.elementType, ba.dimensions⟩ : BigarrayValue)
  | .abstract _, ptr, _ => .ok ptr
  | .ocaml _, _, _ => .error (.raises .incompleteType)
  -- if it is a value type then we cons a new value
  | .primitive p, cptr, mem => buildFrom P (.primitive p) cptr mem
  | .pointer t, cptr, mem => buildFrom P (.pointer t) cptr mem
  | .funptr fn, cptr, mem => buildFrom P (.funptr fn) cptr mem

/-- `p <-@ v`. -/
def assign (p : FatPtr Typ) (v : Val A p.reftyp) (mem : Memory) : Except Failure Memory :=
  match write P p.reftyp with
  | .ok w => (w v p mem).1.perform (w v p mem).2
  | .error e => .error (.raises e)

structure Field where
  ftype : Typ
  foffset : Nat
  fname : String
  deriving DecidableEq, Repr

/-- `s @. field`. -/
def fieldPtr (s : FatPtr Typ) (field : Field) : FatPtr Typ :=
  { s.coerce field.ftype with raw := s.raw + field.foffset }

def setf (s : FatPtr Typ) (field : Field) (v : Val A field.ftype) (mem : Memory) :
    Except Failure Memory :=
  assign P (fieldPtr s field) v mem

end Accesses

end CtypesCbuf.Ctypes.Memory
