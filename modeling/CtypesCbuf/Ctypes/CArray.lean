import CtypesCbuf.Ctypes.Memory
import CtypesCbuf.Lib.Loops

/-!
The operations of `Ctypes_memory.CArray`. They work on C memory and the blocks
allocated in it; the functions that they are given have effects in `M`, which
do not reach C memory. Finalisers are left out. Sizes and offsets in bytes are taken
to be OCaml integers; `Derivations` has the operations that wrap around.
-/

namespace CtypesCbuf.Ctypes.Memory

open ByteMemory Loops
open CtypesCbuf.Runtime

/-- C memory and the blocks of it that are in use. -/
structure Heap where
  bytes : Memory
  live : List (Int × Nat)

/-- `calloc`: the address of a new block for so many items of a size, and the
value that manages it. -/
abbrev Allocator := Int → Nat → Heap → Except Failure (Int × Obj)

/-- The heap with a new block, which is filled with zeros. -/
def Heap.calloc (h : Heap) (a : Int) (n : Nat) : Heap where
  bytes b := if In a n b then 0 else h.bytes b
  live := (a, n) :: h.live

/-- `'a carray`, with elements of the C type `t`: the reference type of its
start. -/
structure ArrayOf (t : Typ) where
  raw : Int
  managed : Option Obj
  alength : Int
  deriving DecidableEq, Repr

def ArrayOf.astart {t : Typ} (a : ArrayOf t) : FatPtr Typ := ⟨t, a.raw, a.managed⟩

abbrev CProgram (M : Type → Type) := Program Heap Failure M

section Operations

variable {M : Type → Type} [Monad M] {α β : Type}

/-! ### Programs -/

def raise (e : Exn) : CProgram M α := fun _ =>
  ExceptT.mk (pure (.error (.raises e)))

def ofExcept (x : Except Exn α) : CProgram M α :=
  match x with
  | .ok a => pure a
  | .error e => raise e

def reading (f : Memory → Except Failure α) : CProgram M α := fun h =>
  ExceptT.mk (pure ((f h.bytes).map fun a => (a, h)))

def updating (f : Memory → Except Failure Memory) : CProgram M Unit := fun h =>
  ExceptT.mk (pure ((f h.bytes).map fun mem => ((), { h with bytes := mem })))

def calling (x : M α) : CProgram M α := fun h =>
  ExceptT.mk ((fun a => .ok (a, h)) <$> x)

/-! ### Pointers -/

variable {A : ViewId → Type} (P : Platform A) (allocator : Allocator) {t : Typ}

/-- `p +@ x`. -/
def plus (p : FatPtr Typ) (x : Int) : Except Exn (FatPtr Typ) :=
  (sizeof p.reftyp).map fun size : Nat => { p with raw := p.raw + x * (size : Int) }

/-- `p <-@ v`, for a pointer with the reference type `t`. -/
def assignAt (t : Typ) (p : FatPtr Typ) (v : Val A t) (mem : Memory) : Except Failure Memory :=
  match write P t with
  | .ok w => (w v p mem).1.perform (w v p mem).2
  | .error e => .error (.raises e)

/-- `allocate_n`, up to the pointer made of the block. -/
def allocateN (reftyp : Typ) (count : Int) : CProgram M (Int × Obj) := do
  let size ← ofExcept (sizeof reftyp)
  fun h => ExceptT.mk (pure ((allocator count size h).map fun b =>
    (b, h.calloc b.1 (count.toNat * size))))

/-! ### Arrays -/

namespace CArray

def checkBound (arr : ArrayOf t) (i : Int) : CProgram M Unit :=
  if i < 0 ∨ i ≥ arr.alength then raise (.invalidArg "index out of bounds") else pure ()

def unsafeGet (arr : ArrayOf t) (n : Int) : CProgram M (Val A t) := do
  let p ← ofExcept (plus arr.astart n)
  reading (deref P t p)

def unsafeSet (arr : ArrayOf t) (n : Int) (v : Val A t) : CProgram M Unit := do
  let p ← ofExcept (plus arr.astart n)
  updating (assignAt P t p v)

def get (arr : ArrayOf t) (n : Int) : CProgram M (Val A t) := do
  checkBound arr n
  unsafeGet P arr n

def set (arr : ArrayOf t) (n : Int) (v : Val A t) : CProgram M Unit := do
  checkBound arr n
  unsafeSet P arr n v

def fromPtr (t : Typ) (block : Int × Obj) (alength : Int) : ArrayOf t :=
  ⟨block.1, some block.2, alength⟩

/-- The write functions of views are called once, before the loop. -/
def fill (arr : ArrayOf t) (v : Val A t) : CProgram M Unit := do
  let size ← ofExcept (sizeof t)
  let w ← ofExcept (write P t)
  let h ← MonadState.get
  updating fun mem => .ok (w v arr.astart mem).2
  forUp (fun i _ => updating
    (w v { arr.astart with raw := arr.raw + i * size } h.bytes).1.perform) 0 arr.alength.toNat ()

def make (reftype : Typ) (initial : Option (Val A reftype)) (count : Int) :
    CProgram M (ArrayOf reftype) := do
  let block ← allocateN allocator reftype count
  let arr := fromPtr reftype block count
  match initial with
  | none => pure arr
  | some v => do
      fill P arr v
      pure arr

def copy (arr : ArrayOf t) : CProgram M (ArrayOf t) := do
  let dst ← allocateN allocator t arr.alength
  let size ← ofExcept (sizeof t)
  updating (Access.memcpy dst.1 arr.raw (arr.alength * size).toNat).perform
  pure (fromPtr t dst arr.alength)

def sub (arr : ArrayOf t) (pos length : Int) : CProgram M (ArrayOf t) :=
  if pos < 0 ∨ length < 0 ∨ pos > arr.alength - length then
    raise (.invalidArg "CArray.sub")
  else do
    let p ← ofExcept (plus arr.astart pos)
    copy allocator ⟨p.raw, p.managed, length⟩

def ofList (typ : Typ) (list : List (Val A typ)) : CProgram M (ArrayOf typ) := do
  let arr ← make P allocator typ none list.length
  iteri (fun i v => set P arr i v) 0 list
  pure arr

def toList (a : ArrayOf t) : CProgram M (List (Val A t)) :=
  forDown (fun i l => do
    let v ← get P a i
    pure (v :: l)) a.alength.toNat []

def iter (f : Val A t → M Unit) (a : ArrayOf t) : CProgram M Unit :=
  forUp (fun i _ => do
    let v ← unsafeGet P a i
    calling (f v)) 0 a.alength.toNat ()

/-- The loop of `map` and `mapi`. -/
def mapInto {typ : Typ} (r : ArrayOf typ) (f : Nat → Val A t → M (Val A typ)) (a : ArrayOf t) :
    CProgram M Unit :=
  forUp (fun i _ => do
    let v ← unsafeGet P a i
    let w ← calling (f i v)
    unsafeSet P r i w) 0 a.alength.toNat ()

def map (typ : Typ) (f : Val A t → M (Val A typ)) (a : ArrayOf t) :
    CProgram M (ArrayOf typ) := do
  let r ← make P allocator typ none a.alength
  mapInto P r (fun _ v => f v) a
  pure r

def mapi (typ : Typ) (f : Nat → Val A t → M (Val A typ)) (a : ArrayOf t) :
    CProgram M (ArrayOf typ) := do
  let r ← make P allocator typ none a.alength
  mapInto P r f a
  pure r

def foldLeft (f : β → Val A t → M β) (x : β) (a : ArrayOf t) : CProgram M β :=
  forUp (fun i r => do
    let v ← unsafeGet P a i
    calling (f r v)) 0 a.alength.toNat x

def foldRight (f : Val A t → β → M β) (a : ArrayOf t) (x : β) : CProgram M β :=
  forDown (fun i r => do
    let v ← unsafeGet P a i
    calling (f v r)) a.alength.toNat x

end CArray

end Operations

end CtypesCbuf.Ctypes.Memory
