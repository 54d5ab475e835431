import CtypesCbuf.Runtime.Machine

/-!
Values in C memory, the functions `build` and `write` of `ctypes_memory.ml`. A
place in memory is given by the C value that it holds.
-/

namespace CtypesCbuf.Runtime

open Ctypes

/-- The OCaml value that a function of the library returns. -/
def CVal.toValue : CVal → Value
  | .value v => v
  | _ => .unit

def CVal.toPtr : CVal → Ptr
  | .ptr p => p
  | _ => .addr 0

def copyStruct (reftyp : Typ) (size : Nat) : CVal → Value
  | .image bytes =>
      let block := bytes.take size
      .structured (.cpointer (.fatptr (.some (.managedBuffer block)) reftyp (.managed block)))
  | _ => .unit

/-- How to read a value, for example from a return buffer. A read function of a
view runs when the value is read, an exception of `build` itself is raised
before. -/
def build (m : Machine) : Typ → Except Exn (CVal → Except Exn Value)
  | .void => .ok fun _ => .ok .unit
  | .primitive p => .ok fun buf => .ok (ctypesRead m p buf).toValue
  | .struct _ (.incomplete _) _ => .error .incompleteType
  | .struct tag (.complete size align) fields =>
      .ok fun buf => .ok (copyStruct (.struct tag (.complete size align) fields) size buf)
  | .pointer reftyp => .ok fun buf => .ok (.cpointer (.fatptr .unit reftyp buf.toPtr))
  | .funptr fn => .ok fun buf => .ok (.staticFunptr (.fatfunptr .unit fn buf.toPtr))
  | .view v ty => do
      let buildty ← build m ty
      return fun buf => do return m.read v (← buildty buf)
  | .ocaml _ => .ok fun _ => .error .assertFailure
  -- non-struct aggregate types are excluded during type construction
  | .union _ _ _ | .array _ _ | .bigarray _ | .abstract _ => .error .assertFailure

def writeAggregate (m : Machine) (t : Typ) : Value → CVal
  | .structured (.cpointer (.fatptr _ _ src)) => .image (m.load t src)
  | _ => .undefined

/-- What the place holds after a write; a value of type `void` writes nothing.
Arrays and bigarrays are not among the values here. -/
def write (m : Machine) : Typ → Except Exn (Value → Option CVal)
  | .void => .ok fun _ => none
  | .primitive p => .ok fun v => some (ctypesWrite m p v)
  | .pointer _ => .ok fun
      | .cpointer (.fatptr _ _ p) => some (.ptr p)
      | _ => some .undefined
  | .funptr _ => .ok fun
      | .staticFunptr (.fatfunptr _ _ p) => some (.ptr p)
      | _ => some .undefined
  | .struct _ (.incomplete _) _ => .error .incompleteType
  | .struct tag (.complete size align) fields =>
      .ok fun v => some (writeAggregate m (.struct tag (.complete size align) fields) v)
  | .union _ none _ => .error .incompleteType
  | .union utag (some spec) ufields =>
      .ok fun v => some (writeAggregate m (.union utag (some spec) ufields) v)
  | .abstract a => .ok fun v => some (writeAggregate m (.abstract a) v)
  | .array t n => do
      let _ ← sizeof (.array t n)
      return fun _ => some .undefined
  | .bigarray ba => do
      let _ ← sizeof (.bigarray ba)
      return fun _ => some .undefined
  | .view w ty => do
      let writety ← write m ty
      return fun v => writety (m.write w v)
  | .ocaml _ => .error .incompleteType

/-- The value that the `write` functions of views make of `v`. -/
def coreValue (m : Machine) : Typ → Value → Value
  | .view w ty, v => coreValue m ty (m.write w v)
  | _, v => v

@[simp] theorem coreValue_view (m : Machine) (w : ViewId) (ty : Typ) (v : Value) :
    coreValue m (.view w ty) v = coreValue m ty (m.write w v) := by
  rw [coreValue]

end CtypesCbuf.Runtime
