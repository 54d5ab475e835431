import CtypesCbuf.Ctypes.Static

/-!
Structure layout, `Ctypes_structs_computed`. The source updates the type in
place; here `field` and `sealTyp` return the updated type.
-/

namespace CtypesCbuf.Ctypes

def Fields.append : Fields → Fields → Fields
  | .nil, gs => gs
  | .cons ftype foffset fname rest, gs => .cons ftype foffset fname (rest.append gs)

def Fields.rev : Fields → Fields
  | .nil => .nil
  | .cons ftype foffset fname rest => rest.rev.append (.cons ftype foffset fname .nil)

/-- A fold over the types of the fields that keeps the largest measure. -/
def Fields.maxOf (measure : Typ → Except Exn Nat) : Nat → Fields → Except Exn Nat
  | acc, .nil => .ok acc
  | acc, .cons ftype _ _ rest => do
      let m ← measure ftype
      rest.maxOf measure (max acc m)

def maxFieldAlignment (fields : Fields) : Except Exn Nat := fields.maxOf alignment 0

def maxFieldSize (fields : Fields) : Except Exn Nat := fields.maxOf sizeof 0

def alignedOffset (offset alignment : Nat) : Except Exn Nat :=
  if alignment = 0 then .error .divisionByZero
  else
    match offset % alignment with
    | 0 => .ok offset
    | overhang => .ok (offset - overhang + alignment)

def field (label : String) (ftype : Typ) : Typ → Except Exn Typ
  | .struct tag (.incomplete isize) fields => do
      let foffset ← alignedOffset isize (← alignment ftype)
      let size ← sizeof ftype
      return .struct tag (.incomplete (foffset + size))
        (.cons ftype foffset label fields)
  | .union utag none ufields => .ok (.union utag none (.cons ftype 0 label ufields))
  | .struct tag (.complete _ _) _ => .error (.modifyingSealedType tag)
  | .union utag (some _) _ => .error (.modifyingSealedType utag)
  | .view v ty => do return .view v (← field label ftype ty)
  | _ => .error (.unsupported "Adding a field to non-structured type")

/-- `seal`, a word that Lean keeps for itself. -/
def sealTyp : Typ → Except Exn Typ
  | .struct _ _ .nil => .error (.unsupported "struct with no fields")
  | .struct tag (.complete _ _) _ => .error (.modifyingSealedType tag)
  | .struct tag (.incomplete isize) fields => do
      let align ← maxFieldAlignment fields.rev
      let size ← alignedOffset isize align
      return .struct tag (.complete size align) fields.rev
  | .union utag (some _) _ => .error (.modifyingSealedType utag)
  | .union _ none .nil => .error (.unsupported "union with no fields")
  | .union utag none ufields => do
      let size ← maxFieldSize ufields.rev
      let align ← maxFieldAlignment ufields.rev
      return .union utag (some { size := ← alignedOffset size align, align }) ufields.rev
  | .view v ty => do return .view v (← sealTyp ty)
  | _ => .error (.unsupported "Sealing a non-structured type")

end CtypesCbuf.Ctypes
