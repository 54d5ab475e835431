import CtypesCbuf.Ctypes.TypeSteps
import CtypesCbuf.Ctypes.StructLayout
import CtypesCbuf.Lib.IntFormat

/-!
The same types and records with sizes and offsets as `Ctypes_static` and
`Ctypes_structs_computed` have them: OCaml integers, which wrap around. An
alignment is never computed, so it stays a natural number. What `Mutable` has
are the sizes and offsets of C.
-/

namespace CtypesCbuf.Ctypes.Mutable.Wrapping

open IntFormat (i63)

inductive StructSpec
  | incomplete (isize : Int)
  | complete (size : Int) (align : Nat)
  deriving DecidableEq, Repr

structure StructuredSpec where
  size : Int
  align : Nat
  deriving DecidableEq, Repr

structure Field where
  ftype : Typ
  foffset : Int
  fname : String
  deriving DecidableEq, Repr

structure StructureType where
  tag : String
  spec : StructSpec
  fields : List Field
  deriving DecidableEq, Repr

structure UnionType where
  utag : String
  uspec : Option StructuredSpec
  ufields : List Field
  deriving DecidableEq, Repr

structure Store where
  structs : List StructureType
  unions : List UnionType
  deriving DecidableEq, Repr

namespace Store

def empty : Store := ⟨[], []⟩

def setStruct (τ : Store) (i : Nat) (s : StructureType) : Store :=
  { τ with structs := τ.structs.set i s }

def setUnion (τ : Store) (i : Nat) (u : UnionType) : Store :=
  { τ with unions := τ.unions.set i u }

def spec (τ : Store) (i : Nat) : StructSpec :=
  match τ.structs[i]? with
  | some s => s.spec
  | none => .incomplete 0

def uspec (τ : Store) (i : Nat) : Option StructuredSpec :=
  match τ.unions[i]? with
  | some u => u.uspec
  | none => none

end Store

/-! ### Sizes -/

/-- `( * )` on OCaml integers. -/
def mul (x y : Int) : Int := i63.wrap (x * y)

/-- `Ctypes_bigarray.elements`. -/
def elements (ba : Bigarray) : Int := ba.dimensions.foldl (fun n (d : Nat) => mul n d) 1

def sizeof (τ : Store) : Typ → Except Exn Int
  | .void => .error .incompleteType
  | .primitive p => .ok p.size
  | .struct i =>
      match τ.spec i with
      | .incomplete _ => .error .incompleteType
      | .complete size _ => .ok size
  | .union i =>
      match τ.uspec i with
      | none => .error .incompleteType
      | some ⟨size, _⟩ => .ok size
  | .array t n => (sizeof τ t).map fun s => mul n s
  | .bigarray ba => .ok (mul (elements ba) ba.elementType.size)
  | .abstract a => .ok (i63.wrap a.asize)
  | .pointer _ => .ok pointerSize
  | .funptr _ => .ok pointerSize
  | .ocaml _ => .error .incompleteType
  | .view _ ty => sizeof τ ty

def alignment (τ : Store) : Typ → Except Exn Nat
  | .void => .error .incompleteType
  | .primitive p => .ok p.alignment
  | .struct i =>
      match τ.spec i with
      | .incomplete _ => .error .incompleteType
      | .complete _ align => .ok align
  | .union i =>
      match τ.uspec i with
      | none => .error .incompleteType
      | some ⟨_, align⟩ => .ok align
  | .array t _ => alignment τ t
  | .bigarray ba => .ok ba.elementType.alignment
  | .abstract a => .ok a.aalignment
  | .pointer _ => .ok pointerAlignment
  | .funptr _ => .ok pointerAlignment
  | .ocaml _ => .error .incompleteType
  | .view _ ty => alignment τ ty

/-- The remainder of `mod` has the sign of the offset. -/
def alignedOffset (offset : Int) (alignment : Nat) : Except Exn Int :=
  if alignment = 0 then .error .divisionByZero
  else
    match offset.tmod alignment with
    | 0 => .ok offset
    | overhang => .ok (i63.wrap (offset - overhang + alignment))

def maxFieldAlignment (τ : Store) (fields : List Field) : Except Exn Nat :=
  fields.foldlM (fun m f => do return max m (← alignment τ f.ftype)) 0

def maxFieldSize (τ : Store) (fields : List Field) : Except Exn Int :=
  fields.foldlM (fun m f => do return max m (← sizeof τ f.ftype)) 0

/-! ### Programs -/

abbrev TypeM := EStateM Exn Store

def query {α : Type} (f : Store → Except Exn α) : TypeM α := fun τ =>
  match f τ with
  | .ok a => .ok a τ
  | .error e => .error e τ

def newStructure (tag : String) : TypeM Typ := fun τ =>
  .ok (.struct τ.structs.length) { τ with structs := τ.structs ++ [⟨tag, .incomplete 0, []⟩] }

def newUnion (utag : String) : TypeM Typ := fun τ =>
  .ok (.union τ.unions.length) { τ with unions := τ.unions ++ [⟨utag, none, []⟩] }

def getStruct (i : Nat) : TypeM StructureType :=
  query fun τ => match τ.structs[i]? with
    | some s => .ok s
    | none => .error .matchFailure

def getUnion (i : Nat) : TypeM UnionType :=
  query fun τ => match τ.unions[i]? with
    | some u => .ok u
    | none => .error .matchFailure

def putStruct (i : Nat) (s : StructureType) : TypeM Unit := modify fun τ => τ.setStruct i s

def putUnion (i : Nat) (u : UnionType) : TypeM Unit := modify fun τ => τ.setUnion i u

def field (label : String) (ftype : Typ) : Typ → TypeM Field
  | .struct i => do
      let s ← getStruct i
      match s.spec with
      | .incomplete isize => do
          let align ← query fun τ => alignment τ ftype
          let foffset ← query fun _ => alignedOffset isize align
          let f : Field := ⟨ftype, foffset, label⟩
          let size ← query fun τ => sizeof τ ftype
          let s := { s with spec := .incomplete (i63.wrap (foffset + size)) }
          putStruct i s
          putStruct i { s with fields := f :: s.fields }
          return f
      | .complete _ _ => throw (.modifyingSealedType s.tag)
  | .union i => do
      let u ← getUnion i
      match u.uspec with
      | none => do
          let f : Field := ⟨ftype, 0, label⟩
          putUnion i { u with ufields := f :: u.ufields }
          return f
      | some _ => throw (.modifyingSealedType u.utag)
  | .view _ ty => field label ftype ty
  | _ => throw (.unsupported "Adding a field to non-structured type")

def sealTyp : Typ → TypeM Unit
  | .struct i => do
      let s ← getStruct i
      match s with
      | ⟨_, _, []⟩ => throw (.unsupported "struct with no fields")
      | ⟨tag, .complete _ _, _⟩ => throw (.modifyingSealedType tag)
      | ⟨_, .incomplete isize, fields⟩ => do
          let s := { s with fields := fields.reverse }
          putStruct i s
          let align ← query fun τ => maxFieldAlignment τ s.fields
          let size ← query fun _ => alignedOffset isize align
          putStruct i { s with spec := .complete size align }
  | .union i => do
      let u ← getUnion i
      match u with
      | ⟨utag, some _, _⟩ => throw (.modifyingSealedType utag)
      | ⟨_, none, []⟩ => throw (.unsupported "union with no fields")
      | ⟨_, none, ufields⟩ => do
          let u := { u with ufields := ufields.reverse }
          putUnion i u
          let size ← query fun τ => maxFieldSize τ u.ufields
          let align ← query fun τ => maxFieldAlignment τ u.ufields
          let size ← query fun _ => alignedOffset size align
          putUnion i { u with uspec := some ⟨size, align⟩ }
  | .view _ ty => sealTyp ty
  | _ => throw (.unsupported "Sealing a non-structured type")

def exec : Call → TypeM Unit
  | .newStructure tag => do let _ ← newStructure tag
  | .newUnion utag => do let _ ← newUnion utag
  | .field label ftype t => do let _ ← field label ftype t
  | .sealTyp t => sealTyp t

/-- The store after a computation, whether it raised or not. -/
def after {α : Type} (x : TypeM α) (τ : Store) : Store :=
  match x τ with
  | .ok _ τ' => τ'
  | .error _ τ' => τ'

def calls (cs : List Call) (τ : Store) : Store :=
  StraightLine.run (fun c => after (exec c)) cs τ

end CtypesCbuf.Ctypes.Mutable.Wrapping
