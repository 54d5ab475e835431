import Mathlib.Data.List.Forall2
import CtypesCbuf.Cbuf.GenerateML

/-!
Matching of the generated patterns. What they are matched against are the
descriptions of functions and types that the generated `foreign` is given; a
part of a description is kept together with the place where it stands.
-/

namespace CtypesCbuf.MlLanguage

open NameSupply
open Ctypes hiding Fn
open CLanguage Stubs Cbuf Cbuf.GenerateML

/-- Which type of a specification a description belongs to. -/
inductive Part
  | argument (i : Nat)
  | result
  | buffer
  deriving DecidableEq, Repr

/-- A type of a specification or, below views, one that it is represented at. -/
structure Place where
  part : Part
  depth : Nat
  deriving DecidableEq, Repr

def Place.below (p : Place) : Place := { p with depth := p.depth + 1 }

inductive Data
  /-- What is left of a specification after `i` arguments. -/
  | fn (i : Nat) (f : Cbuf.Fn)
  | cposition (c : CPosition)
  | cbuffers (b : CBuffers)
  | int (i : Nat)
  | typ (p : Place) (t : Typ)
  | ctypesFn (fn : Ctypes.Fn)
  | prim (p : Prim)
  | ocamlType (ty : OcamlType)
  | view (p : Place) (v : ViewId) (ty : Typ)
  | write (p : Place) (v : ViewId)
  | read (p : Place) (v : ViewId)
  /-- What no pattern looks into. -/
  | other
  deriving DecidableEq, Repr

def ocamlTypeCon : OcamlType → Path
  | .string => ["CI", "String"]
  | .bytes => ["CI", "Bytes"]
  | .floatArray => ["CI", "FloatArray"]

/-- The constructor of a description and what it is applied to. -/
def Data.con : Data → Option (Path × List Data)
  | .fn _ (.returns t) => some (["Returns"], [.typ ⟨.result, 0⟩ t])
  | .fn i (.function f t) =>
      some (["Function"], [.typ ⟨.argument i, 0⟩ f, .fn (i + 1) t])
  | .fn i (.buffers cpos b r) => some (["Buffers"], [.cposition cpos, .cbuffers b, .fn i r])
  | .cbuffers (.lastBuf i t) => some (["LastBuf"], [.int i, .typ ⟨.buffer, 0⟩ t])
  | .cbuffers (.conBuf l r) => some (["ConBuf"], [.cbuffers l, .cbuffers r])
  | .typ _ .void => some (["CI", "Void"], [])
  | .typ _ (.primitive k) => some (["CI", "Primitive"], [.prim k])
  | .typ p (.pointer t) => some (["CI", "Pointer"], [.typ p.below t])
  | .typ _ (.funptr t) => some (["CI", "Funptr"], [.ctypesFn t])
  | .typ _ (.struct _ _ _) => some (["CI", "Struct"], [.other])
  | .typ _ (.union _ _ _) => some (["CI", "Union"], [.other])
  | .typ _ (.abstract _) => some (["CI", "Abstract"], [.other])
  | .typ p (.view v ty) => some (["CI", "View"], [.view p v ty])
  | .typ p (.array t n) => some (["CI", "Array"], [.typ p.below t, .int n])
  | .typ _ (.bigarray _) => some (["CI", "Bigarray"], [.other])
  | .typ _ (.ocaml ty) => some (["CI", "OCaml"], [.ocamlType ty])
  | .prim k => some (constructorCidentOfPrim k, [])
  | .ocamlType ty => some (ocamlTypeCon ty, [])
  | _ => none

section Con

variable (i : Nat) (p : Place)

@[simp] theorem con_returns (t : Typ) :
    (Data.fn i (.returns t)).con = some (["Returns"], [.typ ⟨.result, 0⟩ t]) := rfl

@[simp] theorem con_function (t : Typ) (f : Cbuf.Fn) :
    (Data.fn i (.function t f)).con =
      some (["Function"], [.typ ⟨.argument i, 0⟩ t, .fn (i + 1) f]) := rfl

@[simp] theorem con_buffers (cpos : CPosition) (b : CBuffers) (f : Cbuf.Fn) :
    (Data.fn i (.buffers cpos b f)).con =
      some (["Buffers"], [.cposition cpos, .cbuffers b, .fn i f]) := rfl

@[simp] theorem con_lastBuf (t : Typ) :
    (Data.cbuffers (.lastBuf i t)).con =
      some (["LastBuf"], [.int i, .typ ⟨.buffer, 0⟩ t]) := rfl

@[simp] theorem con_conBuf (l r : CBuffers) :
    (Data.cbuffers (.conBuf l r)).con =
      some (["ConBuf"], [.cbuffers l, .cbuffers r]) := rfl

@[simp] theorem con_void : (Data.typ p .void).con = some (["CI", "Void"], []) := rfl

@[simp] theorem con_primitive (k : Prim) :
    (Data.typ p (.primitive k)).con = some (["CI", "Primitive"], [.prim k]) := rfl

@[simp] theorem con_pointer (t : Typ) :
    (Data.typ p (.pointer t)).con = some (["CI", "Pointer"], [.typ p.below t]) := rfl

@[simp] theorem con_funptr (t : Ctypes.Fn) :
    (Data.typ p (.funptr t)).con = some (["CI", "Funptr"], [.ctypesFn t]) := rfl

@[simp] theorem con_struct (tag : String) (spec : StructSpec) (fields : Fields) :
    (Data.typ p (.struct tag spec fields)).con = some (["CI", "Struct"], [.other]) := rfl

@[simp] theorem con_union (tag : String) (spec : Option StructuredSpec) (fields : Fields) :
    (Data.typ p (.union tag spec fields)).con = some (["CI", "Union"], [.other]) := rfl

@[simp] theorem con_abstract (a : AbstractType) :
    (Data.typ p (.abstract a)).con = some (["CI", "Abstract"], [.other]) := rfl

@[simp] theorem con_view (v : ViewId) (t : Typ) :
    (Data.typ p (.view v t)).con = some (["CI", "View"], [.view p v t]) := rfl

@[simp] theorem con_array (t : Typ) (n : Nat) :
    (Data.typ p (.array t n)).con = some (["CI", "Array"], [.typ p.below t, .int n]) := rfl

@[simp] theorem con_bigarray (ba : Bigarray) :
    (Data.typ p (.bigarray ba)).con = some (["CI", "Bigarray"], [.other]) := rfl

@[simp] theorem con_ocaml (ty : OcamlType) :
    (Data.typ p (.ocaml ty)).con = some (["CI", "OCaml"], [.ocamlType ty]) := rfl

@[simp] theorem con_prim (k : Prim) :
    (Data.prim k).con = some (constructorCidentOfPrim k, []) := rfl

@[simp] theorem con_ocamlType (ty : OcamlType) :
    (Data.ocamlType ty).con = some (ocamlTypeCon ty, []) := rfl

end Con

def Data.field : Data → Path → Option Data
  | .view p v ty, l =>
      if l = ["CI", "ty"] then some (.typ p.below ty)
      else if l = ["write"] then some (.write p v)
      else if l = ["read"] then some (.read p v)
      else none
  | _, _ => none

/-- The number that a variable pattern is when it is printed: one whose name
is a numeral is read back as a constant. -/
def literal (x : String) : Option Nat :=
  if x.toList.all Char.isDigit then some (Nat.ofDigitChars 10 x.toList 0) else none

@[simp] theorem literal_repr (i : Nat) : literal (Nat.repr i) = some i := by
  have hall : (Nat.repr i).toList.all Char.isDigit = true :=
    List.all_eq_true.mpr fun _ hc => isDigit_of_mem_repr hc
  rw [literal, if_pos hall]
  simp [Nat.toList_repr]

@[simp] theorem literal_freshName (n : Nat) : literal (freshName n) = none := by
  rw [literal, freshName_toList, if_neg]
  simp

abbrev Bindings := List (String × Data)

mutual
/-- What a pattern binds when it matches. -/
def matchPat : MlPat → Data → Option Bindings
  | .var x, d =>
      match literal x with
      | some i => if d = .int i then some [] else none
      | none => some [(x, d)]
  | .record fs _, d => matchFields fs d
  | .as p x, d => (matchPat p d).map fun b => (x, d) :: b
  | .underscore, _ => some []
  | .con c ps, d =>
      match d.con with
      | some (c', ds) => if c = c' then matchPats ps ds else none
      | none => none
def matchPats : MlPats → List Data → Option Bindings
  | .nil, [] => some []
  | .cons p ps, d :: ds =>
      match matchPat p d, matchPats ps ds with
      | some b, some bs => some (b ++ bs)
      | _, _ => none
  | _, _ => none
def matchFields : MlPatFields → Data → Option Bindings
  | .nil, _ => some []
  | .cons l p fs, d =>
      match (d.field l).bind (matchPat p), matchFields fs d with
      | some b, some bs => some (b ++ bs)
      | _, _ => none
end

theorem matchPats_isSome {ps : List MlPat} {ds : List Data} :
    (matchPats (.ofList ps) ds).isSome ↔
      List.Forall₂ (fun p d => (matchPat p d).isSome) ps ds := by
  induction ps generalizing ds with
  | nil =>
      cases ds with
      | nil => simp [MlPats.ofList, matchPats]
      | cons d ds => simp [MlPats.ofList, matchPats]
  | cons p ps ih =>
      have hcons : MlPats.ofList (p :: ps) = .cons p (.ofList ps) := rfl
      cases ds with
      | nil => simp [hcons, matchPats]
      | cons d ds =>
          rw [List.forall₂_cons, ← ih, hcons, matchPats]
          cases matchPat p d <;> cases matchPats (.ofList ps) ds <;> simp

theorem matchCon_isSome {c : Path} {ps : List MlPat} {d : Data} :
    (matchPat (.con c (.ofList ps)) d).isSome ↔
      ∃ ds, d.con = some (c, ds) ∧ List.Forall₂ (fun p d => (matchPat p d).isSome) ps ds := by
  rw [matchPat]
  cases hd : d.con with
  | none => simp
  | some q =>
      obtain ⟨c', ds⟩ := q
      dsimp only
      split
      · rename_i hc
        rw [matchPats_isSome]
        simp [hc]
      · rename_i hc
        simp [Ne.symm hc]

theorem matchPat_underscore (d : Data) : (matchPat .underscore d).isSome := by
  simp [matchPat]

theorem matchPat_freshName (n : Nat) (d : Data) :
    (matchPat (.var (freshName n)) d).isSome := by
  simp [matchPat]

theorem matchPat_nullary (c : Path) (d : Data) :
    (matchPat (.con c .nil) d).isSome ↔ d.con = some (c, []) := by
  have hnil : MlPats.nil = .ofList [] := rfl
  rw [hnil, matchCon_isSome]
  simp

/-! ### Shapes

What the patterns see of a description. -/

inductive Shape
  | void | primitive (p : Prim) | pointer | funptr | struct | union | abstract
  | view (s : Shape) | array | bigarray | ocaml (ty : OcamlType)
  deriving DecidableEq, Repr

@[simp] def shapeTyp : Typ → Shape
  | .void => .void
  | .primitive p => .primitive p
  | .pointer _ => .pointer
  | .funptr _ => .funptr
  | .struct _ _ _ => .struct
  | .union _ _ _ => .union
  | .abstract _ => .abstract
  | .view _ ty => .view (shapeTyp ty)
  | .array _ _ => .array
  | .bigarray _ => .bigarray
  | .ocaml ty => .ocaml ty

inductive BufferShape
  | lastBuf (i : Nat) (s : Shape)
  | conBuf (l r : BufferShape)
  deriving DecidableEq, Repr

@[simp] def shapeCbuffers : CBuffers → BufferShape
  | .lastBuf i t => .lastBuf i (shapeTyp t)
  | .conBuf l r => .conBuf (shapeCbuffers l) (shapeCbuffers r)

inductive FnShape
  | returns (s : Shape)
  | function (s : Shape) (f : FnShape)
  | buffers (b : BufferShape) (r : FnShape)
  deriving DecidableEq, Repr

/-- A specification up to the position of its buffers. -/
@[simp] def shapeFn : Cbuf.Fn → FnShape
  | .returns t => .returns (shapeTyp t)
  | .function f t => .function (shapeTyp f) (shapeFn t)
  | .buffers _ b r => .buffers (shapeCbuffers b) (shapeFn r)

end CtypesCbuf.MlLanguage
