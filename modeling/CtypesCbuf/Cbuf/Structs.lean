import CtypesCbuf.Ctypes.StructLayout
import CtypesCbuf.Lib.FirstMatch

/-!
Structure stubs, `Cbuf_structs`. The functor is applied to a module that only
writes down the fields and types it is asked for (`gen_c`). From these a C
program is written, which prints an ML module whose `field` and `seal` know
the offsets and sizes that the C compiler chose. The emitted functions are
kept as their lists of cases; `emittedField` and `emittedSeal` are what the
printed code does.
-/

namespace CtypesCbuf.Cbuf.Structs

open Ctypes (Exn ViewId)
open Ctypes.Mutable

/-- A type as `gen_c` writes it down: its tag and its printed name. -/
inductive Structured
  | struct (tag typedef : String)
  | union (utag typedef : String)
  deriving DecidableEq, Repr

abbrev FieldSpec := Structured × String

structure Specs where
  fields : List FieldSpec
  structures : List Structured
  deriving DecidableEq, Repr

/-- `string_of_typ` for the types of the functor: structures and unions that
are not sealed yet, and views of them. `formatTyp` gives the name that a view
prints, if it has one. -/
def stringOfTyp (σ : Store) (formatTyp : ViewId → Option String) : Typ → String
  | .view v ty =>
      match formatTyp v with
      | some name => name
      | none => stringOfTyp σ formatTyp ty
  | .struct i =>
      match σ.structs[i]? with
      | some ⟨"", _, _⟩ => "struct {  }"
      | some s => "struct " ++ s.tag
      | none => ""
  | .union i =>
      match σ.unions[i]? with
      | some ⟨"", _, _⟩ => "union {  }"
      | some u => "union " ++ u.utag
      | none => ""
  | _ => ""

/-- `field'` of `gen_c`. The field it returns is a dummy with offset -1. -/
def field' (σ : Store) (structname fname : String) : Typ → Specs → Except Exn Specs
  | .struct i, specs =>
      match σ.structs[i]? with
      | some s => .ok { specs with fields := (.struct s.tag structname, fname) :: specs.fields }
      | none => .error .matchFailure
  | .union i, specs =>
      match σ.unions[i]? with
      | some u => .ok { specs with fields := (.union u.utag structname, fname) :: specs.fields }
      | none => .error .matchFailure
  | .view _ ty, specs => field' σ structname fname ty specs
  | _, _ => .error (.unsupported "Adding a field to non-structured type")

/-- `seal'` of `gen_c`. -/
def seal' (σ : Store) (structname : String) : Typ → Specs → Except Exn Specs
  | .struct i, specs =>
      match σ.structs[i]? with
      | some s => .ok { specs with structures := .struct s.tag structname :: specs.structures }
      | none => .error .matchFailure
  | .union i, specs =>
      match σ.unions[i]? with
      | some u => .ok { specs with structures := .union u.utag structname :: specs.structures }
      | none => .error .matchFailure
  | .view _ ty, specs => seal' σ structname ty specs
  | _, _ => .error (.unsupported "Sealing a field to non-structured type")

/-- What the body of the functor declares of its types. -/
inductive Decl
  | field (t : Typ) (fname : String) (ftype : Typ)
  | sealTyp (t : Typ)
  deriving DecidableEq, Repr

def Decl.typ : Decl → Typ
  | .field t _ _ => t
  | .sealTyp t => t

/-- One declaration in the module that `gen_c` makes. -/
def Decl.record (σ : Store) (formatTyp : ViewId → Option String) (specs : Specs) :
    Decl → Except Exn Specs
  | .field t fname _ => field' σ (stringOfTyp σ formatTyp t) fname t specs
  | .sealTyp t => seal' σ (stringOfTyp σ formatTyp t) t specs

/-- The references of `gen_c` after the functor has been applied. -/
def genC (σ : Store) (formatTyp : ViewId → Option String) (decls : List Decl) :
    Except Exn Specs :=
  decls.foldlM (fun specs d => d.record σ formatTyp specs) ⟨[], []⟩

/-! ### The emitted code -/

/-- `Struct { tag = %S; _ }` or `Union { utag = %S; _ }`. -/
inductive TagPattern
  | struct (tag : String)
  | union (utag : String)
  deriving DecidableEq, Repr

/-- A case of the emitted `field`. The offset is that of `fname` in `typedef`. -/
structure FieldCase where
  tag : TagPattern
  fname : String
  typedef : String
  deriving DecidableEq, Repr

/-- A case of the emitted `seal`. Size and alignment are those of `typedef`. -/
structure SealCase where
  tag : TagPattern
  typedef : String
  deriving DecidableEq, Repr

def writeField (specs : List FieldSpec) : List FieldCase :=
  specs.map fun
    | (.struct tag typedef, fname) => ⟨.struct tag, fname, typedef⟩
    | (.union tag typedef, fname) => ⟨.union tag, fname, typedef⟩

def writeSeal (specs : List Structured) : List SealCase :=
  specs.map fun
    | .struct tag typedef => ⟨.struct tag, typedef⟩
    | .union tag typedef => ⟨.union tag, typedef⟩

/-- What the C program prints: `offsetof(t, f)`, `sizeof(t)` and, for the
alignment, `offsetof(struct { char c; t x; }, x)`. -/
structure CCompiler where
  offsetof : String → String → Nat
  sizeof : String → Nat
  alignmentof : String → Nat

def FieldCase.key (c : FieldCase) : TagPattern × String := (c.tag, c.fname)

open FirstMatch in
def emittedField (cc : CCompiler) (cases : List FieldCase) (fname : String) (ftype : Typ) :
    Typ → TypeM Field
  | .struct i => do
      let s ← getStruct i
      match select FieldCase.key cases (.struct s.tag, fname) with
      | some c => do
          let f : Field := ⟨ftype, cc.offsetof c.typedef c.fname, fname⟩
          putStruct i { s with fields := f :: s.fields }
          return f
      | none => throw (.failure ("Unexpected field " ++ fname))
  | .union i => do
      let u ← getUnion i
      match select FieldCase.key cases (.union u.utag, fname) with
      | some c => do
          let f : Field := ⟨ftype, cc.offsetof c.typedef c.fname, fname⟩
          putUnion i { u with ufields := f :: u.ufields }
          return f
      | none => throw (.failure ("Unexpected field " ++ fname))
  | .view _ ty => emittedField cc cases fname ftype ty
  | _ => throw (.failure ("Unexpected field " ++ fname))

open FirstMatch in
/-- The emitted `seal`. A case matches an incomplete type only. -/
def emittedSeal (cc : CCompiler) (cases : List SealCase) : Typ → TypeM Unit
  | .struct i => do
      let s ← getStruct i
      match s.spec with
      | .incomplete _ =>
          match select SealCase.tag cases (.struct s.tag) with
          | some c =>
              putStruct i
                { s with spec := .complete (cc.sizeof c.typedef) (cc.alignmentof c.typedef) }
          | none => throw (.unsupported "Sealing a non-structured type")
      | .complete _ _ => throw (.modifyingSealedType s.tag)
  | .union i => do
      let u ← getUnion i
      match u.uspec with
      | none =>
          match select SealCase.tag cases (.union u.utag) with
          | some c =>
              putUnion i
                { u with uspec := some ⟨cc.sizeof c.typedef, cc.alignmentof c.typedef⟩ }
          | none => throw (.unsupported "Sealing a non-structured type")
      | some _ => throw (.modifyingSealedType u.utag)
  | .view _ ty => emittedSeal cc cases ty
  | _ => throw (.unsupported "Sealing a non-structured type")

end CtypesCbuf.Cbuf.Structs
