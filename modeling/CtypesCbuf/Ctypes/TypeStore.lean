import Mathlib.Data.Int.Lemmas
import CtypesCbuf.Ctypes.StructsComputed
import CtypesCbuf.Lib.Alignment

/-!
Types with their mutable records, as `Ctypes_static` has them. A structure or
union type is the index of its record in the store, so a later `field` or
`seal` is seen by every type that mentions it. `field` and `sealTyp` are those
of `Ctypes_structs_computed`, in a monad that keeps an update when an exception
is raised after it. Sizes and offsets are the natural numbers that C has for
them; `Wrapping` has the integers that the code computes.
-/

namespace CtypesCbuf.Ctypes.Mutable

mutual
inductive Typ
  | void
  | primitive (p : Prim)
  | pointer (t : Typ)
  | funptr (fn : Fn)
  | struct (i : Nat)
  | union (i : Nat)
  | abstract (a : AbstractType)
  | view (v : ViewId) (ty : Typ)
  | array (t : Typ) (n : Nat)
  | bigarray (ba : Bigarray)
  | ocaml (ty : OcamlType)
  deriving DecidableEq, Repr
inductive Fn
  | returns (t : Typ)
  | function (f : Typ) (t : Fn)
  deriving DecidableEq, Repr
end

/-- `BoxedField { ftype; foffset; fname }`. -/
structure Field where
  ftype : Typ
  foffset : Nat
  fname : String
  deriving DecidableEq, Repr

/-- `'a structure_type`. The fields are in reverse order iff the type is
incomplete. -/
structure StructureType where
  tag : String
  spec : StructSpec
  fields : List Field
  deriving DecidableEq, Repr

/-- `'a union_type`. -/
structure UnionType where
  utag : String
  uspec : Option StructuredSpec
  ufields : List Field
  deriving DecidableEq, Repr

structure Store where
  structs : List StructureType
  unions : List UnionType
  deriving DecidableEq, Repr

namespace Store

def empty : Store := ⟨[], []⟩

def setStruct (σ : Store) (i : Nat) (s : StructureType) : Store :=
  { σ with structs := σ.structs.set i s }

def setUnion (σ : Store) (i : Nat) (u : UnionType) : Store :=
  { σ with unions := σ.unions.set i u }

@[simp] theorem setStruct_unions (σ : Store) (i : Nat) (s : StructureType) :
    (σ.setStruct i s).unions = σ.unions := rfl

@[simp] theorem setUnion_structs (σ : Store) (i : Nat) (u : UnionType) :
    (σ.setUnion i u).structs = σ.structs := rfl

end Store

/-- The spec of a structure; an index with no record stands for no type. -/
def Store.spec (σ : Store) (i : Nat) : StructSpec :=
  match σ.structs[i]? with
  | some s => s.spec
  | none => .incomplete 0

def Store.uspec (σ : Store) (i : Nat) : Option StructuredSpec :=
  match σ.unions[i]? with
  | some u => u.uspec
  | none => none

def sizeof (σ : Store) : Typ → Except Exn Nat
  | .void => .error .incompleteType
  | .primitive p => .ok p.size
  | .struct i =>
      match σ.spec i with
      | .incomplete _ => .error .incompleteType
      | .complete size _ => .ok size
  | .union i =>
      match σ.uspec i with
      | none => .error .incompleteType
      | some ⟨size, _⟩ => .ok size
  | .array t n => (sizeof σ t).map fun s => n * s
  | .bigarray ba => .ok (ba.dimensions.foldl (· * ·) 1 * ba.elementType.size)
  | .abstract a => .ok a.asize
  | .pointer _ => .ok pointerSize
  | .funptr _ => .ok pointerSize
  | .ocaml _ => .error .incompleteType
  | .view _ ty => sizeof σ ty

def alignment (σ : Store) : Typ → Except Exn Nat
  | .void => .error .incompleteType
  | .primitive p => .ok p.alignment
  | .struct i =>
      match σ.spec i with
      | .incomplete _ => .error .incompleteType
      | .complete _ align => .ok align
  | .union i =>
      match σ.uspec i with
      | none => .error .incompleteType
      | some ⟨_, align⟩ => .ok align
  | .array t _ => alignment σ t
  | .bigarray ba => .ok ba.elementType.alignment
  | .abstract a => .ok a.aalignment
  | .pointer _ => .ok pointerAlignment
  | .funptr _ => .ok pointerAlignment
  | .ocaml _ => .error .incompleteType
  | .view _ ty => alignment σ ty

/-- The fold of both functions below: the largest measure of the fields. -/
def maxOf (measure : Typ → Except Exn Nat) (m : Nat) (fields : List Field) :
    Except Exn Nat :=
  fields.foldlM (fun m f => do return max m (← measure f.ftype)) m

def maxFieldAlignment (σ : Store) (fields : List Field) : Except Exn Nat :=
  maxOf (alignment σ) 0 fields

def maxFieldSize (σ : Store) (fields : List Field) : Except Exn Nat :=
  maxOf (sizeof σ) 0 fields

abbrev TypeM := EStateM Exn Store

def query {α : Type} (f : Store → Except Exn α) : TypeM α := fun σ =>
  match f σ with
  | .ok a => .ok a σ
  | .error e => .error e σ

def newStructure (tag : String) : TypeM Typ := fun σ =>
  .ok (.struct σ.structs.length)
    { σ with structs := σ.structs ++ [⟨tag, .incomplete 0, []⟩] }

def newUnion (utag : String) : TypeM Typ := fun σ =>
  .ok (.union σ.unions.length) { σ with unions := σ.unions ++ [⟨utag, none, []⟩] }

def getStruct (i : Nat) : TypeM StructureType :=
  query fun σ => match σ.structs[i]? with
    | some s => .ok s
    | none => .error .matchFailure

def getUnion (i : Nat) : TypeM UnionType :=
  query fun σ => match σ.unions[i]? with
    | some u => .ok u
    | none => .error .matchFailure

def putStruct (i : Nat) (s : StructureType) : TypeM Unit := modify fun σ => σ.setStruct i s

def putUnion (i : Nat) (u : UnionType) : TypeM Unit := modify fun σ => σ.setUnion i u

def field (label : String) (ftype : Typ) : Typ → TypeM Field
  | .struct i => do
      let s ← getStruct i
      match s.spec with
      | .incomplete isize => do
          let align ← query fun σ => alignment σ ftype
          let foffset ← query fun _ => alignedOffset isize align
          let f : Field := ⟨ftype, foffset, label⟩
          let size ← query fun σ => sizeof σ ftype
          let s := { s with spec := .incomplete (foffset + size) }
          putStruct i s
          putStruct i { s with fields := f :: s.fields }
          return f
      | .complete _ _ => throw (.modifyingSealedType s.tag)
  | .union i => do
      let u ← getUnion i
      match u.uspec with
      | none => do
          let f : Field := ⟨ftype, 0, label⟩
          putUnion i { u with ufields := f :: u.ufields }
          return f
      | some _ => throw (.modifyingSealedType u.utag)
  | .view _ ty => field label ftype ty
  | _ => throw (.unsupported "Adding a field to non-structured type")

def sealTyp : Typ → TypeM Unit
  | .struct i => do
      let s ← getStruct i
      match s with
      | ⟨_, _, []⟩ => throw (.unsupported "struct with no fields")
      | ⟨tag, .complete _ _, _⟩ => throw (.modifyingSealedType tag)
      | ⟨_, .incomplete isize, fields⟩ => do
          let s := { s with fields := fields.reverse }
          putStruct i s
          let align ← query fun σ => maxFieldAlignment σ s.fields
          let size ← query fun _ => alignedOffset isize align
          putStruct i { s with spec := .complete size align }
  | .union i => do
      let u ← getUnion i
      match u with
      | ⟨utag, some _, _⟩ => throw (.modifyingSealedType utag)
      | ⟨_, none, []⟩ => throw (.unsupported "union with no fields")
      | ⟨_, none, ufields⟩ => do
          let u := { u with ufields := ufields.reverse }
          putUnion i u
          let size ← query fun σ => maxFieldSize σ u.ufields
          let align ← query fun σ => maxFieldAlignment σ u.ufields
          let size ← query fun _ => alignedOffset size align
          putUnion i { u with uspec := some ⟨size, align⟩ }
  | .view _ ty => sealTyp ty
  | _ => throw (.unsupported "Sealing a non-structured type")

/-! ### Views and measures -/

def Typ.core : Typ → Typ
  | .view _ ty => ty.core
  | t => t

theorem Typ.core_ne_view (t : Typ) (v : ViewId) (ty : Typ) : t.core ≠ .view v ty := by
  induction t using Typ.core.induct with
  | case1 w u ih => rwa [Typ.core]
  | case2 t h =>
      intro ht
      rw [Typ.core] at ht
      · exact h v ty ht
      · exact h

variable {σ σ' : Store} {t : Typ}

theorem field_core (label : String) (ftype t : Typ) :
    field label ftype t.core = field label ftype t := by
  induction t using Typ.core.induct with
  | case1 v ty ih => rw [Typ.core, field, ih]
  | case2 t h =>
      rw [Typ.core]
      exact h

theorem sealTyp_core (t : Typ) : sealTyp t.core = sealTyp t := by
  induction t using Typ.core.induct with
  | case1 v ty ih => rw [Typ.core, sealTyp, ih]
  | case2 t h =>
      rw [Typ.core]
      exact h

theorem alignedOffset_eq {n a : Nat} (ha : 0 < a) :
    alignedOffset n a = .ok (Alignment.roundUp n a) := by
  unfold alignedOffset Alignment.roundUp
  rw [if_neg (by omega)]
  split
  · rw [if_pos ‹_›]
  · rw [if_neg ‹_›]

@[simp] theorem alignedOffset_zero (n : Nat) : alignedOffset n 0 = .error .divisionByZero := rfl

/-- A type has both measures or neither. -/
theorem sizeof_alignment (σ : Store) : (t : Typ) →
    (sizeof σ t = .error .incompleteType ∧ alignment σ t = .error .incompleteType) ∨
      ∃ n a, sizeof σ t = .ok n ∧ alignment σ t = .ok a
  | .void => .inl ⟨rfl, rfl⟩
  | .primitive _ => .inr ⟨_, _, rfl, rfl⟩
  | .struct i => by
      simp only [sizeof, alignment]
      cases σ.spec i with
      | incomplete => exact .inl ⟨rfl, rfl⟩
      | complete size align => exact .inr ⟨size, align, rfl, rfl⟩
  | .union i => by
      simp only [sizeof, alignment]
      cases σ.uspec i with
      | none => exact .inl ⟨rfl, rfl⟩
      | some s => exact .inr ⟨s.size, s.align, rfl, rfl⟩
  | .array t n => by
      obtain ⟨h, h'⟩ | ⟨s, a, h, h'⟩ := sizeof_alignment σ t
      · exact .inl ⟨by rw [sizeof, h]; rfl, by rw [alignment, h']⟩
      · exact .inr ⟨n * s, a, by rw [sizeof, h]; rfl, by rw [alignment, h']⟩
  | .bigarray _ => .inr ⟨_, _, rfl, rfl⟩
  | .abstract _ => .inr ⟨_, _, rfl, rfl⟩
  | .pointer _ => .inr ⟨_, _, rfl, rfl⟩
  | .funptr _ => .inr ⟨_, _, rfl, rfl⟩
  | .ocaml _ => .inl ⟨rfl, rfl⟩
  | .view _ ty => sizeof_alignment σ ty

/-- What is complete in `σ` is complete in `σ'` with the same measures. -/
structure Store.Extends (σ σ' : Store) : Prop where
  spec : ∀ i size align, σ.spec i = .complete size align → σ'.spec i = .complete size align
  uspec : ∀ i s, σ.uspec i = some s → σ'.uspec i = some s

theorem Store.Extends.measures (h : σ.Extends σ') : (t : Typ) →
    (∀ n, sizeof σ t = .ok n → sizeof σ' t = .ok n) ∧
      ∀ a, alignment σ t = .ok a → alignment σ' t = .ok a
  | .void | .primitive _ | .pointer _ | .funptr _ | .abstract _ | .bigarray _ | .ocaml _ =>
      ⟨fun _ hn => hn, fun _ ha => ha⟩
  | .struct i => by
      simp only [sizeof, alignment]
      cases hs : σ.spec i with
      | incomplete => exact ⟨fun _ hn => (nomatch hn), fun _ ha => (nomatch ha)⟩
      | complete size align =>
          rw [h.spec i size align hs]
          exact ⟨fun _ hn => hn, fun _ ha => ha⟩
  | .union i => by
      simp only [sizeof, alignment]
      cases hs : σ.uspec i with
      | none => exact ⟨fun _ hn => (nomatch hn), fun _ ha => (nomatch ha)⟩
      | some s =>
          rw [h.uspec i s hs]
          exact ⟨fun _ hn => hn, fun _ ha => ha⟩
  | .array t n => by
      refine ⟨fun m hm => ?_, (h.measures t).2⟩
      obtain ⟨ht, -⟩ | ⟨s, -, ht, -⟩ := sizeof_alignment σ t
      · rw [sizeof, ht] at hm
        cases hm
      · rw [sizeof, (h.measures t).1 s ht, ← ht, ← sizeof, hm]
  | .view _ ty => h.measures ty

/-! ### Storing a record -/

theorem spec_of_struct {i : Nat} {s : StructureType} (h : σ.structs[i]? = some s) :
    σ.spec i = s.spec := by
  rw [Store.spec, h]

theorem uspec_of_union {i : Nat} {u : UnionType} (h : σ.unions[i]? = some u) :
    σ.uspec i = u.uspec := by
  rw [Store.uspec, h]

theorem spec_setStruct {s : StructureType} {i : Nat} (h : σ.structs[i]? = some s)
    (s' : StructureType) : (σ.setStruct i s').spec i = s'.spec := by
  have hi := (List.getElem?_eq_some_iff.mp h).1
  simp [Store.spec, Store.setStruct, List.getElem?_set_self hi]

theorem spec_setStruct_ne {s' : StructureType} {i j : Nat} (h : i ≠ j) :
    (σ.setStruct i s').spec j = σ.spec j := by
  simp [Store.spec, Store.setStruct, List.getElem?_set_ne h]

theorem uspec_setUnion {u : UnionType} {i : Nat} (h : σ.unions[i]? = some u)
    (u' : UnionType) : (σ.setUnion i u').uspec i = u'.uspec := by
  have hi := (List.getElem?_eq_some_iff.mp h).1
  simp [Store.uspec, Store.setUnion, List.getElem?_set_self hi]

theorem uspec_setUnion_ne {u' : UnionType} {i j : Nat} (h : i ≠ j) :
    (σ.setUnion i u').uspec j = σ.uspec j := by
  simp [Store.uspec, Store.setUnion, List.getElem?_set_ne h]

section MaxOf

variable {measure : Typ → Except Exn Nat} {fields : List Field} {k m : Nat}

@[simp] theorem maxOf_nil : maxOf measure k [] = .ok k := rfl

theorem maxOf_cons (f : Field) :
    maxOf measure k (f :: fields) =
      (do let n ← measure f.ftype; maxOf measure (max k n) fields) := by
  rw [maxOf, List.foldlM_cons]
  cases measure f.ftype <;> rfl

theorem maxOf_error {e : Exn} (h : maxOf measure k fields = .error e) :
    ∃ f ∈ fields, measure f.ftype = .error e := by
  induction fields generalizing k with
  | nil => cases h
  | cons f fields ih =>
      rw [maxOf_cons] at h
      cases hf : measure f.ftype with
      | error e' =>
          rw [hf] at h
          cases h
          exact ⟨f, by simp, hf⟩
      | ok n =>
          rw [hf] at h
          obtain ⟨g, hg, hge⟩ := ih h
          exact ⟨g, by simp [hg], hge⟩

/-- Where the fold succeeds every field has its measure, and the result is
the largest of them and of the start value. -/
theorem maxOf_ok (h : maxOf measure k fields = .ok m) :
    (∀ f ∈ fields, ∃ n ≤ m, measure f.ftype = .ok n) ∧ k ≤ m ∧
      (m = k ∨ ∃ f ∈ fields, measure f.ftype = .ok m) := by
  induction fields generalizing k with
  | nil =>
      cases h
      exact ⟨by simp, le_refl _, .inl rfl⟩
  | cons f fields ih =>
      rw [maxOf_cons] at h
      cases hf : measure f.ftype with
      | error e =>
          rw [hf] at h
          cases h
      | ok n =>
          rw [hf] at h
          obtain ⟨hall, hle, hm⟩ := ih h
          have hn : n ≤ m := le_trans (le_max_right k n) hle
          refine ⟨?_, le_trans (le_max_left k n) hle, ?_⟩
          · intro g hg
            obtain rfl | hg := List.mem_cons.mp hg
            · exact ⟨n, hn, hf⟩
            · exact hall g hg
          · obtain hm | ⟨g, hg, hgm⟩ := hm
            · rcases le_total k n with hkn | hkn
              · rw [max_eq_right hkn] at hm
                exact .inr ⟨f, by simp, by rw [hf, hm]⟩
              · rw [max_eq_left hkn] at hm
                exact .inl hm
            · exact .inr ⟨g, by simp [hg], hgm⟩

theorem maxOf_of_measured (h : ∀ f ∈ fields, ∃ n, measure f.ftype = .ok n) :
    ∃ m, maxOf measure k fields = .ok m := by
  cases hm : maxOf measure k fields with
  | ok m => exact ⟨m, rfl⟩
  | error e =>
      obtain ⟨f, hf, hfe⟩ := maxOf_error hm
      obtain ⟨n, hn⟩ := h f hf
      rw [hn] at hfe
      cases hfe

end MaxOf

/-- The measures read the specs only. -/
theorem measures_congr (hs : σ'.spec = σ.spec) (hu : σ'.uspec = σ.uspec) : (t : Typ) →
    sizeof σ' t = sizeof σ t ∧ alignment σ' t = alignment σ t
  | .void | .primitive _ | .pointer _ | .funptr _ | .abstract _ | .bigarray _ | .ocaml _ =>
      ⟨rfl, rfl⟩
  | .struct i => by simp only [sizeof, alignment, hs, and_self]
  | .union i => by simp only [sizeof, alignment, hu, and_self]
  | .array t n => by
      obtain ⟨h, h'⟩ := measures_congr hs hu t
      simp only [sizeof, alignment, h, h', and_self]
  | .view _ ty => measures_congr hs hu ty

/-- Storing a structure under the spec it has changes no measure. -/
theorem measures_setStruct {i : Nat} {s : StructureType} (h : σ.structs[i]? = some s)
    (s' : StructureType) (hs : s'.spec = s.spec) :
    sizeof (σ.setStruct i s') = sizeof σ ∧ alignment (σ.setStruct i s') = alignment σ := by
  have hspec : (σ.setStruct i s').spec = σ.spec := by
    funext j
    by_cases hj : j = i
    · subst hj
      rw [spec_setStruct h, spec_of_struct h, hs]
    · rw [spec_setStruct_ne (Ne.symm hj)]
  exact ⟨funext fun t => (measures_congr hspec rfl t).1,
    funext fun t => (measures_congr hspec rfl t).2⟩

theorem measures_setUnion {i : Nat} {u : UnionType} (h : σ.unions[i]? = some u)
    (u' : UnionType) (hu : u'.uspec = u.uspec) :
    sizeof (σ.setUnion i u') = sizeof σ ∧ alignment (σ.setUnion i u') = alignment σ := by
  have huspec : (σ.setUnion i u').uspec = σ.uspec := by
    funext j
    by_cases hj : j = i
    · subst hj
      rw [uspec_setUnion h, uspec_of_union h, hu]
    · rw [uspec_setUnion_ne (Ne.symm hj)]
  have hspec : (σ.setUnion i u').spec = σ.spec := rfl
  exact ⟨funext fun t => (measures_congr hspec huspec t).1,
    funext fun t => (measures_congr hspec huspec t).2⟩

end CtypesCbuf.Ctypes.Mutable
