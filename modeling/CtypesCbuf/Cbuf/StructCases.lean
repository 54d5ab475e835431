import CtypesCbuf.Cbuf.Structs

/-!
Which case of the emitted `field` and `seal` serves which declaration. The
cases are told apart by tag and field name alone, while the data in them was
measured for the printed name of the type.
-/

namespace CtypesCbuf.Cbuf.Structs

open Ctypes (Exn ViewId)
open Ctypes.Mutable FirstMatch

variable {σ τ : Store} {formatTyp : ViewId → Option String} {t : Typ} {fname : String}
  {decls : List Decl} {specs specs' : Specs}

/-- The pattern that the emitted code has for a type. -/
def tagPattern (σ : Store) (t : Typ) : Option TagPattern :=
  match t.core with
  | .struct i => σ.structs[i]?.map fun s => .struct s.tag
  | .union i => σ.unions[i]?.map fun u => .union u.utag
  | _ => none

def Decl.fieldCase (σ : Store) (formatTyp : ViewId → Option String) : Decl → Option FieldCase
  | .field t fname _ =>
      (tagPattern σ t).map fun p => ⟨p, fname, stringOfTyp σ formatTyp t⟩
  | .sealTyp _ => none

def Decl.sealCase (σ : Store) (formatTyp : ViewId → Option String) : Decl → Option SealCase
  | .field _ _ _ => none
  | .sealTyp t => (tagPattern σ t).map fun p => ⟨p, stringOfTyp σ formatTyp t⟩

-- Derive the equations of these once, before the proofs that use them.
section
attribute [local simp] field' seal' emittedField emittedSeal
end

theorem field'_core (σ : Store) (structname fname : String) (t : Typ) (specs : Specs) :
    field' σ structname fname t.core specs = field' σ structname fname t specs := by
  induction t using Typ.core.induct with
  | case1 v ty ih => rw [Typ.core, field', ih]
  | case2 t h =>
      rw [Typ.core]
      exact h

theorem seal'_core (σ : Store) (structname : String) (t : Typ) (specs : Specs) :
    seal' σ structname t.core specs = seal' σ structname t specs := by
  induction t using Typ.core.induct with
  | case1 v ty ih => rw [Typ.core, seal', ih]
  | case2 t h =>
      rw [Typ.core]
      exact h

theorem tagPattern_struct {i : Nat} {s : StructureType} (ht : t.core = .struct i)
    (hs : σ.structs[i]? = some s) : tagPattern σ t = some (.struct s.tag) := by
  simp only [tagPattern, ht, hs, Option.map_some]

theorem tagPattern_union {i : Nat} {u : UnionType} (ht : t.core = .union i)
    (hu : σ.unions[i]? = some u) : tagPattern σ t = some (.union u.utag) := by
  simp only [tagPattern, ht, hu, Option.map_some]

/-- A type with the given pattern and printed name, as `gen_c` writes it down. -/
def TagPattern.named (p : TagPattern) (typedef : String) : Structured :=
  match p with
  | .struct tag => .struct tag typedef
  | .union utag => .union utag typedef

theorem field'_ok {structname : String}
    (h : field' σ structname fname t specs = .ok specs') :
    ∃ p, tagPattern σ t = some p ∧
      specs' = { specs with fields := (p.named structname, fname) :: specs.fields } := by
  rw [← field'_core] at h
  cases ht : t.core with
  | struct i =>
      rw [ht, field'] at h
      cases hs : σ.structs[i]? with
      | none => simp [hs] at h
      | some s =>
          rw [hs] at h
          exact ⟨_, tagPattern_struct ht hs, (Except.ok.inj h).symm⟩
  | union i =>
      rw [ht, field'] at h
      cases hu : σ.unions[i]? with
      | none => simp [hu] at h
      | some u =>
          rw [hu] at h
          exact ⟨_, tagPattern_union ht hu, (Except.ok.inj h).symm⟩
  | view v ty => exact absurd ht (Typ.core_ne_view t v ty)
  | _ =>
      rw [ht] at h
      cases h

theorem seal'_ok {structname : String} (h : seal' σ structname t specs = .ok specs') :
    ∃ p, tagPattern σ t = some p ∧
      specs' = { specs with structures := p.named structname :: specs.structures } := by
  rw [← seal'_core] at h
  cases ht : t.core with
  | struct i =>
      rw [ht, seal'] at h
      cases hs : σ.structs[i]? with
      | none => simp [hs] at h
      | some s =>
          rw [hs] at h
          exact ⟨_, tagPattern_struct ht hs, (Except.ok.inj h).symm⟩
  | union i =>
      rw [ht, seal'] at h
      cases hu : σ.unions[i]? with
      | none => simp [hu] at h
      | some u =>
          rw [hu] at h
          exact ⟨_, tagPattern_union ht hu, (Except.ok.inj h).symm⟩
  | view v ty => exact absurd ht (Typ.core_ne_view t v ty)
  | _ =>
      rw [ht] at h
      cases h

theorem writeField_cons (p : TagPattern) (typedef fname : String) (fs : List FieldSpec) :
    writeField ((p.named typedef, fname) :: fs) = ⟨p, fname, typedef⟩ :: writeField fs := by
  cases p <;> rfl

theorem writeSeal_cons (p : TagPattern) (typedef : String) (ss : List Structured) :
    writeSeal (p.named typedef :: ss) = ⟨p, typedef⟩ :: writeSeal ss := by
  cases p <;> rfl

/-- A declaration that is written down adds one case in front. -/
theorem Decl.record_cases {d : Decl} (h : d.record σ formatTyp specs = .ok specs') :
    (tagPattern σ d.typ).isSome ∧
      writeField specs'.fields =
        (d.fieldCase σ formatTyp).toList ++ writeField specs.fields ∧
      writeSeal specs'.structures =
        (d.sealCase σ formatTyp).toList ++ writeSeal specs.structures := by
  cases d with
  | field t fname ftype =>
      obtain ⟨p, hp, rfl⟩ := field'_ok h
      simp only [Decl.typ, Decl.fieldCase, Decl.sealCase, hp, writeField_cons]
      exact ⟨rfl, rfl, rfl⟩
  | sealTyp t =>
      obtain ⟨p, hp, rfl⟩ := seal'_ok h
      simp only [Decl.typ, Decl.fieldCase, Decl.sealCase, hp, writeSeal_cons]
      exact ⟨rfl, rfl, rfl⟩

/-- The emitted cases are those of the declarations, the last one first. -/
theorem genC_cases (h : genC σ formatTyp decls = .ok specs) :
    (∀ d ∈ decls, (tagPattern σ d.typ).isSome) ∧
      writeField specs.fields = (decls.filterMap (Decl.fieldCase σ formatTyp)).reverse ∧
      writeSeal specs.structures = (decls.filterMap (Decl.sealCase σ formatTyp)).reverse := by
  have key : ∀ {specs₀ : Specs},
      decls.foldlM (fun specs d => d.record σ formatTyp specs) specs₀ = .ok specs →
      (∀ d ∈ decls, (tagPattern σ d.typ).isSome) ∧
        writeField specs.fields =
          (decls.filterMap (Decl.fieldCase σ formatTyp)).reverse ++ writeField specs₀.fields ∧
        writeSeal specs.structures =
          (decls.filterMap (Decl.sealCase σ formatTyp)).reverse ++
            writeSeal specs₀.structures := by
    clear h
    induction decls with
    | nil =>
        intro specs₀ h
        cases h
        exact ⟨by simp, rfl, rfl⟩
    | cons d ds ih =>
        intro specs₀ h
        rw [List.foldlM_cons] at h
        cases hd : d.record σ formatTyp specs₀ with
        | error e =>
            rw [hd] at h
            cases h
        | ok specs₁ =>
            rw [hd] at h
            obtain ⟨hsome, hf, hs⟩ := Decl.record_cases hd
            obtain ⟨hall, ihf, ihs⟩ := ih h
            refine ⟨?_, ?_, ?_⟩
            · intro e he
              obtain rfl | he := List.mem_cons.mp he
              · exact hsome
              · exact hall e he
            · rw [ihf, hf, List.filterMap_cons]
              cases d.fieldCase σ formatTyp <;> simp
            · rw [ihs, hs, List.filterMap_cons]
              cases d.sealCase σ formatTyp <;> simp
  simpa [writeField, writeSeal] using key h

/-! ### What a case does -/

section Run

variable {cc : CCompiler} {cases : List FieldCase} {c : FieldCase} {ftype : Typ} {i : Nat}

theorem emittedField_core (cc : CCompiler) (cases : List FieldCase) (fname : String)
    (ftype t : Typ) :
    emittedField cc cases fname ftype t.core = emittedField cc cases fname ftype t := by
  induction t using Typ.core.induct with
  | case1 v ty ih => rw [Typ.core, emittedField, ih]
  | case2 t h =>
      rw [Typ.core]
      exact h

theorem emittedSeal_core (cc : CCompiler) (cases : List SealCase) (t : Typ) :
    emittedSeal cc cases t.core = emittedSeal cc cases t := by
  induction t using Typ.core.induct with
  | case1 v ty ih => rw [Typ.core, emittedSeal, ih]
  | case2 t h =>
      rw [Typ.core]
      exact h

def FieldCase.made (c : FieldCase) (cc : CCompiler) (ftype : Typ) : Field :=
  ⟨ftype, cc.offsetof c.typedef c.fname, c.fname⟩

theorem emittedField_struct {s : StructureType} (hs : τ.structs[i]? = some s)
    (hc : select FieldCase.key cases (.struct s.tag, fname) = some c) :
    emittedField cc cases fname ftype (.struct i) τ =
      .ok (c.made cc ftype)
        (τ.setStruct i { s with fields := c.made cc ftype :: s.fields }) := by
  have hname : c.fname = fname := congrArg Prod.snd (select_some hc).2
  rw [emittedField, bind_getStruct hs, hc, ← hname]
  rfl

theorem emittedField_union {u : UnionType} (hu : τ.unions[i]? = some u)
    (hc : select FieldCase.key cases (.union u.utag, fname) = some c) :
    emittedField cc cases fname ftype (.union i) τ =
      .ok (c.made cc ftype)
        (τ.setUnion i { u with ufields := c.made cc ftype :: u.ufields }) := by
  have hname : c.fname = fname := congrArg Prod.snd (select_some hc).2
  rw [emittedField, bind_getUnion hu, hc, ← hname]
  rfl

theorem emittedSeal_struct {seals : List SealCase} {c : SealCase} {tag : String}
    {isize : Nat} {fields : List Field}
    (hs : τ.structs[i]? = some ⟨tag, .incomplete isize, fields⟩)
    (hc : select SealCase.tag seals (.struct tag) = some c) :
    emittedSeal cc seals (.struct i) τ =
      .ok () (τ.setStruct i
        ⟨tag, .complete (cc.sizeof c.typedef) (cc.alignmentof c.typedef), fields⟩) := by
  rw [emittedSeal, bind_getStruct hs]
  simp only [hc]
  rfl

theorem emittedSeal_union {seals : List SealCase} {c : SealCase} {utag : String}
    {ufields : List Field} (hu : τ.unions[i]? = some ⟨utag, none, ufields⟩)
    (hc : select SealCase.tag seals (.union utag) = some c) :
    emittedSeal cc seals (.union i) τ =
      .ok () (τ.setUnion i
        ⟨utag, some ⟨cc.sizeof c.typedef, cc.alignmentof c.typedef⟩, ufields⟩) := by
  rw [emittedSeal, bind_getUnion hu]
  simp only [hc]
  rfl

end Run

/-! ### Data of the right type -/

/-- What a C compiler measures of the C types in `γ`. -/
structure Measures (γ : Type) where
  offset : γ → String → Nat
  size : γ → Nat
  align : γ → Nat

section Served

variable {γ : Type}

/-- The compiler with these measures; a printed name denotes a C type. -/
def Measures.compiler (M : Measures γ) (denotes : String → γ) : CCompiler where
  offsetof name := M.offset (denotes name)
  sizeof name := M.size (denotes name)
  alignmentof name := M.align (denotes name)

/-- The stores in which the emitted code runs: with the tags that `gen_c` saw. -/
def SameTags (σ τ : Store) : Prop := ∀ t, tagPattern τ t = tagPattern σ t

/-- The emitted code gives a declaration the data that was measured for the C
type with its printed name. -/
def Decl.Served (σ : Store) (formatTyp : ViewId → Option String) (denotes : String → γ)
    (M : Measures γ) (specs : Specs) : Decl → Prop
  | .field t fname ftype => ∀ τ, SameTags σ τ → ∃ f τ',
      emittedField (M.compiler denotes) (writeField specs.fields) fname ftype t τ = .ok f τ' ∧
        f.foffset = M.offset (denotes (stringOfTyp σ formatTyp t)) fname
  | .sealTyp t => ∀ τ, SameTags σ τ → sizeof τ t = .error .incompleteType → ∃ τ',
      emittedSeal (M.compiler denotes) (writeSeal specs.structures) t τ = .ok () τ' ∧
        sizeof τ' t = .ok (M.size (denotes (stringOfTyp σ formatTyp t))) ∧
        alignment τ' t = .ok (M.align (denotes (stringOfTyp σ formatTyp t)))

/-- Declarations that the emitted code cannot tell apart are about one C type. -/
structure Separated (σ : Store) (formatTyp : ViewId → Option String) (denotes : String → γ)
    (decls : List Decl) : Prop where
  field : ∀ t t' fname ftype ftype', .field t fname ftype ∈ decls →
    .field t' fname ftype' ∈ decls → tagPattern σ t = tagPattern σ t' →
    denotes (stringOfTyp σ formatTyp t) = denotes (stringOfTyp σ formatTyp t')
  sealTyp : ∀ t t', .sealTyp t ∈ decls → .sealTyp t' ∈ decls →
    tagPattern σ t = tagPattern σ t' →
    denotes (stringOfTyp σ formatTyp t) = denotes (stringOfTyp σ formatTyp t')

theorem sizeof_core (σ : Store) (t : Typ) :
    sizeof σ t.core = sizeof σ t ∧ alignment σ t.core = alignment σ t := by
  induction t using Typ.core.induct with
  | case1 v ty ih =>
      rw [Typ.core, sizeof, alignment]
      exact ih
  | case2 t h =>
      rw [Typ.core]
      · exact ⟨rfl, rfl⟩
      · exact h

/-- The emitted `field` takes the offset from the case it selects. -/
theorem emittedField_run (cc : CCompiler) {cases : List FieldCase} {c : FieldCase}
    {p : TagPattern} (ftype : Typ) (ht : tagPattern τ t = some p)
    (hc : select FieldCase.key cases (p, fname) = some c) :
    ∃ τ', emittedField cc cases fname ftype t τ = .ok (c.made cc ftype) τ' := by
  rw [← emittedField_core]
  cases hcore : t.core with
  | struct i =>
      cases hs : τ.structs[i]? with
      | none => simp [tagPattern, hcore, hs] at ht
      | some s =>
          rw [tagPattern_struct hcore hs] at ht
          cases ht
          exact ⟨_, emittedField_struct hs hc⟩
  | union i =>
      cases hu : τ.unions[i]? with
      | none => simp [tagPattern, hcore, hu] at ht
      | some u =>
          rw [tagPattern_union hcore hu] at ht
          cases ht
          exact ⟨_, emittedField_union hu hc⟩
  | _ => simp [tagPattern, hcore] at ht

/-- The emitted `seal` takes size and alignment from the case it selects. -/
theorem emittedSeal_run {cc : CCompiler} {seals : List SealCase} {c : SealCase}
    {p : TagPattern} (ht : tagPattern τ t = some p)
    (hinc : sizeof τ t = .error .incompleteType)
    (hc : select SealCase.tag seals p = some c) :
    ∃ τ', emittedSeal cc seals t τ = .ok () τ' ∧ sizeof τ' t = .ok (cc.sizeof c.typedef) ∧
      alignment τ' t = .ok (cc.alignmentof c.typedef) := by
  rw [← emittedSeal_core]
  rw [← (sizeof_core τ t).1] at hinc
  cases hcore : t.core with
  | struct i =>
      cases hs : τ.structs[i]? with
      | none => simp [tagPattern, hcore, hs] at ht
      | some s =>
          rw [tagPattern_struct hcore hs] at ht
          cases ht
          obtain ⟨tag, spec, fields⟩ := s
          cases spec with
          | complete size align =>
              rw [hcore, sizeof, spec_of_struct hs] at hinc
              cases hinc
          | incomplete isize =>
              refine ⟨_, emittedSeal_struct hs hc, ?_, ?_⟩
              · rw [← (sizeof_core _ t).1, hcore, sizeof, spec_setStruct hs]
              · rw [← (sizeof_core _ t).2, hcore, alignment, spec_setStruct hs]
  | union i =>
      cases hu : τ.unions[i]? with
      | none => simp [tagPattern, hcore, hu] at ht
      | some u =>
          rw [tagPattern_union hcore hu] at ht
          cases ht
          obtain ⟨utag, uspec, ufields⟩ := u
          cases uspec with
          | some s =>
              rw [hcore, sizeof, uspec_of_union hu] at hinc
              cases hinc
          | none =>
              refine ⟨_, emittedSeal_union hu hc, ?_, ?_⟩
              · rw [← (sizeof_core _ t).1, hcore, sizeof, uspec_setUnion hu]
              · rw [← (sizeof_core _ t).2, hcore, alignment, uspec_setUnion hu]
  | _ => simp [tagPattern, hcore] at ht

/-- A measure that tells two C types apart. -/
theorem eq_of_measures {a b : γ} (h : ∀ f : γ → Nat, f a = f b) : a = b := by
  classical
  have hab := h fun c => if c = a then 0 else 1
  by_contra hne
  simp [Ne.symm hne] at hab

theorem mem_writeField (h : genC σ formatTyp decls = .ok specs) {c : FieldCase} :
    c ∈ writeField specs.fields ↔ ∃ t fname ftype p, .field t fname ftype ∈ decls ∧
      tagPattern σ t = some p ∧ c = ⟨p, fname, stringOfTyp σ formatTyp t⟩ := by
  rw [(genC_cases h).2.1, List.mem_reverse, List.mem_filterMap]
  constructor
  · rintro ⟨d, hd, hc⟩
    cases d with
    | sealTyp t => cases hc
    | field t fname ftype =>
        obtain ⟨p, hp, rfl⟩ := Option.map_eq_some_iff.mp hc
        exact ⟨t, fname, ftype, p, hd, hp, rfl⟩
  · rintro ⟨t, fname, ftype, p, hd, hp, rfl⟩
    exact ⟨_, hd, by rw [Decl.fieldCase, hp, Option.map_some]⟩

theorem mem_writeSeal (h : genC σ formatTyp decls = .ok specs) {c : SealCase} :
    c ∈ writeSeal specs.structures ↔ ∃ t p, .sealTyp t ∈ decls ∧
      tagPattern σ t = some p ∧ c = ⟨p, stringOfTyp σ formatTyp t⟩ := by
  rw [(genC_cases h).2.2, List.mem_reverse, List.mem_filterMap]
  constructor
  · rintro ⟨d, hd, hc⟩
    cases d with
    | field t fname ftype => cases hc
    | sealTyp t =>
        obtain ⟨p, hp, rfl⟩ := Option.map_eq_some_iff.mp hc
        exact ⟨t, p, hd, hp, rfl⟩
  · rintro ⟨t, p, hd, hp, rfl⟩
    exact ⟨_, hd, by rw [Decl.sealCase, hp, Option.map_some]⟩

/-- A field declaration is served by the case that is selected for it. -/
theorem served_field_iff (denotes : String → γ) {ftype : Typ} {p : TagPattern} {c : FieldCase}
    (hp : tagPattern σ t = some p)
    (hc : select FieldCase.key (writeField specs.fields) (p, fname) = some c) :
    (∀ M, Decl.Served σ formatTyp denotes M specs (.field t fname ftype)) ↔
      denotes c.typedef = denotes (stringOfTyp σ formatTyp t) := by
  have hname : c.fname = fname := congrArg Prod.snd (select_some hc).2
  constructor
  · intro h
    apply eq_of_measures
    intro m
    obtain ⟨f, τ', hrun, hoffset⟩ := h ⟨fun a _ => m a, m, m⟩ σ fun _ => rfl
    obtain ⟨τ'', hrun'⟩ := emittedField_run _ ftype hp hc
    rw [hrun'] at hrun
    cases hrun
    exact hoffset
  · intro h M τ hτ
    have hp' : tagPattern τ t = some p := by rw [hτ, hp]
    obtain ⟨τ', hrun⟩ := emittedField_run _ ftype hp' hc
    refine ⟨_, τ', hrun, ?_⟩
    show M.offset (denotes c.typedef) c.fname = _
    rw [h, hname]

def unsealed (σ : Store) : Store where
  structs := σ.structs.map fun s => { s with spec := .incomplete 0 }
  unions := σ.unions.map fun u => { u with uspec := none }

theorem sameTags_unsealed (σ : Store) : SameTags σ (unsealed σ) := by
  intro t
  simp only [tagPattern, unsealed, List.getElem?_map, Option.map_map]
  rfl

theorem sizeof_unsealed {p : TagPattern} (hp : tagPattern σ t = some p) :
    sizeof (unsealed σ) t = .error .incompleteType := by
  rw [← (sizeof_core (unsealed σ) t).1]
  cases hcore : t.core with
  | struct i =>
      rw [sizeof, Store.spec, unsealed]
      cases hs : σ.structs[i]? <;> simp [hs]
  | union i =>
      rw [sizeof, Store.uspec, unsealed]
      cases hu : σ.unions[i]? <;> simp [hu]
  | _ => simp [tagPattern, hcore] at hp

theorem served_sealTyp_iff (denotes : String → γ) {p : TagPattern} {c : SealCase}
    (hp : tagPattern σ t = some p)
    (hc : select SealCase.tag (writeSeal specs.structures) p = some c) :
    (∀ M, Decl.Served σ formatTyp denotes M specs (.sealTyp t)) ↔
      denotes c.typedef = denotes (stringOfTyp σ formatTyp t) := by
  constructor
  · intro h
    apply eq_of_measures
    intro m
    have hsame := sameTags_unsealed σ
    obtain ⟨τ', hrun, hsize, -⟩ := h ⟨fun a _ => m a, m, m⟩ _ hsame (sizeof_unsealed hp)
    obtain ⟨τ'', hrun', hsize', -⟩ := emittedSeal_run (by rw [hsame, hp]) (sizeof_unsealed hp) hc
    rw [hrun'] at hrun
    cases hrun
    rw [hsize'] at hsize
    exact Except.ok.inj hsize
  · intro h M τ hτ hinc
    obtain ⟨τ', hrun, hsize, halign⟩ := emittedSeal_run (by rw [hτ, hp]) hinc hc
    refine ⟨τ', hrun, ?_, ?_⟩
    · rw [hsize, ← h]
      rfl
    · rw [halign, ← h]
      rfl

/-- Every declaration gets the data measured for its own C type, whatever the
compiler measures, iff the tags and field names separate the C types. -/
theorem served_iff_separated (denotes : String → γ) (h : genC σ formatTyp decls = .ok specs) :
    (∀ M, ∀ d ∈ decls, d.Served σ formatTyp denotes M specs) ↔
      Separated σ formatTyp denotes decls := by
  have hfield := agree_iff FieldCase.key (writeField specs.fields)
    fun c => denotes c.typedef
  have hseal := agree_iff SealCase.tag (writeSeal specs.structures)
    fun c => denotes c.typedef
  constructor
  · intro hall
    constructor
    · intro t t' fname ftype ftype' hd hd' htag
      obtain ⟨p, hp⟩ := Option.isSome_iff_exists.mp ((genC_cases h).1 _ hd)
      have hc := (mem_writeField h).mpr ⟨t, fname, ftype, p, hd, hp, rfl⟩
      have hc' := (mem_writeField h).mpr ⟨t', fname, ftype', p, hd', htag ▸ hp, rfl⟩
      refine hfield.mp ?_ _ hc _ hc' rfl
      intro c hc c' hsel
      obtain ⟨u, fname, ftype, q, hu, hq, rfl⟩ := (mem_writeField h).mp hc
      exact (served_field_iff denotes hq hsel).mp fun M => hall M _ hu
    · intro t t' hd hd' htag
      obtain ⟨p, hp⟩ := Option.isSome_iff_exists.mp ((genC_cases h).1 _ hd)
      have hc := (mem_writeSeal h).mpr ⟨t, p, hd, hp, rfl⟩
      have hc' := (mem_writeSeal h).mpr ⟨t', p, hd', htag ▸ hp, rfl⟩
      refine hseal.mp ?_ _ hc _ hc' rfl
      intro c hc c' hsel
      obtain ⟨u, q, hu, hq, rfl⟩ := (mem_writeSeal h).mp hc
      exact (served_sealTyp_iff denotes hq hsel).mp fun M => hall M _ hu
  · intro hsep M d hd
    obtain ⟨p, hp⟩ := Option.isSome_iff_exists.mp ((genC_cases h).1 _ hd)
    cases d with
    | field t fname ftype =>
        have hc := (mem_writeField h).mpr ⟨t, fname, ftype, p, hd, hp, rfl⟩
        obtain ⟨c, hmem, -, hsel⟩ := select_of_mem FieldCase.key hc
        refine (served_field_iff denotes hp hsel).mpr ?_ M
        refine hfield.mpr ?_ _ hc c hsel
        intro c hc c' hc' hkey
        obtain ⟨t, fname, ftype, q, hu, hq, rfl⟩ := (mem_writeField h).mp hc
        obtain ⟨t', fname', ftype', q', hu', hq', rfl⟩ := (mem_writeField h).mp hc'
        cases hkey
        exact hsep.field t t' fname ftype ftype' hu hu' (hq.trans hq'.symm)
    | sealTyp t =>
        have hc := (mem_writeSeal h).mpr ⟨t, p, hd, hp, rfl⟩
        obtain ⟨c, hmem, -, hsel⟩ := select_of_mem SealCase.tag hc
        refine (served_sealTyp_iff denotes hp hsel).mpr ?_ M
        refine hseal.mpr ?_ _ hc c hsel
        intro c hc c' hc' hkey
        obtain ⟨t, q, hu, hq, rfl⟩ := (mem_writeSeal h).mp hc
        obtain ⟨t', q', hu', hq', rfl⟩ := (mem_writeSeal h).mp hc'
        cases hkey
        exact hsep.sealTyp t t' hu hu' (hq.trans hq'.symm)

/-- A structure with a tag and a tagless one behind a typedef. -/
theorem served_iff_separated_typedef :
    let σ := StraightLine.run Call.run [.newStructure "s1", .newStructure ""] Store.empty
    let names : ViewId → Option String := fun _ => some "s6"
    let decls := [Decl.field (.struct 0) "x" (.primitive .int), .sealTyp (.struct 0),
      .field (.view 0 (.struct 1)) "x" (.primitive .int), .sealTyp (.view 0 (.struct 1))]
    ∃ specs, genC σ names decls = .ok specs ∧
      ((∀ M : Measures String, ∀ d ∈ decls, d.Served σ names id M specs) ↔
        Separated σ names id decls) :=
  ⟨_, rfl, served_iff_separated id rfl⟩

def taglessStore : Store :=
  StraightLine.run Call.run [.newStructure "", .newStructure ""] Store.empty

def taglessNames : ViewId → Option String
  | 0 => some "a_t"
  | _ => some "b_t"

/-- Each is behind a typedef and has a field `x`. -/
def taglessDecls : List Decl :=
  [.field (.view 0 (.struct 0)) "x" (.primitive .int), .sealTyp (.view 0 (.struct 0)),
    .field (.view 1 (.struct 1)) "x" (.primitive .int), .sealTyp (.view 1 (.struct 1))]

/-- The first structure gets the data of the second. -/
theorem tagless_not_served :
    ∃ specs, genC taglessStore taglessNames taglessDecls = .ok specs ∧
      ¬ ∀ M : Measures String, ∀ d ∈ taglessDecls,
        d.Served taglessStore taglessNames id M specs := by
  refine ⟨_, rfl, fun h => ?_⟩
  have hd := fun M => h M (.field (.view 0 (.struct 0)) "x" (.primitive .int)) (by decide)
  have heq := (served_field_iff (p := .struct "") (c := ⟨.struct "", "x", "b_t"⟩) id rfl rfl).mp hd
  revert heq
  decide

end Served

end CtypesCbuf.Cbuf.Structs
