import CtypesCbuf.Cbuf.StructCases
import CtypesCbuf.Ctypes.Exceptions

/-!
The two ways to construct a structure: `Ctypes_structs_computed`, and the code
that `Cbuf_structs` emits. With the same measures they differ in one thing,
the emitted `seal` does not put the fields back in order.
-/

namespace CtypesCbuf.Cbuf.Structs

open Ctypes (Exn ViewId StructuredSpec)
open Ctypes.Mutable FirstMatch

variable {σ σ' : Store} {t : Typ} {r r' : Record}

/-! ### Structures and unions at once -/

def fieldsOf : Record → List Field
  | .struct s => s.fields
  | .union u => u.ufields

def patternOf : Record → TagPattern
  | .struct s => .struct s.tag
  | .union u => .union u.utag

def layoutOf : Record → Option StructuredSpec
  | .struct ⟨_, .complete size align, _⟩ => some ⟨size, align⟩
  | .struct ⟨_, .incomplete _, _⟩ => none
  | .union u => u.uspec

def Fresh : Record → Prop
  | .struct s => s.spec = .incomplete 0 ∧ s.fields = []
  | .union u => u.uspec = none ∧ u.ufields = []

theorem fresh_record (h : Fresh r) : layoutOf r = none ∧ fieldsOf r = [] := by
  rcases r with ⟨tag, spec, fields⟩ | ⟨utag, uspec, ufields⟩
  · obtain ⟨hspec, hfields⟩ := h
    subst hspec
    exact ⟨rfl, hfields⟩
  · exact h

/-- A sealed record is its tag, its layout and its fields. -/
theorem record_ext {l : StructuredSpec} (hp : patternOf r = patternOf r')
    (hl : layoutOf r = some l) (hl' : layoutOf r' = some l) (hf : fieldsOf r = fieldsOf r') :
    r = r' := by
  rcases r with ⟨tag, spec, fields⟩ | ⟨utag, uspec, ufields⟩ <;>
    rcases r' with ⟨tag', spec', fields'⟩ | ⟨utag', uspec', ufields'⟩
  · rcases spec with isize | ⟨size, align⟩
    · cases hl
    rcases spec' with isize' | ⟨size', align'⟩
    · cases hl'
    cases hl
    cases hl'
    cases hp
    cases hf
    rfl
  · cases hp
  · cases hp
  · cases hl
    cases hl'
    cases hp
    cases hf
    rfl

theorem record_struct {i : Nat} {s : StructureType} (ht : t.core = .struct i)
    (hs : σ.structs[i]? = some s) : σ.record t = some (.struct s) := by
  simp only [Store.record, ht, hs, Option.map_some]

theorem record_setStruct {i : Nat} {s : StructureType} (ht : t.core = .struct i)
    (hs : σ.structs[i]? = some s) (s' : StructureType) :
    (σ.setStruct i s').record t = some (.struct s') := by
  have hi := (List.getElem?_eq_some_iff.mp hs).1
  simp only [Store.record, ht, Store.setStruct, List.getElem?_set_self hi, Option.map_some]

theorem tagPattern_record (hr : σ.record t = some r) :
    tagPattern σ t = some (patternOf r) := by
  cases ht : t.core with
  | struct i =>
      simp only [Store.record, ht, Option.map_eq_some_iff] at hr
      obtain ⟨s, hs, rfl⟩ := hr
      exact tagPattern_struct ht hs
  | union i =>
      simp only [Store.record, ht, Option.map_eq_some_iff] at hr
      obtain ⟨u, hu, rfl⟩ := hr
      exact tagPattern_union ht hu
  | _ => simp [Store.record, ht] at hr

/-! ### One call -/

theorem field_record {label : String} {ftype : Typ} {f : Field} (hr : σ.record t = some r)
    (h : field label ftype t σ = .ok f σ') :
    ∃ r', σ'.record t = some r' ∧ patternOf r' = patternOf r ∧
      fieldsOf r' = f :: fieldsOf r ∧ f.decl = (label, ftype) := by
  obtain ⟨e, he⟩ | ⟨i, tag, isize, fields, n, a, ht, hs, -, -, -, hf⟩ |
    ⟨i, utag, ufields, ht, hu, hf⟩ := field_cases label ftype t σ
  · rw [he] at h
    cases h
  · rw [hf] at h
    cases h
    rw [record_struct ht hs] at hr
    cases hr
    exact ⟨_, record_setStruct ht hs _, rfl, rfl, rfl⟩
  · rw [hf] at h
    cases h
    rw [record_union ht hu] at hr
    cases hr
    exact ⟨_, record_setUnion ht hu _, rfl, rfl, rfl⟩

theorem sealTyp_record (hr : σ.record t = some r) (h : sealTyp t σ = .ok () σ') :
    ∃ r' l, σ'.record t = some r' ∧ patternOf r' = patternOf r ∧ layoutOf r' = some l ∧
      fieldsOf r' = (fieldsOf r).reverse := by
  obtain ⟨e, he⟩ | ⟨i, tag, isize, fields, ht, hs, -, hres⟩ | ⟨i, utag, ufields, ht, hu, -, hres⟩ :=
    sealTyp_cases t σ
  · rw [he] at h
    cases h
  · rw [record_struct ht hs] at hr
    cases hr
    obtain ⟨e, -, hres⟩ | ⟨a, -, -, hres⟩ := hres
    · rw [hres] at h
      cases h
    · rw [hres] at h
      cases h
      exact ⟨_, _, record_setStruct ht hs _, rfl, rfl, rfl⟩
  · rw [record_union ht hu] at hr
    cases hr
    obtain ⟨e, -, hres⟩ | ⟨n, a, -, -, -, hres⟩ := hres
    · rw [hres] at h
      cases h
    · rw [hres] at h
      cases h
      exact ⟨_, _, record_setUnion ht hu _, rfl, rfl, rfl⟩

section Emitted

variable {cc : CCompiler}

theorem emittedField_record (cc : CCompiler) {cases : List FieldCase} {c : FieldCase}
    {fname : String} (ftype : Typ) (hr : σ.record t = some r) (hl : layoutOf r = none)
    (hc : select FieldCase.key cases (patternOf r, fname) = some c) :
    ∃ σ' r', emittedField cc cases fname ftype t σ = .ok (c.made cc ftype) σ' ∧
      σ'.record t = some r' ∧ patternOf r' = patternOf r ∧ layoutOf r' = none ∧
      fieldsOf r' = c.made cc ftype :: fieldsOf r := by
  rw [← emittedField_core]
  cases ht : t.core with
  | struct i =>
      simp only [Store.record, ht, Option.map_eq_some_iff] at hr
      obtain ⟨⟨tag, spec, fields⟩, hs, rfl⟩ := hr
      refine ⟨_, _, emittedField_struct hs hc, record_setStruct ht hs _, rfl, ?_, rfl⟩
      cases spec with
      | incomplete isize => rfl
      | complete size align => cases hl
  | union i =>
      simp only [Store.record, ht, Option.map_eq_some_iff] at hr
      obtain ⟨u, hu, rfl⟩ := hr
      exact ⟨_, _, emittedField_union hu hc, record_setUnion ht hu _, rfl, hl, rfl⟩
  | _ => simp [Store.record, ht] at hr

theorem emittedSeal_record (cc : CCompiler) {seals : List SealCase} {c : SealCase}
    (hr : σ.record t = some r) (hl : layoutOf r = none)
    (hc : select SealCase.tag seals (patternOf r) = some c) :
    ∃ σ' r', emittedSeal cc seals t σ = .ok () σ' ∧ σ'.record t = some r' ∧
      patternOf r' = patternOf r ∧
      layoutOf r' = some ⟨cc.sizeof c.typedef, cc.alignmentof c.typedef⟩ ∧
      fieldsOf r' = fieldsOf r := by
  rw [← emittedSeal_core]
  cases ht : t.core with
  | struct i =>
      simp only [Store.record, ht, Option.map_eq_some_iff] at hr
      obtain ⟨⟨tag, spec, fields⟩, hs, rfl⟩ := hr
      cases spec with
      | incomplete isize =>
          exact ⟨_, _, emittedSeal_struct hs hc, record_setStruct ht hs _, rfl, rfl, rfl⟩
      | complete size align => cases hl
  | union i =>
      simp only [Store.record, ht, Option.map_eq_some_iff] at hr
      obtain ⟨⟨utag, uspec, ufields⟩, hu, rfl⟩ := hr
      cases uspec with
      | none => exact ⟨_, _, emittedSeal_union hu hc, record_setUnion ht hu _, rfl, rfl, rfl⟩
      | some s => cases hl
  | _ => simp [Store.record, ht] at hr

end Emitted

/-! ### A whole construction -/

def addFields (field : String → Typ → Typ → TypeM Field) (t : Typ) :
    List (String × Typ) → TypeM Unit
  | [] => pure ()
  | d :: ds => do
      let _ ← field d.1 d.2 t
      addFields field t ds

def construct (field : String → Typ → Typ → TypeM Field) (sealTyp : Typ → TypeM Unit)
    (t : Typ) (ds : List (String × Typ)) : TypeM Unit := do
  addFields field t ds
  sealTyp t

def program (t : Typ) (ds : List (String × Typ)) : List Decl :=
  ds.map (fun d => .field t d.1 d.2) ++ [.sealTyp t]

variable {ds : List (String × Typ)}

theorem bind_eq_ok {α β : Type} {x : TypeM α} {k : α → TypeM β} {b : β}
    (h : (x >>= k) σ = .ok b σ') : ∃ a σ₁, x σ = .ok a σ₁ ∧ k a σ₁ = .ok b σ' := by
  simp only [bind, EStateM.bind] at h
  cases hx : x σ with
  | ok a σ₁ =>
      rw [hx] at h
      exact ⟨a, σ₁, rfl, h⟩
  | error e σ₁ =>
      rw [hx] at h
      cases h

theorem addFields_record (hr : σ.record t = some r)
    (h : addFields Ctypes.Mutable.field t ds σ = .ok () σ') :
    ∃ r', σ'.record t = some r' ∧ patternOf r' = patternOf r ∧
      (fieldsOf r').reverse.map Field.decl = (fieldsOf r).reverse.map Field.decl ++ ds := by
  induction ds generalizing σ r with
  | nil =>
      cases h
      exact ⟨r, hr, rfl, by simp⟩
  | cons d ds ih =>
      obtain ⟨f, σ₁, hf, hrest⟩ := bind_eq_ok h
      obtain ⟨r₁, hr₁, hp₁, hf₁, hd⟩ := field_record hr hf
      obtain ⟨r', hr', hp', hf'⟩ := ih hr₁ hrest
      refine ⟨r', hr', hp'.trans hp₁, ?_⟩
      rw [hf', hf₁, List.reverse_cons, List.map_append, List.append_assoc]
      exact congrArg (fun x => _ ++ (x :: ds)) hd

theorem construct_record (hr : σ.record t = some r) (hfresh : Fresh r)
    (h : construct Ctypes.Mutable.field Ctypes.Mutable.sealTyp t ds σ = .ok () σ') :
    ∃ r' l, σ'.record t = some r' ∧ patternOf r' = patternOf r ∧ layoutOf r' = some l ∧
      (fieldsOf r').map Field.decl = ds := by
  obtain ⟨_, σ₁, hadd, hseal⟩ := bind_eq_ok h
  obtain ⟨r₁, hr₁, hp₁, hf₁⟩ := addFields_record hr hadd
  obtain ⟨r', l, hr', hp', hl, hf'⟩ := sealTyp_record hr₁ hseal
  have hnil : fieldsOf r = [] := (fresh_record hfresh).2
  refine ⟨r', l, hr', hp'.trans hp₁, hl, ?_⟩
  rw [hf', hf₁, hnil]
  simp

section Emitted

variable {cc : CCompiler} {name : String} {p : TagPattern}

/-- A field with the offset that the compiler gives it in `name`. -/
def measuredField (cc : CCompiler) (name : String) (d : String × Typ) : Field :=
  ⟨d.2, cc.offsetof name d.1, d.1⟩

theorem emittedFields_record (cc : CCompiler) {cases : List FieldCase}
    (hsel : ∀ d ∈ ds, select FieldCase.key cases (patternOf r, d.1) =
      some ⟨patternOf r, d.1, name⟩)
    (hr : σ.record t = some r) (hl : layoutOf r = none) :
    ∃ σ' r', addFields (emittedField cc cases) t ds σ = .ok () σ' ∧
      σ'.record t = some r' ∧ patternOf r' = patternOf r ∧ layoutOf r' = none ∧
      fieldsOf r' = (ds.map (measuredField cc name)).reverse ++ fieldsOf r := by
  induction ds generalizing σ r with
  | nil => exact ⟨σ, r, rfl, hr, rfl, hl, rfl⟩
  | cons d ds ih =>
      obtain ⟨σ₁, r₁, hrun, hr₁, hp₁, hl₁, hf₁⟩ :=
        emittedField_record cc d.2 hr hl (hsel d (by simp))
      obtain ⟨σ', r', hrest, hr', hp', hl', hf'⟩ :=
        ih (fun e he => by rw [hp₁]; exact hsel e (by simp [he])) hr₁ hl₁
      refine ⟨σ', r', ?_, hr', hp'.trans hp₁, hl', ?_⟩
      · show (emittedField cc cases d.1 d.2 t >>= fun _ => _) σ = _
        simp only [bind, EStateM.bind, hrun, hrest]
      · rw [hf', hf₁, List.map_cons, List.reverse_cons, List.append_assoc]
        rfl

/-- Every case that the program emits is for its one type. -/
theorem select_program {formatTyp : ViewId → Option String} {specs : Specs}
    (hgen : genC σ formatTyp (program t ds) = .ok specs) (hp : tagPattern σ t = some p) :
    (∀ d ∈ ds, select FieldCase.key (writeField specs.fields) (p, d.1) =
      some ⟨p, d.1, stringOfTyp σ formatTyp t⟩) ∧
    select SealCase.tag (writeSeal specs.structures) p =
      some ⟨p, stringOfTyp σ formatTyp t⟩ := by
  constructor
  · intro d hd
    have hmem : ⟨p, d.1, stringOfTyp σ formatTyp t⟩ ∈ writeField specs.fields := by
      refine (mem_writeField hgen).mpr ⟨t, d.1, d.2, p, ?_, hp, rfl⟩
      exact List.mem_append_left _ (List.mem_map.mpr ⟨d, hd, rfl⟩)
    obtain ⟨c, hc, hkey, hsel⟩ := select_of_mem FieldCase.key hmem
    obtain ⟨u, fname, ftype, q, hu, hq, rfl⟩ := (mem_writeField hgen).mp hc
    have hut : u = t := by
      rcases List.mem_append.mp hu with hu | hu
      · obtain ⟨e, -, he⟩ := List.mem_map.mp hu
        cases he
        rfl
      · simp at hu
    subst hut
    cases hkey
    exact hsel
  · have hmem : ⟨p, stringOfTyp σ formatTyp t⟩ ∈ writeSeal specs.structures :=
      (mem_writeSeal hgen).mpr ⟨t, p, List.mem_append_right _ (by simp), hp, rfl⟩
    obtain ⟨c, hc, hkey, hsel⟩ := select_of_mem SealCase.tag hmem
    obtain ⟨u, q, hu, hq, rfl⟩ := (mem_writeSeal hgen).mp hc
    have hut : u = t := by
      rcases List.mem_append.mp hu with hu | hu
      · obtain ⟨e, -, he⟩ := List.mem_map.mp hu
        cases he
      · simpa using hu
    subst hut
    cases hkey
    exact hsel

end Emitted

/-- The C compiler agrees with the layout of a sealed type with this name. -/
structure CCompiler.Agrees (cc : CCompiler) (name : String) (r : Record) : Prop where
  layout : layoutOf r = some ⟨cc.sizeof name, cc.alignmentof name⟩
  offset : ∀ f ∈ fieldsOf r, cc.offsetof name f.fname = f.foffset

/-- The emitted code leaves the type as the computed layout does iff the
declarations read the same from both ends. -/
theorem emitted_agrees_iff {formatTyp : ViewId → Option String} {specs : Specs}
    {cc : CCompiler} {r₁ : Record} (hr : σ.record t = some r) (hfresh : Fresh r)
    (hgen : genC σ formatTyp (program t ds) = .ok specs)
    (hrun : construct Ctypes.Mutable.field Ctypes.Mutable.sealTyp t ds σ = .ok () σ')
    (hr₁ : σ'.record t = some r₁) (hcc : cc.Agrees (stringOfTyp σ formatTyp t) r₁) :
    (∃ σ₂, construct (emittedField cc (writeField specs.fields))
        (emittedSeal cc (writeSeal specs.structures)) t ds σ = .ok () σ₂ ∧
      σ₂.record t = σ'.record t) ↔ ds.reverse = ds := by
  obtain ⟨r', l, hr', hp', hl', hds⟩ := construct_record hr hfresh hrun
  rw [hr₁] at hr'
  cases hr'
  obtain ⟨hfields, hseals⟩ := select_program hgen (tagPattern_record hr)
  have hnone := fresh_record hfresh
  obtain ⟨σ₂, r₂, hadd, hr₂, hp₂, hl₂, hf₂⟩ :=
    emittedFields_record cc hfields hr hnone.1
  obtain ⟨σ₃, r₃, hseal, hr₃, hp₃, hl₃, hf₃⟩ :=
    emittedSeal_record cc hr₂ hl₂ (by rw [hp₂]; exact hseals)
  have hemitted : construct (emittedField cc (writeField specs.fields))
      (emittedSeal cc (writeSeal specs.structures)) t ds σ = .ok () σ₃ := by
    simp only [construct, bind, EStateM.bind, hadd, hseal]
  -- Both sides hold the same fields, since the offsets are those of the compiler.
  have hmeasured : fieldsOf r₁ = ds.map (measuredField cc (stringOfTyp σ formatTyp t)) := by
    rw [← hds, List.map_map]
    conv_lhs => rw [← List.map_id (fieldsOf r₁)]
    refine List.map_congr_left fun f hf => ?_
    simp only [Function.comp, measuredField, Field.decl, id, hcc.offset f hf]
  have hreversed : fieldsOf r₃ = (fieldsOf r₁).reverse := by
    rw [hf₃, hf₂, hnone.2, List.append_nil, hmeasured]
  constructor
  · rintro ⟨σ₂', hrun₂, hrec⟩
    rw [hemitted] at hrun₂
    cases hrun₂
    rw [hr₃, hr₁] at hrec
    cases hrec
    rw [← hds, ← List.map_reverse, ← hreversed]
  · intro hrev
    refine ⟨σ₃, hemitted, ?_⟩
    have hfeq : fieldsOf r₃ = fieldsOf r₁ := by
      rw [hreversed, hmeasured, ← List.map_reverse, hrev]
    rw [hr₃, hr₁, record_ext ((hp₃.trans hp₂).trans hp'.symm) hl₃ hcc.layout hfeq]

/-- The structure `s2` of two integers, as a C compiler lays it out. -/
def s2Compiler : CCompiler where
  offsetof _ fname := if fname = "y2" then 0 else 4
  sizeof _ := 8
  alignmentof _ := 4

def s2Store : Store := StraightLine.run Call.run [.newStructure "s2"] Store.empty

/-- With one field the two agree. -/
theorem emitted_agrees_one :
    let ds := [("y2", Typ.primitive .int)]
    let one : CCompiler := { s2Compiler with sizeof := fun _ => 4 }
    ∃ specs σ' r₁, genC s2Store (fun _ => none) (program (.struct 0) ds) = .ok specs ∧
      construct field sealTyp (.struct 0) ds s2Store = .ok () σ' ∧
      σ'.record (.struct 0) = some r₁ ∧
      ((∃ σ₂, construct (emittedField one (writeField specs.fields))
          (emittedSeal one (writeSeal specs.structures)) (.struct 0) ds s2Store = .ok () σ₂ ∧
        σ₂.record (.struct 0) = σ'.record (.struct 0)) ↔ ds.reverse = ds) :=
  ⟨_, _, _, rfl, rfl, rfl,
    emitted_agrees_iff (r := .struct ⟨"s2", .incomplete 0, []⟩) rfl ⟨rfl, rfl⟩ rfl rfl rfl
      ⟨rfl, by decide⟩⟩

/-- The fields `y2`, `y1` are left backwards. -/
theorem s2_backwards :
    let ds := [("y2", Typ.primitive .int), ("y1", Typ.primitive .int)]
    ∃ specs σ' σ₂ r₁, genC s2Store (fun _ => none) (program (.struct 0) ds) = .ok specs ∧
      construct field sealTyp (.struct 0) ds s2Store = .ok () σ' ∧
      σ'.record (.struct 0) = some r₁ ∧ s2Compiler.Agrees "struct s2" r₁ ∧
      construct (emittedField s2Compiler (writeField specs.fields))
        (emittedSeal s2Compiler (writeSeal specs.structures)) (.struct 0) ds s2Store =
          .ok () σ₂ ∧
      σ₂.record (.struct 0) ≠ σ'.record (.struct 0) :=
  ⟨_, _, _, _, rfl, rfl, rfl, ⟨rfl, by decide⟩, rfl, by decide⟩

end CtypesCbuf.Cbuf.Structs
