import CtypesCbuf.Ctypes.TypeStore

/-!
What `field` and `seal` can do to the store, said once: each either raises or
changes the record of one incomplete type. Every fact about runs of the two
goes through these case lemmas.
-/

namespace CtypesCbuf.Ctypes.Mutable

variable {σ σ' : Store} {t : Typ}

section Runs

variable {α β : Type} {f : Store → Except Exn α} {k : α → TypeM β} {i : Nat}

theorem bind_query_ok {a : α} (h : f σ = .ok a) : (query f >>= k) σ = k a σ := by
  simp only [bind, EStateM.bind, query, h]

theorem bind_query_error {e : Exn} (h : f σ = .error e) :
    (query f >>= k) σ = .error e σ := by
  simp only [bind, EStateM.bind, query, h]

theorem bind_getStruct {s : StructureType} {k : StructureType → TypeM β}
    (h : σ.structs[i]? = some s) : (getStruct i >>= k) σ = k s σ :=
  bind_query_ok (by rw [h])

theorem bind_getStruct_none {k : StructureType → TypeM β} (h : σ.structs[i]? = none) :
    (getStruct i >>= k) σ = .error .matchFailure σ :=
  bind_query_error (by rw [h])

theorem bind_getUnion {u : UnionType} {k : UnionType → TypeM β}
    (h : σ.unions[i]? = some u) : (getUnion i >>= k) σ = k u σ :=
  bind_query_ok (by rw [h])

theorem bind_getUnion_none {k : UnionType → TypeM β} (h : σ.unions[i]? = none) :
    (getUnion i >>= k) σ = .error .matchFailure σ :=
  bind_query_error (by rw [h])

theorem putStruct_run (i : Nat) (s : StructureType) :
    putStruct i s σ = .ok () (σ.setStruct i s) := rfl

theorem putUnion_run (i : Nat) (u : UnionType) :
    putUnion i u σ = .ok () (σ.setUnion i u) := rfl

theorem bind_putStruct (s : StructureType) (k : Unit → TypeM β) :
    (putStruct i s >>= k) σ = k () (σ.setStruct i s) := rfl

end Runs

@[simp] theorem setStruct_setStruct (σ : Store) (i : Nat) (s s' : StructureType) :
    (σ.setStruct i s).setStruct i s' = σ.setStruct i s' := by
  simp [Store.setStruct]

@[simp] theorem setUnion_setUnion (σ : Store) (i : Nat) (u u' : UnionType) :
    (σ.setUnion i u).setUnion i u' = σ.setUnion i u' := by
  simp [Store.setUnion]

open Alignment

section Struct

variable {i isize : Nat} {tag label : String} {fields : List Field} {ftype : Typ}

theorem field_struct (label : String) {n a : Nat}
    (hs : σ.structs[i]? = some ⟨tag, .incomplete isize, fields⟩)
    (hn : sizeof σ ftype = .ok n) (ha : alignment σ ftype = .ok a) (hpos : 0 < a) :
    field label ftype (.struct i) σ = .ok ⟨ftype, roundUp isize a, label⟩
      (σ.setStruct i ⟨tag, .incomplete (roundUp isize a + n),
        ⟨ftype, roundUp isize a, label⟩ :: fields⟩) := by
  rw [field, bind_getStruct hs]
  dsimp only
  rw [bind_query_ok ha, bind_query_ok (alignedOffset_eq hpos), bind_query_ok hn, bind_putStruct,
    bind_putStruct, setStruct_setStruct]
  rfl

/-- The record as `seal` leaves it before it reads the measures. -/
def StructureType.reversed (s : StructureType) : StructureType :=
  { s with fields := s.fields.reverse }

theorem maxFieldAlignment_reversed {s : StructureType} (hs : σ.structs[i]? = some s) :
    maxFieldAlignment (σ.setStruct i s.reversed) = maxFieldAlignment σ := by
  have hm := (measures_setStruct hs s.reversed rfl).2
  funext fs
  rw [maxFieldAlignment, hm, maxFieldAlignment]

/-- `seal` of an incomplete structure that has fields. -/
theorem sealTyp_struct (hs : σ.structs[i]? = some ⟨tag, .incomplete isize, fields⟩)
    (hne : fields ≠ []) :
    sealTyp (.struct i) σ =
      (do let align ← query fun σ => maxFieldAlignment σ fields.reverse
          let size ← query fun _ => alignedOffset isize align
          putStruct i ⟨tag, .complete size align, fields.reverse⟩)
        (σ.setStruct i ⟨tag, .incomplete isize, fields.reverse⟩) := by
  rw [sealTyp, bind_getStruct hs]
  cases fields with
  | nil => exact absurd rfl hne
  | cons f fields => rfl

theorem sealTyp_struct_ok {a : Nat}
    (hs : σ.structs[i]? = some ⟨tag, .incomplete isize, fields⟩) (hne : fields ≠ [])
    (ha : maxFieldAlignment σ fields.reverse = .ok a) (hpos : 0 < a) :
    sealTyp (.struct i) σ =
      .ok () (σ.setStruct i ⟨tag, .complete (roundUp isize a) a, fields.reverse⟩) := by
  rw [← maxFieldAlignment_reversed hs] at ha
  rw [sealTyp_struct hs hne, bind_query_ok ha, bind_query_ok (alignedOffset_eq hpos),
    putStruct_run, setStruct_setStruct]

end Struct

section Union

variable {i : Nat} {utag label : String} {ufields : List Field} {ftype : Typ}

theorem field_union (label : String) (ftype : Typ)
    (hu : σ.unions[i]? = some ⟨utag, none, ufields⟩) :
    field label ftype (.union i) σ = .ok ⟨ftype, 0, label⟩
      (σ.setUnion i ⟨utag, none, ⟨ftype, 0, label⟩ :: ufields⟩) := by
  rw [field, bind_getUnion hu]
  rfl

def UnionType.reversed (u : UnionType) : UnionType :=
  { u with ufields := u.ufields.reverse }

theorem maxField_reversed {u : UnionType} (hu : σ.unions[i]? = some u) :
    maxFieldSize (σ.setUnion i u.reversed) = maxFieldSize σ ∧
      maxFieldAlignment (σ.setUnion i u.reversed) = maxFieldAlignment σ := by
  have hm := measures_setUnion hu u.reversed rfl
  constructor
  · funext fs
    rw [maxFieldSize, hm.1, maxFieldSize]
  · funext fs
    rw [maxFieldAlignment, hm.2, maxFieldAlignment]

/-- `seal` of an incomplete union that has fields. -/
theorem sealTyp_union (hu : σ.unions[i]? = some ⟨utag, none, ufields⟩) (hne : ufields ≠ []) :
    sealTyp (.union i) σ =
      (do let size ← query fun σ => maxFieldSize σ ufields.reverse
          let align ← query fun σ => maxFieldAlignment σ ufields.reverse
          let size ← query fun _ => alignedOffset size align
          putUnion i ⟨utag, some ⟨size, align⟩, ufields.reverse⟩)
        (σ.setUnion i ⟨utag, none, ufields.reverse⟩) := by
  rw [sealTyp, bind_getUnion hu]
  cases ufields with
  | nil => exact absurd rfl hne
  | cons f fields => rfl

theorem sealTyp_union_ok {n a : Nat} (hu : σ.unions[i]? = some ⟨utag, none, ufields⟩)
    (hne : ufields ≠ []) (hn : maxFieldSize σ ufields.reverse = .ok n)
    (ha : maxFieldAlignment σ ufields.reverse = .ok a) (hpos : 0 < a) :
    sealTyp (.union i) σ =
      .ok () (σ.setUnion i ⟨utag, some ⟨roundUp n a, a⟩, ufields.reverse⟩) := by
  rw [← (maxField_reversed hu).1] at hn
  rw [← (maxField_reversed hu).2] at ha
  rw [sealTyp_union hu hne, bind_query_ok hn, bind_query_ok ha,
    bind_query_ok (alignedOffset_eq hpos), putUnion_run, setUnion_setUnion]

/-- The fields are reversed before their sizes are read, and stay so when one
of them has no size. -/
theorem sealTyp_union_error {e : Exn} (hu : σ.unions[i]? = some ⟨utag, none, ufields⟩)
    (hne : ufields ≠ []) (hn : maxFieldSize σ ufields.reverse = .error e) :
    sealTyp (.union i) σ = .error e (σ.setUnion i ⟨utag, none, ufields.reverse⟩) := by
  rw [← (maxField_reversed hu).1] at hn
  rw [sealTyp_union hu hne, bind_query_error hn]

end Union

/-- `field` raises and changes nothing, or adds the field to a structure that
is still incomplete, or to a union. -/
theorem field_cases (label : String) (ftype t : Typ) (σ : Store) :
    (∃ e, field label ftype t σ = .error e σ) ∨
    (∃ i tag isize fields n a, t.core = .struct i ∧
      σ.structs[i]? = some ⟨tag, .incomplete isize, fields⟩ ∧
      sizeof σ ftype = .ok n ∧ alignment σ ftype = .ok a ∧ 0 < a ∧
      field label ftype t σ = .ok ⟨ftype, roundUp isize a, label⟩
        (σ.setStruct i ⟨tag, .incomplete (roundUp isize a + n),
          ⟨ftype, roundUp isize a, label⟩ :: fields⟩)) ∨
    ∃ i utag ufields, t.core = .union i ∧ σ.unions[i]? = some ⟨utag, none, ufields⟩ ∧
      field label ftype t σ = .ok ⟨ftype, 0, label⟩
        (σ.setUnion i ⟨utag, none, ⟨ftype, 0, label⟩ :: ufields⟩) := by
  rw [← field_core]
  cases ht : t.core with
  | struct i =>
      cases hs : σ.structs[i]? with
      | none => exact .inl ⟨_, bind_getStruct_none hs⟩
      | some s =>
          obtain ⟨tag, spec, fields⟩ := s
          cases spec with
          | complete size align => exact .inl ⟨_, bind_getStruct hs⟩
          | incomplete isize =>
              obtain ⟨-, ha⟩ | ⟨n, a, hn, ha⟩ := sizeof_alignment σ ftype
              · refine .inl ⟨.incompleteType, ?_⟩
                rw [field, bind_getStruct hs]
                exact bind_query_error ha
              · rcases Nat.eq_zero_or_pos a with rfl | hpos
                · refine .inl ⟨.divisionByZero, ?_⟩
                  rw [field, bind_getStruct hs]
                  dsimp only
                  rw [bind_query_ok ha]
                  exact bind_query_error (alignedOffset_zero isize)
                · exact .inr (.inl ⟨i, tag, isize, fields, n, a, rfl, hs, hn, ha, hpos,
                    field_struct label hs hn ha hpos⟩)
  | union i =>
      cases hu : σ.unions[i]? with
      | none => exact .inl ⟨_, bind_getUnion_none hu⟩
      | some u =>
          obtain ⟨utag, uspec, ufields⟩ := u
          cases uspec with
          | some s => exact .inl ⟨_, bind_getUnion hu⟩
          | none => exact .inr (.inr ⟨i, utag, ufields, rfl, hu, field_union label ftype hu⟩)
  | view v ty => exact absurd ht (Typ.core_ne_view t v ty)
  | _ => exact .inl ⟨_, rfl⟩

/-- `seal` raises and changes nothing; or it reverses the fields of a
structure or union that is still incomplete, and then either raises or
completes the type. -/
theorem sealTyp_cases (t : Typ) (σ : Store) :
    (∃ e, sealTyp t σ = .error e σ) ∨
    (∃ i tag isize fields, t.core = .struct i ∧
      σ.structs[i]? = some ⟨tag, .incomplete isize, fields⟩ ∧ fields ≠ [] ∧
      ((∃ e, (maxFieldAlignment σ fields.reverse = .error e ∨
            maxFieldAlignment σ fields.reverse = .ok 0) ∧
          sealTyp t σ = .error e (σ.setStruct i ⟨tag, .incomplete isize, fields.reverse⟩)) ∨
        ∃ a, maxFieldAlignment σ fields.reverse = .ok a ∧ 0 < a ∧
          sealTyp t σ =
            .ok () (σ.setStruct i ⟨tag, .complete (roundUp isize a) a, fields.reverse⟩))) ∨
    ∃ i utag ufields, t.core = .union i ∧ σ.unions[i]? = some ⟨utag, none, ufields⟩ ∧
      ufields ≠ [] ∧
      ((∃ e, (maxFieldSize σ ufields.reverse = .error e ∨ e = .divisionByZero) ∧
          sealTyp t σ = .error e (σ.setUnion i ⟨utag, none, ufields.reverse⟩)) ∨
        ∃ n a, maxFieldSize σ ufields.reverse = .ok n ∧
          maxFieldAlignment σ ufields.reverse = .ok a ∧ 0 < a ∧
          sealTyp t σ =
            .ok () (σ.setUnion i ⟨utag, some ⟨roundUp n a, a⟩, ufields.reverse⟩)) := by
  rw [← sealTyp_core]
  cases ht : t.core with
  | struct i =>
      cases hs : σ.structs[i]? with
      | none => exact .inl ⟨_, bind_getStruct_none hs⟩
      | some s =>
          obtain ⟨tag, spec, fields⟩ := s
          rcases eq_or_ne fields [] with rfl | hne
          · exact .inl ⟨_, bind_getStruct hs⟩
          rcases spec with isize | ⟨size, align⟩
          · refine .inr (.inl ⟨i, tag, isize, fields, rfl, hs, hne, ?_⟩)
            have hrev := maxFieldAlignment_reversed hs
            cases ha : maxFieldAlignment σ fields.reverse with
            | error e =>
                refine .inl ⟨e, .inl rfl, ?_⟩
                rw [← hrev] at ha
                rw [sealTyp_struct hs hne, bind_query_error ha]
            | ok a =>
                rcases Nat.eq_zero_or_pos a with rfl | hpos
                · refine .inl ⟨.divisionByZero, .inr rfl, ?_⟩
                  rw [← hrev] at ha
                  rw [sealTyp_struct hs hne, bind_query_ok ha,
                    bind_query_error (alignedOffset_zero isize)]
                · exact .inr ⟨a, rfl, hpos, sealTyp_struct_ok hs hne ha hpos⟩
          · refine .inl ⟨.modifyingSealedType tag, ?_⟩
            rw [sealTyp, bind_getStruct hs]
            cases fields with
            | nil => exact absurd rfl hne
            | cons f fields => rfl
  | union i =>
      cases hu : σ.unions[i]? with
      | none => exact .inl ⟨_, bind_getUnion_none hu⟩
      | some u =>
          obtain ⟨utag, uspec, ufields⟩ := u
          rcases uspec with - | s
          · rcases eq_or_ne ufields [] with rfl | hne
            · exact .inl ⟨_, bind_getUnion hu⟩
            refine .inr (.inr ⟨i, utag, ufields, rfl, hu, hne, ?_⟩)
            cases hn : maxFieldSize σ ufields.reverse with
            | error e => exact .inl ⟨e, .inl rfl, sealTyp_union_error hu hne hn⟩
            | ok n =>
                -- Fields with a size have an alignment, so the second fold succeeds.
                obtain ⟨a, ha⟩ : ∃ a, maxFieldAlignment σ ufields.reverse = .ok a := by
                  refine maxOf_of_measured fun f hf => ?_
                  obtain ⟨m, -, hm⟩ := (maxOf_ok hn).1 f hf
                  obtain ⟨h, -⟩ | ⟨-, b, -, hb⟩ := sizeof_alignment σ f.ftype
                  · rw [h] at hm
                    cases hm
                  · exact ⟨b, hb⟩
                rcases Nat.eq_zero_or_pos a with rfl | hpos
                · refine .inl ⟨.divisionByZero, .inr rfl, ?_⟩
                  rw [← (maxField_reversed hu).1] at hn
                  rw [← (maxField_reversed hu).2] at ha
                  rw [sealTyp_union hu hne, bind_query_ok hn, bind_query_ok ha,
                    bind_query_error (alignedOffset_zero n)]
                · exact .inr ⟨n, a, rfl, ha, hpos, sealTyp_union_ok hu hne hn ha hpos⟩
          · exact .inl ⟨_, bind_getUnion hu⟩
  | view v ty => exact absurd ht (Typ.core_ne_view t v ty)
  | _ => exact .inl ⟨_, rfl⟩

end CtypesCbuf.Ctypes.Mutable
