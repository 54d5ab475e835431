import CtypesCbuf.Ctypes.StructLayout

/-!
The state of a type after `field` or `seal` has raised. Every lookup that can
raise comes before the first update, except in `seal` of a union: there the
fields are reversed before their sizes are read, and `field` has not checked
that they have any.
-/

namespace CtypesCbuf.Ctypes.Mutable

variable {σ σ' : Store} {t u : Typ}

inductive Record
  | struct (s : StructureType)
  | union (u : UnionType)
  deriving DecidableEq, Repr

/-- The state of a structure or union type, views looked through. -/
def Store.record (σ : Store) (t : Typ) : Option Record :=
  match t.core with
  | .struct i => σ.structs[i]?.map .struct
  | .union i => σ.unions[i]?.map .union
  | _ => none

/-- The exceptions that `field` and `seal` are meant to raise. -/
def Documented (e : Exn) : Prop :=
  e = .incompleteType ∨ (∃ tag, e = .modifyingSealedType tag) ∨ ∃ msg, e = .unsupported msg

theorem Documented.ne_divisionByZero {e : Exn} (h : Documented e) : e ≠ .divisionByZero := by
  rintro rfl
  obtain h | ⟨tag, h⟩ | ⟨msg, h⟩ := h <;> cases h

/-- The call seals a union while a field of it has no size, and the fields do
not read the same from both ends. -/
def Call.SealsUnready (σ : Store) (c : Call) : Prop :=
  ∃ u i utag ufields, c = .sealTyp u ∧ u.core = .union i ∧
    σ.unions[i]? = some ⟨utag, none, ufields⟩ ∧
    (∃ f ∈ ufields, sizeof σ f.ftype = .error .incompleteType) ∧ ufields.reverse ≠ ufields

theorem maxFieldSize_incomplete {fields : List Field}
    (h : ∃ f ∈ fields, sizeof σ f.ftype = .error .incompleteType) :
    ∃ e, maxFieldSize σ fields = .error e := by
  obtain ⟨f, hf, hfe⟩ := h
  cases hm : maxFieldSize σ fields with
  | error e => exact ⟨e, rfl⟩
  | ok m =>
      obtain ⟨n, -, hn⟩ := (maxOf_ok hm).1 f hf
      rw [hfe] at hn
      cases hn

theorem record_setUnion {i : Nat} {r : UnionType} (ht : t.core = .union i)
    (hr : σ.unions[i]? = some r) (r' : UnionType) :
    (σ.setUnion i r').record t = some (.union r') := by
  have hi := (List.getElem?_eq_some_iff.mp hr).1
  simp only [Store.record, ht, Store.setUnion, List.getElem?_set_self hi, Option.map_some]

theorem record_union {i : Nat} {r : UnionType} (ht : t.core = .union i)
    (hr : σ.unions[i]? = some r) : σ.record t = some (.union r) := by
  simp only [Store.record, ht, hr, Option.map_some]

/-- A union sealed too early is left with its fields in the other order. -/
theorem Call.SealsUnready.changed {c : Call} {e : Exn} (hc : c.SealsUnready σ)
    (ht : c.target = some t.core) (h : c.exec σ = .error e σ') :
    σ'.record t ≠ σ.record t := by
  obtain ⟨u, i, utag, ufields, rfl, hu, hr, ⟨f, hf, hfe⟩, hrev⟩ := hc
  have htu : t.core = .union i := by
    rw [← hu]
    exact (Option.some.inj ht).symm
  have hne : ufields ≠ [] := List.ne_nil_of_mem hf
  obtain ⟨e', he'⟩ := maxFieldSize_incomplete ⟨f, List.mem_reverse.mpr hf, hfe⟩
  have hs := sealTyp_union_error hr hne he'
  rw [← hu, sealTyp_core] at hs
  rw [Call.exec, hs] at h
  cases h
  rw [record_setUnion htu hr, record_union htu hr]
  intro heq
  simp only [Option.some.injEq, Record.union.injEq, UnionType.mk.injEq, true_and] at heq
  exact hrev heq

/-- Any other call that raises changes nothing. -/
theorem unchanged_of_not_sealsUnready {c : Call} {e : Exn} (hσ : Reachable σ)
    (hc : ¬ c.SealsUnready σ) (h : c.exec σ = .error e σ') (he : Documented e) : σ' = σ := by
  cases c with
  | newStructure tag => cases h
  | newUnion utag => cases h
  | field label ftype u =>
      obtain ⟨e', hr⟩ | ⟨i, tag, isize, fields, n, a, -, -, -, -, -, hr⟩ |
        ⟨i, utag, ufields, -, -, hr⟩ := field_cases label ftype u σ
      all_goals
        simp only [Call.exec, bind, EStateM.bind, hr] at h
        cases h
      rfl
  | sealTyp u =>
      rw [Call.exec] at h
      obtain ⟨e', hr⟩ | ⟨i, tag, isize, fields, -, hs, hne, hr⟩ |
        ⟨i, utag, ufields, hu, hr, -, hres⟩ := sealTyp_cases u σ
      · rw [hr] at h
        cases h
        rfl
      · -- No structure has a field without measures.
        have hm := (hσ.sound.structs i _ hs).measured
        obtain ⟨-, b, -, hb, hpos⟩ := exists_maxField
          (fun f hf => hm f (List.mem_reverse.mp hf)) (mt List.reverse_eq_nil_iff.mp hne)
        obtain ⟨e', hm, -⟩ | ⟨a, -, -, hr⟩ := hr
        · rw [hb] at hm
          obtain hm | hm := hm
          · cases hm
          · cases hm
            omega
        · rw [hr] at h
          cases h
      · obtain ⟨e', hm, hres⟩ | ⟨n, a, -, -, -, hres⟩ := hres
        · rw [hres] at h
          cases h
          obtain hm | rfl := hm
          · obtain ⟨f, hf, hfe⟩ := maxOf_error hm
            have hincomplete : sizeof σ f.ftype = .error .incompleteType := by
              obtain ⟨hn, -⟩ | ⟨n, -, hn, -⟩ := sizeof_alignment σ f.ftype
              · exact hn
              · rw [hn] at hfe
                cases hfe
            have hrev : ufields.reverse = ufields := by
              by_contra hrev
              exact hc ⟨u, i, utag, ufields, rfl, hu, hr,
                ⟨f, List.mem_reverse.mp hf, hincomplete⟩, hrev⟩
            obtain ⟨hi, hget⟩ := List.getElem?_eq_some_iff.mp hr
            rw [hrev, Store.setUnion, ← hget, List.set_getElem_self]
          · exact absurd rfl he.ne_divisionByZero
        · rw [hres] at h
          cases h

/-- After a documented exception the type is as it was before, unless the call
sealed a union that was not ready. -/
theorem raised_unchanged_iff {c : Call} {e : Exn} (hσ : Reachable σ)
    (ht : c.target = some t.core) (h : c.exec σ = .error e σ') (he : Documented e) :
    σ'.record t = σ.record t ↔ ¬ c.SealsUnready σ := by
  constructor
  · exact fun hrec hc => hc.changed ht h hrec
  · intro hc
    rw [unchanged_of_not_sealsUnready hσ hc h he]

/-- A structure that is sealed a second time. -/
theorem raised_unchanged_sealed :
    let σ := StraightLine.run Call.run
      [.newStructure "s", .field "x" (.primitive .int) (.struct 0), .sealTyp (.struct 0)]
      Store.empty
    σ.record (.struct 0) = σ.record (.struct 0) ↔ ¬ Call.SealsUnready σ (.sealTyp (.struct 0)) :=
  raised_unchanged_iff (e := .modifyingSealedType "s") ⟨_, rfl⟩ rfl rfl (.inr (.inl ⟨"s", rfl⟩))

/-- A union of an `int` and a structure that is not sealed yet. -/
def unreadyUnion : Store :=
  StraightLine.run Call.run
    [.newUnion "u", .newStructure "s", .field "a" (.primitive .int) (.union 0),
      .field "b" (.struct 0) (.union 0)] Store.empty

/-- `seal` of the union raises `IncompleteType` and exchanges the fields. -/
theorem unreadyUnion_changed :
    ¬ ∀ (σ σ' : Store) (c : Call) (t : Typ) (e : Exn), Reachable σ →
      c.target = some t.core → c.exec σ = .error e σ' → Documented e →
      σ'.record t = σ.record t := by
  intro h
  have hrec := h unreadyUnion (TypeM.after (sealTyp (.union 0)) unreadyUnion)
    (.sealTyp (.union 0)) (.union 0) .incompleteType ⟨_, rfl⟩ rfl rfl (.inl rfl)
  revert hrec
  decide

end CtypesCbuf.Ctypes.Mutable
