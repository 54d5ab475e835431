import CtypesCbuf.Ctypes.TypeSteps
import CtypesCbuf.Lib.StraightLine

/-!
Runs of calls that make, extend and seal types, and the layout that every
such run keeps: the fields of an incomplete structure are placed without gaps
but those of alignment, and a sealed structure or union has the layout of C.
`Wrapping` says for which types the code computes this layout.
-/

namespace CtypesCbuf.Ctypes.Mutable

open Alignment

/-- The calls that make and change types. -/
inductive Call
  | newStructure (tag : String)
  | newUnion (utag : String)
  | field (label : String) (ftype t : Typ)
  | sealTyp (t : Typ)
  deriving DecidableEq, Repr

def Call.exec : Call → TypeM Unit
  | .newStructure tag => do let _ ← Mutable.newStructure tag
  | .newUnion utag => do let _ ← Mutable.newUnion utag
  | .field label ftype t => do let _ ← Mutable.field label ftype t
  | .sealTyp t => Mutable.sealTyp t

/-- The store after a computation, whether it raised or not. -/
def TypeM.after {α : Type} (x : TypeM α) (σ : Store) : Store :=
  match x σ with
  | .ok _ σ' => σ'
  | .error _ σ' => σ'

def Call.run (c : Call) (σ : Store) : Store := TypeM.after c.exec σ

/-- The stores that programs reach, whatever exceptions they handle. -/
def Reachable (σ : Store) : Prop := ∃ cs, StraightLine.run Call.run cs Store.empty = σ

theorem Reachable.run {σ : Store} (h : Reachable σ) (c : Call) : Reachable (c.run σ) := by
  obtain ⟨cs, rfl⟩ := h
  exact ⟨cs ++ [c], StraightLine.run_append ..⟩

variable {σ σ' : Store} {t : Typ}

/-! ### Slots of fields -/

def measure : Except Exn Nat → Nat
  | .ok n => n
  | .error _ => 0

def slot (σ : Store) (f : Field) : Slot :=
  ⟨f.foffset, measure (sizeof σ f.ftype), measure (alignment σ f.ftype)⟩

def slots (σ : Store) (fields : List Field) : List Slot := fields.map (slot σ)

def Field.Measured (σ : Store) (f : Field) : Prop :=
  ∃ n a, sizeof σ f.ftype = .ok n ∧ alignment σ f.ftype = .ok a ∧ 0 < a

def Field.Complete (σ : Store) (f : Field) : Prop :=
  ∃ n a, sizeof σ f.ftype = .ok n ∧ alignment σ f.ftype = .ok a

theorem Field.Measured.complete {f : Field} (h : f.Measured σ) : f.Complete σ := by
  obtain ⟨n, a, hn, ha, -⟩ := h
  exact ⟨n, a, hn, ha⟩

theorem Field.Measured.extends {f : Field} (h : f.Measured σ) (he : σ.Extends σ') :
    f.Measured σ' := by
  obtain ⟨n, a, hn, ha, hpos⟩ := h
  exact ⟨n, a, (he.measures _).1 n hn, (he.measures _).2 a ha, hpos⟩

theorem Field.Complete.extends {f : Field} (h : f.Complete σ) (he : σ.Extends σ') :
    f.Complete σ' := by
  obtain ⟨n, a, hn, ha⟩ := h
  exact ⟨n, a, (he.measures _).1 n hn, (he.measures _).2 a ha⟩

theorem slots_extends {fields : List Field} (h : ∀ f ∈ fields, f.Complete σ)
    (he : σ.Extends σ') : slots σ' fields = slots σ fields := by
  apply List.map_congr_left
  intro f hf
  obtain ⟨n, a, hn, ha⟩ := h f hf
  simp only [slot, hn, ha, (he.measures _).1 n hn, (he.measures _).2 a ha]

/-! ### The invariant -/

/-- A structure record agrees with the fields it holds. -/
structure StructureType.Sound (σ : Store) (s : StructureType) : Prop where
  measured : ∀ f ∈ s.fields, f.Measured σ
  incomplete : ∀ isize, s.spec = .incomplete isize →
    Tight 0 (slots σ s.fields.reverse) ∧ stop 0 (slots σ s.fields.reverse) = isize
  complete : ∀ size align, s.spec = .complete size align →
    StructLayout (slots σ s.fields) size align

structure UnionType.Sound (σ : Store) (u : UnionType) : Prop where
  offset_zero : ∀ f ∈ u.ufields, f.foffset = 0
  complete : ∀ size align, u.uspec = some ⟨size, align⟩ →
    (∀ f ∈ u.ufields, f.Complete σ) ∧ UnionLayout (slots σ u.ufields) size align

structure Store.Sound (σ : Store) : Prop where
  structs : ∀ (i : Nat) s, σ.structs[i]? = some s → s.Sound σ
  unions : ∀ (i : Nat) u, σ.unions[i]? = some u → u.Sound σ

theorem StructureType.Sound.extends {s : StructureType} (h : s.Sound σ)
    (he : σ.Extends σ') : s.Sound σ' where
  measured f hf := (h.measured f hf).extends he
  incomplete isize hs := by
    have hc : ∀ f ∈ s.fields.reverse, f.Complete σ := fun f hf =>
      (h.measured f (List.mem_reverse.mp hf)).complete
    rw [slots_extends hc he]
    exact h.incomplete isize hs
  complete size align hs := by
    rw [slots_extends (fun f hf => (h.measured f hf).complete) he]
    exact h.complete size align hs

theorem UnionType.Sound.extends {u : UnionType} (h : u.Sound σ) (he : σ.Extends σ') :
    u.Sound σ' where
  offset_zero := h.offset_zero
  complete size align hu := by
    obtain ⟨hc, hl⟩ := h.complete size align hu
    rw [slots_extends hc he]
    exact ⟨fun f hf => (hc f hf).extends he, hl⟩

theorem Store.extends_setStruct {i isize : Nat} {tag : String} {fields : List Field}
    (h : σ.structs[i]? = some ⟨tag, .incomplete isize, fields⟩) (s : StructureType) :
    σ.Extends (σ.setStruct i s) where
  spec j size align hj := by
    by_cases hij : i = j
    · subst hij
      rw [spec_of_struct h] at hj
      cases hj
    · rw [spec_setStruct_ne hij, hj]
  uspec _ _ hj := hj

theorem Store.extends_setUnion {i : Nat} {utag : String} {ufields : List Field}
    (h : σ.unions[i]? = some ⟨utag, none, ufields⟩) (u : UnionType) :
    σ.Extends (σ.setUnion i u) where
  spec _ _ _ hj := hj
  uspec j s hj := by
    by_cases hij : i = j
    · subst hij
      rw [uspec_of_union h] at hj
      cases hj
    · rw [uspec_setUnion_ne hij, hj]

theorem Store.Sound.setStruct {i : Nat} {s : StructureType} (h : σ.Sound)
    (he : σ.Extends (σ.setStruct i s)) (hs : s.Sound (σ.setStruct i s)) :
    (σ.setStruct i s).Sound where
  structs j r hr := by
    by_cases hij : i = j
    · subst hij
      have hi : i < σ.structs.length := by
        have := (List.getElem?_eq_some_iff.mp hr).1
        simpa [Store.setStruct] using this
      have : r = s := by simpa [Store.setStruct, List.getElem?_set_self hi, eq_comm] using hr
      exact this ▸ hs
    · have hr' : σ.structs[j]? = some r := by
        simpa [Store.setStruct, List.getElem?_set_ne hij] using hr
      exact (h.structs j r hr').extends he
  unions j u hu := (h.unions j u hu).extends he

theorem Store.Sound.setUnion {i : Nat} {u : UnionType} (h : σ.Sound)
    (he : σ.Extends (σ.setUnion i u)) (hu : u.Sound (σ.setUnion i u)) :
    (σ.setUnion i u).Sound where
  structs j s hs := (h.structs j s hs).extends he
  unions j r hr := by
    by_cases hij : i = j
    · subst hij
      have hi : i < σ.unions.length := by
        have := (List.getElem?_eq_some_iff.mp hr).1
        simpa [Store.setUnion] using this
      have : r = u := by simpa [Store.setUnion, List.getElem?_set_self hi, eq_comm] using hr
      exact this ▸ hu
    · have hr' : σ.unions[j]? = some r := by
        simpa [Store.setUnion, List.getElem?_set_ne hij] using hr
      exact (h.unions j r hr').extends he

/-! ### Every run keeps it -/

/-- A field at the next aligned offset keeps a structure sound. -/
theorem StructureType.Sound.cons {tag : String} (label : String) {isize n a : Nat}
    {fields : List Field} {ftype : Typ} (h : StructureType.Sound σ ⟨tag, .incomplete isize, fields⟩)
    (hn : sizeof σ ftype = .ok n) (ha : alignment σ ftype = .ok a) (hpos : 0 < a) :
    StructureType.Sound σ ⟨tag, .incomplete (roundUp isize a + n),
      ⟨ftype, roundUp isize a, label⟩ :: fields⟩ where
  measured f hf := by
    obtain rfl | hf := List.mem_cons.mp hf
    · exact ⟨n, a, hn, ha, hpos⟩
    · exact h.measured f hf
  incomplete isize' hs := by
    cases hs
    obtain ⟨ht, hstop⟩ := h.incomplete isize rfl
    have hslots : slots σ (⟨ftype, roundUp isize a, label⟩ :: fields).reverse =
        slots σ fields.reverse ++ [Slot.next (stop 0 (slots σ fields.reverse)) n a] := by
      rw [hstop]
      simp only [slots, List.reverse_cons, List.map_append, List.map_cons, List.map_nil, slot,
        hn, ha, measure, Slot.next]
    constructor
    · rw [hslots]
      exact ht.snoc_next hpos
    · rw [hslots, stop_append, hstop]
      rfl
  complete _ _ hs := by cases hs

theorem isGreatest_align {fields : List Field} {a : Nat}
    (ha : maxFieldAlignment σ fields = .ok a) (hpos : 0 < a) :
    IsGreatest {b | ∃ s ∈ slots σ fields, s.align = b} a := by
  obtain ⟨hall, -, hm⟩ := maxOf_ok ha
  constructor
  · obtain rfl | ⟨f, hf, hfa⟩ := hm
    · omega
    · exact ⟨slot σ f, List.mem_map.mpr ⟨f, hf, rfl⟩, by rw [slot, hfa, measure]⟩
  · rintro b ⟨s, hs, rfl⟩
    obtain ⟨f, hf, rfl⟩ := List.mem_map.mp hs
    obtain ⟨m, hle, hfm⟩ := hall f hf
    show measure (alignment σ f.ftype) ≤ a
    rw [hfm]
    exact hle

/-- The measures that `seal` folds over are known and the alignments not all 0. -/
theorem exists_maxField {fields : List Field} (h : ∀ f ∈ fields, f.Measured σ)
    (hne : fields ≠ []) :
    ∃ n a, maxFieldSize σ fields = .ok n ∧ maxFieldAlignment σ fields = .ok a ∧ 0 < a := by
  obtain ⟨n, hn⟩ : ∃ n, maxFieldSize σ fields = .ok n :=
    maxOf_of_measured fun f hf => (h f hf).complete.imp fun _ ⟨_, hn, _⟩ => hn
  obtain ⟨m, hm⟩ : ∃ m, maxFieldAlignment σ fields = .ok m := by
    refine maxOf_of_measured fun f hf => ?_
    obtain ⟨-, a, -, ha, -⟩ := h f hf
    exact ⟨a, ha⟩
  refine ⟨n, m, hn, hm, ?_⟩
  obtain ⟨f, hf⟩ := List.exists_mem_of_ne_nil _ hne
  obtain ⟨-, a, -, ha, hpos⟩ := h f hf
  obtain ⟨b, hb, hfb⟩ := (maxOf_ok hm).1 f hf
  rw [ha] at hfb
  cases hfb
  omega

/-- The layout of a structure whose fields are in order and whose size and
alignment are those `seal` computes. -/
theorem StructureType.Sound.layout {tag : String} {isize a : Nat} {fields : List Field}
    (h : StructureType.Sound σ ⟨tag, .incomplete isize, fields⟩)
    (ha : maxFieldAlignment σ fields.reverse = .ok a) (hpos : 0 < a) :
    StructLayout (slots σ fields.reverse) (roundUp isize a) a := by
  obtain ⟨ht, hstop⟩ := h.incomplete isize rfl
  refine ⟨ht.aligned, ht.pairwise, ht, isGreatest_align ha hpos, ?_⟩
  rw [hstop]
  exact isLeast_roundUp hpos

theorem UnionType.layout {n a : Nat} {ufields : List Field}
    (h0 : ∀ f ∈ ufields, f.foffset = 0) (hn : maxFieldSize σ ufields = .ok n)
    (ha : maxFieldAlignment σ ufields = .ok a) (hpos : 0 < a) :
    (∀ f ∈ ufields, f.Complete σ) ∧ UnionLayout (slots σ ufields) (roundUp n a) a := by
  obtain ⟨halls, -, hmn⟩ := maxOf_ok hn
  obtain ⟨halla, -, -⟩ := maxOf_ok ha
  have hsize : ∀ s ∈ slots σ ufields, s.size ≤ n := by
    intro s hs
    obtain ⟨f, hf, rfl⟩ := List.mem_map.mp hs
    obtain ⟨m, hle, hfm⟩ := halls f hf
    show measure (sizeof σ f.ftype) ≤ n
    rw [hfm]
    exact hle
  constructor
  · intro f hf
    obtain ⟨m, -, hm⟩ := halls f hf
    obtain ⟨b, -, hb⟩ := halla f hf
    exact ⟨m, b, hm, hb⟩
  refine ⟨?_, isGreatest_align ha hpos, ⟨?_, dvd_roundUp⟩, ?_⟩
  · intro s hs
    obtain ⟨f, hf, rfl⟩ := List.mem_map.mp hs
    exact h0 f hf
  · intro s hs
    exact le_trans (hsize s hs) (le_roundUp hpos)
  · rintro m ⟨hm, hdvd⟩
    apply roundUp_le _ hdvd
    obtain rfl | ⟨f, hf, hfn⟩ := hmn
    · exact Nat.zero_le m
    · have := hm (slot σ f) (List.mem_map.mpr ⟨f, hf, rfl⟩)
      rwa [slot, hfn, measure] at this

theorem Store.Sound.newStructure (h : σ.Sound) (tag : String) :
    Store.Sound { σ with structs := σ.structs ++ [⟨tag, .incomplete 0, []⟩] } ∧
      σ.Extends { σ with structs := σ.structs ++ [⟨tag, .incomplete 0, []⟩] } := by
  have he : σ.Extends { σ with structs := σ.structs ++ [⟨tag, .incomplete 0, []⟩] } := by
    refine ⟨fun i size align hi => ?_, fun _ _ hu => hu⟩
    have hlt : i < σ.structs.length := by
      by_contra hge
      rw [Store.spec, List.getElem?_eq_none (by omega)] at hi
      cases hi
    rwa [Store.spec, List.getElem?_append_left hlt]
  refine ⟨⟨fun i s hs => ?_, fun i u hu => (h.unions i u hu).extends he⟩, he⟩
  rw [List.getElem?_append] at hs
  split at hs
  · exact (h.structs i s hs).extends he
  · have hmem : s ∈ [⟨tag, .incomplete 0, []⟩] := List.mem_of_getElem? hs
    rw [List.mem_singleton.mp hmem]
    refine ⟨by simp, ?_, fun _ _ hc => by cases hc⟩
    intro isize hi
    cases hi
    exact ⟨trivial, rfl⟩

theorem Store.Sound.newUnion (h : σ.Sound) (utag : String) :
    Store.Sound { σ with unions := σ.unions ++ [⟨utag, none, []⟩] } ∧
      σ.Extends { σ with unions := σ.unions ++ [⟨utag, none, []⟩] } := by
  have he : σ.Extends { σ with unions := σ.unions ++ [⟨utag, none, []⟩] } := by
    refine ⟨fun _ _ _ hs => hs, fun i s hi => ?_⟩
    have hlt : i < σ.unions.length := by
      by_contra hge
      rw [Store.uspec, List.getElem?_eq_none (by omega)] at hi
      cases hi
    rwa [Store.uspec, List.getElem?_append_left hlt]
  refine ⟨⟨fun i s hs => (h.structs i s hs).extends he, fun i u hu => ?_⟩, he⟩
  rw [List.getElem?_append] at hu
  split at hu
  · exact (h.unions i u hu).extends he
  · have hmem : u ∈ [⟨utag, none, []⟩] := List.mem_of_getElem? hu
    rw [List.mem_singleton.mp hmem]
    exact ⟨by simp, fun _ _ hc => by cases hc⟩

theorem after_eq {α : Type} {x : TypeM α} :
    (∀ a, x σ = .ok a σ' → TypeM.after x σ = σ') ∧
      ∀ e, x σ = .error e σ' → TypeM.after x σ = σ' := by
  constructor
  · intro a h
    rw [TypeM.after, h]
  · intro e h
    rw [TypeM.after, h]

theorem after_ignore {α : Type} (x : TypeM α) (σ : Store) :
    TypeM.after (x >>= fun _ => pure ()) σ = TypeM.after x σ := by
  simp only [TypeM.after, bind, EStateM.bind]
  cases x σ <;> rfl

theorem Store.Sound.field (h : σ.Sound) (label : String) (ftype t : Typ) :
    (TypeM.after (Mutable.field label ftype t) σ).Sound ∧
      σ.Extends (TypeM.after (Mutable.field label ftype t) σ) := by
  obtain ⟨e, he⟩ | ⟨i, tag, isize, fields, n, a, -, hs, hn, ha, hpos, hr⟩ |
    ⟨i, utag, ufields, -, hu, hr⟩ := field_cases label ftype t σ
  · rw [after_eq.2 e he]
    exact ⟨h, ⟨fun _ _ _ hs => hs, fun _ _ hu => hu⟩⟩
  · rw [after_eq.1 _ hr]
    have hext := Store.extends_setStruct hs
      ⟨tag, .incomplete (roundUp isize a + n), ⟨ftype, roundUp isize a, label⟩ :: fields⟩
    have hsound := (h.structs i _ hs).cons label hn ha hpos
    exact ⟨h.setStruct hext (hsound.extends hext), hext⟩
  · rw [after_eq.1 _ hr]
    have hext := Store.extends_setUnion hu ⟨utag, none, ⟨ftype, 0, label⟩ :: ufields⟩
    have hsound := (h.unions i _ hu).offset_zero
    refine ⟨h.setUnion hext ⟨?_, fun _ _ hc => by cases hc⟩, hext⟩
    intro f hf
    obtain rfl | hf := List.mem_cons.mp hf
    · rfl
    · exact hsound f hf

theorem Store.Sound.sealTyp (h : σ.Sound) (t : Typ) :
    (TypeM.after (Mutable.sealTyp t) σ).Sound ∧
      σ.Extends (TypeM.after (Mutable.sealTyp t) σ) := by
  obtain ⟨e, he⟩ | ⟨i, tag, isize, fields, -, hs, hne, hr⟩ | ⟨i, utag, ufields, -, hu, -, hr⟩ :=
    sealTyp_cases t σ
  · rw [after_eq.2 e he]
    exact ⟨h, ⟨fun _ _ _ hs => hs, fun _ _ hu => hu⟩⟩
  · have hsound := h.structs i _ hs
    have hmeasured : ∀ f ∈ fields.reverse, f.Measured σ := fun f hf =>
      hsound.measured f (List.mem_reverse.mp hf)
    -- The fields of a structure were complete when they were added.
    have hne' : fields.reverse ≠ [] := mt List.reverse_eq_nil_iff.mp hne
    obtain ⟨-, b, -, hb, hbpos⟩ := exists_maxField hmeasured hne'
    obtain ⟨e, hm, -⟩ | ⟨a, ha, hpos, hr⟩ := hr
    · obtain hm | hm := hm
      · rw [hb] at hm
        cases hm
      · rw [hb] at hm
        cases hm
        omega
    · rw [after_eq.1 _ hr]
      have hext := Store.extends_setStruct hs ⟨tag, .complete (roundUp isize a) a, fields.reverse⟩
      have hnew : StructureType.Sound σ ⟨tag, .complete (roundUp isize a) a, fields.reverse⟩ := by
        refine ⟨hmeasured, fun _ hc => (nomatch hc), fun size align hc => ?_⟩
        cases hc
        exact hsound.layout ha hpos
      exact ⟨h.setStruct hext (hnew.extends hext), hext⟩
  · have hrev : ∀ f ∈ ufields.reverse, f.foffset = 0 := fun f hf =>
      (h.unions i _ hu).offset_zero f (List.mem_reverse.mp hf)
    obtain ⟨e, -, hr⟩ | ⟨n, a, hn, ha, hpos, hr⟩ := hr
    · rw [after_eq.2 e hr]
      have hext := Store.extends_setUnion hu ⟨utag, none, ufields.reverse⟩
      exact ⟨h.setUnion hext ⟨hrev, fun _ _ hc => by cases hc⟩, hext⟩
    · rw [after_eq.1 _ hr]
      have hext := Store.extends_setUnion hu
        ⟨utag, some ⟨roundUp n a, a⟩, ufields.reverse⟩
      have hnew : UnionType.Sound σ ⟨utag, some ⟨roundUp n a, a⟩, ufields.reverse⟩ := by
        refine ⟨hrev, fun size align hc => ?_⟩
        cases hc
        exact UnionType.layout hrev hn ha hpos
      exact ⟨h.setUnion hext (hnew.extends hext), hext⟩

/-- Each call keeps the store sound and completes types only. -/
theorem Store.Sound.run (h : σ.Sound) (c : Call) :
    (c.run σ).Sound ∧ σ.Extends (c.run σ) := by
  cases c with
  | newStructure tag => exact h.newStructure tag
  | newUnion utag => exact h.newUnion utag
  | field label ftype t =>
      rw [Call.run, Call.exec, after_ignore]
      exact h.field label ftype t
  | sealTyp t => exact h.sealTyp t

theorem Reachable.sound (h : Reachable σ) : σ.Sound := by
  obtain ⟨cs, rfl⟩ := h
  apply StraightLine.run_preserves (I := Store.Sound)
  · exact fun c _ τ hτ => (hτ.run c).1
  · exact ⟨fun _ _ hs => (nomatch hs), fun _ _ hu => (nomatch hu)⟩

/-! ### A structure and its fields, one after the other -/

def Call.target : Call → Option Typ
  | .newStructure _ => none
  | .newUnion _ => none
  | .field _ _ t => some t.core
  | .sealTyp t => some t.core

/-- A call adds a type or replaces the record of its target. -/
theorem Call.run_changes (c : Call) (σ : Store) :
    c.run σ = σ ∨ (∃ s, c.run σ = { σ with structs := σ.structs ++ [s] }) ∨
      (∃ u, c.run σ = { σ with unions := σ.unions ++ [u] }) ∨
      (∃ i s, c.target = some (.struct i) ∧ c.run σ = σ.setStruct i s) ∨
      ∃ i u, c.target = some (.union i) ∧ c.run σ = σ.setUnion i u := by
  cases c with
  | newStructure tag => exact .inr (.inl ⟨_, rfl⟩)
  | newUnion utag => exact .inr (.inr (.inl ⟨_, rfl⟩))
  | field label ftype t =>
      rw [Call.run, Call.exec, after_ignore, Call.target]
      obtain ⟨e, he⟩ | ⟨i, tag, isize, fields, n, a, ht, -, -, -, -, hr⟩ |
        ⟨i, utag, ufields, ht, -, hr⟩ := field_cases label ftype t σ
      · exact .inl (after_eq.2 e he)
      · exact .inr (.inr (.inr (.inl ⟨i, _, by rw [ht], after_eq.1 _ hr⟩)))
      · exact .inr (.inr (.inr (.inr ⟨i, _, by rw [ht], after_eq.1 _ hr⟩)))
  | sealTyp t =>
      rw [Call.run, Call.exec, Call.target]
      obtain ⟨e, he⟩ | ⟨i, tag, isize, fields, ht, -, -, hr⟩ | ⟨i, utag, ufields, ht, -, -, hr⟩ :=
        sealTyp_cases t σ
      · exact .inl (after_eq.2 e he)
      · refine .inr (.inr (.inr (.inl ?_)))
        obtain ⟨e, -, hr⟩ | ⟨a, -, -, hr⟩ := hr
        · exact ⟨i, _, by rw [ht], after_eq.2 e hr⟩
        · exact ⟨i, _, by rw [ht], after_eq.1 _ hr⟩
      · refine .inr (.inr (.inr (.inr ?_)))
        obtain ⟨e, -, hr⟩ | ⟨n, a, -, -, -, hr⟩ := hr
        · exact ⟨i, _, by rw [ht], after_eq.2 e hr⟩
        · exact ⟨i, _, by rw [ht], after_eq.1 _ hr⟩

/-- Calls on other types leave a structure as it is. -/
theorem Call.run_struct_of_ne {c : Call} {i : Nat} {s : StructureType}
    (hs : σ.structs[i]? = some s) (hc : c.target ≠ some (.struct i)) :
    (c.run σ).structs[i]? = some s := by
  obtain h | ⟨r, h⟩ | ⟨u, h⟩ | ⟨j, r, ht, h⟩ | ⟨j, u, -, h⟩ := c.run_changes σ
  · rwa [h]
  · rw [h]
    show (σ.structs ++ [r])[i]? = some s
    rw [List.getElem?_append_left (List.getElem?_eq_some_iff.mp hs).1, hs]
  · rwa [h]
  · have hj : j ≠ i := by
      rintro rfl
      exact hc ht
    rw [h]
    show (σ.structs.set j r)[i]? = some s
    rwa [List.getElem?_set_ne hj]
  · rwa [h]

/-- Calls on other types leave a union as it is. -/
theorem Call.run_union_of_ne {c : Call} {i : Nat} {u : UnionType}
    (hu : σ.unions[i]? = some u) (hc : c.target ≠ some (.union i)) :
    (c.run σ).unions[i]? = some u := by
  obtain h | ⟨s, h⟩ | ⟨r, h⟩ | ⟨j, s, -, h⟩ | ⟨j, r, ht, h⟩ := c.run_changes σ
  · rwa [h]
  · rwa [h]
  · rw [h]
    show (σ.unions ++ [r])[i]? = some u
    rw [List.getElem?_append_left (List.getElem?_eq_some_iff.mp hu).1, hu]
  · rwa [h]
  · have hj : j ≠ i := by
      rintro rfl
      exact hc ht
    rw [h]
    show (σ.unions.set j r)[i]? = some u
    rwa [List.getElem?_set_ne hj]

/-- `Additions t σ ds σ'`: a run from `σ` to `σ'` adds the fields `ds` to `t`,
all of types that are complete by then and aligned at a power of two. Calls on
other types may come in between. -/
inductive Additions (t : Typ) (σ : Store) : List (String × Typ) → Store → Prop
  | nil : Additions t σ [] σ
  | field {ds : List (String × Typ)} {σ' : Store} {label : String} {ftype u : Typ} {n k : Nat}
      (h : Additions t σ ds σ') (hu : u.core = t) (hn : sizeof σ' ftype = .ok n)
      (ha : alignment σ' ftype = .ok (2 ^ k)) :
      Additions t σ (ds ++ [(label, ftype)]) (Call.run (.field label ftype u) σ')
  | other {ds : List (String × Typ)} {σ' : Store} {c : Call}
      (h : Additions t σ ds σ') (hc : c.target ≠ some t) : Additions t σ ds (c.run σ')

/-- What a call of `field` is given. -/
def Field.decl (f : Field) : String × Typ := (f.fname, f.ftype)

section Additions

variable {t : Typ} {ds : List (String × Typ)} {i : Nat} {tag utag : String}

theorem Additions.reachable (h : Additions t σ ds σ') (hσ : Reachable σ) : Reachable σ' := by
  induction h with
  | nil => exact hσ
  | field _ _ _ _ ih => exact ih.run _
  | other _ _ ih => exact ih.run _

/-- The fields of an incomplete structure, the last one first. -/
theorem Additions.struct (h : Additions (.struct i) σ ds σ')
    (hi : σ.structs[i]? = some ⟨tag, .incomplete 0, []⟩) :
    ∃ isize fields, σ'.structs[i]? = some ⟨tag, .incomplete isize, fields⟩ ∧
      fields.reverse.map Field.decl = ds := by
  induction h with
  | nil => exact ⟨0, [], hi, rfl⟩
  | @field ds σ' label ftype u n k _ hu hn ha ih =>
      obtain ⟨isize, fields, hs, hds⟩ := ih
      have hr := field_struct label hs hn ha (Nat.two_pow_pos k)
      rw [← hu, field_core] at hr
      rw [Call.run, Call.exec, after_ignore, after_eq.1 _ hr]
      have hlt := (List.getElem?_eq_some_iff.mp hs).1
      refine ⟨_, _, List.getElem?_set_self hlt, ?_⟩
      rw [List.reverse_cons, List.map_append, hds]
      rfl
  | other _ hc ih =>
      obtain ⟨isize, fields, hs, hds⟩ := ih
      exact ⟨isize, fields, Call.run_struct_of_ne hs hc, hds⟩

theorem Additions.union (h : Additions (.union i) σ ds σ') (hσ : Reachable σ)
    (hi : σ.unions[i]? = some ⟨utag, none, []⟩) :
    ∃ ufields, σ'.unions[i]? = some ⟨utag, none, ufields⟩ ∧
      (∀ f ∈ ufields, f.Measured σ') ∧ ufields.reverse.map Field.decl = ds := by
  induction h with
  | nil => exact ⟨[], hi, by simp, rfl⟩
  | @field ds σ' label ftype u n k h hu hn ha ih =>
      obtain ⟨ufields, hr, hm, hds⟩ := ih
      have hext := ((h.reachable hσ).sound.run (.field label ftype u)).2
      have hf := field_union label ftype hr
      rw [← hu, field_core] at hf
      have hrun : Call.run (.field label ftype u) σ' =
          σ'.setUnion i ⟨utag, none, ⟨ftype, 0, label⟩ :: ufields⟩ := by
        rw [Call.run, Call.exec, after_ignore, after_eq.1 _ hf]
      have hlt := (List.getElem?_eq_some_iff.mp hr).1
      refine ⟨⟨ftype, 0, label⟩ :: ufields, ?_, ?_, ?_⟩
      · rw [hrun]
        exact List.getElem?_set_self hlt
      · intro f hf
        obtain rfl | hf := List.mem_cons.mp hf
        · exact Field.Measured.extends ⟨n, _, hn, ha, Nat.two_pow_pos k⟩ hext
        · exact (hm f hf).extends hext
      · rw [List.reverse_cons, List.map_append, hds]
        rfl
  | @other ds σ' c h hc ih =>
      obtain ⟨ufields, hr, hm, hds⟩ := ih
      have hext := ((h.reachable hσ).sound.run c).2
      exact ⟨ufields, Call.run_union_of_ne hr hc, fun f hf => (hm f hf).extends hext, hds⟩

theorem Additions.struct_layout {u : Typ} (h : Additions (.struct i) σ ds σ')
    (hσ : Reachable σ) (hi : σ.structs[i]? = some ⟨tag, .incomplete 0, []⟩) (hds : ds ≠ [])
    (hu : u.core = .struct i) :
    ∃ size align fields σ'', sealTyp u σ' = .ok () σ'' ∧
      σ''.structs[i]? = some ⟨tag, .complete size align, fields⟩ ∧
      fields.map Field.decl = ds ∧ StructLayout (slots σ'' fields) size align := by
  obtain ⟨isize, fields, hs, hfields⟩ := h.struct hi
  have hsound := (h.reachable hσ).sound.structs i _ hs
  have hne : fields ≠ [] := by
    rintro rfl
    exact hds hfields.symm
  obtain ⟨-, a, -, ha, hpos⟩ := exists_maxField
    (fun f hf => hsound.measured f (List.mem_reverse.mp hf))
    (mt List.reverse_eq_nil_iff.mp hne)
  have hr := sealTyp_struct_ok hs hne ha hpos
  rw [← hu, sealTyp_core] at hr
  have hsealed : (Call.run (.sealTyp u) σ').Sound := ((h.reachable hσ).run (.sealTyp u)).sound
  rw [Call.run, Call.exec, after_eq.1 _ hr] at hsealed
  have hget := List.getElem?_set_self (List.getElem?_eq_some_iff.mp hs).1
    (a := ⟨tag, .complete (roundUp isize a) a, fields.reverse⟩)
  exact ⟨roundUp isize a, a, fields.reverse, _, hr, hget, hfields,
    (hsealed.structs i _ hget).complete _ _ rfl⟩

theorem Additions.union_layout {u : Typ} (h : Additions (.union i) σ ds σ')
    (hσ : Reachable σ) (hi : σ.unions[i]? = some ⟨utag, none, []⟩) (hds : ds ≠ [])
    (hu : u.core = .union i) :
    ∃ size align ufields σ'', sealTyp u σ' = .ok () σ'' ∧
      σ''.unions[i]? = some ⟨utag, some ⟨size, align⟩, ufields⟩ ∧
      ufields.map Field.decl = ds ∧ UnionLayout (slots σ'' ufields) size align := by
  obtain ⟨ufields, hr, hm, hfields⟩ := h.union hσ hi
  have hne : ufields ≠ [] := by
    rintro rfl
    exact hds hfields.symm
  obtain ⟨n, a, hn, ha, hpos⟩ := exists_maxField
    (fun f hf => hm f (List.mem_reverse.mp hf)) (mt List.reverse_eq_nil_iff.mp hne)
  have hs := sealTyp_union_ok hr hne hn ha hpos
  rw [← hu, sealTyp_core] at hs
  have hsealed : (Call.run (.sealTyp u) σ').Sound := ((h.reachable hσ).run (.sealTyp u)).sound
  rw [Call.run, Call.exec, after_eq.1 _ hs] at hsealed
  have hget := List.getElem?_set_self (List.getElem?_eq_some_iff.mp hr).1
    (a := ⟨utag, some ⟨roundUp n a, a⟩, ufields.reverse⟩)
  exact ⟨roundUp n a, a, ufields.reverse, _, hs, hget, hfields,
    ((hsealed.unions i _ hget).complete _ _ rfl).2⟩

end Additions

end CtypesCbuf.Ctypes.Mutable
