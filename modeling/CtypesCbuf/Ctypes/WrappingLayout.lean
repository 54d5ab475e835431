import CtypesCbuf.Ctypes.WrappingSteps

/-!
The layouts that the code computes are those of C for the types whose size in
C is an OCaml integer, and for no others.
-/

namespace CtypesCbuf.Ctypes.Mutable.Wrapping

open Alignment Simulation
open IntFormat (i63)

/-- The types that calls make, with the sizes and offsets that they have in C. -/
def cTypes (cs : List Call) : Mutable.Store := StraightLine.run Call.run cs Mutable.Store.empty

/-- The size in C is an OCaml integer. -/
def Fits (cs : List Call) (t : Typ) : Prop :=
  ∃ n, Mutable.sizeof (cTypes cs) t = .ok n ∧ n < 2 ^ 62

/-- What a call of `field` is given. -/
def Field.decl (f : Field) : String × Typ := (f.fname, f.ftype)

/-- The calls `cs` add the fields `ds` to `t`, all of types that are complete by
then and aligned at a power of two. Calls on other types may come in between. -/
inductive Additions (t : Typ) (τ : Store) : List Call → List (String × Typ) → Prop
  | nil : Additions t τ [] []
  | field {cs : List Call} {ds : List (String × Typ)} {label : String} {ftype u : Typ} {z : Int}
      {k : Nat} (h : Additions t τ cs ds) (hu : u.core = t)
      (hz : sizeof (calls cs τ) ftype = .ok z)
      (ha : alignment (calls cs τ) ftype = .ok (2 ^ k)) :
      Additions t τ (cs ++ [.field label ftype u]) (ds ++ [(label, ftype)])
  | other {cs : List Call} {ds : List (String × Typ)} {c : Call} (h : Additions t τ cs ds)
      (hc : c.target ≠ some t) : Additions t τ (cs ++ [c]) ds

/-- The fields are where the slots are, and of their sizes and alignments in C. -/
def Placed (σ : Mutable.Store) (fields : List Field) (ss : List Slot) : Prop :=
  List.Forall₂ (fun f s => f.foffset = s.offset ∧ Mutable.sizeof σ f.ftype = .ok s.size ∧
    Mutable.alignment σ f.ftype = .ok s.align) fields ss

def HasStructLayout (σ : Mutable.Store) (fields : List Field) (size : Int) (align : Nat) : Prop :=
  ∃ ss n, Placed σ fields ss ∧ StructLayout ss n align ∧ size = (n : Int)

def HasUnionLayout (σ : Mutable.Store) (ufields : List Field) (size : Int) (align : Nat) : Prop :=
  ∃ ss n, Placed σ ufields ss ∧ UnionLayout ss n align ∧ size = (n : Int)

/-! ### Layouts side by side -/

variable {τ : Store} {σ : Mutable.Store} {fields : List Field} {gs : List Mutable.Field}
  {ss : List Slot} {size : Int} {i n align : Nat} {t : Typ} {cs₀ cs : List Call}
  {ds : List (String × Typ)}

theorem calls_append (cs ds : List Call) (τ : Store) :
    calls (cs ++ ds) τ = calls ds (calls cs τ) := StraightLine.run_append ..

theorem twin_cTypes (cs : List Call) : (calls cs .empty).Twin (cTypes cs) :=
  Store.Twin.empty.calls cs

theorem cTypes_reachable (cs : List Call) : Reachable (cTypes cs) := ⟨cs, rfl⟩

theorem decl_eq (h : List.Forall₂ Field.Twin fields gs) :
    fields.map Field.decl = gs.map Mutable.Field.decl := by
  induction h with
  | nil => rfl
  | cons hfg _ ih =>
      rw [List.map_cons, List.map_cons, ih, Field.decl, Mutable.Field.decl, hfg.ftype, hfg.fname]

/-- The slots of the fields, where all of the offsets are OCaml integers. -/
theorem placed_slots (h : List.Forall₂ Field.Twin fields gs)
    (hcomplete : ∀ g ∈ gs, g.Complete σ) (hle : ∀ g ∈ gs, g.foffset < 2 ^ 62) :
    Placed σ fields (slots σ gs) := by
  induction h with
  | nil => exact .nil
  | @cons f g fs gs hfg _ ih =>
      obtain ⟨n, a, hn, ha⟩ := hcomplete g (by simp)
      refine .cons ⟨?_, ?_, ?_⟩ (ih (fun k hk => hcomplete k (by simp [hk]))
        fun k hk => hle k (by simp [hk]))
      · exact hfg.foffset.eq (hle g (by simp))
      · rw [hfg.ftype, slot, hn, measure]
      · rw [hfg.ftype, slot, ha, measure]

/-- Slots of the same fields have the same sizes and alignments. -/
theorem Placed.shapes (hp : Placed σ fields ss) (h : List.Forall₂ Field.Twin fields gs) :
    ss.map (fun s => (s.size, s.align)) = (slots σ gs).map fun s => (s.size, s.align) := by
  induction h generalizing ss with
  | nil =>
      cases hp
      rfl
  | @cons f g fs gs hfg _ ih =>
      cases hp with
      | @cons _ s _ ss hs hp =>
          obtain ⟨-, hsize, halign⟩ := hs
          rw [hfg.ftype] at hsize halign
          have hslot : slot σ g = ⟨g.foffset, s.size, s.align⟩ := by
            rw [slot, hsize, halign, measure, measure]
          show (s.size, s.align) :: _ = ((slot σ g).size, (slot σ g).align) :: _
          rw [hslot]
          exact congrArg _ (ih hp)

theorem hasStructLayout_iff (h : List.Forall₂ Field.Twin fields gs) (hsize : Computes size n)
    (hcomplete : ∀ g ∈ gs, g.Complete σ) (hlayout : StructLayout (slots σ gs) n align) :
    HasStructLayout σ fields size align ↔ n < 2 ^ 62 := by
  constructor
  · rintro ⟨ss, m, hp, hss, rfl⟩
    have heq : ss = slots σ gs := hss.tight.unique hlayout.tight (hp.shapes h)
    have hleast := hss.size_least
    rw [heq] at hleast
    rw [hlayout.size_least.unique hleast]
    exact IntFormat.inRange_i63_natCast.mp hsize.inRange
  · intro hlt
    refine ⟨slots σ gs, n, placed_slots h hcomplete fun g hg => ?_, hlayout, hsize.eq hlt⟩
    have hstop := hlayout.tight.stop_le (slot σ g) (List.mem_map_of_mem hg)
    have hend := hlayout.size_least.1.1
    have hoffset : g.foffset ≤ (slot σ g).stop := Nat.le_add_right ..
    omega

theorem hasUnionLayout_iff (h : List.Forall₂ Field.Twin fields gs) (hsize : Computes size n)
    (hcomplete : ∀ g ∈ gs, g.Complete σ) (hlayout : UnionLayout (slots σ gs) n align) :
    HasUnionLayout σ fields size align ↔ n < 2 ^ 62 := by
  constructor
  · rintro ⟨ss, m, hp, hss, rfl⟩
    have hsizes : ∀ k, (∀ s ∈ ss, s.size ≤ k) ↔ ∀ s ∈ slots σ gs, s.size ≤ k := by
      intro k
      have hmap := congrArg (List.map Prod.fst) (hp.shapes h)
      rw [List.map_map, List.map_map] at hmap
      have hmem : ∀ ts : List Slot, (∀ s ∈ ts, s.size ≤ k) ↔
          ∀ j ∈ ts.map (Prod.fst ∘ fun s => (s.size, s.align)), j ≤ k := by simp
      rw [hmem, hmap, ← hmem]
    have hleast := hss.size_least
    simp only [hsizes] at hleast
    rw [hlayout.size_least.unique hleast]
    exact IntFormat.inRange_i63_natCast.mp hsize.inRange
  · intro hlt
    refine ⟨slots σ gs, n, placed_slots h hcomplete fun g hg => ?_, hlayout, hsize.eq hlt⟩
    have hzero := hlayout.offset_zero (slot σ g) (List.mem_map_of_mem hg)
    rw [show g.foffset = 0 from hzero]
    exact Nat.two_pow_pos 62

/-- The same additions in both machines. -/
theorem Additions.cTypes (h : Additions t τ cs ds) (hτ : τ.Twin σ) :
    Mutable.Additions t σ ds (StraightLine.run Call.run cs σ) := by
  induction h with
  | nil => exact .nil
  | @field cs ds label ftype u z k _ hu hz ha ih =>
      have htwin := hτ.calls cs
      rw [StraightLine.run_append]
      have hsize := htwin.sizeof ftype
      rw [hz] at hsize
      obtain ⟨n, hn, -⟩ := hsize.ok_of
      exact ih.field hu hn (by rw [← htwin.alignment, ha])
  | @other cs ds c _ hc ih =>
      rw [StraightLine.run_append]
      exact ih.other hc

/-- A fresh record is fresh in the other machine. -/
theorem Store.Twin.fresh_struct (h : τ.Twin σ) (hσ : σ.Sound) {i : Nat} {tag : String}
    (hi : τ.structs[i]? = some ⟨tag, .incomplete 0, []⟩) :
    σ.structs[i]? = some ⟨tag, .incomplete 0, []⟩ := by
  rcases h.struct i with ⟨hs, -⟩ | ⟨s, r, hs, hr, htwin⟩
  · rw [hi] at hs
    cases hs
  · rw [hi] at hs
    cases hs
    obtain ⟨tag', spec, fields⟩ := r
    obtain ⟨rfl, hspec, hfields⟩ := htwin
    cases hfields
    cases hspec with
    | incomplete _ =>
        have hstop := ((hσ.structs i _ hr).incomplete _ rfl).2
        rw [hr, ← hstop]
        rfl

theorem Store.Twin.fresh_union (h : τ.Twin σ) {i : Nat} {utag : String}
    (hi : τ.unions[i]? = some ⟨utag, none, []⟩) : σ.unions[i]? = some ⟨utag, none, []⟩ := by
  rcases h.union i with ⟨hu, -⟩ | ⟨u, r, hu, hr, htwin⟩
  · rw [hi] at hu
    cases hu
  · rw [hi] at hu
    cases hu
    obtain ⟨utag', uspec, ufields⟩ := r
    obtain ⟨rfl, huspec, hufields⟩ := htwin
    cases hufields
    cases huspec
    exact hr

/-- Where one machine seals a type, the other does. -/
theorem Store.Twin.sealed (h : τ.Twin σ) {u : Typ} {σ' : Mutable.Store}
    (hr : Mutable.sealTyp u σ = .ok () σ') : ∃ τ', sealTyp u τ = .ok () τ' ∧ τ'.Twin σ' := by
  have hends := sealTyp_simulates u τ σ h
  rw [hr] at hends
  generalize sealTyp u τ = r at hends
  cases hends with
  | ok _ hs => exact ⟨_, rfl, hs⟩

/-! ### The layout of C -/

theorem Additions.struct_iff (h : Additions (.struct i) (calls cs₀ .empty) cs ds) {tag : String}
    (hi : (calls cs₀ .empty).structs[i]? = some ⟨tag, .incomplete 0, []⟩) (hds : ds ≠ [])
    {u : Typ} (hu : u.core = .struct i) :
    ∃ size align fields τ', sealTyp u (calls (cs₀ ++ cs) .empty) = .ok () τ' ∧
      τ'.structs[i]? = some ⟨tag, .complete size align, fields⟩ ∧ fields.map Field.decl = ds ∧
      (HasStructLayout (Wrapping.cTypes (cs₀ ++ cs ++ [.sealTyp u])) fields size align ↔
        Fits (cs₀ ++ cs ++ [.sealTyp u]) (.struct i)) := by
  have htwin := twin_cTypes cs₀
  have hreach := cTypes_reachable cs₀
  obtain ⟨n, align, gs, σ', hr, hget, hgs, hlayout⟩ :=
    (h.cTypes htwin).struct_layout hreach (htwin.fresh_struct hreach.sound hi) hds hu
  obtain ⟨τ', hr', htwin'⟩ := (htwin.calls cs).sealed hr
  have hσ' : Wrapping.cTypes (cs₀ ++ cs ++ [.sealTyp u]) = σ' := by
    rw [Wrapping.cTypes, StraightLine.run_append, StraightLine.run_append]
    exact after_eq.1 _ hr
  rcases htwin'.struct i with ⟨-, hs⟩ | ⟨s, r, hs, hr'', hsame⟩
  · rw [hget] at hs
    cases hs
  rw [hget] at hr''
  cases hr''
  obtain ⟨tag', spec, fields⟩ := s
  obtain ⟨rfl, hspec, hfields⟩ := hsame
  cases hspec with
  | @complete size _ _ hsize =>
      refine ⟨size, align, fields, τ', ?_, hs, (decl_eq hfields).trans hgs, ?_⟩
      · rw [calls_append]
        exact hr'
      · have hsound := (cTypes_reachable (cs₀ ++ cs ++ [.sealTyp u])).sound
        rw [hσ'] at hsound
        rw [Fits, hσ', Mutable.sizeof, spec_of_struct hget,
          hasStructLayout_iff hfields hsize
            (fun g hg => ((hsound.structs i _ hget).measured g hg).complete) hlayout]
        refine ⟨fun hlt => ⟨n, rfl, hlt⟩, fun h => ?_⟩
        obtain ⟨_, hn, hlt⟩ := h
        cases hn
        exact hlt

theorem Additions.union_iff (h : Additions (.union i) (calls cs₀ .empty) cs ds) {utag : String}
    (hi : (calls cs₀ .empty).unions[i]? = some ⟨utag, none, []⟩) (hds : ds ≠ [])
    {u : Typ} (hu : u.core = .union i) :
    ∃ size align ufields τ', sealTyp u (calls (cs₀ ++ cs) .empty) = .ok () τ' ∧
      τ'.unions[i]? = some ⟨utag, some ⟨size, align⟩, ufields⟩ ∧ ufields.map Field.decl = ds ∧
      (HasUnionLayout (Wrapping.cTypes (cs₀ ++ cs ++ [.sealTyp u])) ufields size align ↔
        Fits (cs₀ ++ cs ++ [.sealTyp u]) (.union i)) := by
  have htwin := twin_cTypes cs₀
  have hreach := cTypes_reachable cs₀
  obtain ⟨n, align, gs, σ', hr, hget, hgs, hlayout⟩ :=
    (h.cTypes htwin).union_layout hreach (htwin.fresh_union hi) hds hu
  obtain ⟨τ', hr', htwin'⟩ := (htwin.calls cs).sealed hr
  have hσ' : Wrapping.cTypes (cs₀ ++ cs ++ [.sealTyp u]) = σ' := by
    rw [Wrapping.cTypes, StraightLine.run_append, StraightLine.run_append]
    exact after_eq.1 _ hr
  rcases htwin'.union i with ⟨-, hs⟩ | ⟨s, r, hs, hr'', hsame⟩
  · rw [hget] at hs
    cases hs
  rw [hget] at hr''
  cases hr''
  obtain ⟨utag', uspec, ufields⟩ := s
  obtain ⟨rfl, huspec, hufields⟩ := hsame
  cases huspec with
  | @some size _ _ hsize =>
      refine ⟨size, align, ufields, τ', ?_, hs, (decl_eq hufields).trans hgs, ?_⟩
      · rw [calls_append]
        exact hr'
      · have hsound := (cTypes_reachable (cs₀ ++ cs ++ [.sealTyp u])).sound
        rw [hσ'] at hsound
        rw [Fits, hσ', Mutable.sizeof, uspec_of_union hget,
          hasUnionLayout_iff hufields hsize ((hsound.unions i _ hget).complete n align rfl).1
            hlayout]
        refine ⟨fun hlt => ⟨n, rfl, hlt⟩, fun h => ?_⟩
        obtain ⟨_, hn, hlt⟩ := h
        cases hn
        exact hlt

/-- A fresh structure or union that is given fields and sealed has its fields in
the order of the calls. It has the layout of C if and only if its size in C is
an OCaml integer. -/
theorem sealed_layout_iff (cs₀ : List Call) :
    (∀ i tag cs ds u, (calls cs₀ .empty).structs[i]? = some ⟨tag, .incomplete 0, []⟩ →
      Additions (.struct i) (calls cs₀ .empty) cs ds → ds ≠ [] → u.core = .struct i →
      ∃ size align fields τ', sealTyp u (calls (cs₀ ++ cs) .empty) = .ok () τ' ∧
        τ'.structs[i]? = some ⟨tag, .complete size align, fields⟩ ∧ fields.map Field.decl = ds ∧
        (HasStructLayout (cTypes (cs₀ ++ cs ++ [.sealTyp u])) fields size align ↔
          Fits (cs₀ ++ cs ++ [.sealTyp u]) (.struct i))) ∧
    ∀ i utag cs ds u, (calls cs₀ .empty).unions[i]? = some ⟨utag, none, []⟩ →
      Additions (.union i) (calls cs₀ .empty) cs ds → ds ≠ [] → u.core = .union i →
      ∃ size align ufields τ', sealTyp u (calls (cs₀ ++ cs) .empty) = .ok () τ' ∧
        τ'.unions[i]? = some ⟨utag, some ⟨size, align⟩, ufields⟩ ∧
        ufields.map Field.decl = ds ∧
        (HasUnionLayout (cTypes (cs₀ ++ cs ++ [.sealTyp u])) ufields size align ↔
          Fits (cs₀ ++ cs ++ [.sealTyp u]) (.union i)) :=
  ⟨fun _ _ _ _ _ hi h hds hu => h.struct_iff hi hds hu,
    fun _ _ _ _ _ hi h hds hu => h.union_iff hi hds hu⟩

/-- A structure and a union of a `char` and an `int`, through a view. -/
theorem sealed_layout_char_int :
    let cs₀ : List Call := [.newStructure "s", .newUnion "u"]
    let add (t : Typ) : List Call :=
      [.field "c" (.primitive .char) t, .field "i" (.primitive .int) t]
    let ds := [("c", Typ.primitive .char), ("i", Typ.primitive .int)]
    (∃ size align fields τ',
      sealTyp (.view 0 (.struct 0)) (calls (cs₀ ++ add (.struct 0)) .empty) = .ok () τ' ∧
        τ'.structs[0]? = some ⟨"s", .complete size align, fields⟩ ∧ fields.map Field.decl = ds ∧
        HasStructLayout (cTypes (cs₀ ++ add (.struct 0) ++ [.sealTyp (.view 0 (.struct 0))]))
          fields size align) ∧
      ∃ size align ufields τ',
        sealTyp (.union 0) (calls (cs₀ ++ add (.union 0)) .empty) = .ok () τ' ∧
        τ'.unions[0]? = some ⟨"u", some ⟨size, align⟩, ufields⟩ ∧ ufields.map Field.decl = ds ∧
        HasUnionLayout (cTypes (cs₀ ++ add (.union 0) ++ [.sealTyp (.union 0)])) ufields size
          align := by
  intro cs₀ add ds
  have hadd (t : Typ) (ht : t.core = t) : Additions t (calls cs₀ .empty) (add t) ds :=
    .field (z := 4) (k := 2) (.field (z := 1) (k := 0) .nil ht rfl rfl) ht rfl rfl
  have h := sealed_layout_iff cs₀
  obtain ⟨size, align, fields, τ', hr, hget, hds, hiff⟩ :=
    h.1 0 "s" _ ds (.view 0 (.struct 0)) rfl (hadd (.struct 0) rfl) (by simp [ds]) rfl
  obtain ⟨size', align', ufields, τ'', hr', hget', hds', hiff'⟩ :=
    h.2 0 "u" _ ds (.union 0) rfl (hadd (.union 0) rfl) (by simp [ds]) rfl
  exact ⟨⟨size, align, fields, τ', hr, hget, hds, hiff.mpr ⟨8, rfl, by decide⟩⟩,
    size', align', ufields, τ'', hr', hget', hds', hiff'.mpr ⟨4, rfl, by decide⟩⟩

/-- An array of `char` that takes up all bytes but one, and two `char`. -/
def hugeFields (t : Typ) : List Call :=
  [.field "a" (.array (.primitive .char) (2 ^ 62 - 1)) t, .field "b" (.primitive .char) t,
    .field "c" (.primitive .char) t]

/-- The last field gets a negative offset, though no field is of a negative
size. -/
theorem hugeFields_not_layout :
    Additions (.struct 0) (calls [.newStructure "s"] .empty) (hugeFields (.struct 0))
        [("a", .array (.primitive .char) (2 ^ 62 - 1)), ("b", .primitive .char),
          ("c", .primitive .char)] ∧
      sizeof .empty (.array (.primitive .char) (2 ^ 62 - 1)) = .ok (2 ^ 62 - 1) ∧
      ∃ fields size τ',
        sealTyp (.struct 0) (calls ([.newStructure "s"] ++ hugeFields (.struct 0)) .empty) =
          .ok () τ' ∧
        τ'.structs[0]? = some ⟨"s", .complete size 1, fields⟩ ∧
        fields[2]? = some ⟨.primitive .char, -2 ^ 62, "c"⟩ ∧
        ∀ σ, ¬ HasStructLayout σ fields size 1 := by
  have hadd (t : Typ) (ht : t.core = t) :
      Additions t (calls [.newStructure "s"] .empty) (hugeFields t)
        [("a", .array (.primitive .char) (2 ^ 62 - 1)), ("b", .primitive .char),
          ("c", .primitive .char)] :=
    .field (z := 1) (k := 0) (.field (z := 1) (k := 0) (.field (z := 2 ^ 62 - 1) (k := 0)
      .nil ht rfl rfl) ht rfl rfl) ht rfl rfl
  refine ⟨hadd (.struct 0) rfl, rfl, _, _, _, rfl, rfl, rfl, ?_⟩
  rintro σ ⟨ss, n, hp, -, -⟩
  cases hp with
  | cons _ hp =>
      cases hp with
      | cons _ hp =>
          cases hp with
          | @cons _ s _ _ h _ =>
              have hoffset : (-2 ^ 62 : Int) = s.offset := h.1
              omega

end CtypesCbuf.Ctypes.Mutable.Wrapping
