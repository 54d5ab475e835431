import CtypesCbuf.Ctypes.WrappingStore
import CtypesCbuf.Lib.Simulation

/-!
The code computes the sizes and offsets of C as long as these are OCaml
integers. The two machines go through the same calls side by side, with the
same records, the same results and the same exceptions.
-/

namespace CtypesCbuf.Ctypes.Mutable.Wrapping

open Alignment Simulation
open IntFormat (i63)

/-! ### The same numbers and records -/

/-- `z` is what the code computes for `n`. -/
structure Computes (z : Int) (n : Nat) : Prop where
  inRange : i63.InRange z
  eq : n < 2 ^ 62 → z = n

inductive StructSpec.Twin : StructSpec → Ctypes.StructSpec → Prop
  | incomplete {isize : Int} {n : Nat} (h : Computes isize n) :
      StructSpec.Twin (.incomplete isize) (.incomplete n)
  | complete {size : Int} {n : Nat} (align : Nat) (h : Computes size n) :
      StructSpec.Twin (.complete size align) (.complete n align)

inductive StructuredSpec.Twin : Option StructuredSpec → Option Ctypes.StructuredSpec → Prop
  | none : StructuredSpec.Twin none none
  | some {size : Int} {n : Nat} (align : Nat) (h : Computes size n) :
      StructuredSpec.Twin (some ⟨size, align⟩) (some ⟨n, align⟩)

structure Field.Twin (f : Field) (g : Mutable.Field) : Prop where
  ftype : f.ftype = g.ftype
  foffset : Computes f.foffset g.foffset
  fname : f.fname = g.fname

structure StructureType.Twin (s : StructureType) (r : Mutable.StructureType) : Prop where
  tag : s.tag = r.tag
  spec : StructSpec.Twin s.spec r.spec
  fields : List.Forall₂ Field.Twin s.fields r.fields

structure UnionType.Twin (u : UnionType) (r : Mutable.UnionType) : Prop where
  utag : u.utag = r.utag
  uspec : StructuredSpec.Twin u.uspec r.uspec
  ufields : List.Forall₂ Field.Twin u.ufields r.ufields

structure Store.Twin (τ : Store) (σ : Mutable.Store) : Prop where
  structs : List.Forall₂ StructureType.Twin τ.structs σ.structs
  unions : List.Forall₂ UnionType.Twin τ.unions σ.unions

/-! ### Numbers -/

variable {z x : Int} {n m a : Nat}

theorem Computes.of_lt (h : n < 2 ^ 62) : Computes n n :=
  ⟨IntFormat.inRange_i63_natCast.mpr h, fun _ => rfl⟩

theorem Computes.wrap (h : n < 2 ^ 62 → i63.wrap z = i63.wrap n) : Computes (i63.wrap z) n :=
  ⟨i63.wrap_inRange z, fun hn => (h hn).trans
    (IntFormat.wrap_of_inRange (IntFormat.inRange_i63_natCast.mpr hn))⟩

theorem Computes.add (h : Computes z n) (h' : Computes x m) :
    Computes (i63.wrap (z + x)) (n + m) := by
  refine .wrap fun hlt => ?_
  rw [h.eq (by omega), h'.eq (by omega), Int.natCast_add]

theorem Computes.max (h : Computes z n) (h' : Computes x m) :
    Computes (max z x) (max n m) := by
  refine ⟨?_, fun hlt => ?_⟩
  · rcases le_total z x with hle | hle
    · rw [max_eq_right hle]
      exact h'.inRange
    · rw [max_eq_left hle]
      exact h.inRange
  · rw [h.eq (by omega), h'.eq (by omega), Nat.cast_max]

theorem Computes.mul (h : Computes z n) (k : Nat) : Computes (mul k z) (k * n) := by
  refine .wrap fun hlt => ?_
  rcases Nat.eq_zero_or_pos k with rfl | hk
  · simp
  · have hle : n ≤ k * n := Nat.le_mul_of_pos_left n hk
    rw [h.eq (by omega), Int.natCast_mul]

/-- To wrap around after every factor or once is the same. -/
theorem wrap_foldl_mul (ds : List Nat) (k : Nat) (h : i63.wrap z = i63.wrap n) :
    i63.wrap (ds.foldl (fun y (d : Nat) => Wrapping.mul y d) z * k) =
      i63.wrap ((ds.foldl (fun y d => y * d) n * k : Nat) : Int) := by
  induction ds generalizing z n with
  | nil =>
      rw [List.foldl_nil, List.foldl_nil, Int.mul_comm, ← IntFormat.wrap_mul_wrap, h,
        IntFormat.wrap_mul_wrap, Int.natCast_mul, Int.mul_comm]
  | cons d ds ih =>
      refine ih ?_
      show i63.wrap (i63.wrap (z * d)) = i63.wrap ((n * d : Nat) : Int)
      rw [IntFormat.wrap_wrap (Nat.le_refl _), Int.mul_comm, ← IntFormat.wrap_mul_wrap, h,
        IntFormat.wrap_mul_wrap, Int.natCast_mul, Int.mul_comm]

theorem computes_bigarray (ba : Bigarray) :
    Computes (mul (elements ba) ba.elementType.size)
      (ba.dimensions.foldl (fun y d => y * d) 1 * ba.elementType.size) :=
  .wrap fun _ => wrap_foldl_mul ba.dimensions ba.elementType.size rfl

theorem alignedOffset_eq (z : Int) (ha : 0 < a) : alignedOffset z a =
    .ok (if z.tmod a = 0 then z else i63.wrap (z - z.tmod a + a)) := by
  rw [alignedOffset, if_neg (Nat.ne_of_gt ha)]
  split
  · rename_i h
    rw [if_pos h]
  · rename_i h
    rw [if_neg h]

theorem alignedOffset_agree (h : Computes z n) (a : Nat) :
    Agree Computes (alignedOffset z a) (Ctypes.alignedOffset n a) := by
  rcases Nat.eq_zero_or_pos a with rfl | ha
  · exact .error _
  rw [alignedOffset_eq z ha, Mutable.alignedOffset_eq ha]
  have hle := le_roundUp (n := n) ha
  refine .ok ⟨?_, fun hlt => ?_⟩
  · split
    · exact h.inRange
    · exact i63.wrap_inRange _
  · rw [h.eq (by omega), ← Int.ofNat_tmod, roundUp]
    rw [roundUp] at hlt
    have hmod := Nat.mod_le n a
    split
    · rename_i hzero
      rw [if_pos (by exact_mod_cast hzero)]
    · rename_i hzero
      rw [if_neg (by exact_mod_cast hzero)] at hlt ⊢
      have heq : (n : Int) - (n % a : Nat) + a = (n - n % a + a : Nat) := by omega
      rw [heq, IntFormat.wrap_of_inRange (IntFormat.inRange_i63_natCast.mpr hlt)]

/-! ### Measures -/

variable {τ : Store} {σ : Mutable.Store} {i : Nat}

theorem Store.Twin.struct (h : τ.Twin σ) (i : Nat) :
    (τ.structs[i]? = none ∧ σ.structs[i]? = none) ∨
      ∃ s r, τ.structs[i]? = some s ∧ σ.structs[i]? = some r ∧ s.Twin r :=
  forall₂_getElem? h.structs i

theorem Store.Twin.union (h : τ.Twin σ) (i : Nat) :
    (τ.unions[i]? = none ∧ σ.unions[i]? = none) ∨
      ∃ u r, τ.unions[i]? = some u ∧ σ.unions[i]? = some r ∧ u.Twin r :=
  forall₂_getElem? h.unions i

theorem Store.Twin.spec (h : τ.Twin σ) (i : Nat) : StructSpec.Twin (τ.spec i) (σ.spec i) := by
  rw [Store.spec, Mutable.Store.spec]
  rcases h.struct i with ⟨hs, hr⟩ | ⟨s, r, hs, hr, htwin⟩
  · rw [hs, hr]
    exact .incomplete (.of_lt (Nat.two_pow_pos 62))
  · rw [hs, hr]
    exact htwin.spec

theorem Store.Twin.uspec (h : τ.Twin σ) (i : Nat) :
    StructuredSpec.Twin (τ.uspec i) (σ.uspec i) := by
  rw [Store.uspec, Mutable.Store.uspec]
  rcases h.union i with ⟨hu, hr⟩ | ⟨u, r, hu, hr, htwin⟩
  · rw [hu, hr]
    exact .none
  · rw [hu, hr]
    exact htwin.uspec

theorem Store.Twin.alignment (h : τ.Twin σ) : (t : Typ) →
    Wrapping.alignment τ t = Mutable.alignment σ t
  | .void | .primitive _ | .pointer _ | .funptr _ | .abstract _ | .bigarray _ | .ocaml _ => rfl
  | .struct i => by
      have hspec := h.spec i
      rw [Wrapping.alignment, Mutable.alignment]
      generalize τ.spec i = s at *
      generalize σ.spec i = r at *
      cases hspec <;> rfl
  | .union i => by
      have hspec := h.uspec i
      rw [Wrapping.alignment, Mutable.alignment]
      generalize τ.uspec i = s at *
      generalize σ.uspec i = r at *
      cases hspec <;> rfl
  | .array t _ => h.alignment t
  | .view _ ty => h.alignment ty

theorem Store.Twin.sizeof (h : τ.Twin σ) : (t : Typ) →
    Agree Computes (Wrapping.sizeof τ t) (Mutable.sizeof σ t)
  | .void | .ocaml _ => .error _
  | .primitive p => .ok (.of_lt (by cases p <;> decide))
  | .pointer _ | .funptr _ => .ok (.of_lt (by decide))
  | .abstract a => .ok (.wrap fun _ => rfl)
  | .bigarray ba => .ok (computes_bigarray ba)
  | .struct i => by
      have hspec := h.spec i
      rw [Wrapping.sizeof, Mutable.sizeof]
      generalize τ.spec i = s at *
      generalize σ.spec i = r at *
      cases hspec with
      | incomplete => exact .error _
      | complete align hn => exact .ok hn
  | .union i => by
      have hspec := h.uspec i
      rw [Wrapping.sizeof, Mutable.sizeof]
      generalize τ.uspec i = s at *
      generalize σ.uspec i = r at *
      cases hspec with
      | none => exact .error _
      | some align hn => exact .ok hn
  | .array t n => (h.sizeof t).map fun _ _ hm => hm.mul n
  | .view _ ty => h.sizeof ty

theorem maxFieldAlignment_agree (h : τ.Twin σ) {fs : List Field} {gs : List Mutable.Field}
    (hfs : List.Forall₂ Field.Twin fs gs) :
    Agree Eq (maxFieldAlignment τ fs) (Mutable.maxFieldAlignment σ gs) := by
  refine Agree.foldlM hfs (fun a b f g hab hfg => ?_) rfl
  rw [hab, hfg.ftype, h.alignment]
  cases Mutable.alignment σ g.ftype with
  | error e => exact .error e
  | ok m => exact .ok rfl

theorem maxFieldSize_agree (h : τ.Twin σ) {fs : List Field} {gs : List Mutable.Field}
    (hfs : List.Forall₂ Field.Twin fs gs) :
    Agree Computes (maxFieldSize τ fs) (Mutable.maxFieldSize σ gs) := by
  refine Agree.foldlM hfs (fun a b f g hab hfg => ?_) (.of_lt (Nat.two_pow_pos 62))
  rw [hfg.ftype]
  exact (h.sizeof g.ftype).bind fun _ _ hn => .ok (hab.max hn)

/-! ### Programs -/

variable {α β : Type} {R : α → β → Prop}

theorem query_simulates {f : Store → Except Exn α} {g : Mutable.Store → Except Exn β}
    (h : ∀ τ σ, τ.Twin σ → Agree R (f τ) (g σ)) :
    Simulates Store.Twin R (query f) (Mutable.query g) := by
  intro τ σ hτ
  have hfg := h τ σ hτ
  rw [query, Mutable.query]
  generalize f τ = x at hfg
  generalize g σ = y at hfg
  cases hfg with
  | ok hr => exact .ok hr hτ
  | error e => exact .error e hτ

theorem getStruct_simulates (i : Nat) :
    Simulates Store.Twin StructureType.Twin (getStruct i) (Mutable.getStruct i) := by
  refine query_simulates fun τ σ h => ?_
  rcases h.struct i with ⟨hs, hr⟩ | ⟨s, r, hs, hr, htwin⟩
  · rw [hs, hr]
    exact .error _
  · rw [hs, hr]
    exact .ok htwin

theorem getUnion_simulates (i : Nat) :
    Simulates Store.Twin UnionType.Twin (getUnion i) (Mutable.getUnion i) := by
  refine query_simulates fun τ σ h => ?_
  rcases h.union i with ⟨hu, hr⟩ | ⟨u, r, hu, hr, htwin⟩
  · rw [hu, hr]
    exact .error _
  · rw [hu, hr]
    exact .ok htwin

theorem putStruct_simulates (i : Nat) {s : StructureType} {r : Mutable.StructureType}
    (h : s.Twin r) :
    Simulates Store.Twin (fun _ _ => True) (putStruct i s) (Mutable.putStruct i r) :=
  .modify fun _ _ hτ => ⟨forall₂_set hτ.structs h i, hτ.unions⟩

theorem putUnion_simulates (i : Nat) {u : UnionType} {r : Mutable.UnionType} (h : u.Twin r) :
    Simulates Store.Twin (fun _ _ => True) (putUnion i u) (Mutable.putUnion i r) :=
  .modify fun _ _ hτ => ⟨hτ.structs, forall₂_set hτ.unions h i⟩

theorem newStructure_simulates (tag : String) :
    Simulates Store.Twin Eq (newStructure tag) (Mutable.newStructure tag) := by
  intro τ σ h
  rw [newStructure, Mutable.newStructure, h.structs.length_eq]
  exact .ok rfl ⟨List.rel_append h.structs
    (.cons ⟨rfl, .incomplete (.of_lt (Nat.two_pow_pos 62)), .nil⟩ .nil), h.unions⟩

theorem newUnion_simulates (utag : String) :
    Simulates Store.Twin Eq (newUnion utag) (Mutable.newUnion utag) := by
  intro τ σ h
  rw [newUnion, Mutable.newUnion, h.unions.length_eq]
  exact .ok rfl ⟨h.structs, List.rel_append h.unions (.cons ⟨rfl, .none, .nil⟩ .nil)⟩

theorem field_simulates (label : String) (ftype : Typ) : (t : Typ) →
    Simulates Store.Twin Field.Twin (field label ftype t) (Mutable.field label ftype t)
  | .struct i => by
      rw [field, Mutable.field]
      refine (getStruct_simulates i).bind fun s r htwin => ?_
      obtain ⟨tag, spec, fields⟩ := s
      obtain ⟨tag', spec', fields'⟩ := r
      obtain ⟨htag, hspec, hfields⟩ := htwin
      cases htag
      cases hspec with
      | complete align h => exact .throw _
      | incomplete h =>
          refine (query_simulates fun τ σ hτ => ?_ : Simulates _ Eq _ _).bind fun align _ ha => ?_
          · rw [hτ.alignment]
            cases Mutable.alignment σ ftype with
            | error e => exact .error e
            | ok a => exact .ok rfl
          subst ha
          refine (query_simulates fun _ _ _ => alignedOffset_agree h align).bind
            fun foffset n ho => ?_
          refine (query_simulates fun _ _ hτ => hτ.sizeof ftype).bind fun size m hm => ?_
          dsimp only at hfields ⊢
          refine (putStruct_simulates i ⟨rfl, .incomplete (ho.add hm), hfields⟩).bind
            fun _ _ _ => ?_
          exact (putStruct_simulates i ⟨rfl, .incomplete (ho.add hm),
            .cons ⟨rfl, ho, rfl⟩ hfields⟩).bind fun _ _ _ => .pure ⟨rfl, ho, rfl⟩
  | .union i => by
      rw [field, Mutable.field]
      refine (getUnion_simulates i).bind fun u r htwin => ?_
      obtain ⟨utag, uspec, ufields⟩ := u
      obtain ⟨utag', uspec', ufields'⟩ := r
      obtain ⟨hutag, huspec, hufields⟩ := htwin
      cases hutag
      cases huspec with
      | some align h => exact .throw _
      | none =>
          have hzero : Computes 0 0 := .of_lt (Nat.two_pow_pos 62)
          exact (putUnion_simulates i ⟨rfl, .none, .cons ⟨rfl, hzero, rfl⟩ hufields⟩).bind
            fun _ _ _ => .pure ⟨rfl, hzero, rfl⟩
  | .view _ ty => field_simulates label ftype ty
  | .void | .primitive _ | .pointer _ | .funptr _ | .abstract _ | .array _ _ | .bigarray _
  | .ocaml _ => .throw _

theorem sealTyp_simulates : (t : Typ) →
    Simulates Store.Twin (fun _ _ => True) (sealTyp t) (Mutable.sealTyp t)
  | .struct i => by
      rw [sealTyp, Mutable.sealTyp]
      refine (getStruct_simulates i).bind fun s r htwin => ?_
      obtain ⟨tag, spec, fields⟩ := s
      obtain ⟨tag', spec', fields'⟩ := r
      obtain ⟨htag, hspec, hfields⟩ := htwin
      cases htag
      cases hspec with
      | complete align h => cases hfields <;> exact .throw _
      | incomplete h =>
          cases hfields with
          | nil => exact .throw _
          | cons hf hfs =>
              have hrev := List.rel_reverse (.cons hf hfs)
              refine (putStruct_simulates i ⟨rfl, .incomplete h, hrev⟩).bind fun _ _ _ => ?_
              refine (query_simulates fun τ σ hτ => maxFieldAlignment_agree hτ hrev).bind
                fun align _ ha => ?_
              subst ha
              refine (query_simulates fun _ _ _ => alignedOffset_agree h align).bind
                fun size n hn => ?_
              exact putStruct_simulates i ⟨rfl, .complete align hn, hrev⟩
  | .union i => by
      rw [sealTyp, Mutable.sealTyp]
      refine (getUnion_simulates i).bind fun u r htwin => ?_
      obtain ⟨utag, uspec, ufields⟩ := u
      obtain ⟨utag', uspec', ufields'⟩ := r
      obtain ⟨hutag, huspec, hufields⟩ := htwin
      cases hutag
      cases huspec with
      | some align h => exact .throw _
      | none =>
          cases hufields with
          | nil => exact .throw _
          | cons hf hfs =>
              have hrev := List.rel_reverse (.cons hf hfs)
              refine (putUnion_simulates i ⟨rfl, .none, hrev⟩).bind fun _ _ _ => ?_
              refine (query_simulates fun τ σ hτ => maxFieldSize_agree hτ hrev).bind
                fun size n hn => ?_
              refine (query_simulates fun τ σ hτ => maxFieldAlignment_agree hτ hrev).bind
                fun align _ ha => ?_
              subst ha
              refine (query_simulates fun _ _ _ => alignedOffset_agree hn align).bind
                fun size n hn => ?_
              exact putUnion_simulates i ⟨rfl, .some align hn, hrev⟩
  | .view _ ty => sealTyp_simulates ty
  | .void | .primitive _ | .pointer _ | .funptr _ | .abstract _ | .array _ _ | .bigarray _
  | .ocaml _ => .throw _

/-- A call does the same to both stores, the fields of a union that cannot be
sealed included. -/
theorem exec_simulates (c : Call) :
    Simulates Store.Twin (fun _ _ => True) (exec c) c.exec := by
  cases c with
  | newStructure tag => exact (newStructure_simulates tag).bind fun _ _ _ => .pure trivial
  | newUnion utag => exact (newUnion_simulates utag).bind fun _ _ _ => .pure trivial
  | field label ftype t => exact (field_simulates label ftype t).bind fun _ _ _ => .pure trivial
  | sealTyp t => exact sealTyp_simulates t

theorem Store.Twin.after {x : TypeM α} {y : Mutable.TypeM β} (h : τ.Twin σ)
    (hxy : Simulates Store.Twin R x y) : (after x τ).Twin (Mutable.TypeM.after y σ) := by
  have hends := hxy τ σ h
  rw [Wrapping.after, Mutable.TypeM.after]
  generalize x τ = r at hends
  generalize y σ = r' at hends
  cases hends with
  | ok _ hs => exact hs
  | error e hs => exact hs

/-- Runs of the same calls. -/
theorem Store.Twin.calls (h : τ.Twin σ) (cs : List Call) :
    (calls cs τ).Twin (StraightLine.run Call.run cs σ) := by
  induction cs generalizing τ σ with
  | nil => exact h
  | cons c cs ih => exact ih (h.after (exec_simulates c))

theorem Store.Twin.empty : Store.empty.Twin Mutable.Store.empty := ⟨.nil, .nil⟩

end CtypesCbuf.Ctypes.Mutable.Wrapping
