import Mathlib.Data.List.Nodup
import CtypesCbuf.Cbuf.Acceptance
import CtypesCbuf.Cbuf.Program
import CtypesCbuf.Lib.FirstMatch
import CtypesCbuf.MlLanguage.Patterns

/-!
The generated function `foreign`. It takes the first case whose pattern
matches the specification and whose name is the one asked for. A pattern
matches the specifications of one shape, and the position of the buffers is
no part of the shape.
-/

namespace CtypesCbuf.Cbuf

open NameSupply Supply
open Ctypes hiding Fn
open CLanguage Stubs GenerateML MlLanguage

/-! ### What a pattern matches -/

def MatchesTyp (p : MlPat) (s : Shape) : Prop :=
  ∀ q t, (matchPat p (.typ q t)).isSome ↔ shapeTyp t = s

def MatchesCbuffers (p : MlPat) (s : BufferShape) : Prop :=
  ∀ b, (matchPat p (.cbuffers b)).isSome ↔ shapeCbuffers b = s

def MatchesFn (p : MlPat) (s : FnShape) : Prop :=
  ∀ i f, (matchPat p (.fn i f)).isSome ↔ shapeFn f = s

theorem constructorCidentOfPrim_nodup : (Prim.all.map constructorCidentOfPrim).Nodup := by
  decide +kernel

theorem constructorCidentOfPrim_inj {p q : Prim} :
    constructorCidentOfPrim p = constructorCidentOfPrim q ↔ p = q := by
  constructor
  · exact List.inj_on_of_nodup_map constructorCidentOfPrim_nodup p.mem_all q.mem_all
  · rintro rfl
    rfl

theorem ocamlTypeCon_inj {o o' : OcamlType} : ocamlTypeCon o = ocamlTypeCon o' ↔ o = o' := by
  cases o <;> cases o' <;> simp [ocamlTypeCon]

/-- A pattern of the library for types. -/
theorem matchesTyp_con {c : String} {ps : List MlPat} {s : Shape}
    (h : ∀ q t, (∃ ds, (Data.typ q t).con = some (["CI", c], ds) ∧
      List.Forall₂ (fun p d => (matchPat p d).isSome) ps ds) ↔ shapeTyp t = s) :
    MatchesTyp (staticCon c ps) s := fun q t => matchCon_isSome.trans (h q t)

theorem matchesTyp_void : MatchesTyp (staticCon "Void" []) .void := by
  apply matchesTyp_con
  intro q t
  cases t <;> simp

theorem matchesTyp_primitive (k : Prim) :
    MatchesTyp (staticCon "Primitive" [.con (constructorCidentOfPrim k) .nil])
      (.primitive k) := by
  apply matchesTyp_con
  intro q t
  cases t <;> simp [matchPat_nullary, constructorCidentOfPrim_inj]

theorem matchesTyp_ocaml (ty : OcamlType) :
    MatchesTyp (staticCon "OCaml" [.con (ocamlTypeCon ty) .nil]) (.ocaml ty) := by
  apply matchesTyp_con
  intro q t
  cases t <;> simp [matchPat_nullary, ocamlTypeCon_inj]

theorem matchesTyp_pointer {p : MlPat} (h : ∀ d, (matchPat p d).isSome) :
    MatchesTyp (staticCon "Pointer" [p]) .pointer := by
  apply matchesTyp_con
  intro q t
  cases t <;> simp [h]

theorem matchesTyp_funptr {p : MlPat} (h : ∀ d, (matchPat p d).isSome) :
    MatchesTyp (staticCon "Funptr" [p]) .funptr := by
  apply matchesTyp_con
  intro q t
  cases t <;> simp [h]

theorem matchesTyp_struct : MatchesTyp (staticCon "Struct" [.underscore]) .struct := by
  apply matchesTyp_con
  intro q t
  cases t <;> simp [matchPat_underscore]

theorem matchesTyp_union : MatchesTyp (staticCon "Union" [.underscore]) .union := by
  apply matchesTyp_con
  intro q t
  cases t <;> simp [matchPat_underscore]

theorem MatchesTyp.as {p : MlPat} {s : Shape} (h : MatchesTyp p s) (x : String) :
    MatchesTyp (.as p x) s := by
  intro q t
  rw [matchPat, Option.isSome_map]
  exact h q t

/-- A view is matched through its type; the other field is bound only. -/
theorem MatchesTyp.view {p : MlPat} {s : Shape} (h : MatchesTyp p s) {l : Path}
    (hl : l = ["write"] ∨ l = ["read"]) (n : Nat) :
    MatchesTyp (staticCon "View"
      [.record (.cons ["CI", "ty"] p (.cons l (.var (freshName n)) .nil)) false])
      (.view s) := by
  apply matchesTyp_con
  intro q t
  cases t with
  | view v ty =>
      rw [con_view, shapeTyp, Shape.view.injEq, ← h q.below ty]
      rcases hl with rfl | rfl <;>
        cases hp : matchPat p (.typ q.below ty) <;> simp [matchPat, matchFields, Data.field, hp]
  | _ => simp

/-! ### The patterns of a case -/

theorem patternAndExpOfTyp_matches {concurrency : ConcurrencyPolicy}
    {errno_ : ErrnoPolicy} {t : Typ} {e : MlExp} {pol : Polarity} {binds : List MlBind}
    {n n' : Nat} {r : PatternExp}
    (h : patternAndExpOfTyp concurrency errno_ t e pol binds n = .ok (r, n')) :
    MatchesTyp r.pat (shapeTyp t) := by
  induction t using Typ.core.induct generalizing e n n' r with
  | case1 v ty ih =>
      cases pol with
      | arg =>
          simp only [patternAndExpOfTyp, freshVar_bind, ident_bind, bind_eq_ok,
            pure_apply, Except.ok.injEq, Prod.mk.injEq] at h
          obtain ⟨r, n1, hr, rfl, -⟩ := h
          exact (ih hr).view (.inl rfl) _
      | result =>
          simp only [patternAndExpOfTyp, bind_eq_ok, freshVar_apply,
            pure_apply, Except.ok.injEq, Prod.mk.injEq] at h
          obtain ⟨r, n1, hr, -, -, ⟨rfl, -⟩, -, -, -, rfl, -⟩ := h
          exact (ih hr).view (.inr rfl) _
  | case2 t hview =>
      cases t with
      | view v ty => exact absurd rfl (hview v ty)
      | void =>
          obtain ⟨rfl, -⟩ := Prod.mk.inj (Except.ok.inj h)
          exact matchesTyp_void
      | primitive p =>
          obtain ⟨rfl, -⟩ := Prod.mk.inj (Except.ok.inj h)
          exact matchesTyp_primitive p
      | ocaml o =>
          cases pol with
          | arg =>
              have hpat : r.pat = staticCon "OCaml" [.con (ocamlTypeCon o) .nil] := by
                cases o <;> obtain ⟨rfl, -⟩ := Prod.mk.inj (Except.ok.inj h) <;> rfl
              rw [hpat]
              exact matchesTyp_ocaml o
          | result => cases o <;> simp [patternAndExpOfTyp] at h
      | abstract a => simp [patternAndExpOfTyp] at h
      | array u k => simp [patternAndExpOfTyp] at h
      | bigarray ba => simp [patternAndExpOfTyp] at h
      | pointer u =>
          cases pol <;> simp only [patternAndExpOfTyp, freshVar_bind, bind_eq_ok,
            pure_apply, Except.ok.injEq, Prod.mk.injEq] at h <;>
            obtain ⟨_, _, -, rfl, -⟩ := h
          · exact matchesTyp_pointer matchPat_underscore
          · exact matchesTyp_pointer (matchPat_freshName _)
      | funptr fn =>
          cases pol <;> simp only [patternAndExpOfTyp, freshVar_bind, bind_eq_ok,
            pure_apply, Except.ok.injEq, Prod.mk.injEq] at h <;>
            obtain ⟨_, _, -, rfl, -⟩ := h
          · exact matchesTyp_funptr matchPat_underscore
          · exact matchesTyp_funptr (matchPat_freshName _)
      | struct tag spec fields =>
          cases pol <;> simp only [patternAndExpOfTyp, freshVar_bind, bind_eq_ok,
            pure_apply, Except.ok.injEq, Prod.mk.injEq] at h <;>
            obtain ⟨_, _, -, rfl, -⟩ := h
          · exact matchesTyp_struct
          · exact matchesTyp_struct.as _
      | union utag uspec ufields =>
          cases pol <;> simp only [patternAndExpOfTyp, freshVar_bind, bind_eq_ok,
            pure_apply, Except.ok.injEq, Prod.mk.injEq] at h <;>
            obtain ⟨_, _, -, rfl, -⟩ := h
          · exact matchesTyp_union
          · exact matchesTyp_union.as _

theorem matchesCbuffers_lastBuf {p : MlPat} {s : Shape} (h : MatchesTyp p s) (i : Nat) :
    MatchesCbuffers (localCon "LastBuf" [.var (Nat.repr i), p]) (.lastBuf i s) := by
  intro b
  rw [localCon, matchCon_isSome]
  cases b with
  | conBuf l r => simp
  | lastBuf j t =>
      have hlit : (matchPat (.var (Nat.repr i)) (.int j)).isSome ↔ j = i := by
        simp [matchPat]
      simp [hlit, h ⟨.buffer, 0⟩ t]

theorem patternAndExpOfCbuffers2_matches {b : CBuffers} {e : MlExp} {binds : List MlBind}
    {n n' : Nat} {r : BufferExp}
    (h : patternAndExpOfCbuffers2 b e binds n = .ok (r, n')) :
    MatchesCbuffers r.pat (shapeCbuffers b) := by
  induction b generalizing e n n' r with
  | lastBuf i t =>
      simp only [patternAndExpOfCbuffers2, bind_eq_ok, freshVar_bind, ident_bind, pure_apply,
        Except.ok.injEq, Prod.mk.injEq] at h
      obtain ⟨q, n1, hq, rfl, -⟩ := h
      exact matchesCbuffers_lastBuf (patternAndExpOfTyp_matches hq) i
  | conBuf l b ihl ihb =>
      cases l with
      | conBuf l1 l2 => simp [patternAndExpOfCbuffers2] at h
      | lastBuf i t =>
          simp only [patternAndExpOfCbuffers2, bind_eq_ok, freshVar_bind, ident_bind,
            pure_apply, Except.ok.injEq, Prod.mk.injEq] at h
          obtain ⟨q, n1, hq, r2, n2, hr2, rfl, -⟩ := h
          have hlast := matchesCbuffers_lastBuf (patternAndExpOfTyp_matches hq) i
          intro b'
          rw [localCon, matchCon_isSome]
          cases b' with
          | lastBuf j t' => simp
          | conBuf l' r' => simp [hlast l', ihb hr2 r']

theorem wrapperBody_matches {concurrency : ConcurrencyPolicy} {errno_ : ErrnoPolicy}
    {pol : Polarity} {f : Fn} {exp : MlExp} {binds : List MlBind} {n n' : Nat}
    {s : WrapperState} (h : wrapperBody concurrency errno_ pol f exp binds n = .ok (s, n')) :
    MatchesFn s.pat (shapeFn f) := by
  induction f generalizing exp binds n n' s with
  | returns t =>
      simp only [wrapperBody, bind_eq_ok, pure_apply, Except.ok.injEq,
        Prod.mk.injEq] at h
      obtain ⟨r, n1, hr, rfl, -⟩ := h
      have ht := patternAndExpOfTyp_matches hr
      intro i f
      rw [localCon, matchCon_isSome]
      cases f <;> simp [ht ⟨.result, 0⟩]
  | function f t ih =>
      obtain ⟨r, n1, q, hr, hq, rfl⟩ := wrapperBody_function h
      have hf := patternAndExpOfTyp_matches hr
      have hp := ih hq
      intro i g
      rw [localCon, matchCon_isSome]
      cases g <;> simp [hf ⟨.argument i, 0⟩, hp (i + 1)]
  | buffers cpos b r ih =>
      cases r with
      | function f t => simp [wrapperBody] at h
      | buffers cpos' b' r' => simp [wrapperBody] at h
      | returns t =>
          simp only [wrapperBody, patternAndExpOfCbuffers, Supply.pure_bind, bind_eq_ok,
            freshVar_bind, ident_bind, pure_apply, Except.ok.injEq, Prod.mk.injEq] at h
          obtain ⟨q, n1, hq, p, n2, ⟨q2, n3, hq2, rfl, -⟩, rfl, -⟩ := h
          have ht := patternAndExpOfTyp_matches hq
          have hb := patternAndExpOfCbuffers2_matches hq2
          have hreturns : ∀ i g, (matchPat (localCon "Returns" [q.pat]) (.fn i g)).isSome ↔
              shapeFn g = .returns (shapeTyp t) := by
            intro i g
            rw [localCon, matchCon_isSome]
            cases g <;> simp [ht ⟨.result, 0⟩]
          intro i g
          rw [localCon, matchCon_isSome]
          cases g with
          | returns u => simp
          | function u g => simp
          | buffers cpos' b' g =>
              simp [matchPat_underscore, hb b', hreturns i g]

theorem wrapper_matches {concurrency : ConcurrencyPolicy} {errno_ : ErrnoPolicy}
    {id : Path} {f : Fn} {name : String} {pol : Polarity} {pat : MlPat} {exp : MlExp}
    {n n' : Nat} (h : wrapper concurrency errno_ id f name pol n = .ok ((pat, exp), n')) :
    MatchesFn pat (shapeFn f) := by
  simp only [wrapper, bind_eq_ok] at h
  obtain ⟨e, n3, -, p, n4, hp, hw⟩ := h
  suffices hpat : pat = p.pat by
    rw [hpat]
    exact wrapperBody_matches hp
  -- every form of wrapper has the pattern of its body
  have hlwt : ∀ (xs : List String) (k : MlExp → MlExp) (n : Nat),
      (returnResult xs >>= fun r => pure (p.pat, k r)) n = .ok ((pat, exp), n') →
      pat = p.pat := by
    intro xs k n h
    obtain ⟨r, n5, -, h⟩ := bind_eq_ok.mp h
    cases h
    rfl
  cases concurrency <;> dsimp only at hw <;> split at hw
  · cases hw
    rfl
  · cases hw
    rfl
  · cases hw
    rfl
  · cases hw
    rfl
  · obtain ⟨args, n5, -, hw⟩ := bind_eq_ok.mp hw
    exact hlwt _ _ n5 hw
  · exact hlwt _ _ n4 hw
  · obtain ⟨args, n5, -, hw⟩ := bind_eq_ok.mp hw
    exact hlwt _ _ n5 hw
  · exact hlwt _ _ n4 hw

theorem case_matches {concurrency : ConcurrencyPolicy} {errno_ : ErrnoPolicy}
    {stubName externalName : String} {f : Fn} {n n' : Nat} {c : Case}
    (h : case concurrency errno_ stubName externalName f n = .ok (c, n')) :
    MatchesFn c.pat (shapeFn f) ∧ c.name = stubName := by
  simp only [case, bind_eq_ok, pure_apply, Except.ok.injEq, Prod.mk.injEq] at h
  obtain ⟨id, n1, hid, ⟨pat, exp⟩, n2, hw, rfl, -⟩ := h
  exact ⟨wrapper_matches hw, rfl⟩

/-! ### The dispatcher -/

/-- A case of `match t, name with`. -/
def Case.selects (c : Case) (name : String) (t : Fn) : Bool :=
  (matchPat c.pat (.fn 0 t)).isSome && c.name == name

/-- The case that `foreign name t` takes, together with the declaration that
it was generated for. -/
def dispatch (bindings : List Bind) (cases : List Case) (name : String) (t : Fn) :
    Option (Bind × Case) :=
  (bindings.zip cases).find? fun p => Case.selects p.2 name t

/-- Where the buffers of a specification stand, if it has any. -/
def Fn.cposition : Fn → Option CPosition
  | .returns _ => none
  | .function _ t => t.cposition
  | .buffers cpos _ _ => some cpos

def Equivalent (f g : Fn) : Prop := shapeFn f = shapeFn g ∧ f.cposition = g.cposition

instance (f g : Fn) : Decidable (Equivalent f g) := by
  unfold Equivalent
  infer_instance

def GeneratedFor (concurrency : ConcurrencyPolicy) (errno_ : ErrnoPolicy) (b : Bind)
    (c : Case) : Prop :=
  ∃ n n', case concurrency errno_ b.stubName b.externalName b.fn n = .ok (c, n')

/-- Every declared function gets a case of a declaration with its name and an
equivalent specification; so functions that are not equivalent get different
ones. -/
structure DispatchesRight (concurrency : ConcurrencyPolicy) (errno_ : ErrnoPolicy)
    (bindings : List Bind) (cases : List Case) (program : List Declaration) : Prop where
  resolved : ∀ cname f, .foreign cname f ∈ program → ∃ b c,
    dispatch bindings cases cname f = some (b, c) ∧
      GeneratedFor concurrency errno_ b c ∧ b.stubName = cname ∧ Equivalent b.fn f
  apart : ∀ cname f g, .foreign cname f ∈ program → .foreign cname g ∈ program →
    ¬ Equivalent f g → dispatch bindings cases cname f ≠ dispatch bindings cases cname g

/-- Declarations of one name and shape put their buffers in one position. -/
def PositionsAgree (program : List Declaration) : Prop :=
  ∀ cname f g, .foreign cname f ∈ program → .foreign cname g ∈ program →
    shapeFn f = shapeFn g → f.cposition = g.cposition

def bindKey (b : Bind) : String × FnShape := (b.stubName, shapeFn b.fn)

theorem GeneratedFor.selects {concurrency : ConcurrencyPolicy} {errno_ : ErrnoPolicy}
    {b : Bind} {c : Case} (h : GeneratedFor concurrency errno_ b c) (name : String)
    (t : Fn) : Case.selects c name t = decide (bindKey b = (name, shapeFn t)) := by
  obtain ⟨n, n', h⟩ := h
  obtain ⟨hpat, hname⟩ := case_matches h
  rw [Bool.eq_iff_iff, Case.selects, Bool.and_eq_true, hpat 0 t, hname, beq_iff_eq,
    decide_eq_true_iff, bindKey, Prod.mk.injEq]
  exact ⟨fun h => ⟨h.2, h.1.symm⟩, fun h => ⟨h.2.symm, h.1⟩⟩

theorem dispatch_eq_select {concurrency : ConcurrencyPolicy} {errno_ : ErrnoPolicy}
    {bindings : List Bind} {cases : List Case}
    (h : List.Forall₂ (GeneratedFor concurrency errno_) bindings cases) (name : String)
    (t : Fn) : (dispatch bindings cases name t).map Prod.fst =
      FirstMatch.select bindKey bindings (name, shapeFn t) := by
  induction h with
  | nil => rfl
  | @cons b c bs cs hbc _ ih =>
      have hsel := hbc.selects name t
      rw [dispatch, FirstMatch.select, List.zip_cons_cons, List.find?_cons, List.find?_cons]
      dsimp only
      rw [hsel]
      cases decide (bindKey b = (name, shapeFn t)) with
      | true => rfl
      | false => exact ih

theorem MlState.declare_bindings {errno_ : ErrnoPolicy} {pre : String} {s s' : MlState}
    {d : Declaration} (h : s.declare errno_ pre d = .ok s') (cname : String) (f : Fn) :
    (∃ b ∈ s'.bindings, b.stubName = cname ∧ b.fn = f) ↔
      d = .foreign cname f ∨ ∃ b ∈ s.bindings, b.stubName = cname ∧ b.fn = f := by
  cases d with
  | foreign cname' f' =>
      obtain ⟨ext, -, h⟩ := except_bind_eq_ok h
      cases h
      simp
  | foreignValue cname' typ =>
      obtain ⟨ext, -, h⟩ := except_bind_eq_ok h
      cases h
      simp

/-- The bindings of a run are its declarations of functions. -/
theorem genML_bindings {errno_ : ErrnoPolicy} {pre : String} {program : List Declaration}
    {s s' : MlState} (h : genML errno_ pre program s = .ok s') (cname : String) (f : Fn) :
    (∃ b ∈ s'.bindings, b.stubName = cname ∧ b.fn = f) ↔
      .foreign cname f ∈ program ∨ ∃ b ∈ s.bindings, b.stubName = cname ∧ b.fn = f := by
  induction program generalizing s with
  | nil =>
      cases h
      simp
  | cons d ds ih =>
      obtain ⟨s1, hd, h⟩ := except_bind_eq_ok h
      rw [ih h, MlState.declare_bindings hd, List.mem_cons]
      tauto

def MlState.initial : MlState :=
  { counter := 0, externs := [], bindings := [], valBindings := [] }

theorem writeML_generated {concurrency : ConcurrencyPolicy} {errno_ : ErrnoPolicy}
    {pre : String} {program : List Declaration} {s : MlState} {file : MlFile} {n n' : Nat}
    (hs : genML errno_ pre program .initial = .ok s)
    (hfile : writeML concurrency errno_ pre program n = .ok (file, n')) :
    List.Forall₂ (GeneratedFor concurrency errno_) s.bindings file.cases := by
  rw [MlState.initial] at hs
  rw [writeML, hs, lift_ok_bind] at hfile
  obtain ⟨cases, n1, hcases, hfile⟩ := bind_eq_ok.mp hfile
  obtain ⟨valCases, n2, -, hfile⟩ := bind_eq_ok.mp hfile
  cases hfile
  exact mapM_eq_ok hcases

/-- The dispatcher is right iff no two declarations of one name and shape
differ in the position of their buffers. -/
theorem dispatchesRight_iff {concurrency : ConcurrencyPolicy} {errno_ : ErrnoPolicy}
    {pre : String} {program : List Declaration} {s : MlState} {file : MlFile} {n n' : Nat}
    (hs : genML errno_ pre program .initial = .ok s)
    (hfile : writeML concurrency errno_ pre program n = .ok (file, n')) :
    DispatchesRight concurrency errno_ s.bindings file.cases program ↔
      PositionsAgree program := by
  have hgen := writeML_generated hs hfile
  have hdeclared : ∀ cname f, (∃ b ∈ s.bindings, b.stubName = cname ∧ b.fn = f) ↔
      Declaration.foreign cname f ∈ program := fun cname f => by
    rw [genML_bindings hs]
    simp [MlState.initial]
  have hagree := FirstMatch.agree_iff bindKey s.bindings fun b => b.fn.cposition
  have hposition : PositionsAgree program ↔ ∀ b ∈ s.bindings, ∀ b' ∈ s.bindings,
      bindKey b = bindKey b' → b.fn.cposition = b'.fn.cposition := by
    constructor
    · intro h b hb b' hb' hkey
      obtain ⟨hname, hshape⟩ := Prod.mk.inj hkey
      refine h b.stubName b.fn b'.fn ((hdeclared _ _).mp ⟨b, hb, rfl, rfl⟩) ?_ hshape
      exact (hdeclared _ _).mp ⟨b', hb', hname.symm, rfl⟩
    · intro h cname f g hf hg hshape
      obtain ⟨b, hb, rfl, rfl⟩ := (hdeclared _ _).mpr hf
      obtain ⟨b', hb', hname, rfl⟩ := (hdeclared _ _).mpr hg
      exact h b hb b' hb' (Prod.ext hname.symm hshape)
  rw [hposition, ← hagree]
  constructor
  · rintro ⟨hresolved, -⟩ b hb b' hsel
    obtain ⟨d, c, hd, -, hname, hequiv⟩ :=
      hresolved b.stubName b.fn ((hdeclared _ _).mp ⟨b, hb, rfl, rfl⟩)
    have hfst := dispatch_eq_select hgen b.stubName b.fn
    rw [hd] at hfst
    obtain rfl : d = b' := Option.some.inj (hfst.trans hsel)
    exact hequiv.2
  · intro h
    have hresolved : ∀ cname f, .foreign cname f ∈ program → ∃ b c,
        dispatch s.bindings file.cases cname f = some (b, c) ∧
          GeneratedFor concurrency errno_ b c ∧ b.stubName = cname ∧ Equivalent b.fn f := by
      intro cname f hf
      obtain ⟨b, hb, rfl, rfl⟩ := (hdeclared _ _).mpr hf
      obtain ⟨b', -, hkey, hsel⟩ := FirstMatch.select_of_mem bindKey hb
      have hfst := dispatch_eq_select hgen b.stubName b.fn
      rw [show (b.stubName, shapeFn b.fn) = bindKey b from rfl, hsel] at hfst
      obtain ⟨⟨d, c⟩, hd, rfl⟩ := Option.map_eq_some_iff.mp hfst
      obtain ⟨hname, hshape⟩ := Prod.mk.inj hkey
      refine ⟨d, c, hd, ?_, hname, hshape, h b hb d hsel⟩
      exact (List.forall₂_iff_zip.mp hgen).2 (List.mem_of_find?_eq_some hd)
    refine ⟨hresolved, fun cname f g hf hg hne heq => hne ?_⟩
    obtain ⟨b, c, hb, -, -, hf⟩ := hresolved cname f hf
    obtain ⟨b', c', hb', -, -, hg⟩ := hresolved cname g hg
    rw [heq, hb'] at hb
    cases hb
    exact ⟨hf.1.symm.trans hg.1, hf.2.symm.trans hg.2⟩

/-- A function declared with a buffer and without one. -/
theorem dispatchesRight_with_and_without_buffer :
    ∃ s file n',
      genML .ignoreErrno "stub" [.foreign "f" (.function int (.returns .void)),
        .foreign "f" (.function int (retbuf (buffer 4 (.ocaml .bytes)) (.returns .void)))]
        .initial = .ok s ∧
      writeML .sequential .ignoreErrno "stub"
        [.foreign "f" (.function int (.returns .void)),
          .foreign "f" (.function int (retbuf (buffer 4 (.ocaml .bytes)) (.returns .void)))] 0 =
        .ok (file, n') ∧
      (DispatchesRight .sequential .ignoreErrno s.bindings file.cases
          [.foreign "f" (.function int (.returns .void)),
            .foreign "f"
              (.function int (retbuf (buffer 4 (.ocaml .bytes)) (.returns .void)))] ↔
        PositionsAgree [.foreign "f" (.function int (.returns .void)),
          .foreign "f"
            (.function int (retbuf (buffer 4 (.ocaml .bytes)) (.returns .void)))]) := by
  have hs : genML .ignoreErrno "stub" [.foreign "f" (.function int (.returns .void)),
      .foreign "f" (.function int (retbuf (buffer 4 (.ocaml .bytes)) (.returns .void)))]
      .initial = .ok _ := rfl
  have hfile : writeML .sequential .ignoreErrno "stub"
      [.foreign "f" (.function int (.returns .void)),
        .foreign "f" (.function int (retbuf (buffer 4 (.ocaml .bytes)) (.returns .void)))] 0 =
      .ok _ := rfl
  exact ⟨_, _, _, hs, hfile, dispatchesRight_iff hs hfile⟩

/-- A function declared with its buffer first and with its buffer last. -/
def bothPositions : List Declaration :=
  [.foreign "f" (.function int (retbuf (buffer 4 (.ocaml .bytes)) (.returns .void) .first)),
    .foreign "f" (.function int (retbuf (buffer 4 (.ocaml .bytes)) (.returns .void) .last))]

/-- Asked for the first declaration, `foreign` takes the case of the other. -/
theorem bothPositions_not_dispatchesRight :
    ∃ s file n', genML .ignoreErrno "stub" bothPositions .initial = .ok s ∧
      writeML .sequential .ignoreErrno "stub" bothPositions 0 = .ok (file, n') ∧
      ¬ DispatchesRight .sequential .ignoreErrno s.bindings file.cases bothPositions := by
  refine ⟨_, _, _, rfl, rfl, fun h => ?_⟩
  obtain ⟨b, c, hd, -, -, hequiv⟩ := h.resolved "f" _ List.mem_cons_self
  cases hd
  revert hequiv
  decide

end CtypesCbuf.Cbuf
