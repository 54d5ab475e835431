import CtypesCbuf.Cbuf.CallWrapper

/-!
Scoping of the generated wrappers. What is collected for an argument stands in
front of the bindings that there are, where it may use them, or at their end,
where it may only use parameters and variables of the pattern.
-/

namespace CtypesCbuf.Cbuf

open NameSupply Supply
open Ctypes hiding Fn
open CLanguage Stubs GenerateML MlLanguage

/-! ### Expressions in scope -/

/-- The variables of a pattern. A numeral is read back as a constant. -/
def binders (p : MlPat) : List String := (patBoundVars p).filter fun x => (literal x).isNone

def parameters (xs : List String) : List String := xs.filter (· ≠ "_")

mutual
/-- Every identifier is one of the variables `S` or bound around, the external,
or one of `names`. No pattern and no function binds a variable twice. -/
def Scoped (names : List Path) (external : Path) : List String → MlExp → Prop
  | S, .ident p => (∃ x ∈ S, p = [x]) ∨ p = external ∨ p ∈ names
  | S, .project e _ => Scoped names external S e
  | S, .makePtr t e | S, .makeFunPtr t e | S, .makeStructured t e =>
      Scoped names external S t ∧ Scoped names external S e
  | S, .appl f p => Scoped names external S f ∧ Scoped names external S p
  | S, .tuple es => ScopedAll names external S es
  | S, .seq e1 e2 => Scoped names external S e1 ∧ Scoped names external S e2
  | S, .letIn p e1 e2 => (binders p).Nodup ∧ Scoped names external S e1 ∧
      Scoped names external (binders p ++ S) e2
  | _, .unit => True
  | S, .fn xs e => (parameters xs).Nodup ∧ Scoped names external (parameters xs ++ S) e
  | _, .const _ => True
def ScopedAll (names : List Path) (external : Path) : List String → MlExps → Prop
  | _, .nil => True
  | S, .cons e es => Scoped names external S e ∧ ScopedAll names external S es
end

def libraryNames : List Path := libraryTable.map Prod.fst

/-- Every binding binds one drawn name, and uses those that stand later in the
list. -/
def ScopedBinds (names : List Path) (external : Path) (S : List String) : List MlBind → Prop
  | [] => True
  | (p, e) :: binds => (∃ k, patBoundVars p = [freshName k]) ∧
      Scoped names external (boundNames binds ++ S) e ∧ ScopedBinds names external S binds

theorem append_subset_append {α : Type} (xs : List α) {ys zs : List α} (h : ys ⊆ zs) :
    xs ++ ys ⊆ xs ++ zs :=
  List.append_subset.mpr ⟨List.subset_append_left _ _, List.subset_append_of_subset_right _ h⟩

section Scoping

variable {names : List Path} {external : Path} {S S' : List String} {p : MlPat} {e : MlExp}
  {binds binds' : List MlBind}

mutual
theorem scoped_mono {S S' : List String} (hS : S ⊆ S') : (e : MlExp) →
    Scoped names external S e → Scoped names external S' e
  | .ident _, h => h.imp (fun ⟨x, hx, hp⟩ => ⟨x, hS hx, hp⟩) fun h => h
  | .project e _, h => scoped_mono hS e h
  | .makePtr t e, h => ⟨scoped_mono hS t h.1, scoped_mono hS e h.2⟩
  | .makeFunPtr t e, h => ⟨scoped_mono hS t h.1, scoped_mono hS e h.2⟩
  | .makeStructured t e, h => ⟨scoped_mono hS t h.1, scoped_mono hS e h.2⟩
  | .appl f p, h => ⟨scoped_mono hS f h.1, scoped_mono hS p h.2⟩
  | .tuple es, h => scopedAll_mono hS es h
  | .seq e1 e2, h => ⟨scoped_mono hS e1 h.1, scoped_mono hS e2 h.2⟩
  | .letIn p e1 e2, h =>
      ⟨h.1, scoped_mono hS e1 h.2.1, scoped_mono (append_subset_append (binders p) hS) e2 h.2.2⟩
  | .unit, _ => trivial
  | .fn xs e, h => ⟨h.1, scoped_mono (append_subset_append (parameters xs) hS) e h.2⟩
  | .const _, _ => trivial
theorem scopedAll_mono {S S' : List String} (hS : S ⊆ S') : (es : MlExps) →
    ScopedAll names external S es → ScopedAll names external S' es
  | .nil, _ => trivial
  | .cons e es, h => ⟨scoped_mono hS e h.1, scopedAll_mono hS es h.2⟩
end

theorem Scoped.mono (h : Scoped names external S e) (hS : S ⊆ S') : Scoped names external S' e :=
  scoped_mono hS e h

theorem scopedAll_ofList {es : List MlExp} :
    ScopedAll names external S (.ofList es) ↔ ∀ e ∈ es, Scoped names external S e := by
  induction es with
  | nil => simp [MlExps.ofList, ScopedAll]
  | cons e es ih =>
      rw [List.forall_mem_cons, ← ih]
      exact Iff.rfl

theorem scoped_var {x : String} (hx : x ∈ S) : Scoped names external S (.ident [x]) :=
  .inl ⟨x, hx, rfl⟩

theorem scoped_external : Scoped names external S (.ident external) := .inr (.inl rfl)

theorem scoped_library {path : Path} (h : path ∈ libraryNames) :
    Scoped libraryNames external S (.ident path) := .inr (.inr h)

/-! ### Bindings -/

theorem binders_of_patBoundVars {k : Nat} (h : patBoundVars p = [freshName k]) :
    binders p = [freshName k] := by
  rw [binders, h]
  simp

theorem ScopedBinds.mono (h : ScopedBinds names external S binds) (hS : S ⊆ S') :
    ScopedBinds names external S' binds := by
  induction binds with
  | nil => trivial
  | cons b binds ih =>
      obtain ⟨hvar, hscoped, hbinds⟩ := h
      exact ⟨hvar, hscoped.mono (append_subset_append _ hS), ih hbinds⟩

theorem scopedBinds_append : ScopedBinds names external S (binds ++ binds') ↔
    ScopedBinds names external (boundNames binds' ++ S) binds ∧
      ScopedBinds names external S binds' := by
  induction binds with
  | nil => simp [ScopedBinds]
  | cons b binds ih =>
      rw [List.cons_append, ScopedBinds, ScopedBinds, ih, boundNames_append, List.append_assoc]
      tauto

theorem ScopedBinds.drawn (h : ScopedBinds names external S binds) {x : String}
    (hx : x ∈ boundNames binds) : ∃ k, x = freshName k := by
  induction binds with
  | nil => cases hx
  | cons b binds ih =>
      obtain ⟨⟨k, hk⟩, -, hbinds⟩ := h
      rw [boundNames, List.flatMap_cons, hk] at hx
      rcases List.mem_append.mp hx with hx | hx
      · exact ⟨k, List.mem_singleton.mp hx⟩
      · exact ih hbinds hx

/-- The definition of each binding is in the scope of those around it. -/
theorem letBind_scoped (h : ScopedBinds names external S binds)
    (he : Scoped names external (boundNames binds ++ S) e) :
    Scoped names external S (letBind binds e) := by
  induction binds generalizing e with
  | nil => exact he
  | cons b binds ih =>
      obtain ⟨p, e'⟩ := b
      obtain ⟨⟨k, hk⟩, hscoped, hbinds⟩ := h
      have hbinders : binders p = [freshName k] := binders_of_patBoundVars hk
      have hlet : Scoped names external (boundNames binds ++ S) (.letIn p e' e) := by
        refine ⟨by simp [hbinders], hscoped, ?_⟩
        rw [boundNames, List.flatMap_cons, hk, ← hbinders, List.append_assoc] at he
        exact he
      exact ih hbinds hlet

end Scoping

/-! ### Variables of patterns -/

theorem patsBoundVars_perm (ps : List MlPat) (xs : List String) :
    (patsBoundVars (.ofList ps) xs).Perm (ps.flatMap patBoundVars ++ xs) := by
  induction ps generalizing xs with
  | nil => exact .refl _
  | cons p ps ih =>
      refine (ih _).trans ?_
      rw [List.flatMap_cons, ← List.append_assoc]
      exact List.perm_append_comm.append_right xs

theorem binders_con_perm (c : Path) (ps : List MlPat) :
    (binders (.con c (.ofList ps))).Perm (ps.flatMap binders) := by
  have hperm : (patBoundVars (.con c (.ofList ps))).Perm (ps.flatMap patBoundVars) := by
    rw [patBoundVars]
    simpa using patsBoundVars_perm ps []
  refine (hperm.filter _).trans ?_
  rw [List.filter_flatMap]
  exact .refl _

/-- The name in a view's pattern is drawn before or after those of the type
below. -/
theorem binders_view_perm (pat : MlPat) (l : Path) (k : Nat) :
    (binders (staticCon "View" [.record (.cons ["CI", "ty"] pat
      (.cons l (.var (freshName k)) .nil)) false])).Perm (freshName k :: binders pat) := by
  refine (binders_con_perm _ _).trans ?_
  rw [List.flatMap_singleton, binders, patBoundVars, patFieldsBoundVars, patFieldsBoundVars,
    patFieldsBoundVars, patBoundVars, List.append_nil, List.filter_append]
  simp [binders]

/-! ### Types -/

section Types

variable {external : Path} {e : MlExp} {binds : List MlBind} {n n' : Nat} {pat : MlPat}
  {concurrency : ConcurrencyPolicy} {errno_ : ErrnoPolicy} {t : Typ} {r : PatternExp}

/-- What is generated for an argument: bindings in front of those that there
are, which may use them, and bindings at the end. -/
structure ArgumentScoped (external : Path) (e : MlExp) (binds : List MlBind) (n n' : Nat)
    (r : PatternExp) : Prop where
  fresh : FreshNames n n' (binders r.pat)
  inScope : ∃ front back, r.binds = front ++ binds ++ back ∧
    (r.exp = none → front = [] ∧ back = []) ∧
    ∀ S, binders r.pat ⊆ S → Scoped libraryNames external S e →
      ScopedBinds libraryNames external S back ∧
      ScopedBinds libraryNames external (boundNames back ++ S) front ∧
      Scoped libraryNames external (boundNames front ++ (boundNames back ++ S)) (r.exp.getD e)

theorem argumentScoped_same (hpat : binders pat = []) :
    ArgumentScoped external e binds n n ⟨pat, none, binds⟩ where
  fresh := hpat ▸ FreshNames.nil n
  inScope := ⟨[], [], by simp, fun _ => ⟨rfl, rfl⟩, fun _ _ he => ⟨trivial, trivial, he⟩⟩

theorem argumentScoped_bind {q : MlPat} {e' : MlExp} (hpat : binders pat = [])
    (hq : patBoundVars q = [freshName (n + 1)])
    (he' : ∀ S, Scoped libraryNames external S e → Scoped libraryNames external S e') :
    ArgumentScoped external e binds n (n + 1)
      ⟨pat, some (.ident [freshName (n + 1)]), binds ++ [(q, e')]⟩ where
  fresh := by
    rw [hpat]
    exact ⟨by simp, List.nodup_nil, by omega⟩
  inScope := by
    have hnames : boundNames [(q, e')] = [freshName (n + 1)] := by
      rw [boundNames, List.flatMap_singleton, hq]
    refine ⟨[], [(q, e')], by simp, (fun h => by cases h),
      fun S _ he => ⟨⟨⟨n + 1, hq⟩, he' S he, trivial⟩, trivial, scoped_var ?_⟩⟩
    rw [hnames]
    simp [boundNames]

theorem argumentScoped_view
    (h : ArgumentScoped external (.appl (.ident [freshName (n + 1)]) e) binds (n + 2) n' r) :
    ArgumentScoped external e binds n n'
      ⟨staticCon "View" [.record (.cons ["CI", "ty"] r.pat
          (.cons ["write"] (.var (freshName (n + 1))) .nil)) false],
        some (.ident [freshName (n + 2)]),
        (.var (freshName (n + 2)), r.exp.getD (.appl (.ident [freshName (n + 1)]) e)) ::
          r.binds⟩ where
  fresh := by
    have hwrite : FreshNames n (n + 2) [freshName (n + 1)] :=
      FreshNames.single (n + 1) (by omega) (by omega)
    exact (hwrite.append h.fresh).perm (binders_view_perm r.pat ["write"] (n + 1)).symm
  inScope := by
    obtain ⟨front, back, hbinds, -, hscoped⟩ := h.inScope
    let bind : MlBind :=
      (.var (freshName (n + 2)), r.exp.getD (.appl (.ident [freshName (n + 1)]) e))
    refine ⟨bind :: front, back, by rw [hbinds]; rfl, (fun h => by cases h),
      fun S hS he => ?_⟩
    have hperm := binders_view_perm r.pat ["write"] (n + 1)
    have hwrite : freshName (n + 1) ∈ S := hS (hperm.mem_iff.mpr List.mem_cons_self)
    have hpat : binders r.pat ⊆ S := fun x hx =>
      hS (hperm.mem_iff.mpr (List.mem_cons_of_mem _ hx))
    obtain ⟨hback, hfront, hexp⟩ := hscoped S hpat ⟨scoped_var hwrite, he⟩
    exact ⟨hback, ⟨⟨n + 2, rfl⟩, hexp, hfront⟩, scoped_var List.mem_cons_self⟩

theorem argument_scoped (external : Path)
    (h : patternAndExpOfTyp concurrency errno_ t e .arg binds n = .ok (r, n')) :
    ArgumentScoped external e binds n n' r := by
  induction t using Typ.core.induct generalizing e n n' r with
  | case1 v ty ih =>
      simp only [patternAndExpOfTyp, freshVar_bind, ident_bind, bind_eq_ok, pure_apply,
        Except.ok.injEq, Prod.mk.injEq] at h
      obtain ⟨r1, n1, hr1, rfl, rfl⟩ := h
      exact argumentScoped_view (ih hr1)
  | case2 t hview =>
      have haddr : ∀ S, Scoped libraryNames external S e →
          Scoped libraryNames external S (.appl (.ident ["Ctypes", "addr"]) e) :=
        fun S he => ⟨scoped_library (by decide), he⟩
      cases t with
      | view v ty => exact absurd rfl (hview v ty)
      | void =>
          cases h
          exact argumentScoped_same rfl
      | primitive k =>
          cases h
          exact argumentScoped_same rfl
      | ocaml o =>
          cases o <;> cases h <;> exact argumentScoped_same rfl
      | pointer u =>
          simp only [patternAndExpOfTyp, freshVar_bind, ident_bind, pure_apply,
            Except.ok.injEq, Prod.mk.injEq] at h
          obtain ⟨rfl, rfl⟩ := h
          exact argumentScoped_bind rfl rfl fun _ he => he
      | funptr fn =>
          simp only [patternAndExpOfTyp, freshVar_bind, ident_bind, pure_apply,
            Except.ok.injEq, Prod.mk.injEq] at h
          obtain ⟨rfl, rfl⟩ := h
          exact argumentScoped_bind rfl rfl fun _ he => he
      | struct tag spec fields =>
          simp only [patternAndExpOfTyp, freshVar_bind, ident_bind, pure_apply,
            Except.ok.injEq, Prod.mk.injEq] at h
          obtain ⟨rfl, rfl⟩ := h
          exact argumentScoped_bind rfl rfl haddr
      | union utag uspec ufields =>
          simp only [patternAndExpOfTyp, freshVar_bind, ident_bind, pure_apply,
            Except.ok.injEq, Prod.mk.injEq] at h
          obtain ⟨rfl, rfl⟩ := h
          exact argumentScoped_bind rfl rfl haddr
      | abstract a => simp [patternAndExpOfTyp] at h
      | array u k => simp [patternAndExpOfTyp] at h
      | bigarray ba => simp [patternAndExpOfTyp] at h

/-- What is generated for a result: nothing is bound. -/
structure ResultScoped (external : Path) (e : MlExp) (binds : List MlBind) (n n' : Nat)
    (r : PatternExp) : Prop where
  fresh : FreshNames n n' (binders r.pat)
  binds : r.binds = binds
  inScope : ∀ S, binders r.pat ⊆ S → Scoped libraryNames external S e →
    Scoped libraryNames external S (r.exp.getD e)

theorem resultScoped_same (hpat : binders pat = []) :
    ResultScoped external e binds n n ⟨pat, none, binds⟩ :=
  ⟨hpat ▸ FreshNames.nil n, rfl, fun _ _ he => he⟩

theorem function_scoped {f : ResultMap} {S : List String} (hname : f.name ∈ S) :
    Scoped libraryNames external S f.function := by
  cases f with
  | makePtr x => exact ⟨scoped_library (by decide), scoped_var hname⟩
  | makeFunPtr x => exact ⟨scoped_library (by decide), scoped_var hname⟩
  | makeStructured x => exact ⟨scoped_library (by decide), scoped_var hname⟩
  | appl x => exact scoped_var hname

theorem mapResult_scoped {f : ResultMap} {k : Nat} {e' : MlExp} {S : List String}
    (hname : f.name = freshName k) (h : mapResult concurrency errno_ f e n = .ok (e', n'))
    (hS : freshName k ∈ S) (he : Scoped libraryNames external S e) :
    n' = n ∧ Scoped libraryNames external S e' := by
  obtain ⟨rfl, ⟨-, -, rfl⟩ | rfl⟩ := mapResult_eq_ok hname h
  · refine ⟨rfl, ?_⟩
    rw [← hname] at hS
    cases f with
    | makePtr x => exact ⟨scoped_var hS, he⟩
    | makeFunPtr x => exact ⟨scoped_var hS, he⟩
    | makeStructured x => exact ⟨scoped_var hS, he⟩
    | appl x => exact ⟨scoped_var hS, he⟩
  · exact ⟨rfl, ⟨scoped_library (by decide), function_scoped (hname ▸ hS)⟩, he⟩

theorem resultScoped_map {f : ResultMap} {e' : MlExp} (hpat : binders pat = [freshName (n + 1)])
    (hname : f.name = freshName (n + 1))
    (h : mapResult concurrency errno_ f e (n + 1) = .ok (e', n')) :
    ResultScoped external e binds n n' ⟨pat, some e', binds⟩ := by
  obtain ⟨rfl, -⟩ := mapResult_eq_ok hname h
  refine ⟨hpat ▸ FreshNames.single (n + 1) (by omega) (Nat.le_refl _), rfl, fun S hS he => ?_⟩
  have hmem : freshName (n + 1) ∈ S := hS (by simp [hpat])
  exact (mapResult_scoped hname h hmem he).2

theorem result_scoped (external : Path)
    (h : patternAndExpOfTyp concurrency errno_ t e .result binds n = .ok (r, n')) :
    ResultScoped external e binds n n' r := by
  induction t using Typ.core.induct generalizing e n n' r with
  | case1 v ty ih =>
      simp only [patternAndExpOfTyp, bind_eq_ok, freshVar_apply, pure_apply, Except.ok.injEq,
        Prod.mk.injEq] at h
      obtain ⟨r1, n1, hr1, x, n2, ⟨rfl, rfl⟩, e', n3, he', rfl, rfl⟩ := h
      have hr := ih hr1
      have hread : FreshNames n1 (n1 + 1) [freshName (n1 + 1)] :=
        FreshNames.single (n1 + 1) (by omega) (Nat.le_refl _)
      have hperm := binders_view_perm r1.pat ["read"] (n1 + 1)
      obtain ⟨rfl, -⟩ := mapResult_eq_ok (k := n1 + 1) rfl he'
      refine ⟨(hread.append' hr.fresh).perm hperm.symm, hr.binds, fun S hS he => ?_⟩
      have hmem : freshName (n1 + 1) ∈ S := hS (hperm.mem_iff.mpr List.mem_cons_self)
      have hpat : binders r1.pat ⊆ S := fun x hx =>
        hS (hperm.mem_iff.mpr (List.mem_cons_of_mem _ hx))
      exact (mapResult_scoped rfl he' hmem (hr.inScope S hpat he)).2
  | case2 t hview =>
      cases t with
      | view v ty => exact absurd rfl (hview v ty)
      | void =>
          cases h
          exact resultScoped_same rfl
      | primitive k =>
          cases h
          exact resultScoped_same rfl
      | ocaml o => cases o <;> cases h
      | pointer u =>
          simp only [patternAndExpOfTyp, freshVar_bind, bind_eq_ok, pure_apply, Except.ok.injEq,
            Prod.mk.injEq] at h
          obtain ⟨e', n2, he', rfl, rfl⟩ := h
          exact resultScoped_map (by simp [binders, staticCon, MlPats.ofList, patBoundVars,
            patsBoundVars]) rfl he'
      | funptr fn =>
          simp only [patternAndExpOfTyp, freshVar_bind, bind_eq_ok, pure_apply, Except.ok.injEq,
            Prod.mk.injEq] at h
          obtain ⟨e', n2, he', rfl, rfl⟩ := h
          exact resultScoped_map (by simp [binders, staticCon, MlPats.ofList, patBoundVars,
            patsBoundVars]) rfl he'
      | struct tag spec fields =>
          simp only [patternAndExpOfTyp, freshVar_bind, bind_eq_ok, pure_apply, Except.ok.injEq,
            Prod.mk.injEq] at h
          obtain ⟨e', n2, he', rfl, rfl⟩ := h
          exact resultScoped_map (by simp [binders, staticCon, MlPats.ofList, patBoundVars,
            patsBoundVars]) rfl he'
      | union utag uspec ufields =>
          simp only [patternAndExpOfTyp, freshVar_bind, bind_eq_ok, pure_apply, Except.ok.injEq,
            Prod.mk.injEq] at h
          obtain ⟨e', n2, he', rfl, rfl⟩ := h
          exact resultScoped_map (by simp [binders, staticCon, MlPats.ofList, patBoundVars,
            patsBoundVars]) rfl he'
      | abstract a => simp [patternAndExpOfTyp] at h
      | array u k => simp [patternAndExpOfTyp] at h
      | bigarray ba => simp [patternAndExpOfTyp] at h

/-- With the bindings that there are, wherever the new ones stand. -/
theorem ArgumentScoped.all (h : ArgumentScoped external e binds n n' r) {S : List String}
    (hS : binders r.pat ⊆ S) (he : Scoped libraryNames external S e)
    (hbinds : ScopedBinds libraryNames external S binds) :
    ScopedBinds libraryNames external S r.binds ∧ boundNames binds ⊆ boundNames r.binds ∧
      Scoped libraryNames external (boundNames r.binds ++ S) (r.exp.getD e) := by
  obtain ⟨front, back, heq, -, hscoped⟩ := h.inScope
  obtain ⟨hback, hfront, hexp⟩ := hscoped S hS he
  have hnames : boundNames r.binds = boundNames front ++ (boundNames binds ++ boundNames back) := by
    rw [heq, boundNames_append, boundNames_append, List.append_assoc]
  refine ⟨?_, ?_, hexp.mono ?_⟩
  · rw [heq, scopedBinds_append, scopedBinds_append]
    exact ⟨⟨hfront.mono (List.subset_append_right _ _),
      hbinds.mono (List.subset_append_right _ _)⟩, hback⟩
  · intro x hx
    simp [hnames, hx]
  · intro x hx
    simp only [hnames, List.mem_append] at hx ⊢
    tauto

theorem ResultScoped.all (h : ResultScoped external e binds n n' r) {S : List String}
    (hS : binders r.pat ⊆ S) (he : Scoped libraryNames external S e)
    (hbinds : ScopedBinds libraryNames external S binds) :
    ScopedBinds libraryNames external S r.binds ∧ boundNames binds ⊆ boundNames r.binds ∧
      Scoped libraryNames external (boundNames r.binds ++ S) (r.exp.getD e) := by
  rw [h.binds]
  exact ⟨hbinds, List.Subset.refl _, (h.inScope S hS he).mono (List.subset_append_right _ _)⟩

end Types

/-! ### Buffers -/

section Buffers

variable {external : Path} {b : CBuffers} {e : MlExp} {binds : List MlBind} {n n' : Nat}

theorem boundNames_cons (x : String) (e : MlExp) (binds : List MlBind) :
    boundNames ((.var x, e) :: binds) = x :: boundNames binds := rfl

/-- The pattern of a buffer: its size is a constant. -/
theorem lastBuf_fresh {r : PatternExp} (i : Nat) (h : FreshNames n n' (binders r.pat)) :
    FreshNames n n' (binders (localCon "LastBuf" [.var (Nat.repr i), r.pat])) := by
  refine h.perm ((binders_con_perm _ _).trans ?_).symm
  have hsize : binders (.var (Nat.repr i)) = [] := by simp [binders, patBoundVars]
  rw [List.flatMap_cons, hsize, List.flatMap_singleton]
  exact .refl _

theorem bytesCreate_scoped (S : List String) (i : Nat) :
    Scoped libraryNames external S (bytesCreate i) := ⟨scoped_library (by decide), trivial⟩

/-- The call applied to one more buffer. -/
theorem passed_scoped {S : List String} {k : Nat} (hk : freshName k ∈ S)
    (he : Scoped libraryNames external S e) :
    Scoped libraryNames external S (.appl e (ocamlBytesStart (.ident [freshName k]))) :=
  ⟨he, scoped_library (by decide), scoped_var hk⟩

/-- Buffers are created under the names in front of the bindings for the
arguments, which a second buffer repeats. -/
structure BuffersScoped (external : Path) (e : MlExp) (binds : List MlBind) (n n' : Nat)
    (r : BufferExp) : Prop where
  fresh : FreshNames n n' (binders r.pat)
  created : ∀ S, ScopedBinds libraryNames external S binds →
    ScopedBinds libraryNames external S r.binds ∧
      Scoped libraryNames external (boundNames r.binds ++ S) r.bufExp
  passed : ∀ S, Scoped libraryNames external (boundNames binds ++ S) e →
    Scoped libraryNames external (boundNames r.binds ++ S) r.exp

theorem buffers2_scoped (external : Path) {r : BufferExp}
    (h : patternAndExpOfCbuffers2 b e binds n = .ok (r, n')) :
    BuffersScoped external e binds n n' r := by
  induction b generalizing e n n' r with
  | lastBuf i t =>
      rw [patternAndExpOfCbuffers2] at h
      obtain ⟨r1, n1, hr1, h⟩ := bind_eq_ok.mp h
      simp only [freshVar_bind, ident_bind, pure_apply, Except.ok.injEq, Prod.mk.injEq] at h
      obtain ⟨rfl, rfl⟩ := h
      have hfresh := (argument_scoped external hr1).fresh
      have hnames : ∀ S, freshName (n1 + 1) ∈
          boundNames (binds ++ [(.var (freshName (n1 + 1)), bytesCreate i)]) ++ S := by
        intro S
        simp [boundNames_cons]
      refine ⟨lastBuf_fresh i (hfresh.mono (Nat.le_refl _) (Nat.le_succ _)),
        fun S hbinds => ⟨?_, scoped_var (hnames S)⟩,
        fun S he => passed_scoped (hnames S) (he.mono ?_)⟩
      · rw [scopedBinds_append]
        exact ⟨hbinds.mono (List.subset_append_right _ _),
          ⟨n1 + 1, rfl⟩, bytesCreate_scoped _ i, trivial⟩
      · intro x hx
        simp only [boundNames_append, List.mem_append] at hx ⊢
        tauto
  | conBuf l b _ ih =>
      cases l with
      | conBuf l1 l2 => simp [patternAndExpOfCbuffers2] at h
      | lastBuf i t =>
          rw [patternAndExpOfCbuffers2] at h
          obtain ⟨r1, n1, hr1, h⟩ := bind_eq_ok.mp h
          simp only [freshVar_bind, ident_bind] at h
          obtain ⟨r2, n2, hr2, h⟩ := bind_eq_ok.mp h
          simp only [ident_bind, pure_apply, Except.ok.injEq, Prod.mk.injEq] at h
          obtain ⟨rfl, rfl⟩ := h
          have hr := ih hr2
          have hfresh := (argument_scoped external hr1).fresh
          have hnext : FreshNames n (n1 + 1)
              (binders (localCon "LastBuf" [.var (Nat.repr i), r1.pat])) :=
            lastBuf_fresh i (hfresh.mono (Nat.le_refl _) (Nat.le_succ _))
          have hnames : ∀ S, freshName (n1 + 1) ∈ boundNames
              (binds ++ (.var (freshName (n1 + 1)), bytesCreate i) :: r2.binds) ++ S := by
            intro S
            simp [boundNames_cons]
          refine ⟨?_, fun S hbinds => ?_, fun S he => ?_⟩
          · refine (hnext.append hr.fresh).perm ((binders_con_perm _ _).trans ?_).symm
            simp
          · obtain ⟨hcreated, hbuf⟩ := hr.created S hbinds
            refine ⟨?_, scopedAll_ofList.mpr ?_⟩
            · rw [scopedBinds_append]
              exact ⟨hbinds.mono (List.subset_append_right _ _),
                ⟨n1 + 1, rfl⟩, bytesCreate_scoped _ i, hcreated⟩
            · rw [List.forall_mem_cons, List.forall_mem_singleton]
              refine ⟨scoped_var (hnames S), hbuf.mono ?_⟩
              intro x hx
              simp only [boundNames_append, boundNames_cons, List.mem_append,
                List.mem_cons] at hx ⊢
              tauto
          · -- the name of the buffer is bound around what the rest is passed to
            have hmem : freshName (n1 + 1) ∈ boundNames binds ++ (freshName (n1 + 1) :: S) := by
              simp
            have hpassed := hr.passed (freshName (n1 + 1) :: S) (passed_scoped hmem
              (he.mono (append_subset_append _ (List.subset_cons_self _ _))))
            refine hpassed.mono fun x hx => ?_
            simp only [boundNames_append, boundNames_cons, List.mem_append, List.mem_cons] at hx ⊢
            tauto

theorem buffers_scoped (external : Path) {pat : MlPat} {e' : MlExp} {binds' : List MlBind}
    (h : patternAndExpOfCbuffers b e binds n = .ok ((pat, e', binds'), n')) :
    FreshNames n n' (binders pat) ∧ ∀ S, ScopedBinds libraryNames external S binds →
      Scoped libraryNames external (boundNames binds ++ S) e →
        ScopedBinds libraryNames external S binds' ∧
          Scoped libraryNames external (boundNames binds' ++ S) e' := by
  rw [patternAndExpOfCbuffers] at h
  obtain ⟨r, n1, hr, h⟩ := bind_eq_ok.mp h
  simp only [freshVar_bind, ident_bind, pure_apply, Except.ok.injEq, Prod.mk.injEq] at h
  obtain ⟨⟨rfl, rfl, rfl⟩, rfl⟩ := h
  have hr := buffers2_scoped external hr
  have hfresh := hr.fresh
  refine ⟨hfresh.mono (Nat.le_refl _) (Nat.le_succ _), fun S hbinds he => ?_⟩
  obtain ⟨hcreated, hbuf⟩ := hr.created S hbinds
  have hret : binders (.var (freshName (n1 + 1))) = [freshName (n1 + 1)] :=
    binders_of_patBoundVars rfl
  refine ⟨hcreated, by simp [hret], hr.passed S he, scopedAll_ofList.mpr ?_⟩
  rw [hret, List.forall_mem_cons, List.forall_mem_singleton]
  exact ⟨hbuf.mono (List.subset_append_right _ _), scoped_var List.mem_cons_self⟩

end Buffers

/-! ### Wrappers -/

section Wrappers

variable {external : Path} {exp : MlExp} {binds : List MlBind} {n n' : Nat} {f : Fn}
  {concurrency : ConcurrencyPolicy} {errno_ : ErrnoPolicy} {pol : Polarity} {s : WrapperState}

theorem runExp_scoped {S : List String} (he : Scoped libraryNames external S exp) :
    Scoped libraryNames external S (runExp concurrency exp) := by
  cases concurrency with
  | sequential => exact he
  | unlocked => exact he
  | lwtJobs => exact ⟨scoped_library (by decide), he⟩
  | lwtPreemptive =>
      have hparameters : parameters ["_"] = [] := by decide
      refine ⟨⟨scoped_library (by decide), ?_, ?_⟩, trivial⟩
      · rw [hparameters]
        exact List.nodup_nil
      · rw [hparameters]
        exact he

/-- What is generated for the rest of a specification, around the call `exp`
of the external with the arguments so far. -/
structure BodyScoped (external : Path) (exp : MlExp) (binds : List MlBind) (n n' : Nat)
    (s : WrapperState) : Prop where
  fresh : FreshNames n n' (binders s.pat ++ s.args)
  trivial : s.trivial → s.binds = binds
  inScope : ∀ S, binders s.pat ⊆ S → s.args ⊆ S → ScopedBinds libraryNames external S binds →
    Scoped libraryNames external (boundNames binds ++ S) exp →
      ScopedBinds libraryNames external S s.binds ∧
        Scoped libraryNames external (boundNames s.binds ++ S) s.exp

theorem binders_returns_perm (pat : MlPat) :
    (binders (localCon "Returns" [pat])).Perm (binders pat) := by
  have hperm := binders_con_perm ["Returns"] [pat]
  rwa [List.flatMap_singleton] at hperm

/-- A parameter and what is generated for it. -/
theorem BodyScoped.parameter {r : PatternExp} {n1 : Nat} {s1 : WrapperState}
    (hfresh : FreshNames (n + 1) n1 (binders r.pat)) (hsame : r.exp = none → r.binds = binds)
    (hall : ∀ S, binders r.pat ⊆ S → freshName (n + 1) ∈ S →
      ScopedBinds libraryNames external S binds →
      ScopedBinds libraryNames external S r.binds ∧ boundNames binds ⊆ boundNames r.binds ∧
        Scoped libraryNames external (boundNames r.binds ++ S)
          (r.exp.getD (.ident [freshName (n + 1)])))
    (h : BodyScoped external (.appl exp (r.exp.getD (.ident [freshName (n + 1)]))) r.binds n1 n'
      s1) :
    BodyScoped external exp binds n n'
      { s1 with args := freshName (n + 1) :: s1.args
                trivial := r.exp.isNone && s1.trivial
                pat := localCon "Function" [r.pat, s1.pat] } := by
  have hperm : (binders (localCon "Function" [r.pat, s1.pat])).Perm
      (binders r.pat ++ binders s1.pat) := by
    refine (binders_con_perm _ _).trans ?_
    simp
  constructor
  · have hx : FreshNames n (n + 1) [freshName (n + 1)] :=
      FreshNames.single (n + 1) (by omega) (Nat.le_refl _)
    refine (hx.append (hfresh.append h.fresh)).perm ?_
    refine .trans ?_ (hperm.append_right _).symm
    rw [List.singleton_append, ← List.append_assoc]
    exact List.perm_middle.symm
  · intro htrivial
    obtain ⟨hnone, hrest⟩ := Bool.and_eq_true_iff.mp htrivial
    exact (h.trivial hrest).trans (hsame (Option.isNone_iff_eq_none.mp hnone))
  · intro S hpat hargs hbinds hexp
    have hx : freshName (n + 1) ∈ S := hargs List.mem_cons_self
    have hr : binders r.pat ⊆ S := fun y hy => hpat (hperm.mem_iff.mpr (List.mem_append_left _ hy))
    have hs1 : binders s1.pat ⊆ S := fun y hy =>
      hpat (hperm.mem_iff.mpr (List.mem_append_right _ hy))
    obtain ⟨hrbinds, hsub, hrexp⟩ := hall S hr hx hbinds
    have happl : Scoped libraryNames external (boundNames r.binds ++ S)
        (.appl exp (r.exp.getD (.ident [freshName (n + 1)]))) :=
      ⟨hexp.mono (List.append_subset.mpr ⟨List.subset_append_of_subset_left _ hsub,
        List.subset_append_right _ _⟩), hrexp⟩
    exact h.inScope S hs1 (fun y hy => hargs (List.mem_cons_of_mem _ hy)) hrbinds happl

/-- In the polarity of results there are no bindings before the return type,
whose own may then stand at the end. -/
theorem wrapperBody_scoped (external : Path)
    (h : wrapperBody concurrency errno_ pol f exp binds n = .ok (s, n'))
    (hpol : pol = .result → binds = []) : BodyScoped external exp binds n n' s := by
  induction f generalizing exp binds n n' s with
  | returns t =>
      rw [wrapperBody] at h
      obtain ⟨r, n1, hr, h⟩ := bind_eq_ok.mp h
      cases h
      have hperm := binders_returns_perm r.pat
      have hpat : ∀ S, binders (localCon "Returns" [r.pat]) ⊆ S → binders r.pat ⊆ S :=
        fun S hS y hy => hS (hperm.mem_iff.mpr hy)
      cases pol with
      | arg =>
          have hr := result_scoped external hr
          refine ⟨?_, fun _ => hr.binds, fun S hS _ hbinds hexp => ?_⟩
          · simpa using hr.fresh.perm hperm.symm
          · show ScopedBinds _ _ S r.binds ∧ Scoped _ _ (boundNames r.binds ++ S) _
            rw [hr.binds]
            exact ⟨hbinds, hr.inScope _ (List.Subset.trans (hpat S hS)
              (List.subset_append_right _ _)) (runExp_scoped hexp)⟩
      | result =>
          have hr := argument_scoped external hr
          obtain rfl := hpol rfl
          refine ⟨?_, fun htrivial => ?_, fun S hS _ hbinds hexp => ?_⟩
          · simpa using hr.fresh.perm hperm.symm
          · obtain ⟨front, back, heq, hnone, -⟩ := hr.inScope
            obtain ⟨rfl, rfl⟩ := hnone (Option.isNone_iff_eq_none.mp htrivial)
            exact heq
          · obtain ⟨hrbinds, -, hrexp⟩ := hr.all (hpat S hS) (runExp_scoped hexp) hbinds
            exact ⟨hrbinds, hrexp⟩
  | function t f ih =>
      obtain ⟨r, n1, s1, hr, hs1, rfl⟩ := wrapperBody_function h
      cases pol with
      | arg =>
          have hr := argument_scoped external hr
          refine BodyScoped.parameter hr.fresh (fun hnone => ?_)
            (fun S hS hx => hr.all hS (scoped_var hx)) (ih hs1 fun h => by cases h)
          obtain ⟨front, back, heq, hsame, -⟩ := hr.inScope
          obtain ⟨rfl, rfl⟩ := hsame hnone
          simpa using heq
      | result =>
          have hr := result_scoped external hr
          exact BodyScoped.parameter hr.fresh (fun _ => hr.binds)
            (fun S hS hx => hr.all hS (scoped_var hx)) (ih hs1 fun _ => hr.binds.trans (hpol rfl))
  | buffers cpos b ret _ =>
      cases ret with
      | returns t =>
          rw [wrapperBody] at h
          obtain ⟨t', n0, hret, h⟩ := bind_eq_ok.mp h
          cases hret
          obtain ⟨r, n1, hr, h⟩ := bind_eq_ok.mp h
          obtain ⟨⟨pat, e', binds'⟩, n2, hb, h⟩ := bind_eq_ok.mp h
          cases h
          have hr := (argument_scoped external hr).fresh
          obtain ⟨hfresh, hscoped⟩ := buffers_scoped external hb
          refine ⟨?_, fun h => (Bool.false_ne_true h).elim, fun S _ _ => hscoped S⟩
          have hperm : (binders (localCon "Buffers"
              [.underscore, pat, localCon "Returns" [r.pat]])).Perm
              (binders r.pat ++ binders pat) := by
            refine (binders_con_perm _ _).trans ?_
            have hunderscore : binders .underscore = [] := rfl
            simp only [List.flatMap_cons, List.flatMap_nil, hunderscore, List.nil_append,
              List.append_nil]
            exact ((binders_returns_perm r.pat).append_left _).trans List.perm_append_comm
          simpa using (hr.append hfresh).perm hperm.symm
      | function _ _ => cases h
      | buffers _ _ _ => cases h

theorem parameters_eq {xs : List String} (h : ∀ x ∈ xs, ∃ k, x = freshName k) :
    parameters xs = xs := by
  refine List.filter_eq_self.mpr fun x hx => ?_
  obtain ⟨k, rfl⟩ := h x hx
  simpa using freshName_ne_underscore k

/-- The call of the external with the parameters. -/
theorem call_scoped {S xs : List String} (hxs : xs ⊆ S)
    (he : Scoped libraryNames external S exp) :
    Scoped libraryNames external S ((xs.map identExp).foldl .appl exp) := by
  induction xs generalizing exp with
  | nil => exact he
  | cons x xs ih =>
      obtain ⟨hx, hxs⟩ := List.cons_subset.mp hxs
      exact ih hxs ⟨he, scoped_var hx⟩

theorem lwtBody_scoped {S xs : List String} {k : Nat} (hxs : xs ⊆ S)
    (he : Scoped libraryNames external S exp) :
    Scoped libraryNames external S (lwtBody exp (freshName k) xs) := by
  have hparameters : parameters [freshName k] = [freshName k] :=
    parameters_eq fun x hx => ⟨k, List.mem_singleton.mp hx⟩
  refine ⟨scoped_library (by decide), ⟨scoped_library (by decide), he⟩, ?_, ?_⟩
  · rw [hparameters]
    exact List.pairwise_singleton _ _
  · rw [hparameters]
    refine ⟨⟨scoped_library (by decide), scopedAll_ofList.mpr ?_⟩, scoped_library (by decide),
      scoped_var List.mem_cons_self⟩
    intro e' he'
    obtain ⟨x, hx, rfl⟩ := List.mem_map.mp he'
    exact scoped_var (List.mem_append_right _ (hxs hx))

/-- No pattern of a case and its wrapper binds a variable twice, and every
identifier is a parameter, a variable of a pattern around it, the external, or
one of the library. -/
theorem wrapper_scoped {name : String} {pat : MlPat} (hname : pathOfString name = .ok external)
    (h : wrapper concurrency errno_ external f name pol n = .ok ((pat, exp), n')) :
    (binders pat).Nodup ∧ Scoped libraryNames external (binders pat) exp := by
  obtain ⟨s, n1, hs, rfl, hexp⟩ := wrapper_eq_ok hname h
  have hbody := wrapperBody_scoped external hs fun _ => rfl
  have hargs : ∀ x ∈ s.args, ∃ k, x = freshName k := by
    intro x hx
    obtain ⟨k, -, -, rfl⟩ := hbody.fresh.drawn x (List.mem_append_right _ hx)
    exact ⟨k, rfl⟩
  obtain ⟨hbinds, hbodyExp⟩ := hbody.inScope (s.args ++ binders s.pat)
    (List.subset_append_right _ _) (List.subset_append_left _ _) trivial scoped_external
  have hkept : ∀ x ∈ kept s, ∃ k, x = freshName k := by
    intro x hx
    rcases mem_kept.mp hx with hx | hx
    · exact hargs x hx
    · exact hbinds.drawn hx
  obtain ⟨hpat, hnodup, -⟩ := List.nodup_append.mp hbody.fresh.nodup
  have hfn : ∀ e, Scoped libraryNames external (s.args ++ binders s.pat) e →
      Scoped libraryNames external (binders s.pat) (.fn s.args e) := by
    intro e he
    refine ⟨?_, ?_⟩
    · rw [parameters_eq hargs]
      exact hnodup
    · rw [parameters_eq hargs]
      exact he
  obtain ⟨k, rfl⟩ := hexp hkept
  refine ⟨hpat, ?_⟩
  rw [wrapperExp]
  split
  · refine hfn _ (letBind_scoped hbinds (lwtBody_scoped ?_ ?_))
    · intro x hx
      rcases mem_kept.mp hx with hx | hx
      · exact List.mem_append_right _ (List.mem_append_left _ hx)
      · exact List.mem_append_left _ hx
    · split
      · exact runExp_scoped (call_scoped (fun x hx => List.mem_append_right _
          (List.mem_append_left _ hx)) scoped_external)
      · exact hbodyExp
  · split
    · rename_i htrivial
      rw [hbody.trivial htrivial]
      exact runExp_scoped scoped_external
    · exact hfn _ (letBind_scoped hbinds hbodyExp)

def viewAndTwoBuffers : Fn :=
  .function (.view 0 (.pointer .void)) (.buffers .first
    (.conBuf (.lastBuf 8 (.primitive .char)) (.lastBuf 8 (.primitive .char))) (.returns .void))

def viewToPointer : Fn := .function (.view 0 (.pointer .void)) (.returns (.pointer .void))

theorem wrapper_scoped_viewAndTwoBuffers :
    (∃ pat exp n', wrapper .sequential .returnErrno ["f"] viewAndTwoBuffers "f" .arg 0 =
        .ok ((pat, exp), n') ∧
      (binders pat).Nodup ∧ Scoped libraryNames ["f"] (binders pat) exp) ∧
    ∃ pat exp n', wrapper .lwtJobs .ignoreErrno ["f"] viewToPointer "f" .result 0 =
        .ok ((pat, exp), n') ∧
      (binders pat).Nodup ∧ Scoped libraryNames ["f"] (binders pat) exp := by
  have harg : ∃ p n', wrapper .sequential .returnErrno ["f"] viewAndTwoBuffers "f" .arg 0 =
      .ok (p, n') := ⟨_, _, rfl⟩
  have hresult : ∃ p n', wrapper .lwtJobs .ignoreErrno ["f"] viewToPointer "f" .result 0 =
      .ok (p, n') := ⟨_, _, rfl⟩
  obtain ⟨⟨pat, exp⟩, n', harg⟩ := harg
  obtain ⟨⟨pat', exp'⟩, n'', hresult⟩ := hresult
  exact ⟨⟨pat, exp, n', harg, wrapper_scoped rfl harg⟩,
    ⟨pat', exp', n'', hresult, wrapper_scoped rfl hresult⟩⟩

/-- A structure is passed by `Ctypes.addr`, which no one binds. -/
theorem structure_not_scoped : ¬ ∀ concurrency errno_ external f name pol n n' pat exp,
    pathOfString name = .ok external →
    wrapper concurrency errno_ external f name pol n = .ok ((pat, exp), n') →
      (binders pat).Nodup ∧ Scoped [] external (binders pat) exp := by
  intro h
  obtain ⟨-, -, hscoped⟩ := h .sequential .ignoreErrno ["f"]
    (.function (.struct "s" (.complete 8 8) .nil) (.returns .void)) "f" .arg 0 _ _ _ rfl rfl
  obtain ⟨-, haddr, -⟩ := hscoped
  rcases haddr.1 with ⟨x, -, hx⟩ | hexternal | hname
  · simp at hx
  · simp at hexternal
  · cases hname

end Wrappers

end CtypesCbuf.Cbuf
