import CtypesCbuf.Cbuf.StubCompilation
import CtypesCbuf.Cstubs.InverseCalls

/-!
When a C compiler accepts the file of inverted stubs: its names are distinct and
mean nothing yet, and every function is one that C has.
-/

namespace CtypesCbuf.Cstubs.Inverted

open NameSupply Supply
open Ctypes hiding Fn
open CLanguage Stubs
open Cbuf (Fn)
open Cbuf.EmitC (NamesByTag ViewOfBody ReachesBody)
open Cbuf.Compilation
open Ctypes.TypePrinting (PlainFormats)

/-! ### Functions -/

/-- The function compiles: `void` is its only parameter or none, the types have a
C type that is not declared again, and the result is a C value unless it is
`void` itself. -/
structure InverseCompiles (p : CProgram) (args : List Typ) (r : Typ) : Prop where
  parameters : args = [.void] ∨ ∀ t ∈ args, t.core ≠ .void
  arguments : ∀ t ∈ args, p.hasType t ∧ ¬ ReachesBody p.views t
  result : p.hasType r ∧ ¬ ViewOfBody p.views r
  returns : ¬ ViewOfVoid r
  projects : Projects p r

section InverseOf

variable {prog : CProgram} {stubName : String} {runtimeLock : Bool} {f : Fn}
  {n k a p l u e : Nat} {d : CFundef} {ps : List (String × Typ)} {r : Typ} {es : List CEff}

theorem parameterList_iff (ps : List (String × Typ)) :
    ParameterList (ps.map fun q => (q.1, .ty q.2)) ↔
      ps.map Prod.snd = [.void] ∨ ∀ t ∈ ps.map Prod.snd, t.core ≠ .void := by
  have hsnd : (ps.map fun q => (q.1, Ty.ty q.2)).map (fun q => q.2) =
      (ps.map Prod.snd).map .ty := by
    rw [List.map_map, List.map_map]
    rfl
  have hinj : Function.Injective Ty.ty := fun t u h => Ty.ty.inj h
  rw [ParameterList, hsnd, ← List.map_singleton, (List.map_injective_iff.mpr hinj).eq_iff,
    List.forall_mem_map, List.forall_mem_map]
  rfl

/-- A step that compiles whatever the types are: it declares at most a `value`,
applies functions of the headers and does not return. -/
structure Plain (st : Step) : Prop where
  declared : ∀ y ∈ declares st, ∃ j, y = (freshName j, .ty value)
  names : ∀ y ∈ declaredNames st, LocalName y
  functions : ∀ g ∈ st.functions, g.fname ∈ headerFunctions
  goesOn : ∀ ty y, st ≠ .ret ty y

theorem plain_voidBind {j : Nat} {g : CFunction} {vs : List CExp}
    (hg : g.fname ∈ headerFunctions) : Plain (.bind (GenerateC.voidBind j (.app g vs))) := by
  constructor <;>
    simp [GenerateC.voidBind, declares, declaredNames, Step.functions, CEff.functions, hg]

theorem plain_lockSteps (runtimeLock : Bool) (j : Nat) {g : CFunction}
    (hg : g.fname ∈ headerFunctions) : ∀ st ∈ lockSteps runtimeLock (.app g []) j, Plain st := by
  cases runtimeLock with
  | false => exact fun st hst => absurd hst List.not_mem_nil
  | true => exact List.forall_mem_singleton.mpr (plain_voidBind hg)

theorem plain_frameSteps (nargs p l : Nat) : ∀ st ∈ frameSteps nargs p l, Plain st := by
  refine List.forall_mem_cons.mpr ⟨?_, List.forall_mem_singleton.mpr ?_⟩ <;> constructor <;>
    simp [GenerateC.voidBind, declares, declaredNames, Step.functions, CEff.functions, LocalName]

theorem plain_assignSteps {qs : List (String × Typ)}
    (hes : List.Forall₂ (fun q i => Injection (q.1, .ty q.2) q.2.core i) qs es) (i : Nat) :
    ∀ st ∈ assignSteps i es, Plain st := by
  induction hes generalizing i with
  | nil => exact fun st hst => absurd hst List.not_mem_nil
  | cons hinj _ ih =>
      refine List.forall_mem_cons.mpr ⟨⟨?_, ?_, injection_header hinj, ?_⟩, ih (i + 1)⟩
      · exact fun y hy => absurd hy List.not_mem_nil
      · exact fun y hy => absurd hy List.not_mem_nil
      · exact fun ty y => Step.noConfusion

theorem plain_callbackSteps (stubName : String) (k : Nat) :
    ∀ st ∈ callbackSteps stubName k, Plain st := by
  have hcallback : Cbuf.GenerateC.camlCallbackN.fname ∈ headerFunctions := by decide
  refine List.forall_mem_cons.mpr ⟨?_, List.forall_mem_singleton.mpr ?_⟩ <;> constructor <;>
    simp [closureLocal, resultLocal, declares, declaredNames, Step.functions, CEff.functions, value,
      localName_fresh, Cbuf.GenerateC.functions, hcallback]

/-- The steps around the projection of the result, in front of the return. -/
theorem InverseOf.steps_around (hd : InverseOf stubName runtimeLock f n d ps r es k a p l u e) :
    ∃ before after, d.body.steps = before ++ (projectedResult r k).binds.map .bind ++
        (after ++ [.ret (.ty r) (projectedResult r k).arg]) ∧
      (∀ st ∈ before, Plain st) ∧ ∀ st ∈ after, Plain st := by
  have hconst : Plain (.const Cbuf.GenerateC.nargsLocal (sintOfInt ps.length)) := by
    constructor <;>
      simp [declares, declaredNames, Step.functions, LocalName, Cbuf.GenerateC.nargsLocal]
  have hdrop : Plain (.bind (GenerateC.voidBind u (.camlop .camlDrop))) := by
    constructor <;>
      simp [GenerateC.voidBind, declares, declaredNames, Step.functions, CEff.functions]
  have hacquire := List.forall_mem_cons.mpr
    ⟨hconst, plain_lockSteps runtimeLock a (g := acquireFunction) (by decide)⟩
  have hrelease := List.forall_mem_cons.mpr
    ⟨hdrop, plain_lockSteps runtimeLock e (g := releaseFunction) (by decide)⟩
  refine ⟨_, _, hd.steps_eq, ?_, hrelease⟩
  exact List.forall_mem_append.mpr ⟨List.forall_mem_append.mpr ⟨List.forall_mem_append.mpr
    ⟨hacquire, plain_frameSteps _ p l⟩, plain_assignSteps hd.injections 0⟩,
    plain_callbackSteps stubName k⟩

variable (prog) in
theorem projectedResult_compiles (hr : Passed r) (k : Nat) :
    (∀ b ∈ (projectedResult r k).binds, BindCompiles prog b) ↔ Projects prog r := by
  rw [projectedResult]
  split
  · next hv => simp [Projects, hv]
  · next hv => exact projected_compiles (hr.resolve_left hv) _ _

/-- The names and the functions of the projection. -/
theorem projectedResult_names (hr : Passed r) (k : Nat) :
    ∀ b ∈ (projectedResult r k).binds, (∀ y ∈ declaredNames (.bind b), LocalName y) ∧
      ∀ g ∈ b.2.functions, ¬ LocalName g.fname := by
  rw [projectedResult]
  split
  · exact fun b hb => absurd hb List.not_mem_nil
  · next hv =>
      intro b hb
      have hnames := (projected_declares (hr.resolve_left hv) (freshName (k + 2)) (k + 2)).1
      constructor
      · intro y hy
        have hmem : y ∈ ((projected r (.clocal (resultLocal k)) (k + 2)).binds.map
            Step.bind).flatMap declaredNames :=
          List.mem_flatMap.mpr ⟨_, List.mem_map_of_mem hb, hy⟩
        obtain ⟨j, -, rfl⟩ := List.mem_map.mp (hnames ▸ hmem)
        exact localName_fresh _
      · intro g hg
        rcases projected_functions r _ _ b hb g hg with h | h
        · exact headerFunctions_not_localName h
        · rw [h]
          exact floatArrayMacro_not_localName

theorem InverseOf.locals_iff (hd : InverseOf stubName runtimeLock f n d ps r es k a p l u e) :
    (∀ st ∈ d.body.steps, ∀ x ∈ declares st, prog.hasTy x.2 ∧ ¬ IsVoid x.2) ↔
      ∀ b ∈ (projectedResult r k).binds, ∀ x ∈ declares (.bind b),
        prog.hasTy x.2 ∧ ¬ IsVoid x.2 := by
  obtain ⟨before, after, hsteps, hbefore, hafter⟩ := hd.steps_around
  have hplain : ∀ sts : List Step, (∀ st ∈ sts, Plain st) →
      ∀ st ∈ sts, ∀ x ∈ declares st, prog.hasTy x.2 ∧ ¬ IsVoid x.2 := by
    intro sts hsts st hst x hx
    obtain ⟨j, rfl⟩ := (hsts st hst).declared x hx
    exact ⟨prog.value, by simp [IsVoid, value, Typ.core]⟩
  have hend : ∀ st ∈ after ++ [.ret (.ty r) (projectedResult r k).arg], ∀ x ∈ declares st,
      prog.hasTy x.2 ∧ ¬ IsVoid x.2 :=
    List.forall_mem_append.mpr ⟨hplain after hafter, List.forall_mem_singleton.mpr
      fun x hx => absurd hx List.not_mem_nil⟩
  rw [hsteps, List.forall_mem_append, List.forall_mem_append, List.forall_mem_map,
    and_iff_right (hplain before hbefore), and_iff_left hend]

theorem InverseOf.applies_iff (hd : InverseOf stubName runtimeLock f n d ps r es k a p l u e) :
    Applies prog (d.dec.params.map fun q => q.1) d.body.steps ↔
      ∀ b ∈ (projectedResult r k).binds, ∀ g ∈ b.2.functions, prog.defines g.fname := by
  obtain ⟨before, after, hsteps, hbefore, hafter⟩ := hd.steps_around
  have hscope : ∀ x ∈ d.dec.params.map (fun q => q.1), LocalName x := by
    rw [hd.dec_eq, List.map_map]
    intro x hx
    obtain ⟨j, -, -, rfl⟩ := hd.names.drawn x hx
    exact localName_fresh j
  have hplain : ∀ st, Plain st → (∀ y ∈ declaredNames st, LocalName y) ∧
      ∀ g ∈ st.functions, ¬ LocalName g.fname := fun st hst =>
    ⟨hst.names, fun g hg => headerFunctions_not_localName (hst.functions g hg)⟩
  have hret : (∀ y ∈ declaredNames (.ret (.ty r) (projectedResult r k).arg), LocalName y) ∧
      ∀ g ∈ (Step.ret (.ty r) (projectedResult r k).arg).functions, ¬ LocalName g.fname :=
    ⟨fun y hy => absurd hy List.not_mem_nil, fun g hg => absurd hg List.not_mem_nil⟩
  have hnames : ∀ st ∈ d.body.steps, (∀ y ∈ declaredNames st, LocalName y) ∧
      ∀ g ∈ st.functions, ¬ LocalName g.fname := by
    rw [hsteps, List.forall_mem_append, List.forall_mem_append, List.forall_mem_map,
      List.forall_mem_append, List.forall_mem_singleton]
    exact ⟨⟨fun st hst => hplain st (hbefore st hst), projectedResult_names hd.passed k⟩,
      fun st hst => hplain st (hafter st hst), hret⟩
  have hend : ∀ st ∈ after ++ [.ret (.ty r) (projectedResult r k).arg], ∀ g ∈ st.functions,
      prog.defines g.fname :=
    List.forall_mem_append.mpr
      ⟨fun st hst g hg => defines_of_header prog ((hafter st hst).functions g hg),
        List.forall_mem_singleton.mpr fun g hg => absurd hg List.not_mem_nil⟩
  have hbegin : ∀ st ∈ before, ∀ g ∈ st.functions, prog.defines g.fname :=
    fun st hst g hg => defines_of_header prog ((hbefore st hst).functions g hg)
  rw [applies_header hscope (fun st hst => (hnames st hst).1) fun st hst => (hnames st hst).2,
    hsteps, List.forall_mem_append, List.forall_mem_append, List.forall_mem_map,
    and_iff_right hbegin, and_iff_left hend]
  rfl

/-- Only the last step returns. -/
theorem InverseOf.returns_iff (hd : InverseOf stubName runtimeLock f n d ps r es k a p l u e) :
    Returns d ↔ ¬ ViewOfVoid r := by
  obtain ⟨before, after, hsteps, hbefore, hafter⟩ := hd.steps_around
  have hret : ∀ ty y, .ret ty y ∈ d.body.steps ↔
      ty = .ty r ∧ y = (projectedResult r k).arg := by
    intro ty y
    rw [hsteps, List.mem_append, List.mem_append, List.mem_append, List.mem_singleton]
    constructor
    · rintro ((h | h) | h | h)
      · exact absurd rfl ((hbefore _ h).goesOn ty y)
      · obtain ⟨b, -, hb⟩ := List.mem_map.mp h
        cases hb
      · exact absurd rfl ((hafter _ h).goesOn ty y)
      · cases h
        exact ⟨rfl, rfl⟩
    · rintro ⟨rfl, rfl⟩
      exact .inr (.inr rfl)
  have hvoid : IsVoid d.dec.ret ↔ r.core = .void := by rw [hd.dec_eq, IsVoid]
  rw [Returns, hvoid, ViewOfVoid]
  constructor
  · rintro h ⟨hcore, hne⟩
    exact hne (Ty.ty.inj ((h (.ty r) _ ((hret _ _).mpr ⟨rfl, rfl⟩)).mpr hcore))
  · rintro h ty y hty
    obtain ⟨rfl, -⟩ := (hret ty y).mp hty
    constructor
    · intro heq
      cases heq
      rfl
    · intro hcore
      by_contra hne
      exact h ⟨hcore, fun heq => hne (congrArg Ty.ty heq)⟩

theorem InverseOf.compiles_iff (hd : InverseOf stubName runtimeLock f n d ps r es k a p l u e)
    (htags : NamesByTag prog.views d ↔
      (∀ t ∈ f.arguments, ¬ ReachesBody prog.views t) ∧ ¬ ViewOfBody prog.views r) :
    Compiles prog d ↔ InverseCompiles prog f.arguments r := by
  have hparams : d.dec.params = ps.map fun q => (q.1, .ty q.2) := by rw [hd.dec_eq]
  have hlist := parameterList_iff ps
  rw [← hparams, hd.arguments] at hlist
  have hsignature : (∀ q ∈ d.dec.params, prog.hasTy q.2) ↔ ∀ t ∈ f.arguments, prog.hasType t := by
    rw [hparams, ← hd.arguments, List.forall_mem_map, List.forall_mem_map]
    rfl
  have hresult : prog.hasTy d.dec.ret ↔ prog.hasType r := by rw [hd.dec_eq, CProgram.hasTy]
  have hprojects := projectedResult_compiles prog hd.passed k
  constructor
  · intro h
    exact
      { parameters := hlist.mp h.parameters
        arguments := fun t ht => ⟨hsignature.mp h.signature.1 t ht, (htags.mp h.tags).1 t ht⟩
        result := ⟨hresult.mp h.signature.2, (htags.mp h.tags).2⟩
        returns := hd.returns_iff.mp h.returns
        projects := hprojects.mp fun b hb =>
          ⟨hd.locals_iff.mp h.locals b hb, hd.applies_iff.mp h.applies b hb⟩ }
  · intro h
    have hbinds := hprojects.mpr h.projects
    exact
      { parameters := hlist.mpr h.parameters
        signature := ⟨hsignature.mpr fun t ht => (h.arguments t ht).1, hresult.mpr h.result.1⟩
        locals := hd.locals_iff.mpr fun b hb => (hbinds b hb).1
        applies := hd.applies_iff.mpr fun b hb => (hbinds b hb).2
        returns := hd.returns_iff.mpr h.returns
        tags := htags.mpr ⟨fun t ht => (h.arguments t ht).2, h.result.2⟩ }

end InverseOf

/-! ### Files -/

def CFile.names (file : CFile) : List String :=
  file.enumerators ++ "functions" :: file.register :: file.functions.map fun d => d.dec.name

/-- A C compiler accepts the file. -/
structure CFile.Compiles (p : CProgram) (file : CFile) : Prop where
  distinct : file.names.Nodup
  free : ∀ x ∈ file.names, p.free x
  functions : ∀ d ∈ file.functions, Cbuf.Compilation.Compiles p d

/-- The names of functions, the enumerators that are made of them and what else the
file declares do not clash, and mean nothing yet. -/
structure NamesFit (p : CProgram) (register : String) (names : List String) : Prop where
  noCount : "count" ∉ names
  noTable : "functions" ∉ names
  noRegister : register ∉ names
  enumerators : ∀ x ∈ "count" :: names, "fn_" ++ x ∉ names ∧ "fn_" ++ x ≠ register
  free : (∀ x ∈ names, p.free x) ∧ (∀ x ∈ "count" :: names, p.free ("fn_" ++ x)) ∧
    p.free "functions" ∧ p.free register

theorem genC_names {register : String} {infos : List FnInfo} {file : CFile} {n n' : Nat}
    (h : genC register infos n = .ok (file, n')) :
    file.names = formatEnumValues infos ++ ["fn_count"] ++ "functions" :: register ::
      infos.map FnInfo.fnName := by
  obtain ⟨fs, n1, hfs, h⟩ := bind_eq_ok.mp h
  cases h
  have hnames : List.Forall₂ Eq (fs.map fun d => d.dec.name) (infos.map FnInfo.fnName) := by
    refine List.forall₂_map_left_iff.mpr (List.forall₂_map_right_iff.mpr ?_)
    refine List.Forall₂.flip ((mapM_eq_ok hfs).imp fun info d hd => ?_)
    obtain ⟨k, k', hd⟩ := hd
    obtain ⟨ps, r, es, m, a, p, l, u, e, hd⟩ := inverseFn_eq_ok hd
    show d.dec.name = info.fnName
    rw [hd.dec_eq]
  rw [List.forall₂_eq_eq_eq] at hnames
  rw [CFile.names, hnames]

theorem names_nodup_iff {infos : List FnInfo} (pre : String)
    (hnames : (infos.map FnInfo.fnName).Nodup) :
    (formatEnumValues infos ++ ["fn_count"] ++ "functions" :: (pre ++ "_register") ::
        infos.map FnInfo.fnName).Nodup ↔
      "count" ∉ infos.map FnInfo.fnName ∧ "functions" ∉ infos.map FnInfo.fnName ∧
        pre ++ "_register" ∉ infos.map FnInfo.fnName ∧
        ∀ x ∈ "count" :: infos.map FnInfo.fnName,
          "fn_" ++ x ∉ infos.map FnInfo.fnName ∧ "fn_" ++ x ≠ pre ++ "_register" := by
  have htable : "functions" ≠ pre ++ "_register" := by
    intro h
    have hlast := congrArg (fun s : String => s.toList.getLast?) h
    simp at hlast
  have henum : ∀ x : String, "fn_" ++ x ≠ "functions" := by
    intro x h
    have hthird := congrArg (fun s : String => s.toList[2]?) h
    simp at hthird
  have hmem : ∀ y, y ∈ formatEnumValues infos ++ ["fn_count"] ↔
      ∃ x ∈ "count" :: infos.map FnInfo.fnName, "fn_" ++ x = y := by
    intro y
    simp [formatEnumValues, or_comm, eq_comm]
  rw [List.nodup_append, enumerators_nodup_iff, List.nodup_cons, List.nodup_cons, List.mem_cons,
    and_iff_right hnames, and_iff_left hnames, or_iff_right htable]
  have hdisjoint : (∀ y ∈ formatEnumValues infos ++ ["fn_count"],
      ∀ z ∈ "functions" :: (pre ++ "_register") :: infos.map FnInfo.fnName, y ≠ z) ↔
      ∀ x ∈ "count" :: infos.map FnInfo.fnName,
        "fn_" ++ x ∉ infos.map FnInfo.fnName ∧ "fn_" ++ x ≠ pre ++ "_register" := by
    constructor
    · intro h x hx
      have hx' := h _ ((hmem _).mpr ⟨x, hx, rfl⟩)
      exact ⟨fun hin => hx' _ (List.mem_cons_of_mem _ (List.mem_cons_of_mem _ hin)) rfl,
        hx' _ (List.mem_cons_of_mem _ List.mem_cons_self)⟩
    · rintro h y hy z hz rfl
      obtain ⟨x, hx, rfl⟩ := (hmem y).mp hy
      rcases List.mem_cons.mp hz with hz | hz
      · exact henum x hz
      · rcases List.mem_cons.mp hz with hz | hz
        · exact (h x hx).2 hz
        · exact (h x hx).1 hz
  rw [hdisjoint, and_assoc]

section Files

variable {F : Type} {prog : CProgram} {pre : String} {program : List Binding} {cfile : CFile}
  {mlfile : MlFile} {n1 n1' n2 n2' : Nat}

theorem inverseFn_compiles_iff (hviews : PlainFormats prog.views) {info : FnInfo} {d : CFundef}
    {n n' : Nat} (h : cFunction info n = .ok (d, n')) :
    Compiles prog d ↔
      InverseCompiles prog (Fn.ofCtypes info.fn).arguments (resultTyp info.fn) := by
  have htags := Cbuf.EmitC.inverseFn_namesByTag_iff hviews h
  obtain ⟨ps, r, es, m, a, p, l, u, e, hd⟩ := inverseFn_eq_ok h
  obtain rfl : resultTyp info.fn = r :=
    Ty.ty.inj ((returnType_ofCtypes info.fn).symm.trans hd.returns)
  rw [returnType_ofCtypes] at htags
  refine hd.compiles_iff (htags.trans (and_congr_right' ⟨fun h => h _ rfl, ?_⟩))
  rintro h r' hr'
  exact Ty.ty.inj hr' ▸ h

theorem genC_compiles_iff (hviews : PlainFormats prog.views) {infos : List FnInfo}
    (hnames : (infos.map FnInfo.fnName).Nodup)
    (hc : genC (pre ++ "_register") infos n1 = .ok (cfile, n1')) :
    cfile.Compiles prog ↔ NamesFit prog (pre ++ "_register") (infos.map FnInfo.fnName) ∧
      ∀ info ∈ infos,
        InverseCompiles prog (Fn.ofCtypes info.fn).arguments (resultTyp info.fn) := by
  have hfile := genC_names hc
  obtain ⟨-, hfunctions⟩ := genC_eq_ok hc
  have hall : (∀ d ∈ cfile.functions, Compiles prog d) ↔ ∀ info ∈ infos,
      InverseCompiles prog (Fn.ofCtypes info.fn).arguments (resultTyp info.fn) := by
    generalize cfile.functions = fs at hfunctions
    clear hc hnames hfile
    induction hfunctions with
    | nil => simp
    | cons hd _ ih =>
        obtain ⟨k, k', hd⟩ := hd
        rw [List.forall_mem_cons, List.forall_mem_cons, ih, inverseFn_compiles_iff hviews hd]
  have hdistinct := hfile ▸ names_nodup_iff pre hnames
  have hfree : (∀ x ∈ cfile.names, prog.free x) ↔ (∀ x ∈ infos.map FnInfo.fnName, prog.free x) ∧
      (∀ x ∈ "count" :: infos.map FnInfo.fnName, prog.free ("fn_" ++ x)) ∧
        prog.free "functions" ∧ prog.free (pre ++ "_register") := by
    have hcount : "fn_" ++ "count" = "fn_count" := by decide
    rw [hfile]
    simp only [formatEnumValues, List.forall_mem_append, List.forall_mem_cons, List.forall_mem_map,
      List.not_mem_nil, false_implies, implies_true, and_true, hcount]
    constructor
    · rintro ⟨⟨hvalues, hlast⟩, htable, hregister, hfuns⟩
      exact ⟨hfuns, ⟨hlast, hvalues⟩, htable, hregister⟩
    · rintro ⟨hfuns, ⟨hlast, hvalues⟩, htable, hregister⟩
      exact ⟨⟨hvalues, hlast⟩, htable, hregister, hfuns⟩
  constructor
  · intro h
    obtain ⟨hcount, htable, hregister, henum⟩ := hdistinct.mp h.distinct
    exact ⟨⟨hcount, htable, hregister, henum, hfree.mp h.free⟩, hall.mp h.functions⟩
  · rintro ⟨h, hfuns⟩
    exact ⟨hdistinct.mpr ⟨h.noCount, h.noTable, h.noRegister, h.enumerators⟩, hfree.mpr h.free,
      hall.mpr hfuns⟩

/-- A C compiler accepts the file, and every declared function has a C function and
a case that belong together, iff the names clash with no other name, the types of
each function have C types of which `void` stands alone, and their number is one
that `int` can count. -/
theorem inverted_calls_iff (hviews : PlainFormats prog.views)
    (hnames : ((functions (collector program)).map FnInfo.fnName).Nodup)
    (hc : writeC pre program n1 = .ok (cfile, n1'))
    (hml : writeML pre program n2 = .ok (mlfile, n2')) :
    (cfile.Compiles prog ∧
      ∀ (i : Nat) info, (functions (collector program))[i]? = some info →
        ∃ d c, cfile.functions[i]? = some d ∧ mlfile.cases[i]? = some c ∧
          CallsRegistered F cfile mlfile info d c) ↔
    NamesFit prog (pre ++ "_register") ((functions (collector program)).map FnInfo.fnName) ∧
      ∀ info ∈ functions (collector program),
        (Fn.ofCtypes info.fn).arguments.length < 2 ^ 31 ∧
          InverseCompiles prog (Fn.ofCtypes info.fn).arguments (resultTyp info.fn) := by
  rw [genC_compiles_iff hviews hnames hc, all_callsRegistered_iff hnames hc hml, and_assoc]
  refine and_congr_right' ⟨fun ⟨hcompiles, hcalls⟩ info hinfo => ?_, fun h => ⟨?_, ?_⟩⟩
  · exact ⟨(hcalls info hinfo).1, hcompiles info hinfo⟩
  · exact fun info hinfo => (h info hinfo).2
  · exact fun info hinfo => ⟨(h info hinfo).1, fun _ => (h info hinfo).2.returns⟩

end Files

/-- Two functions among other declarations, one of them with the lock. -/
def twoFunctions : List Binding :=
  [.typedef (.primitive .long) "length", .internal true "f" (.function int (.returns int)),
    .enum [("A", 0)] (.primitive .uint8T),
    .internal false "g" (.function (.pointer .void) (.function int (.returns .void)))]

/-- A program in which all names are free. -/
def openProgram : CProgram :=
  { views := fun _ => none, hasType := fun _ => True, functions := fun _ => False
    free := fun _ => True, void := trivial, value := trivial, voidPointer := trivial
    primitive := fun _ => trivial, ocaml := fun _ => trivial }

theorem inverted_calls_iff_two :
    ∃ cfile mlfile n1' n2', writeC "p" twoFunctions 0 = .ok (cfile, n1') ∧
      writeML "p" twoFunctions 0 = .ok (mlfile, n2') ∧ cfile.Compiles openProgram ∧
      ∀ (i : Nat) info, (functions (collector twoFunctions))[i]? = some info →
        ∃ d c, cfile.functions[i]? = some d ∧ mlfile.cases[i]? = some c ∧
          CallsRegistered Nat cfile mlfile info d c := by
  have hviews : PlainFormats openProgram.views := by
    intro v format h
    cases h
  have hc : writeC "p" twoFunctions 0 = .ok _ := rfl
  have hml : writeML "p" twoFunctions 0 = .ok _ := rfl
  have hfunctions : functions (collector twoFunctions) =
      [⟨true, "f", .function int (.returns int)⟩,
        ⟨false, "g", .function (.pointer .void) (.function int (.returns .void))⟩] := rfl
  have hnames : NamesFit openProgram ("p" ++ "_register")
      ((functions (collector twoFunctions)).map FnInfo.fnName) :=
    { noCount := by decide
      noTable := by decide
      noRegister := by decide
      enumerators := by decide
      free := ⟨fun _ _ => trivial, fun _ _ => trivial, trivial, trivial⟩ }
  refine ⟨_, _, _, _, hc, hml, (inverted_calls_iff hviews (by decide) hc hml).mpr ⟨hnames, ?_⟩⟩
  rw [hfunctions]
  refine List.forall_mem_cons.mpr ⟨⟨by decide, ?_⟩, List.forall_mem_singleton.mpr ⟨by decide, ?_⟩⟩
  · exact
      { parameters := .inr (List.forall_mem_singleton.mpr (by decide))
        arguments := List.forall_mem_singleton.mpr ⟨trivial, id⟩
        result := ⟨trivial, id⟩
        returns := fun h => absurd h.1 (by decide)
        projects := trivial }
  · exact
      { parameters := .inr (List.forall_mem_cons.mpr
          ⟨by decide, List.forall_mem_singleton.mpr (by decide)⟩)
        arguments := List.forall_mem_cons.mpr
          ⟨⟨trivial, id⟩, List.forall_mem_singleton.mpr ⟨trivial, id⟩⟩
        result := ⟨trivial, id⟩
        returns := fun h => h.2 rfl
        projects := trivial }

def countFunction : List Binding := [.internal false "count" (.function int (.returns int))]

/-- The last enumerator of the file has this name, too. -/
theorem countFunction_not_calls :
    ((functions (collector countFunction)).map FnInfo.fnName).Nodup ∧
    ∃ cfile mlfile n1' n2', writeC "p" countFunction 0 = .ok (cfile, n1') ∧
      writeML "p" countFunction 0 = .ok (mlfile, n2') ∧
      ∀ prog, ¬ (cfile.Compiles prog ∧
        ∀ (i : Nat) info, (functions (collector countFunction))[i]? = some info →
          ∃ d c, cfile.functions[i]? = some d ∧ mlfile.cases[i]? = some c ∧
            CallsRegistered Nat cfile mlfile info d c) := by
  refine ⟨by decide, _, _, _, _, rfl, rfl, fun prog h => ?_⟩
  have htwice : ["fn_count", "fn_count"].Nodup := h.1.distinct.sublist (by decide)
  exact absurd htwice (by decide)

end CtypesCbuf.Cstubs.Inverted
