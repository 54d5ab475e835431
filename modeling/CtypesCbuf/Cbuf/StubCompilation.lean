import CtypesCbuf.Cbuf.Compilation
import CtypesCbuf.Cbuf.Execution

/-!
When a C compiler accepts a generated stub. The condition is one on the C name,
the types and the count of names drawn before.
-/

namespace CtypesCbuf.Cbuf.Compilation

open NameSupply Supply
open Ctypes hiding Fn
open CLanguage Stubs GenerateC EmitC
open Ctypes.TypePrinting (PlainFormats)

/-! ### Names of parameters -/

def bufferInputs : NamedCBuffers → List (String × Typ)
  | .lastBuf x _ t => [(x, t)]
  | .conBuf l r => bufferInputs l ++ bufferInputs r

/-- The parameters, with the types that they are projected at. -/
def inputs : NamedFn → List (String × Typ)
  | .returns _ => []
  | .function x f t => (x, f) :: inputs t
  | .buffers _ b r => bufferInputs b ++ inputs r

def inputTypes : Fn → List Typ
  | .returns _ => []
  | .function f t => f :: inputTypes t
  | .buffers _ b r => b.types ++ inputTypes r

/-- Nothing but the result stands behind the buffers. -/
def BuffersLast : Fn → Prop
  | .returns _ => True
  | .function _ t => BuffersLast t
  | .buffers _ _ r => ∃ t, r = .returns t

theorem buffersLast_arrows {args : List Typ} {tail : Fn} :
    BuffersLast (arrows args tail) ↔ BuffersLast tail := by
  induction args with
  | nil => rfl
  | cons a args ih => exact ih

theorem bufferInputs_names (b : NamedCBuffers) : (bufferInputs b).map Prod.fst = b.names := by
  induction b with
  | lastBuf x i t => rfl
  | conBuf l r ihl ihr => rw [bufferInputs, List.map_append, ihl, ihr, NamedCBuffers.names]

theorem bufferInputs_types (b : NamedCBuffers) :
    (bufferInputs b).map Prod.snd = b.spec.types := by
  induction b with
  | lastBuf x i t => rfl
  | conBuf l r ihl ihr =>
      rw [bufferInputs, List.map_append, ihl, ihr, NamedCBuffers.spec, CBuffers.types]

theorem inputs_names (f : NamedFn) : (inputs f).map Prod.fst = f.names := by
  induction f with
  | returns t => rfl
  | function x f t ih => rw [inputs, List.map_cons, ih, NamedFn.names]
  | buffers cpos b r ih =>
      rw [inputs, List.map_append, ih, bufferInputs_names, NamedFn.names]

theorem inputs_types (f : NamedFn) : (inputs f).map Prod.snd = inputTypes f.spec := by
  induction f with
  | returns t => rfl
  | function x f t ih => rw [inputs, List.map_cons, ih, NamedFn.spec, inputTypes]
  | buffers cpos b r ih =>
      rw [inputs, List.map_append, ih, bufferInputs_types, NamedFn.spec, inputTypes]

theorem valueParams_names {f : NamedFn} (h : BuffersLast f.spec) :
    (valueParams f).map (fun q => q.1) = f.names := by
  induction f with
  | returns t => rfl
  | function x f t ih => rw [valueParams, List.map_cons, ih h, NamedFn.names]
  | buffers cpos b r ih =>
      obtain ⟨t, ht⟩ := h
      cases r with
      | returns t' => simp [valueParams, valueParamsOfCbuffers_eq, NamedFn.names, Function.comp_def]
      | function x f t' => cases ht
      | buffers cpos' b' r' => cases ht

/-- All the names between two counts. -/
structure DrawsAll (lo hi : Nat) (xs : List String) : Prop where
  mem_iff : ∀ x, x ∈ xs ↔ Drawn freshName lo hi x
  length : hi = lo + xs.length

theorem DrawsAll.nil (n : Nat) : DrawsAll n n [] := by
  refine ⟨fun x => ⟨fun h => absurd h List.not_mem_nil, ?_⟩, rfl⟩
  rintro ⟨i, hlo, hhi, -⟩
  omega

theorem DrawsAll.single (n : Nat) : DrawsAll n (n + 1) [freshName (n + 1)] := by
  refine ⟨fun x => List.mem_singleton.trans ⟨fun h => ⟨n + 1, by omega, by omega, h⟩, ?_⟩, rfl⟩
  rintro ⟨i, hlo, hhi, rfl⟩
  obtain rfl : i = n + 1 := by omega
  rfl

/-- Names drawn later stand in front. -/
theorem DrawsAll.append {lo mid hi : Nat} {xs ys : List String} (hx : DrawsAll lo mid xs)
    (hy : DrawsAll mid hi ys) : DrawsAll lo hi (ys ++ xs) := by
  have hmid := hx.length
  have hhi := hy.length
  refine ⟨fun x => ?_, by rw [List.length_append]; omega⟩
  rw [List.mem_append, hx.mem_iff, hy.mem_iff]
  constructor
  · rintro (⟨i, h1, h2, rfl⟩ | ⟨i, h1, h2, rfl⟩)
    · exact ⟨i, by omega, h2, rfl⟩
    · exact ⟨i, h1, by omega, rfl⟩
  · rintro ⟨i, h1, h2, rfl⟩
    by_cases hi : i ≤ mid
    · exact .inr ⟨i, h1, hi, rfl⟩
    · exact .inl ⟨i, by omega, h2, rfl⟩

theorem nameParamsOfCbuffers_drawsAll {b : CBuffers} {b' : NamedCBuffers} {n n' : Nat}
    (h : nameParamsOfCbuffers b n = .ok (b', n')) : DrawsAll n n' b'.names := by
  induction b generalizing b' n n' with
  | lastBuf i t =>
      cases h
      exact .single n
  | conBuf l r ihl ihr =>
      obtain ⟨r', n1, hr, h⟩ := bind_eq_ok.mp h
      obtain ⟨l', n2, hl, h⟩ := bind_eq_ok.mp h
      cases h
      exact (ihr hr).append (ihl hl)

theorem nameParams_drawsAll {f : Fn} {f' : NamedFn} {n n' : Nat}
    (h : nameParams f n = .ok (f', n')) : DrawsAll n n' f'.names := by
  induction f generalizing f' n n' with
  | returns t =>
      cases h
      exact .nil n
  | function f t ih =>
      obtain ⟨t', n1, ht, h⟩ := bind_eq_ok.mp h
      cases h
      exact (ih ht).append (.single n1)
  | buffers cpos b r ih =>
      obtain ⟨r', n1, hr, h⟩ := bind_eq_ok.mp h
      obtain ⟨b', n2, hb, h⟩ := bind_eq_ok.mp h
      cases h
      exact (ih hr).append (nameParamsOfCbuffers_drawsAll hb)

/-! ### Layouts -/

theorem layoutBuffers_inputs (cpos : CPosition) (vars bufvars : List CExp)
    {b : NamedCBuffers} (n : Nat) (hb : AcceptedBuffers b.spec) :
    (layoutBuffers cpos vars bufvars b n).binds = (projectParams (bufferInputs b) n).binds ∧
      (layoutBuffers cpos vars bufvars b n).next = (projectParams (bufferInputs b) n).next := by
  induction bufvars, b using bodyForCbuffers.induct vars generalizing n with
  | case1 bufvars x i f =>
      rw [layoutBuffers, bufferInputs, projectParams]
      split
      · exact ⟨rfl, rfl⟩
      · exact ⟨(List.append_nil _).symm, rfl⟩
  | case2 bufvars x i f t ih1 ih2 =>
      rw [layoutBuffers, bufferInputs, bufferInputs, List.singleton_append, projectParams]
      split
      · exact ih1 n hb.2
      · obtain ⟨hbinds, hnext⟩ := ih2 (projected f (Stubs.valueLocal x) n).arg
          (projected f (Stubs.valueLocal x) n).next hb.2
        exact ⟨congrArg (_ ++ ·) hbinds, hnext⟩
  | case3 bufvars l r t => exact hb.elim

theorem layout_inputs (vars : List CExp) {f : NamedFn} (n : Nat) (hf : Accepted f.spec) :
    (layout vars f n).binds = (projectParams (inputs f) n).binds ∧
      (layout vars f n).next = (projectParams (inputs f) n).next := by
  induction f generalizing vars n with
  | returns t => exact ⟨rfl, rfl⟩
  | function x f t ih =>
      rw [layout, inputs, projectParams]
      split
      · exact ih vars n hf.2
      · obtain ⟨hbinds, hnext⟩ := ih ((projected f (Stubs.valueLocal x) n).arg :: vars)
          (projected f (Stubs.valueLocal x) n).next hf.2
        exact ⟨congrArg (_ ++ ·) hbinds, hnext⟩
  | buffers cpos b r ih =>
      obtain ⟨hbufs, hnext⟩ := layoutBuffers_inputs cpos vars [] n hf.1
      obtain ⟨hrest, hlast⟩ := ih (layoutBuffers cpos vars [] b n).vars
        (layoutBuffers cpos vars [] b n).next hf.2
      obtain ⟨happend, hend⟩ := projectParams_append (bufferInputs b) (inputs r) n
      rw [layout, inputs]
      refine ⟨?_, ?_⟩
      · rw [happend, ← hbufs, ← hnext]
        exact congrArg (_ ++ ·) hrest
      · rw [hend, ← hnext]
        exact hlast

/-! ### Stubs -/

/-- The numbers of the names that are declared when the stub of the specification
calls the C function, where `n` names are drawn before the stub. -/
def scopeNumbers (f : Fn) (n : Nat) : List Nat :=
  let params := (inputTypes f).length
  let last := n + params + ((inputTypes f).map drawnNames).sum
  List.range' (n + 1) params ++ localNumbers (inputTypes f) (n + params) ++
    if resultTyp f = .void then [] else [last + 1]

/-- The stub of the specification compiles: its C function is defined and none of
the stub's names hides it, the types have a C type and their projections code,
and the result is a C value unless it is `void` itself. -/
structure StubCompiles (p : CProgram) (cname : String) (f : Fn) (n : Nat) : Prop where
  defined : p.defines cname
  visible : ∀ j ∈ scopeNumbers f n, cname ≠ freshName j
  projects : ∀ t ∈ inputTypes f, Projects p t
  result : resultTyp f = .void ∨ (resultTyp f).core ≠ .void ∧ p.hasType (resultTyp f)
  tags : ∀ t ∈ f.types, ¬ ViewOfBody p.views t

section Stub

variable {p : CProgram} {errno_ : ErrnoPolicy} {cname stubName : String} {f : Fn} {n n2 : Nat}
  {d : CFundef}

theorem localName_fresh (j : Nat) : LocalName (freshName j) := .inl ⟨j, rfl⟩

theorem floatArrayMacro_not_localName : ¬ LocalName floatArrayMacro :=
  not_localName (by decide) (by decide)

/-- What projections apply. -/
theorem projected_functions (t : Typ) (x : CExp) (n : Nat) :
    ∀ b ∈ (projected t x n).binds, ∀ g ∈ b.2.functions,
      g.fname ∈ headerFunctions ∨ g.fname = floatArrayMacro := by
  have hfatptr : ∀ g ∈ (ofFatptr x).functions, g.fname ∈ headerFunctions := by
    intro g hg
    obtain rfl := List.mem_singleton.mp hg
    decide
  rw [projected]
  cases t.core with
  | primitive q =>
      refine List.forall_mem_singleton.mpr fun g hg => .inl ?_
      obtain rfl := List.mem_singleton.mp hg
      exact primPrj_header q
  | ocaml o =>
      refine List.forall_mem_singleton.mpr fun g hg => ?_
      cases o with
      | floatArray =>
          obtain rfl := List.mem_singleton.mp hg
          exact .inr rfl
      | _ =>
          obtain rfl := List.mem_singleton.mp hg
          exact .inl (by decide)
  | struct tag spec fields =>
      refine List.forall_mem_cons.mpr ⟨fun g hg => .inl (hfatptr g hg), ?_⟩
      exact List.forall_mem_singleton.mpr fun g hg => absurd hg List.not_mem_nil
  | union utag uspec ufields =>
      refine List.forall_mem_cons.mpr ⟨fun g hg => .inl (hfatptr g hg), ?_⟩
      exact List.forall_mem_singleton.mpr fun g hg => absurd hg List.not_mem_nil
  | _ => exact List.forall_mem_singleton.mpr fun g hg => .inl (hfatptr g hg)

theorem projectParams_functions (ps : List (String × Typ)) (n : Nat) :
    ∀ b ∈ (projectParams ps n).binds, ∀ g ∈ b.2.functions, ¬ LocalName g.fname := by
  induction ps generalizing n with
  | nil => simp [projectParams]
  | cons q ps ih =>
      obtain ⟨y, u⟩ := q
      rw [projectParams]
      split
      · exact ih n
      · refine List.forall_mem_append.mpr ⟨fun b hb g hg => ?_, ih _⟩
        rcases projected_functions u (Stubs.valueLocal y) n b hb g hg with h | h
        · exact headerFunctions_not_localName h
        · rw [h]
          exact floatArrayMacro_not_localName

theorem injection_header {x : CLocal} {t : Typ} {e : CEff} (h : Injection x t e) :
    ∀ g ∈ e.functions, g.fname ∈ headerFunctions := by
  cases h with
  | void => exact fun g hg => absurd hg List.not_mem_nil
  | primitive q =>
      intro g hg
      obtain rfl := List.mem_singleton.mp hg
      exact primInj_header q
  | _ =>
      intro g hg
      obtain rfl := List.mem_singleton.mp hg
      decide

theorem returnSteps_header {t : Typ} {x : CLocal} {i : CEff} (hi : Injection x t i) (m : Nat) :
    ∀ st ∈ returnSteps errno_ i m, ∀ g ∈ st.functions, g.fname ∈ headerFunctions := by
  cases errno_ with
  | ignoreErrno => exact List.forall_mem_singleton.mpr (injection_header hi)
  | returnErrno =>
      refine List.forall_mem_cons.mpr ⟨injection_header hi, List.forall_mem_singleton.mpr ?_⟩
      intro g hg
      obtain rfl := List.mem_singleton.mp hg
      decide

theorem returnSteps_declares {t : Typ} {x : CLocal} {i : CEff} (hi : Injection x t i) (m : Nat) :
    ∀ st ∈ returnSteps errno_ i m, declaredNames st = (declares st).map (fun y => y.1) ∧
      ∀ y ∈ declares st, ∃ j, y = (freshName j, .ty value) := by
  cases errno_ with
  | ignoreErrno =>
      exact List.forall_mem_singleton.mpr ⟨rfl, fun y hy => absurd hy List.not_mem_nil⟩
  | returnErrno =>
      refine List.forall_mem_cons.mpr ⟨⟨?_, fun y hy => ?_⟩, List.forall_mem_singleton.mpr
        ⟨rfl, fun y hy => absurd hy List.not_mem_nil⟩⟩
      · cases hi <;> rfl
      · exact ⟨m + 2, by simpa [declares, value] using hy⟩

theorem returnSteps_names {t : Typ} {x : CLocal} {i : CEff} (hi : Injection x t i) (m : Nat) :
    ∀ st ∈ returnSteps errno_ i m, ∀ y ∈ declaredNames st, LocalName y := by
  intro st hst y hy
  obtain ⟨heq, hdecl⟩ := returnSteps_declares hi m st hst
  rw [heq] at hy
  obtain ⟨z, hz, rfl⟩ := List.mem_map.mp hy
  obtain ⟨j, rfl⟩ := hdecl z hz
  exact localName_fresh j

/-- What is applied around the call is not hidden by names of locals. -/
theorem applies_header {scope : List String} {sts : List Step}
    (hscope : ∀ x ∈ scope, LocalName x)
    (hdecl : ∀ st ∈ sts, ∀ x ∈ declaredNames st, LocalName x)
    (hfuns : ∀ st ∈ sts, ∀ g ∈ st.functions, ¬ LocalName g.fname) :
    Applies p scope sts ↔ ∀ st ∈ sts, ∀ g ∈ st.functions, p.defines g.fname := by
  refine applies_of_not_hidden fun st hst g hg hmem => hfuns st hst g hg ?_
  rcases List.mem_append.mp hmem with h | h
  · exact hscope _ h
  · obtain ⟨st', hst', hx⟩ := List.mem_flatMap.mp h
    exact hdecl st' hst' _ hx

theorem mem_range'_iff {x : String} {n k : Nat} :
    Drawn freshName n (n + k) x ↔ ∃ j ∈ List.range' (n + 1) k, x = freshName j := by
  simp only [Drawn, List.mem_range'_1]
  constructor
  · rintro ⟨j, h1, h2, rfl⟩
    exact ⟨j, by omega, rfl⟩
  · rintro ⟨j, hj, rfl⟩
    exact ⟨j, by omega, by omega, rfl⟩

variable (p errno_) in
/-- The call of the C function between the projections and the end. -/
theorem applies_callStep (fvar : CFunction) (vars : List CExp) {t u : Typ} {x : CLocal} {i : CEff}
    (hi : Injection x u i) (m : Nat) {scope : List String} (hscope : ∀ x ∈ scope, LocalName x) :
    Applies p scope (resetSteps errno_ ++ callStep fvar vars t m :: returnSteps errno_ i m) ↔
      p.defines fvar.fname ∧
        fvar.fname ∉ scope ++ if t = .void then [] else [freshName (m + 1)] := by
  have hnone : ∀ st ∈ resetSteps errno_, st.functions = [] ∧ declaredNames st = [] := by
    cases errno_ <;> simp [resetSteps, Step.functions, CEff.functions, declaredNames, declares]
  have hflat : (resetSteps errno_).flatMap declaredNames = [] :=
    List.flatMap_eq_nil_iff.mpr fun st hst => (hnone st hst).2
  have hreset : Applies p scope (resetSteps errno_) := by
    refine (applies_of_not_hidden fun st hst g hg => ?_).mpr fun st hst g hg => ?_
    all_goals
      rw [(hnone st hst).1] at hg
      exact absurd hg List.not_mem_nil
  have hcall : declaredNames (callStep fvar vars t m) =
      if t = .void then [] else [freshName (m + 1)] := by
    rw [callStep, declaredNames, declares]
    · split <;> simp_all
    · simp
    · simp
  have hscope' : ∀ x ∈ scope ++ declaredNames (callStep fvar vars t m), LocalName x := by
    rw [hcall]
    refine List.forall_mem_append.mpr ⟨hscope, fun x hx => ?_⟩
    split at hx
    · cases hx
    · obtain rfl := List.mem_singleton.mp hx
      exact localName_fresh _
  have hrest : ∀ st ∈ returnSteps errno_ i m, ∀ g ∈ st.functions, g.fname ∈ headerFunctions :=
    returnSteps_header hi m
  have hafter : Applies p (scope ++ declaredNames (callStep fvar vars t m))
      (returnSteps errno_ i m) :=
    (applies_header hscope' (returnSteps_names hi m) fun st hst g hg =>
      headerFunctions_not_localName (hrest st hst g hg)).mpr fun st hst g hg =>
        defines_of_header p (hrest st hst g hg)
  rw [applies_append, hflat, List.append_nil, and_iff_right hreset, Applies,
    and_iff_left hafter, hcall]
  exact List.forall_mem_singleton

theorem mem_called_iff {x : String} {t : Typ} {m : Nat} :
    x ∈ (if t = .void then [] else [freshName m]) ↔
      ∃ j ∈ if t = .void then [] else [m], x = freshName j := by
  split <;> simp

variable (p errno_) in
/-- The declarations of a stub. -/
theorem stub_locals_iff (bs : List CBind) (fvar : CFunction) (vars : List CExp) {t u : Typ}
    {x : CLocal} {i : CEff} (hi : Injection x u i) (m : Nat) :
    (∀ st ∈ bs.map .bind ++ (resetSteps errno_ ++ callStep fvar vars t m ::
        returnSteps errno_ i m), ∀ x ∈ declares st, p.hasTy x.2 ∧ ¬ IsVoid x.2) ↔
      (∀ b ∈ bs, ∀ x ∈ declares (.bind b), p.hasTy x.2 ∧ ¬ IsVoid x.2) ∧
        (t = .void ∨ t.core ≠ .void ∧ p.hasType t) := by
  have hreset : ∀ st ∈ resetSteps errno_, ∀ x ∈ declares st, p.hasTy x.2 ∧ ¬ IsVoid x.2 := by
    cases errno_ <;> simp [resetSteps, declares]
  have hreturn : ∀ st ∈ returnSteps errno_ i m, ∀ x ∈ declares st,
      p.hasTy x.2 ∧ ¬ IsVoid x.2 := by
    intro st hst x hx
    obtain ⟨j, rfl⟩ := (returnSteps_declares hi m st hst).2 x hx
    exact ⟨p.value, by simp [IsVoid, value, Typ.core]⟩
  have hcall : (∀ x ∈ declares (callStep fvar vars t m), p.hasTy x.2 ∧ ¬ IsVoid x.2) ↔
      t = .void ∨ t.core ≠ .void ∧ p.hasType t := by
    rw [callStep, declares]
    by_cases ht : t = .void
    · simp [ht]
    · simp [ht, CProgram.hasTy, IsVoid, and_comm]
  rw [List.forall_mem_append, List.forall_mem_append, List.forall_mem_cons, List.forall_mem_map,
    and_iff_right hreset, and_iff_left hreturn, hcall]

theorem bufferInputs_passed {b : NamedCBuffers} (hb : AcceptedBuffers b.spec) :
    ∀ q ∈ bufferInputs b, Passed q.2 := by
  induction b with
  | lastBuf x i t => exact List.forall_mem_singleton.mpr hb
  | conBuf l r ihl ihr =>
      cases l with
      | lastBuf x i t => exact List.forall_mem_cons.mpr ⟨hb.1, ihr hb.2⟩
      | conBuf l' r' => exact hb.elim

theorem inputs_passed {f' : NamedFn} (hf : Accepted f'.spec) : ∀ q ∈ inputs f', Passed q.2 := by
  induction f' with
  | returns t => exact fun q hq => absurd hq List.not_mem_nil
  | function x f t ih => exact List.forall_mem_cons.mpr ⟨hf.1, ih hf.2⟩
  | buffers cpos b r ih => exact List.forall_mem_append.mpr ⟨bufferInputs_passed hf.1, ih hf.2⟩

/-- The parts of a stub, with the names of its parameters. -/
theorem stub_parts (h : stub errno_ cname stubName f n = .ok (d, n2)) :
    ∃ f' n1 i, DrawsAll n n1 f'.names ∧ StubOf errno_ cname stubName f n d f' n1 i := by
  obtain ⟨hacc, -⟩ := stub_eq_ok h
  obtain ⟨f', n1, hn, -, -⟩ := nameParams_ok f n
  obtain ⟨d', n2', i, hd, hstub⟩ := stub_named errno_ cname stubName hn hacc
  obtain ⟨rfl, -⟩ : d' = d ∧ n2' = n2 := by simpa [hd] using h
  exact ⟨f', n1, i, nameParams_drawsAll hn, hstub⟩

/-- The code between the braces. -/
theorem stub_steps_compile_iff {f' : NamedFn} {n1 : Nat} {i : CEff} (hf : Accepted f)
    (hnames : DrawsAll n n1 f'.names) (hd : StubOf errno_ cname stubName f n d f' n1 i) :
    ((∀ st ∈ d.body.steps, ∀ x ∈ declares st, p.hasTy x.2 ∧ ¬ IsVoid x.2) ∧
        Applies p f'.names d.body.steps) ↔
      p.defines cname ∧ (∀ j ∈ scopeNumbers f n, cname ≠ freshName j) ∧
        (∀ t ∈ inputTypes f, Projects p t) ∧
          (resultTyp f = .void ∨ (resultTyp f).core ≠ .void ∧ p.hasType (resultTyp f)) := by
  have hspec := hd.spec_eq
  have haccepted : Accepted f'.spec := hspec ▸ hf
  have hpassed := inputs_passed haccepted
  obtain ⟨hbinds, hnext⟩ := layout_inputs [] n1 haccepted
  obtain ⟨hdecl, hlast⟩ := projectParams_declares hpassed n1
  have htypes : (inputs f').map Prod.snd = inputTypes f := by rw [inputs_types, hspec]
  have hcount : f'.names.length = (inputTypes f).length := by
    rw [← inputs_names, ← htypes, List.length_map, List.length_map]
  have hn1 : n1 = n + (inputTypes f).length := by rw [hnames.length, hcount]
  have hret : (layout [] f' n1).ret = resultTyp f := by rw [layout_ret, hspec]
  have hsum : ((inputs f').map fun q => drawnNames q.2).sum =
      ((inputTypes f).map drawnNames).sum := by
    rw [← htypes, List.map_map]
    rfl
  have hinj := inj_injection hd.inj_eq
  have hsteps : d.body.steps = (projectParams (inputs f') n1).binds.map .bind ++
      (resetSteps errno_ ++ callStep (foreignFunction cname f) (layout [] f' n1).vars
        (resultTyp f) (layout [] f' n1).next ::
          returnSteps errno_ i (layout [] f' n1).next) := by
    rw [hd.def_eq, CComp.steps_lets, callTail_steps, hbinds, hret]
  have hnumbers : (layout [] f' n1).next + 1 =
      n + (inputTypes f).length + ((inputTypes f).map drawnNames).sum + 1 := by
    rw [hnext, hlast, hsum, hn1]
  let binds : List Step := (projectParams (inputs f') n1).binds.map .bind
  let called : List String :=
    if resultTyp f = .void then [] else [freshName ((layout [] f' n1).next + 1)]
  have hscope : ∀ x, x ∈ f'.names ++ binds.flatMap declaredNames ++ called ↔
      ∃ j ∈ scopeNumbers f n, x = freshName j := by
    intro x
    rw [List.mem_append, List.mem_append, hnames.mem_iff, hdecl, htypes, hn1, mem_range'_iff,
      mem_called_iff, hnumbers, scopeNumbers]
    simp only [List.mem_map, List.mem_append, or_and_right, exists_or, eq_comm]
  have hlocal : ∀ x ∈ f'.names ++ binds.flatMap declaredNames, LocalName x := by
    intro x hx
    obtain ⟨j, -, rfl⟩ := (hscope x).mp (List.mem_append_left _ hx)
    exact localName_fresh j
  obtain ⟨hnamesLocal, hbindsLocal⟩ := List.forall_mem_append.mp hlocal
  have hbefore : Applies p f'.names binds ↔
      ∀ b ∈ (projectParams (inputs f') n1).binds, ∀ g ∈ b.2.functions, p.defines g.fname := by
    rw [applies_header hnamesLocal fun st hst x hx =>
      hbindsLocal x (List.mem_flatMap.mpr ⟨st, hst, hx⟩)]
    · exact List.forall_mem_map
    · exact List.forall_mem_map.mpr (projectParams_functions (inputs f') n1)
  have hcall := applies_callStep p errno_ (foreignFunction cname f)
    (layout [] f' n1).vars (t := resultTyp f) hinj (layout [] f' n1).next hlocal
  have hlocals := stub_locals_iff p errno_
    (projectParams (inputs f') n1).binds (foreignFunction cname f) (layout [] f' n1).vars
    (t := resultTyp f) hinj (layout [] f' n1).next
  have hvisible : cname ∉ f'.names ++ binds.flatMap declaredNames ++ called ↔
      ∀ j ∈ scopeNumbers f n, cname ≠ freshName j := by
    rw [hscope]
    simp only [not_exists, not_and, ne_eq]
  have hprojects := projectParams_compiles (p := p) hpassed n1
  rw [hsteps, hlocals, applies_append, hbefore, hcall, ← hvisible]
  rw [← List.forall_mem_map (f := Prod.snd) (P := Projects p), htypes] at hprojects
  rw [← hprojects]
  constructor
  · rintro ⟨⟨hdeclared, hresult⟩, happlied, hdefined, hnot⟩
    exact ⟨hdefined, hnot, fun b hb => ⟨hdeclared b hb, happlied b hb⟩, hresult⟩
  · rintro ⟨hdefined, hnot, hcompile, hresult⟩
    exact ⟨⟨fun b hb => (hcompile b hb).1, hresult⟩, fun b hb => (hcompile b hb).2, hdefined, hnot⟩

theorem stub_compiles_iff (hviews : PlainFormats p.views) (hlast : BuffersLast f)
    (h : stub errno_ cname stubName f n = .ok (d, n2)) :
    Compiles p d ↔ StubCompiles p cname f n := by
  obtain ⟨hf, -⟩ := stub_eq_ok h
  obtain ⟨f', n1, i, hnames, hd⟩ := stub_parts h
  have hsteps := stub_steps_compile_iff (p := p) hf hnames hd
  have hparams : d.dec.params = valueParams f' := by rw [hd.def_eq]
  have hret : d.dec.ret = .ty value := by rw [hd.def_eq]
  have hvalue : ∀ q ∈ d.dec.params, q.2 = .ty value := by
    rw [hparams]
    exact fun q hq => (mem_names_of_mem_valueParams hq).2
  have hscope : d.dec.params.map (fun q => q.1) = f'.names := by
    rw [hparams, valueParams_names (hd.spec_eq ▸ hlast)]
  have htags : NamesByTag p.views d ↔ ∀ t ∈ f.types, ¬ ViewOfBody p.views t := by
    rw [(prints_stub hviews hf hd).namesByTag_iff, List.flatMap_eq_nil_iff]
    simp only [localHeading_eq_nil_iff]
  have hreturns : Returns d := by
    intro ty e hret
    rw [hd.def_eq, CComp.steps_lets, callTail_steps] at hret
    simp only [List.mem_append, List.mem_map, reduceCtorEq, and_false, exists_false, false_or,
      List.mem_cons, callStep] at hret
    cases errno_ <;> simp [resetSteps, returnSteps] at hret
  constructor
  · intro hc
    obtain ⟨hdefined, hvisible, hprojects, hresult⟩ := hsteps.mp ⟨hc.locals, hscope ▸ hc.applies⟩
    exact ⟨hdefined, hvisible, hprojects, hresult, htags.mp hc.tags⟩
  · intro hc
    obtain ⟨hlocals, happlies⟩ :=
      hsteps.mpr ⟨hc.defined, hc.visible, hc.projects, hc.result⟩
    refine
      { parameters := .inr fun q hq => ?_
        signature := ⟨fun q hq => ?_, ?_⟩
        locals := hlocals
        applies := hscope ▸ happlies
        returns := hreturns
        tags := htags.mpr hc.tags }
    · rw [hvalue q hq]
      simp [IsVoid, value, Typ.core]
    · rw [hvalue q hq]
      exact p.value
    · rw [hret]
      exact p.value

end Stub

end CtypesCbuf.Cbuf.Compilation
