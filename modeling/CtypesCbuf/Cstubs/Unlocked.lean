import CtypesCbuf.Cstubs.Layout
import CtypesCbuf.Cstubs.Lwt

/-!
Stubs that release the runtime lock around the call. Between release and
acquire such a stub calls the C function and does nothing else.
-/

namespace CtypesCbuf.Cstubs

open NameSupply Supply StraightLine
open Ctypes CLanguage Stubs
open GenerateC

def TouchesLock (s : Step) : Prop := s.Calls releaseFunction ∨ s.Calls acquireFunction

def Exits : Step → Prop
  | .result _ | .camlReturnT _ _ | .ret _ _ => True
  | _ => False

/-- The steps that return the result `i` injects: `v` holds it and `w` the
pair with `errno`. -/
def injectSteps (errno_ : ErrnoPolicy) (i : CEff) (v w : CLocal) : List Step :=
  match errno_ with
  | .ignoreErrno => [.bind (v, i), .camlReturnT (.ty value) (.clocal v)]
  | .returnErrno =>
      [.bind (v, i), .bind (w, pairWithErrno (.clocal v)),
        .camlReturnT (.ty value) (.clocal w)]

/-- The steps of a stub with value parameters `params` that calls `fvar`
without the lock, taken apart at the call. -/
structure LockDiscipline (params : List CLocal) (fvar : CFunction)
    (errno_ : ErrnoPolicy) (ret : Typ) (p before : List Step)
    (release call acquire : Step) (after : List Step) : Prop where
  /-- The parameters are registered as roots before anything else. -/
  steps_eq : p = .camlParam (params.map fun x => x.1) ::
    before ++ release :: call :: acquire :: after
  before_quiet : ∀ s ∈ before, ¬ TouchesLock s ∧ ¬ s.Calls fvar ∧ ¬ s.Allocates
  releases : release.functions = [releaseFunction] ∧ release.locals = []
  calls : call.functions = [fvar]
  /-- Without the lock no OCaml value is read and nothing allocates. -/
  call_quiet : (∀ l ∈ call.locals, l.2 ≠ .ty value) ∧ fvar.readsOcamlHeap = false ∧
    ¬ call.Allocates
  acquires : acquire.functions = [acquireFunction] ∧ acquire.locals = []
  /-- The result is injected after the lock is held again, then paired. -/
  injects : ∃ x e i v w, call = .bind (x, e) ∧ Injection x ret.core i ∧
    after = injectSteps errno_ i v w
  after_quiet : ∀ s ∈ after, ¬ TouchesLock s ∧ ¬ s.Calls fvar
  /-- Every parameter is projected before the release. -/
  projects_first : ∀ s ∈ release :: call :: acquire :: after, ¬ s.Reads params
  exits : ∀ s ∈ p, Exits s → ∃ e, s = .camlReturnT (.ty value) e

def args : Fn → List Typ
  | .returns _ => []
  | .function f t => f :: args t

def resultTyp : Fn → Typ
  | .returns t => t
  | .function _ t => resultTyp t

theorem namedFn_ret (f : NamedFn) : f.ret = resultTyp f.spec := by
  induction f with
  | returns t => rfl
  | function x f t ih => exact ih

theorem returnType_ofCtypes (f : Fn) : returnType (Cbuf.Fn.ofCtypes f) = .ty (resultTyp f) := by
  induction f using args.induct with
  | case1 t => rfl
  | case2 f t ih => exact ih

theorem ocamlValue_iff (t : Typ) : ocamlValue t = true ↔ ∃ o, t.core = .ocaml o := by
  induction t using Typ.core.induct with
  | case1 v ty ih => rw [ocamlValue, ih, Typ.core_view]
  | case2 t h =>
      rw [Typ.core]
      · cases t <;> simp [ocamlValue]
        exact (h _ _ rfl).elim
      · exact h

theorem hasOcamlArgument_iff (f : Fn) :
    hasOcamlArgument f = true ↔ ∃ t ∈ args f, ∃ o, t.core = .ocaml o := by
  induction f using nameParams.induct with
  | case1 t => simp [hasOcamlArgument, args]
  | case2 f t ih =>
      rw [hasOcamlArgument, args]
      by_cases hf : ocamlValue f = true
      · simp only [hf, if_true, true_iff]
        exact ⟨f, by simp, (ocamlValue_iff f).mp hf⟩
      · rw [if_neg hf, ih]
        constructor
        · rintro ⟨u, hu, ho⟩
          exact ⟨u, by simp [hu], ho⟩
        · rintro ⟨u, hu, ho⟩
          rcases List.mem_cons.mp hu with rfl | hu
          · exact absurd ((ocamlValue_iff u).mpr ho) hf
          · exact ⟨u, hu, ho⟩

/-! ### The parts of a stub -/

/-- The steps before the release. -/
theorem before_release {lo hi : Nat} {bs : List CBind} (errno_ : ErrnoPolicy)
    (cname : String) (f : Fn) (h : ReadingBinds lo hi bs) :
    ∀ s ∈ bs.map .bind ++ resetSteps errno_,
      ¬ TouchesLock s ∧ ¬ s.Calls (foreignFunction cname f) ∧ ¬ s.Allocates := by
  intro s hs
  rcases List.mem_append.mp hs with hs | hs
  · obtain ⟨b, hb, rfl⟩ := List.mem_map.mp hs
    have hreads : ∀ g, (Step.bind b).Calls g → g.readsOcamlHeap = true :=
      fun g hg => (h.readers b hb g hg).2
    refine ⟨?_, fun hc => ?_, ?_⟩
    · rintro (hl | hl)
      · cases hreads _ hl
      · cases hreads _ hl
    · cases hreads _ hc
    · rintro ⟨g, hg, ha⟩
      rw [(h.readers b hb g hg).1] at ha
      cases ha
  · cases errno_ with
    | ignoreErrno => cases hs
    | returnErrno =>
        obtain rfl := List.mem_singleton.mp hs
        simp [TouchesLock, Step.Calls, Step.Allocates, Step.functions, CEff.functions]

/-- What returns a `value` is neither the C function nor part of the lock. -/
theorem quiet_of_value {cname : String} {f : Fn} (hf : Accepted f) {s : Step}
    (hs : ∀ g ∈ s.functions, returnType g.fn = .ty value) :
    ¬ TouchesLock s ∧ ¬ s.Calls (foreignFunction cname f) := by
  refine ⟨?_, fun hc => returnType_ne_value hf (hs _ hc)⟩
  rintro (hl | hl)
  · cases hs _ hl
  · cases hs _ hl

theorem params_drawn {f : NamedFn} {lo hi : Nat}
    (h : FreshNames lo hi (f.params.map fun p => p.1)) :
    ∀ x ∈ valueParams f, Drawn freshName lo hi x.1 := by
  intro x hx
  rw [valueParams_eq] at hx
  obtain ⟨p, hp, rfl⟩ := List.mem_map.mp hx
  exact h.drawn p.1 (List.mem_map.mpr ⟨p, hp, rfl⟩)

/-- The steps after the projections of an unlocked stub. -/
theorem unlocked_steps {errno_ : ErrnoPolicy} {cname stubName : String} {f : Fn}
    {n n1 : Nat} {d : CFundef} {f' : NamedFn} {i : CEff}
    (hd : StubOf .unlocked errno_ cname stubName f n d f' n1 i) :
    ∃ r a v w, (∀ m ∈ [r, a, v, w], (projectParams f'.params n1).next < m) ∧
      d.body.steps = .camlParam (d.dec.params.map fun x => x.1) ::
        ((projectParams f'.params n1).binds.map .bind ++ resetSteps errno_) ++
        .bind (voidBind r releaseRuntimeSystem) ::
        .bind (callBind (foreignFunction cname f) (projectParams f'.params n1).args f'.ret
          (projectParams f'.params n1).next) ::
        .bind (voidBind a acquireRuntimeSystem) ::
        injectSteps errno_ i (freshName v, .ty value) (freshName w, .ty value) := by
  have hdef := hd.def_eq
  subst hdef
  generalize (projectParams f'.params n1).next = m
  cases errno_ with
  | ignoreErrno =>
      refine ⟨m + 4, m + 3, m + 2, m + 1, by simp, ?_⟩
      simp [CComp.steps, callTail_steps, resetSteps, tailBinds, tailEnd, injectSteps,
        valueBind, Stubs.valueLocal]
  | returnErrno =>
      refine ⟨m + 6, m + 2, m + 4, m + 5, by simp, ?_⟩
      simp [CComp.steps, callTail_steps, resetSteps, tailBinds, tailEnd, injectSteps,
        valueBind, Stubs.valueLocal]

theorem not_reads_of_later {xs : List CLocal} {lo mid hi : Nat} {s : Step}
    (hxs : ∀ x ∈ xs, Drawn freshName lo mid x.1) (hmid : mid ≤ hi)
    (hs : ∀ l ∈ s.locals, ∃ m, hi < m ∧ l.1 = freshName m) : ¬ s.Reads xs := by
  rintro ⟨l, hl, hlx⟩
  obtain ⟨m, hm, hlm⟩ := hs l hl
  obtain ⟨j, hj1, hj2, hj⟩ := hxs l hlx
  have hmj : m = j := freshName_inj.mp (hlm.symm.trans hj)
  omega

theorem injectSteps_functions {errno_ : ErrnoPolicy} {x v w : CLocal} {t : Typ}
    {i : CEff} (hi : Injection x t i) :
    ∀ s ∈ injectSteps errno_ i v w, ∀ g ∈ s.functions, returnType g.fn = .ty value := by
  intro s hs g hg
  have hpair : g ∈ (pairWithErrno (.clocal v)).functions → returnType g.fn = .ty value := by
    intro h
    obtain rfl := List.mem_singleton.mp h
    rfl
  cases errno_ <;> simp only [injectSteps, List.mem_cons, List.not_mem_nil, or_false] at hs
  · rcases hs with rfl | rfl
    · exact hi.functions g hg
    · cases hg
  · rcases hs with rfl | rfl | rfl
    · exact hi.functions g hg
    · exact hpair hg
    · cases hg

theorem injectSteps_exits {errno_ : ErrnoPolicy} {v w : CLocal} {i : CEff} :
    ∀ s ∈ injectSteps errno_ i v w, Exits s → ∃ e, s = .camlReturnT (.ty value) e := by
  intro s hs hx
  cases errno_ <;> simp only [injectSteps, List.mem_cons, List.not_mem_nil, or_false] at hs
  · rcases hs with rfl | rfl
    · exact hx.elim
    · exact ⟨_, rfl⟩
  · rcases hs with rfl | rfl | rfl
    · exact hx.elim
    · exact hx.elim
    · exact ⟨_, rfl⟩

theorem before_not_exits {errno_ : ErrnoPolicy} {bs : List CBind} :
    ∀ s ∈ bs.map Step.bind ++ resetSteps errno_, ¬ Exits s := by
  intro s hs hx
  rcases List.mem_append.mp hs with hs | hs
  · obtain ⟨b, -, rfl⟩ := List.mem_map.mp hs
    exact hx
  · cases errno_ with
    | ignoreErrno => cases hs
    | returnErrno =>
        obtain rfl := List.mem_singleton.mp hs
        exact hx

theorem injectSteps_locals {errno_ : ErrnoPolicy} {x v w : CLocal} {t : Typ}
    {i : CEff} (hi : Injection x t i) :
    ∀ s ∈ injectSteps errno_ i v w, ∀ l ∈ s.locals, l = x ∨ l = v ∨ l = w := by
  intro s hs l hl
  cases errno_ <;> simp only [injectSteps, List.mem_cons, List.not_mem_nil, or_false] at hs
  · rcases hs with rfl | rfl
    · exact .inl (hi.locals l hl)
    · exact .inr (.inl (List.mem_singleton.mp hl))
  · rcases hs with rfl | rfl | rfl
    · exact .inl (hi.locals l hl)
    · exact .inr (.inl (List.mem_singleton.mp hl))
    · exact .inr (.inr (List.mem_singleton.mp hl))

theorem call_locals {ps : List (String × Typ)} {n : Nat} {fvar : CFunction} {t : Typ}
    {l : CLocal}
    (hl : l ∈ (Step.bind (callBind fvar (projectParams ps n).args t
      (projectParams ps n).next)).locals) :
    ∃ b ∈ (projectParams ps n).binds, b.1 = l := by
  obtain ⟨e, he, hl⟩ := List.mem_flatMap.mp hl
  exact List.mem_map.mp (projectParams_locals ps n e he l hl)

theorem call_locals_drawn {ps : List (String × Typ)} {n : Nat} {fvar : CFunction}
    {t : Typ} : ∀ l ∈ (Step.bind (callBind fvar (projectParams ps n).args t
      (projectParams ps n).next)).locals, Drawn freshName n (projectParams ps n).next l.1 := by
  intro l hl
  obtain ⟨b, hb, rfl⟩ := call_locals hl
  exact (projectParams_reads ps n).names.drawn _ (List.mem_map.mpr ⟨b, hb, rfl⟩)

/-- A generated unlocked stub keeps the discipline. -/
theorem stub_lockDiscipline {errno_ : ErrnoPolicy} {cname stubName : String} {f : Fn}
    {n n1 : Nat} {d : CFundef} {f' : NamedFn} {i : CEff} (hf : Accepted f)
    (hd : StubOf .unlocked errno_ cname stubName f n d f' n1 i) :
    ∃ before release call acquire after,
      LockDiscipline d.dec.params (foreignFunction cname f) errno_ (resultTyp f)
        d.body.steps before release call acquire after := by
  obtain ⟨r, a, v, w, hlater, hsteps⟩ := unlocked_steps hd
  have hspec := hd.spec_eq
  have hinj := inj_injection hd.inj_eq
  have hreads := projectParams_reads f'.params n1
  have hparams : ∀ x ∈ d.dec.params, Drawn freshName n n1 x.1 := by
    rw [hd.def_eq]
    exact params_drawn hd.names
  have hle := hreads.names.le
  have hcore : f'.ret.core = (resultTyp f).core := by rw [namedFn_ret, hspec]
  refine ⟨_, .bind (voidBind r releaseRuntimeSystem), .bind (callBind _ _ _ _),
    .bind (voidBind a acquireRuntimeSystem),
    injectSteps errno_ i (freshName v, .ty value) (freshName w, .ty value),
    { steps_eq := hsteps
      before_quiet := before_release errno_ cname f hreads
      releases := ⟨rfl, rfl⟩
      calls := rfl
      call_quiet := ⟨?_, rfl, ?_⟩
      acquires := ⟨rfl, rfl⟩
      injects := ⟨_, _, i, _, _, rfl, ?_, rfl⟩
      after_quiet := fun s hs => quiet_of_value hf (injectSteps_functions hinj s hs)
      projects_first := ?_
      exits := ?_ }⟩
  · intro l hl
    obtain ⟨b, hb, rfl⟩ := call_locals hl
    subst hspec
    exact projectParams_not_value hf.params n1 b hb
  · rintro ⟨g, hg, ha⟩
    obtain rfl := List.mem_singleton.mp hg
    cases ha
  · exact hcore ▸ hinj
  · intro s hs
    rcases List.mem_cons.mp hs with rfl | hs
    · exact fun ⟨l, hl, _⟩ => List.not_mem_nil hl
    rcases List.mem_cons.mp hs with rfl | hs
    · exact not_reads_of_drawn hparams call_locals_drawn
    rcases List.mem_cons.mp hs with rfl | hs
    · exact fun ⟨l, hl, _⟩ => List.not_mem_nil hl
    refine not_reads_of_later hparams hle fun l hl => ?_
    rcases injectSteps_locals hinj s hs l hl with rfl | rfl | rfl
    · exact ⟨_, by omega, rfl⟩
    · exact ⟨v, hlater v (by simp), rfl⟩
    · exact ⟨w, hlater w (by simp), rfl⟩
  · intro s hs hx
    rw [hsteps] at hs
    rcases List.mem_append.mp hs with hs | hs
    · rcases List.mem_cons.mp hs with rfl | hs
      · exact hx.elim
      · exact (before_not_exits s hs hx).elim
    · rcases List.mem_cons.mp hs with rfl | hs
      · exact hx.elim
      rcases List.mem_cons.mp hs with rfl | hs
      · exact hx.elim
      rcases List.mem_cons.mp hs with rfl | hs
      · exact hx.elim
      exact injectSteps_exits s hs hx

/-- How the calling thread makes the call, for the policies that let it. -/
def callPolicy : ConcurrencyPolicy → Option NonLwt
  | .sequential => some .sequential
  | .unlocked | .lwtPreemptive => some .unlocked
  | .lwtJobs => none

/-- The two generators behind the policies. -/
theorem fn_eq_ok {concurrency : ConcurrencyPolicy} {errno_ : ErrnoPolicy}
    {cname stubName : String} {f : Fn} {n n2 : Nat} {code : StubCode}
    (h : fn concurrency errno_ cname stubName f n = .ok (code, n2)) :
    (∃ c d n1, callPolicy concurrency = some c ∧
      stub c errno_ cname stubName f n = .ok (d, n1) ∧
      code = .functions (if d.dec.params.length > maxByteArgs then
        [d, byteDef d.dec.name (Cbuf.Fn.ofCtypes f) d.dec.params.length n1] else [d])) ∨
    concurrency = .lwtJobs ∧
      ∃ j, Lwt.fn errno_ cname stubName f n = .ok (j, n2) ∧ code = .lwtJob j := by
  have hfunctions : ∀ c, (GenerateC.fn c errno_ cname stubName f >>= fun ds =>
      pure (StubCode.functions ds)) n = .ok (code, n2) →
      ∃ d n1, stub c errno_ cname stubName f n = .ok (d, n1) ∧
        code = .functions (if d.dec.params.length > maxByteArgs then
          [d, byteDef d.dec.name (Cbuf.Fn.ofCtypes f) d.dec.params.length n1] else [d]) := by
    intro c hc
    obtain ⟨ds, n3, hds, hcode⟩ := bind_eq_ok.mp hc
    obtain ⟨d, n1, hd, hrest⟩ := bind_eq_ok.mp hds
    obtain ⟨n', hn'⟩ := withByteFn_eq (Cbuf.Fn.ofCtypes f) d n1
    rw [hn'] at hrest
    cases hrest
    cases hcode
    exact ⟨d, n1, hd, rfl⟩
  unfold fn at h
  split at h
  · cases h
  · cases concurrency with
    | sequential =>
        obtain ⟨d, n1, hd⟩ := hfunctions .sequential h
        exact .inl ⟨_, d, n1, rfl, hd⟩
    | unlocked =>
        obtain ⟨d, n1, hd⟩ := hfunctions .unlocked h
        exact .inl ⟨_, d, n1, rfl, hd⟩
    | lwtPreemptive =>
        obtain ⟨d, n1, hd⟩ := hfunctions .unlocked h
        exact .inl ⟨_, d, n1, rfl, hd⟩
    | lwtJobs =>
        obtain ⟨j, n3, hj, hcode⟩ := bind_eq_ok.mp h
        cases hcode
        exact .inr ⟨rfl, j, hj, rfl⟩

theorem fn_unlocked_eq_ok {errno_ : ErrnoPolicy} {cname stubName : String} {f : Fn}
    {n n2 : Nat} {code : StubCode}
    (h : fn .unlocked errno_ cname stubName f n = .ok (code, n2)) :
    ∃ d n1 rest, stub .unlocked errno_ cname stubName f n = .ok (d, n1) ∧
      code = .functions (d :: rest) := by
  rcases fn_eq_ok h with ⟨c, d, n1, hc, hd, hcode⟩ | ⟨hc, -⟩
  · cases hc
    refine ⟨d, n1, if d.dec.params.length > maxByteArgs then
      [byteDef d.dec.name (Cbuf.Fn.ofCtypes f) d.dec.params.length n1] else [], hd, ?_⟩
    rw [hcode]
    split <;> rfl
  · cases hc

/-- A stub generated for the unlocked policy keeps the discipline, and OCaml
strings, bytes and float arrays are not accepted as arguments. -/
theorem unlocked_lockDiscipline (errno_ : ErrnoPolicy) (cname stubName : String)
    (f : Fn) (n : Nat) :
    (∀ code n2, fn .unlocked errno_ cname stubName f n = .ok (code, n2) →
      ∃ d rest before release call acquire after, code = .functions (d :: rest) ∧
        LockDiscipline d.dec.params (foreignFunction cname f) errno_ (resultTyp f)
          d.body.steps before release call acquire after) ∧
    ((∃ t ∈ args f, ∃ o, t.core = .ocaml o) →
      ∃ e, fn .unlocked errno_ cname stubName f n = .error e) := by
  constructor
  · intro code n2 h
    obtain ⟨d, n1, rest, hd, hcode⟩ := fn_unlocked_eq_ok h
    obtain ⟨hf, f', n3, i, hstub⟩ := stub_eq_ok hd
    obtain ⟨before, release, call, acquire, after, hl⟩ := stub_lockDiscipline hf hstub
    exact ⟨d, rest, before, release, call, acquire, after, hcode, hl⟩
  · intro h
    have harg : hasOcamlArgument f = true := (hasOcamlArgument_iff f).mpr h
    exact ⟨_, fn_ocamlArgument (by simp) harg⟩

/-- The address of a structure is projected before the lock is released. -/
theorem unlocked_lockDiscipline_example :
    (∃ d rest before release call acquire after,
      (∃ n2, fn .unlocked .returnErrno "f" "stub"
        (.function (.pointer .void) (.returns (.primitive .int))) 0 =
          .ok (.functions (d :: rest), n2)) ∧
      LockDiscipline d.dec.params
        (foreignFunction "f" (.function (.pointer .void) (.returns (.primitive .int))))
        .returnErrno (.primitive .int) d.body.steps before release call acquire after) ∧
    ∃ e, fn .unlocked .returnErrno "f" "stub"
      (.function (.ocaml .bytes) (.returns (.primitive .int))) 0 = .error e := by
  constructor
  · obtain ⟨code, n2, hcode⟩ : ∃ code n2, fn .unlocked .returnErrno "f" "stub"
        (.function (.pointer .void) (.returns (.primitive .int))) 0 = .ok (code, n2) :=
      ⟨_, _, rfl⟩
    obtain ⟨d, rest, before, release, call, acquire, after, rfl, hl⟩ :=
      (unlocked_lockDiscipline .returnErrno "f" "stub"
        (.function (.pointer .void) (.returns (.primitive .int))) 0).1 code n2 hcode
    exact ⟨d, rest, before, release, call, acquire, after, ⟨n2, hcode⟩, hl⟩
  · exact (unlocked_lockDiscipline .returnErrno "f" "stub"
      (.function (.ocaml .bytes) (.returns (.primitive .int))) 0).2
        ⟨_, List.mem_cons_self, _, rfl⟩

end CtypesCbuf.Cstubs
