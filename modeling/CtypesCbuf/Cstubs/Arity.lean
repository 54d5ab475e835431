import Mathlib.Data.List.Forall2
import Mathlib.Data.List.Nodup
import CtypesCbuf.Cstubs.External
import CtypesCbuf.Cstubs.Unlocked

/-!
The two sides of a binding side by side: the parameters of the C stub and the
arguments of the ML external. They correspond for every policy but one: a job
has no parameter where the external has the unit value of a `void` argument.
-/

namespace CtypesCbuf.Cstubs

open NameSupply Supply
open Ctypes CLanguage Stubs
open GenerateC

/-! ### What both sides show of themselves -/

def StubCode.name : StubCode → Option String
  | .functions ds => ds.head?.map fun d => d.dec.name
  | .lwtJob j => some j.stub.name

/-- The names of the value parameters of the native function. -/
def StubCode.params : StubCode → List String
  | .functions [] => []
  | .functions (d :: _) => d.dec.params.map fun p => p.1
  | .lwtJob j => j.stub.params

def StubCode.byteNames : StubCode → List String
  | .functions ds => ds.tail.map fun d => d.dec.name
  | .lwtJob j => j.byteStub.toList.map fun b => b.name

/-- The parameter `x` is taken for a value of type `t`: it is projected at
`t`, or not read at all when there is nothing to project. -/
def StubCode.TakenFor (code : StubCode) (x : String) (t : Typ) : Prop :=
  match code with
  | .functions [] => False
  | .functions (d :: _) =>
      if t.core = .void then ∀ s ∈ d.body.steps, ¬ s.Reads [(x, .ty value)]
      else ∃ n, ∀ b ∈ (projected t (valueLocal x) n).binds, .bind b ∈ d.body.steps
  | .lwtJob j => ∃ e, Lwt.prj (valueLocal x) t = .ok e ∧ (x, e) ∈ j.stub.fields

/-- The stub can be called through the external. -/
structure Matches (code : StubCode) (ext : Extern) : Prop where
  name_eq : code.name = some ext.primname
  /-- One parameter for each argument, in the same order. -/
  params : List.Forall₂
    (fun x a => ∃ t, code.TakenFor x t ∧ mlTypOfArgTyp t = .ok a)
    code.params ext.typ.args
  /-- A bytecode stub exactly when the external mentions one. -/
  byteNames_eq : code.byteNames = ext.primnameByte.toList

/-! ### The external -/

/-- The arguments of an external are those of the specification. -/
theorem mlExternalTypeOfFn_args {concurrency : ConcurrencyPolicy}
    {errno_ : ErrnoPolicy} {f : Fn} {e : MlExternalType}
    (h : mlExternalTypeOfFn concurrency errno_ .result f = .ok e) :
    List.Forall₂ (fun t a => mlTypOfArgTyp t = .ok a) (args f) e.args := by
  induction f using nameParams.induct generalizing e with
  | case1 t =>
      rw [mlExternalTypeOfFn] at h
      cases ht : mlTypOfTyp .result t with
      | error x =>
          rw [ht] at h
          cases h
      | ok r =>
          rw [ht] at h
          cases h
          exact .nil
  | case2 f t ih =>
      rw [mlExternalTypeOfFn] at h
      cases ht : mlExternalTypeOfFn concurrency errno_ .result t with
      | error x =>
          rw [ht] at h
          cases h
      | ok e' =>
          rw [ht] at h
          cases hf : mlTypOfTyp (flip .result) f with
          | error x =>
              rw [hf] at h
              cases h
          | ok a =>
              rw [hf] at h
              cases h
              exact .cons hf (ih ht)

theorem extern_eq_ok {concurrency : ConcurrencyPolicy} {errno_ : ErrnoPolicy}
    {stubName externalName : String} {f : Fn} {ext : Extern}
    (h : extern_ concurrency errno_ stubName externalName f = .ok ext) :
    ext.primname = stubName ∧ ext.primnameByte = byteStubName stubName ext.typ ∧
      List.Forall₂ (fun t a => mlTypOfArgTyp t = .ok a) (args f) ext.typ.args := by
  rw [extern_] at h
  cases ht : mlExternalTypeOfFn concurrency errno_ .result f with
  | error x =>
      rw [ht] at h
      cases h
  | ok typ =>
      rw [ht] at h
      cases h
      exact ⟨rfl, rfl, mlExternalTypeOfFn_args ht⟩

/-! ### Stubs that make the call themselves -/

theorem args_spec (f : NamedFn) : args f.spec = f.params.map fun p => p.2 := by
  induction f with
  | returns t => rfl
  | function x f t ih => rw [NamedFn.spec, args, ih, NamedFn.params, List.map_cons]

/-- The code after the projections reads names drawn later than those of the
parameters. -/
theorem tail_locals {concurrency : NonLwt} {errno_ : ErrnoPolicy} {fvar : CFunction}
    {as : List CExp} {t : Typ} {i : CEff} {lo n : Nat} (hle : lo ≤ n)
    (has : ∀ e ∈ as, ∀ l ∈ e.locals, Drawn freshName lo n l.1)
    (hi : ∀ l ∈ i.locals, l = (freshName (n + 1), .ty t)) :
    ∀ s ∈ (tailBinds concurrency errno_ fvar as t i n).map Step.bind ++
        (tailEnd concurrency errno_ i n).steps,
      ∀ l ∈ s.locals, Drawn freshName lo (n + 6) l.1 := by
  have hlater : ∀ m, n < m → m ≤ n + 6 → Drawn freshName lo (n + 6) (freshName m) :=
    fun m h1 h2 => drawn_of_lt (by omega) h2
  have hcall : ∀ l ∈ (Step.bind (callBind fvar as t n)).locals,
      Drawn freshName lo (n + 6) l.1 := by
    intro l hl
    obtain ⟨e, he, hl⟩ := List.mem_flatMap.mp hl
    exact (has e he l hl).mono (Nat.le_refl lo) (by omega)
  have hinj : ∀ l ∈ i.locals, Drawn freshName lo (n + 6) l.1 := by
    intro l hl
    rw [hi l hl]
    exact hlater _ (by omega) (by omega)
  intro s hs l hl
  cases concurrency <;> cases errno_ <;>
    simp only [tailBinds, tailEnd, CComp.steps, List.map_cons, List.map_nil,
      List.cons_append, List.nil_append, List.mem_cons, List.not_mem_nil, or_false] at hs
  · rcases hs with rfl | rfl
    · exact hcall l hl
    · exact hinj l hl
  · rcases hs with rfl | rfl | rfl
    · exact hcall l hl
    · exact hinj l hl
    · obtain rfl := List.mem_singleton.mp hl
      exact hlater _ (by omega) (by omega)
  · rcases hs with rfl | rfl | rfl | rfl | rfl
    · cases hl
    · exact hcall l hl
    · cases hl
    · exact hinj l hl
    · obtain rfl := List.mem_singleton.mp hl
      exact hlater _ (by omega) (by omega)
  · rcases hs with rfl | rfl | rfl | rfl | rfl | rfl
    · cases hl
    · exact hcall l hl
    · cases hl
    · exact hinj l hl
    · obtain rfl := List.mem_singleton.mp hl
      exact hlater _ (by omega) (by omega)
    · obtain rfl := List.mem_singleton.mp hl
      exact hlater _ (by omega) (by omega)

theorem stub_steps {concurrency : NonLwt} {errno_ : ErrnoPolicy}
    {cname stubName : String} {f : Fn} {n n1 : Nat} {d : CFundef} {f' : NamedFn}
    {i : CEff} (hd : StubOf concurrency errno_ cname stubName f n d f' n1 i) :
    ∃ start, (∀ s ∈ start, s.locals = []) ∧ d.body.steps = start ++
      (projectParams f'.params n1).binds.map .bind ++ resetSteps errno_ ++
      ((tailBinds concurrency errno_ (foreignFunction cname f)
        (projectParams f'.params n1).args f'.ret i (projectParams f'.params n1).next).map
          .bind ++ (tailEnd concurrency errno_ i (projectParams f'.params n1).next).steps) := by
  have hdef := hd.def_eq
  subst hdef
  cases concurrency with
  | sequential =>
      refine ⟨[], by simp, ?_⟩
      simp [callTail_steps]
  | unlocked =>
      refine ⟨[.camlParam ((valueParams f').map fun p => p.1)], by simp [Step.locals], ?_⟩
      simp [callTail_steps, CComp.steps]

/-- What the steps of a stub read: parameters that are projected, and names
drawn after those of the parameters. -/
theorem stub_locals {concurrency : NonLwt} {errno_ : ErrnoPolicy}
    {cname stubName : String} {f : Fn} {n n1 : Nat} {d : CFundef} {f' : NamedFn}
    {i : CEff} (hd : StubOf concurrency errno_ cname stubName f n d f' n1 i) :
    ∀ s ∈ d.body.steps, ∀ l ∈ s.locals,
      (∃ p ∈ f'.params, p.2.core ≠ .void ∧ l = (p.1, .ty value)) ∨
        ∃ hi, Drawn freshName n1 hi l.1 := by
  obtain ⟨start, hstart, hsteps⟩ := stub_steps hd
  have hreads := projectParams_reads f'.params n1
  have hbinds : ∀ l ∈ (projectParams f'.params n1).binds.map (fun b => b.1),
      Drawn freshName n1 (projectParams f'.params n1).next l.1 := by
    intro l hl
    obtain ⟨b, hb, rfl⟩ := List.mem_map.mp hl
    exact hreads.names.drawn _ (List.mem_map.mpr ⟨b, hb, rfl⟩)
  have hargs : ∀ e ∈ (projectParams f'.params n1).args, ∀ l ∈ e.locals,
      Drawn freshName n1 (projectParams f'.params n1).next l.1 := fun e he l hl =>
    hbinds l (projectParams_locals _ _ e he l hl)
  intro s hs l hl
  rw [hsteps] at hs
  rcases List.mem_append.mp hs with hs | hs
  · rcases List.mem_append.mp hs with hs | hs
    · rcases List.mem_append.mp hs with hs | hs
      · rw [hstart s hs] at hl
        cases hl
      · obtain ⟨b, hb, rfl⟩ := List.mem_map.mp hs
        rcases projectParams_bind_locals _ _ b hb l hl with h | h
        · exact .inl h
        · exact .inr ⟨_, hbinds l h⟩
    · cases errno_ with
      | ignoreErrno => cases hs
      | returnErrno =>
          obtain rfl := List.mem_singleton.mp hs
          cases hl
  · exact .inr ⟨_, tail_locals hreads.names.le hargs (inj_injection hd.inj_eq).locals
      s hs l hl⟩

theorem stub_takenFor {concurrency : NonLwt} {errno_ : ErrnoPolicy}
    {cname stubName : String} {f : Fn} {n n1 : Nat} {d : CFundef} {f' : NamedFn}
    {i : CEff} (hd : StubOf concurrency errno_ cname stubName f n d f' n1 i)
    (rest : List CFundef) {x : String} {t : Typ} (hx : (x, t) ∈ f'.params) :
    (StubCode.functions (d :: rest)).TakenFor x t := by
  rw [StubCode.TakenFor]
  split
  · rename_i ht
    rintro s hs ⟨l, hl, hlx⟩
    obtain rfl := List.mem_singleton.mp hlx
    rcases stub_locals hd s hs _ hl with ⟨⟨y, u⟩, hy, hu, hxy⟩ | ⟨hi, hlate⟩
    · have hname : x = y := congrArg Prod.fst hxy
      subst hname
      have htu : t = u :=
        congrArg Prod.snd (List.inj_on_of_nodup_map hd.names.nodup hx hy rfl)
      exact hu (htu ▸ ht)
    · exact (hd.names.drawn x (List.mem_map.mpr ⟨_, hx, rfl⟩)).ne freshName_inj hlate rfl
  · rename_i ht
    obtain ⟨m, hm⟩ := projectParams_mem hx ht n1
    obtain ⟨start, -, hsteps⟩ := stub_steps hd
    refine ⟨m, fun b hb => ?_⟩
    rw [hsteps]
    simp [hm b hb]

/-- Parameters paired with the types they are taken for, against arguments. -/
theorem forall₂_of_pairs {T : String → Typ → Prop} {R : Typ → MlType → Prop}
    {ps : List (String × Typ)} {as : List MlType}
    (h : List.Forall₂ R (ps.map fun p => p.2) as) (hT : ∀ p ∈ ps, T p.1 p.2) :
    List.Forall₂ (fun x a => ∃ t, T x t ∧ R t a) (ps.map fun p => p.1) as := by
  induction ps generalizing as with
  | nil =>
      cases h
      exact .nil
  | cons p ps ih =>
      cases h with
      | cons hp hps =>
          exact .cons ⟨p.2, hT p (by simp), hp⟩ (ih hps fun q hq => hT q (by simp [hq]))

theorem functions_match {concurrency : ConcurrencyPolicy} {c : NonLwt}
    {errno_ : ErrnoPolicy} {cname stubName externalName : String} {f : Fn}
    {n n1 : Nat} {d : CFundef} {ext : Extern} {code : StubCode}
    (hd : stub c errno_ cname stubName f n = .ok (d, n1))
    (hcode : code = .functions (if d.dec.params.length > maxByteArgs then
      [d, byteDef d.dec.name (Cbuf.Fn.ofCtypes f) d.dec.params.length n1] else [d]))
    (hext : extern_ concurrency errno_ stubName externalName f = .ok ext) :
    Matches code ext := by
  obtain ⟨hprim, hbyte, hargs⟩ := extern_eq_ok hext
  obtain ⟨-, f', n3, i, hstub⟩ := stub_eq_ok hd
  have hdec : d.dec = _ := congrArg CFundef.dec hstub.def_eq
  have hnames : d.dec.params.map (fun p => p.1) = f'.params.map fun p => p.1 := by
    rw [hdec, valueParams_eq, List.map_map]
    rfl
  rw [← hstub.spec_eq, args_spec] at hargs
  have hlen : d.dec.params.length = arity ext.typ := by
    have h := hargs.length_eq
    rw [List.length_map] at h
    rw [hdec, valueParams_eq, List.length_map, arity, h]
  have hname : d.dec.name = stubName := by rw [hdec]
  subst hcode
  rw [byteStubName, ← hlen] at hbyte
  split at hbyte <;> rename_i hmany
  · rw [if_pos hmany]
    refine ⟨by rw [hprim]; exact congrArg some hname, ?_, ?_⟩
    · rw [StubCode.params, hnames]
      exact forall₂_of_pairs hargs fun p hp => stub_takenFor hstub _ hp
    · rw [hbyte, ← hname]
      rfl
  · rw [if_neg hmany]
    refine ⟨by rw [hprim]; exact congrArg some hname, ?_, ?_⟩
    · rw [StubCode.params, hnames]
      exact forall₂_of_pairs hargs fun p hp => stub_takenFor hstub _ hp
    · rw [hbyte]
      rfl

/-! ### Jobs -/

/-- A job takes the arguments of the specification without `void`. -/
theorem argsAndResultFrom_types (n : Nat) (f : Fn) (acc : List Lwt.Arg) :
    (Lwt.argsAndResultFrom n f acc).1.map (fun a => a.1) =
      acc.reverse.map (fun a => a.1) ++ (args f).filter fun t => t ≠ .void := by
  induction n, f, acc using Lwt.argsAndResultFrom.induct with
  | case1 n f acc ih => simpa [Lwt.argsAndResultFrom, args] using ih
  | case2 n t f acc ht ih =>
      rw [Lwt.argsAndResultFrom, ih, args, List.filter_cons_of_pos]
      · simp
      · simpa using ht
      · exact ht
  | case3 n t acc => simp [Lwt.argsAndResultFrom, args]

theorem fnArgsAndResult_types (f : Fn) :
    (Lwt.fnArgsAndResult f).1.map (fun a => a.1) = (args f).filter fun t => t ≠ .void :=
  argsAndResultFrom_types 0 f []

theorem job_eq_ok {errno_ : ErrnoPolicy} {cname stubName : String} {f : Fn}
    {n n2 : Nat} {j : Lwt.Job} (h : Lwt.fn errno_ cname stubName f n = .ok (j, n2)) :
    Lwt.stub errno_ stubName (Lwt.fnArgsAndResult f).1 = .ok j.stub ∧
      j.byteStub = if (Lwt.fnArgsAndResult f).1.length > maxByteArgs then
        some (Lwt.byteStub stubName (Lwt.fnArgsAndResult f).1) else none := by
  rw [Lwt.fn] at h
  cases hargs : Lwt.fnArgsAndResult f with
  | mk as r =>
      rw [hargs] at h
      obtain ⟨s, n3, -, h⟩ := bind_eq_ok.mp h
      obtain ⟨w, n4, -, h⟩ := bind_eq_ok.mp h
      obtain ⟨rv, n5, -, h⟩ := bind_eq_ok.mp h
      obtain ⟨t, n6, ht, h⟩ := bind_eq_ok.mp h
      cases h
      exact ⟨(lift_eq_ok.mp ht).1, rfl⟩

def jobField (arg : Lwt.Arg) : Except Exn (String × CEff) := do
  return (arg.2, ← Lwt.prj (valueLocal arg.2) arg.1)

theorem jobField_mem {as : List Lwt.Arg} {fields : List (String × CEff)}
    (h : as.mapM jobField = .ok fields) :
    ∀ a ∈ as, ∃ e, Lwt.prj (valueLocal a.2) a.1 = .ok e ∧ (a.2, e) ∈ fields := by
  induction as generalizing fields with
  | nil => simp
  | cons b as ih =>
      rw [List.mapM_cons, jobField] at h
      cases hb : Lwt.prj (valueLocal b.2) b.1 with
      | error x =>
          rw [hb] at h
          cases h
      | ok e =>
          rw [hb] at h
          cases hrest : as.mapM jobField with
          | error x =>
              rw [hrest] at h
              cases h
          | ok rest =>
              rw [hrest] at h
              cases h
              intro a ha
              rcases List.mem_cons.mp ha with rfl | ha
              · exact ⟨e, hb, List.mem_cons_self⟩
              · obtain ⟨e', he', hmem⟩ := ih hrest a ha
                exact ⟨e', he', List.mem_cons_of_mem _ hmem⟩

/-- A job's stub has the parameters it is given and stores each of them. -/
theorem jobStub_eq_ok {errno_ : ErrnoPolicy} {stubName : String} {as : List Lwt.Arg}
    {s : Lwt.JobStub} (h : Lwt.stub errno_ stubName as = .ok s) :
    s.name = stubName ∧ s.params = as.map (fun a => a.2) ∧
      ∀ a ∈ as, ∃ e, Lwt.prj (valueLocal a.2) a.1 = .ok e ∧ (a.2, e) ∈ s.fields := by
  have hmap : Lwt.stub errno_ stubName as = (as.mapM jobField).map fun fields =>
      { name := stubName, params := as.map fun a => a.2, roots := as.map fun a => a.2
        resetsErrorStatus := errno_ = .returnErrno, fields } := by
    rw [Lwt.stub]
    rfl
  rw [hmap] at h
  cases hfields : as.mapM jobField with
  | error x =>
      rw [hfields] at h
      cases h
  | ok fields =>
      rw [hfields] at h
      cases h
      exact ⟨rfl, rfl, jobField_mem hfields⟩

theorem job_match_iff {errno_ : ErrnoPolicy} {cname stubName externalName : String}
    {f : Fn} {n n2 : Nat} {j : Lwt.Job} {ext : Extern}
    (h : Lwt.fn errno_ cname stubName f n = .ok (j, n2))
    (hext : extern_ .lwtJobs errno_ stubName externalName f = .ok ext) :
    Matches (.lwtJob j) ext ↔ .void ∉ args f := by
  obtain ⟨hprim, hbyte, hargs⟩ := extern_eq_ok hext
  obtain ⟨hstub, hjbyte⟩ := job_eq_ok h
  obtain ⟨hname, hparams, hfields⟩ := jobStub_eq_ok hstub
  have htypes := fnArgsAndResult_types f
  generalize (Lwt.fnArgsAndResult f).1 = as at *
  have hlen : as.length = ((args f).filter fun t => t ≠ .void).length := by
    rw [← htypes, List.length_map]
  constructor
  · intro hm hvoid
    -- one parameter is missing for each `void`
    have hcount := hm.params.length_eq
    rw [StubCode.params, hparams, List.length_map, hlen, ← hargs.length_eq] at hcount
    have hkept := List.length_filter_eq_length_iff.mp hcount .void hvoid
    simp at hkept
  · intro hvoid
    have hfilter : ((args f).filter fun t => t ≠ .void) = args f := by
      rw [List.filter_eq_self]
      intro t ht
      simp only [decide_eq_true_eq]
      rintro rfl
      exact hvoid ht
    rw [hfilter] at htypes hlen
    have hnargs : as.length = arity ext.typ := by
      rw [hlen, hargs.length_eq, arity]
    refine ⟨by rw [hprim]; exact congrArg some hname, ?_, ?_⟩
    · have hpairs : (as.map Prod.swap).map (fun p => p.1) = as.map fun a => a.2 := by
        rw [List.map_map]
        rfl
      have hsnd : (as.map Prod.swap).map (fun p => p.2) = as.map fun a => a.1 := by
        rw [List.map_map]
        rfl
      rw [StubCode.params, hparams, ← hpairs]
      rw [← htypes, ← hsnd] at hargs
      refine forall₂_of_pairs hargs fun p hp => ?_
      obtain ⟨a, ha, rfl⟩ := List.mem_map.mp hp
      exact hfields a ha
    · rw [StubCode.byteNames, hjbyte, hbyte, byteStubName, ← hnargs]
      split <;> rfl

/-! ### Every policy -/

/-- A stub and the external of the same specification go together, except
that a job leaves out the parameters of type `void`. -/
theorem stub_matches_external_iff {concurrency : ConcurrencyPolicy}
    {errno_ : ErrnoPolicy} {cname stubName externalName : String} {f : Fn}
    {n n2 : Nat} {code : StubCode} {ext : Extern}
    (hc : fn concurrency errno_ cname stubName f n = .ok (code, n2))
    (hm : extern_ concurrency errno_ stubName externalName f = .ok ext) :
    Matches code ext ↔ (concurrency = .lwtJobs → .void ∉ args f) := by
  rcases fn_eq_ok hc with ⟨c, d, n1, hpolicy, hd, hcode⟩ | ⟨rfl, j, hj, rfl⟩
  · have hne : concurrency ≠ .lwtJobs := by
      rintro rfl
      cases hpolicy
    exact ⟨fun _ h => absurd h hne, fun _ => functions_match hd hcode hm⟩
  · rw [job_match_iff hj hm]
    exact ⟨fun h _ => h, fun h => h rfl⟩

/-- Under the unlocked policy, a `void` parameter and an `int`. -/
theorem stub_matches_external_unlocked :
    ∃ code n2 ext,
      fn .unlocked .returnErrno "f" "stub_1_f"
        (.function .void (.function (.primitive .int) (.returns (.primitive .int)))) 0 =
          .ok (code, n2) ∧
      extern_ .unlocked .returnErrno "stub_1_f" "stub_1_f"
        (.function .void (.function (.primitive .int) (.returns (.primitive .int)))) =
          .ok ext ∧
      Matches code ext := by
  have hc : fn .unlocked .returnErrno "f" "stub_1_f"
      (.function .void (.function (.primitive .int) (.returns (.primitive .int)))) 0 =
        .ok _ := rfl
  have hm : extern_ .unlocked .returnErrno "stub_1_f" "stub_1_f"
      (.function .void (.function (.primitive .int) (.returns (.primitive .int)))) =
        .ok _ := rfl
  exact ⟨_, _, _, hc, hm, (stub_matches_external_iff hc hm).mpr nofun⟩

/-- As a job, the same specification has one parameter and two arguments. -/
theorem job_not_matches_external :
    ∃ code n2 ext,
      fn .lwtJobs .ignoreErrno "f" "stub_1_f"
        (.function .void (.function (.primitive .int) (.returns (.primitive .int)))) 0 =
          .ok (code, n2) ∧
      extern_ .lwtJobs .ignoreErrno "stub_1_f" "stub_1_f"
        (.function .void (.function (.primitive .int) (.returns (.primitive .int)))) =
          .ok ext ∧
      ¬ Matches code ext := by
  refine ⟨_, _, _, rfl, rfl, fun h => ?_⟩
  have hlen := h.params.length_eq
  revert hlen
  decide

end CtypesCbuf.Cstubs
