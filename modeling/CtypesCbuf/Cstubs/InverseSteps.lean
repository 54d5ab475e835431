import CtypesCbuf.Cstubs.Layout
import CtypesCbuf.Cbuf.GenerateC

/-!
The steps of an inverted stub: the lock, the frame, one assignment for each
parameter, the callback, the projection of its result and the return.
-/

namespace CtypesCbuf.Cstubs.Inverted

open NameSupply Supply
open Ctypes hiding Fn
open CLanguage Stubs
open Cbuf.GenerateC
open Cstubs.GenerateC (voidBind)

/-- `wrap_if`, in front of other steps. -/
def lockSteps (runtimeLock : Bool) (e : CEff) (k : Nat) : List Step :=
  if runtimeLock then [.bind (voidBind k e)] else []

/-- `locals[i] = e` for the expressions from the `i`-th on. -/
def assignSteps : Nat → List CEff → List Step
  | _, [] => []
  | i, e :: es =>
      .assign (.index (.var (.clocal argsLocal)) (.int (sintOfInt i))) e ::
        assignSteps (i + 1) es

/-- The local for the entry of the table, when `m` names are drawn. -/
def closureLocal (m : Nat) : CLocal := (freshName (m + 1), .ty value)

def resultLocal (m : Nat) : CLocal := (freshName (m + 2), .ty value)

/-- What is left of the result's projection. A `void` result is not projected. -/
def projectedResult (r : Typ) (m : Nat) : Projected :=
  if r.core = .void then ⟨[], .clocal (resultLocal m), m + 2⟩
  else projected r (.clocal (resultLocal m)) (m + 2)

def callbackSteps (stubName : String) (m : Nat) : List Step :=
  [.bind (closureLocal m, .index Cbuf.GenerateC.functions (.clocal ("fn_" ++ stubName, .ty int))),
    .bind (resultLocal m, .app camlCallbackN
      [.clocal (closureLocal m), .clocal nargsLocal, .clocal argsLocal])]

def frameSteps (nargs p l : Nat) : List Step :=
  [.bind (voidBind p (.camlop .camlParam0)),
    .bind (voidBind l (.camlop (.camlLocalN (.clocal ("locals", .ty (.array value nargs)))
      (.clocal nargsLocal))))]

def returnSteps (runtimeLock : Bool) (r : Typ) (y : CExp) (u e : Nat) : List Step :=
  .bind (voidBind u (.camlop .camlDrop)) ::
    lockSteps runtimeLock releaseRuntimeSystem e ++ [.ret (.ty r) y]

/-- The inverted stub `d` for functions of type `f`. Its parameters `ps` draw the
names up to the `m`-th; `a`, `p`, `l`, `u` and `e` number names that are not used. -/
structure InverseOf (stubName : String) (runtimeLock : Bool) (f : Cbuf.Fn) (n : Nat)
    (d : CFundef) (ps : List (String × Typ)) (r : Typ) (es : List CEff)
    (m a p l u e : Nat) : Prop where
  names : FreshNames n m (ps.map Prod.fst)
  dec_eq : d.dec = { name := stubName, params := ps.map fun q => (q.1, .ty q.2), ret := .ty r }
  arguments : ps.map Prod.snd = f.arguments
  returns : returnType f = .ty r
  passed : Passed r
  injections : List.Forall₂ (fun q i => Injection (q.1, .ty q.2) q.2.core i) ps es
  later : ∀ k ∈ [a, p, l, u, e], m < k
  steps_eq : d.body.steps = .const nargsLocal (sintOfInt ps.length) ::
    lockSteps runtimeLock acquireRuntimeSystem a ++ frameSteps ps.length p l ++
    assignSteps 0 es ++ callbackSteps stubName m ++
    (projectedResult r m).binds.map .bind ++ returnSteps runtimeLock r (projectedResult r m).arg u e

/-! ### What the generator builds -/

theorem wrapIf_steps {cond : Bool} {f : CFunction} {c d : CComp} {n n' : Nat}
    (h : wrapIf cond (.eff (.app f [])) c n = .ok (d, n')) :
    d.steps = lockSteps cond (.app f []) (n + 1) ++ c.steps := by
  cases cond with
  | false =>
      obtain ⟨rfl, -⟩ : c = d ∧ n = n' := by simpa [wrapIf] using h
      rfl
  | true =>
      rw [wrapIf, if_pos rfl, andThen_eff (by simp)] at h
      cases h
      rfl

theorem wrapIf_next {cond : Bool} {f : CFunction} {c d : CComp} {n n' : Nat}
    (h : wrapIf cond (.eff (.app f [])) c n = .ok (d, n')) : n ≤ n' := by
  cases cond with
  | false =>
      obtain ⟨-, rfl⟩ : c = d ∧ n = n' := by simpa [wrapIf] using h
      exact Nat.le_refl n
  | true =>
      rw [wrapIf, if_pos rfl, andThen_eff (by simp)] at h
      cases h
      exact Nat.le_succ n

theorem inverseReturn_steps {runtimeLock : Bool} {r : Typ} {y : CExp} {c : CComp} {n n' : Nat}
    (h : letBind (.eff (.camlop .camlDrop)) .void (fun _ =>
      wrapIf runtimeLock releaseRuntimeSystem (.ret (.ty r) y)) n = .ok (c, n')) :
    c.steps = returnSteps runtimeLock r y (n + 1) (n + 2) ∧ n ≤ n' := by
  rw [letBind_eff (by simp), letsAround_eq_ok] at h
  obtain ⟨d, hd, rfl⟩ := h
  have hle := wrapIf_next hd
  refine ⟨?_, by omega⟩
  rw [CComp.steps_lets, wrapIf_steps hd]
  rfl

/-- The end of the stub, from the result of the callback on. -/
theorem inverseResult_steps {runtimeLock : Bool} {r : Typ} {x : CExp} {c : CComp} {n n' : Nat}
    (h : (do
      let e ← project r x
      letBind e r fun y => letBind (.eff (.camlop .camlDrop)) .void fun _ =>
        wrapIf runtimeLock releaseRuntimeSystem (.ret (.ty r) y)) n = .ok (c, n')) :
    Passed r ∧ ∃ k, n ≤ k ∧ n ≤ n' ∧
      let q : Projected := if r.core = .void then ⟨[], x, n⟩ else projected r x n
      c.steps = q.binds.map .bind ++ returnSteps runtimeLock r q.arg (k + 1) (k + 2) := by
  rw [project, Supply.bind_assoc] at h
  rcases prj_cases r x n with ⟨hv, hp⟩ | ⟨-, -, msg, hp⟩ | ⟨hproj, e, k, hp, hk⟩
  · rw [bind_of_ok hp, Supply.pure_bind, letBind_exp] at h
    obtain ⟨hsteps, hle⟩ := inverseReturn_steps h
    refine ⟨.inl hv, n + 1, by omega, by omega, ?_⟩
    simpa only [if_pos hv, List.map_nil, List.nil_append] using hsteps
  · rw [bind_of_error hp] at h
    cases h
  · have hv : r.core ≠ .void := by
      intro hv
      rw [hv] at hproj
      exact hproj
    rw [bind_of_ok hp, Supply.pure_bind, hk, letsAround_eq_ok] at h
    obtain ⟨d, hd, rfl⟩ := h
    obtain ⟨hsteps, hle⟩ := inverseReturn_steps hd
    have hreads := (projected_reads r x n).names.le
    refine ⟨.inr hproj, _, hreads, by omega, ?_⟩
    simp only [if_neg hv, CComp.steps_lets, hsteps]

theorem inverseCall_steps {stubName : String} {runtimeLock : Bool} {r : Typ} {c : CComp}
    {m n' : Nat} (h : inverseCall stubName runtimeLock r m = .ok (c, n')) :
    Passed r ∧ ∃ k, m ≤ k ∧ m ≤ n' ∧ c.steps = callbackSteps stubName m ++
      (projectedResult r m).binds.map .bind ++
        returnSteps runtimeLock r (projectedResult r m).arg (k + 1) (k + 2) := by
  rw [inverseCall, letBind_eff (by simp), letsAround_eq_ok] at h
  obtain ⟨d, hd, rfl⟩ := h
  rw [letBind_eff (by simp), letsAround_eq_ok] at hd
  obtain ⟨d', hd', rfl⟩ := hd
  obtain ⟨hpassed, k, hk, hle, hsteps⟩ := inverseResult_steps hd'
  refine ⟨hpassed, k, by omega, by omega, ?_⟩
  rw [CComp.steps_lets, CComp.steps_lets, hsteps, List.append_assoc]
  rfl

theorem inverseBody_steps {call c : CComp} {qs : List (String × Typ)} {i : Nat}
    (h : inverseBody call i (qs.map fun q => (q.1, .ty q.2)) = .ok c) :
    ∃ es, List.Forall₂ (fun q e => Injection (q.1, .ty q.2) q.2.core e) qs es ∧
      c.steps = assignSteps i es ++ call.steps := by
  induction qs generalizing i c with
  | nil =>
      cases h
      exact ⟨[], .nil, rfl⟩
  | cons q qs ih =>
      rw [List.map_cons, inverseBody] at h
      obtain ⟨c', hc', h⟩ := except_bind_eq_ok h
      obtain ⟨e, he, h⟩ := except_bind_eq_ok h
      cases h
      obtain ⟨es, hes, hsteps⟩ := ih hc'
      refine ⟨e :: es, .cons (inj_injection he) hes, ?_⟩
      rw [CComp.steps, hsteps]
      rfl

theorem inverseFrame_steps {body frame c : CComp} {nargs n n1 m m' : Nat}
    (hframe : andThen (.eff (.camlop .camlParam0)) (.eff (.camlop (.camlLocalN
      (.clocal ("locals", .ty (.array value nargs))) (.clocal nargsLocal)))) n = .ok (frame, n1))
    (hc : andThen frame body m = .ok (c, m')) :
    c.steps = frameSteps nargs (n + 1) (m + 2) ++ body.steps ∧ n ≤ n1 ∧ m ≤ m' := by
  rw [andThen_eff (by simp)] at hframe
  cases hframe
  rw [andThen, letBind_letIn rfl, letsAround_eq_ok] at hc
  obtain ⟨d, hd, rfl⟩ := hc
  rw [letBind_eff (by simp), letsAround_eq_ok] at hd
  obtain ⟨d, hd, rfl⟩ := hd
  cases hd
  refine ⟨?_, by omega, by omega⟩
  rw [CComp.steps_lets, CComp.steps_lets]
  rfl

theorem inverseFn_eq_ok {stubName : String} {runtimeLock : Bool} {f : Cbuf.Fn} {n n' : Nat}
    {d : CFundef} (h : inverseFn stubName runtimeLock f n = .ok (d, n')) :
    ∃ ps r es m a p l u e, InverseOf stubName runtimeLock f n d ps r es m a p l u e := by
  rw [inverseFn, fundec, Supply.bind_assoc, bind_eq_ok] at h
  obtain ⟨ps, m, hps, h⟩ := h
  obtain ⟨qs, rfl, hqs, hnames⟩ := args_eq_ok hps
  rw [Supply.pure_bind] at h
  cases hr : returnType f with
  | bufTy b => simp [hr] at h
  | ty r =>
      simp only [hr] at h
      obtain ⟨call, m1, hcall, h⟩ := bind_eq_ok.mp h
      obtain ⟨body, m2, hbody, h⟩ := bind_eq_ok.mp h
      obtain ⟨frame, m3, hframe, h⟩ := bind_eq_ok.mp h
      obtain ⟨c, m4, hc, h⟩ := bind_eq_ok.mp h
      obtain ⟨w, m5, hw, hdef⟩ := bind_eq_ok.mp h
      obtain ⟨hstored, rfl⟩ := lift_eq_ok.mp hbody
      obtain ⟨hpassed, k, hk, hm1, hcallSteps⟩ := inverseCall_steps hcall
      obtain ⟨es, hes, hbodySteps⟩ := inverseBody_steps hstored
      obtain ⟨hframeSteps, hm3, hm4⟩ := inverseFrame_steps hframe hc
      have hlock := wrapIf_steps hw
      cases hdef
      refine ⟨qs, r, es, m, m4 + 1, m2 + 1, m3 + 2, k + 1, k + 2, ?_⟩
      refine ⟨hnames, rfl, hqs, hr, hpassed, hes, ?_, ?_⟩
      · simp only [List.mem_cons, List.not_mem_nil, or_false]
        omega
      · rw [CComp.steps, hlock, hframeSteps, hbodySteps, hcallSteps]
        simp only [List.append_assoc, List.length_map]
        rfl

end CtypesCbuf.Cstubs.Inverted
