import CtypesCbuf.Cbuf.Execution
import CtypesCbuf.Cstubs.Arity

/-!
Running a stub of `Cstubs_generate_c`. With the lock held or released, and
with `errno` returned or not, it calls the C function once on what its
parameters project to.
-/

namespace CtypesCbuf.Cstubs.GenerateC

open NameSupply StraightLine
open Ctypes CLanguage Stubs
open Cbuf.GenerateC (DrawnBefore receivedArgs resetErrno withErrno CallsOnce)
open CtypesCbuf.Runtime

section Run

variable {m : Machine} {fvar : CFunction}

/-- After the lets of the parameters, the arguments are what C receives. -/
theorem projectParams_run (hf : fvar.readsOcamlHeap = false) (ps : List (String × Typ)) (n : Nat)
    (s : State) (hps : ∀ p ∈ ps, Drawn freshName 0 n p.1) :
    (projectParams ps n).args.map (evalExp m (run (exec m fvar)
        ((projectParams ps n).binds.map .bind) s).env) =
      receivedArgs m (ps.map fun p => p.2) (ps.map fun p => s.env p.1) := by
  induction ps generalizing n s with
  | nil => rfl
  | cons p ps ih =>
      obtain ⟨x, f⟩ := p
      have htail : ∀ p ∈ ps, Drawn freshName 0 n p.1 := fun p hp => hps p (by simp [hp])
      rw [projectParams, List.map_cons, List.map_cons, receivedArgs]
      split
      · exact ih n s htail
      · have hreads := projected_reads f (Stubs.valueLocal x) n
        have hlater := projectParams_reads ps (projected f (Stubs.valueLocal x) n).next
        obtain ⟨env, hrun, henv⟩ := run_readingBinds (m := m) hf hreads s
        obtain ⟨env', hrun', henv'⟩ := run_readingBinds (m := m) hf hlater { s with env }
        have harg := projected_run (m := m) hf f x n s
        have hrest := ih (projected f (Stubs.valueLocal x) n).next { s with env } fun p hp =>
          (htail p hp).mono (Nat.le_refl 0) hreads.names.le
        rw [hrun] at harg
        rw [hrun'] at hrest
        rw [List.map_append, run_append, hrun, hrun', List.map_cons, hrest, ← harg]
        congr 1
        · -- what is projected later has names of its own
          apply evalExp_congr
          intro l hl
          obtain ⟨b, hb, rfl⟩ := List.mem_map.mp
            (projected_arg_locals f (Stubs.valueLocal x) n l hl)
          exact henv'.of_drawn (hreads.names.drawn _ (List.mem_map.mpr ⟨b, hb, rfl⟩))
        · apply congrArg (receivedArgs m _)
          apply List.map_congr_left
          intro p hp
          exact henv.of_drawn (htail p hp)

theorem projectParams_drawnBefore (ps : List (String × Typ)) (n : Nat) :
    DrawnBefore (projectParams ps n).next (projectParams ps n).args := by
  intro e he l hl
  obtain ⟨b, hb, rfl⟩ := List.mem_map.mp (projectParams_locals ps n e he l hl)
  exact ((projectParams_reads ps n).names.drawn _
    (List.mem_map.mpr ⟨b, hb, rfl⟩)).mono (Nat.zero_le n) (Nat.le_refl _)

/-- What the operations on the lock around the call change. -/
def lockStep (m : Machine) : NonLwt → World → World
  | .sequential, w => w
  | .unlocked, w => w.clobber m

@[simp] theorem lockStep_calls (m : Machine) (concurrency : NonLwt) (w : World) :
    (lockStep m concurrency w).calls = w.calls := by
  cases concurrency <;> rfl

@[simp] theorem lockStep_created (m : Machine) (concurrency : NonLwt) (w : World) :
    (lockStep m concurrency w).created = w.created := by
  cases concurrency <;> rfl

theorem bind_lock (m : Machine) {fvar : CFunction} (x : CLocal) {g : CFunction}
    (hg : g = releaseFunction ∨ g = acquireFunction) (hf : fvar.allocates = false) (s : State) :
    ∃ v, exec m fvar (.bind (x, .app g [])) s =
      { s with env := bindLocal s.env x.1 v, world := s.world.clobber m } := by
  have hne : g ≠ fvar := by
    rintro rfl
    rcases hg with rfl | rfl <;> cases hf
  have hpair : g ≠ pairFunction := by
    rcases hg with rfl | rfl <;> decide
  have halloc : g.allocates = true := by
    rcases hg with rfl | rfl <;> rfl
  have hworld : (evalEff m fvar s (.app g [])).2 = s.world.clobber m := by
    simp only [evalEff, if_neg hne, callFunction, if_neg hpair, halloc, if_true]
  refine ⟨convertTy m x.2 (evalEff m fvar s (.app g [])).1, ?_⟩
  rw [exec_bind, hworld]

/-- The call, with the lock released around it or not. -/
def callBinds (concurrency : NonLwt) (fvar : CFunction) (es : List CExp) (t : Typ)
    (n a b : Nat) : List CBind :=
  match concurrency with
  | .sequential => [callBind fvar es t n]
  | .unlocked =>
      [voidBind a releaseRuntimeSystem, callBind fvar es t n, voidBind b acquireRuntimeSystem]

/-- Arguments that are bound already do not see later names. -/
theorem evalExps_bindLocal {n k : Nat} {es : List CExp} (hes : DrawnBefore n es) (hk : n < k)
    (env : String → CVal) (v : CVal) :
    es.map (evalExp m (bindLocal env (freshName k) v)) = es.map (evalExp m env) := by
  apply List.map_congr_left
  intro e he
  apply evalExp_congr
  intro l hl
  apply bindLocal_of_ne
  obtain ⟨j, -, hj, hname⟩ := hes e he l hl
  rw [hname, Ne, freshName_inj]
  omega

theorem callBinds_run (m : Machine) (fvar : CFunction) (hf : fvar.allocates = false)
    (concurrency : NonLwt) {es : List CExp} (t : Typ) {n a b : Nat} (hes : DrawnBefore n es)
    (ha : n < a) (hb : n + 1 < b) (s : State) :
    let called := callForeign m fvar (es.map (evalExp m s.env)) (lockStep m concurrency s.world)
    ∃ env, run (exec m fvar) ((callBinds concurrency fvar es t n a b).map .bind) s =
        { s with env, world := lockStep m concurrency called.2 } ∧
      env (freshName (n + 1)) = convertTyp m t called.1 := by
  intro called
  have hcall : ∀ s : State, exec m fvar (.bind (callBind fvar es t n)) s =
      { s with
        env := bindLocal s.env (freshName (n + 1))
          (convertTyp m t (callForeign m fvar (es.map (evalExp m s.env)) s.world).1)
        world := (callForeign m fvar (es.map (evalExp m s.env)) s.world).2 } := by
    intro s
    have heval : evalEff m fvar s (.app fvar es) =
        callForeign m fvar (es.map (evalExp m s.env)) s.world := if_pos rfl
    rw [callBind, exec_bind, heval]
    rfl
  cases concurrency with
  | sequential =>
      refine ⟨bindLocal s.env (freshName (n + 1)) (convertTyp m t called.1), ?_,
        bindLocal_self _ _ _⟩
      simp only [callBinds, List.map_cons, List.map_nil, run_cons, run_nil, hcall]
      rfl
  | unlocked =>
      obtain ⟨v, hrelease⟩ := bind_lock m (freshName a, .ty .void)
        (.inl rfl) hf s
      have hsame := evalExps_bindLocal (m := m) hes ha s.env v
      let s1 : State :=
        { s with env := bindLocal (bindLocal s.env (freshName a) v) (freshName (n + 1))
                   (convertTyp m t called.1)
                 world := called.2 }
      obtain ⟨u, hacquire⟩ := bind_lock m (freshName b, .ty .void)
        (.inr rfl) hf s1
      refine ⟨bindLocal s1.env (freshName b) u, ?_, ?_⟩
      · simp only [callBinds, voidBind, releaseRuntimeSystem, acquireRuntimeSystem,
          List.map_cons, List.map_nil, run_cons, run_nil, hrelease, hcall, hsame]
        exact hacquire
      · have hne : freshName (n + 1) ≠ freshName b := by
          rw [Ne, freshName_inj]
          omega
        exact (bindLocal_of_ne u hne).trans (bindLocal_self _ _ _)

def returnSteps (concurrency : NonLwt) (errno_ : ErrnoPolicy) (i : CEff) (v w : String) :
    List Step :=
  match concurrency, errno_ with
  | .sequential, .ignoreErrno => [.result i]
  | .sequential, .returnErrno =>
      [.bind ((v, .ty value), i), .result (pairWithErrno (valueLocal v))]
  | .unlocked, errno_ => injectSteps errno_ i (v, .ty value) (w, .ty value)

theorem returnSteps_run (m : Machine) (fvar : CFunction) (hf : returnType fvar.fn ≠ .ty value)
    {x : CLocal} {t : Typ} {i : CEff} (hi : Injection x t i) (concurrency : NonLwt)
    (errno_ : ErrnoPolicy) (v w : String)
    {c : CVal} {s : State} (hc : s.env x.1 = c) :
    let r := Cbuf.GenerateC.returned m errno_ t c s.world
    ∃ env, run (exec m fvar) (returnSteps concurrency errno_ i v w) s =
      { s with env, world := r.2, result := some r.1 } := by
  subst hc
  intro r
  let u := injected m t (s.env x.1)
  have hinject : ∀ s' : State, s'.env x.1 = s.env x.1 → s'.world = s.world →
      evalEff m fvar s' i = (u, if injectionAllocates t then s.world.clobber m else s.world) := by
    intro s' henv hworld
    rw [hi.eval hf, henv, hworld]
  cases concurrency with
  | sequential =>
      cases errno_ with
      | ignoreErrno =>
          refine ⟨s.env, ?_⟩
          simp only [returnSteps, run_cons, run_nil, exec, hinject s rfl rfl]
          rfl
      | returnErrno =>
          refine ⟨bindLocal s.env v u, ?_⟩
          simp only [returnSteps, Stubs.valueLocal, run_cons, run_nil, exec,
            hinject s rfl rfl, pairWithErrno_eval hf, bindLocal_self]
          rfl
  | unlocked =>
      cases errno_ with
      | ignoreErrno =>
          refine ⟨bindLocal s.env v u, ?_⟩
          simp only [returnSteps, injectSteps, run_cons, run_nil, exec,
            hinject s rfl rfl, evalExp, bindLocal_self]
          rfl
      | returnErrno =>
          refine ⟨bindLocal (bindLocal s.env v u) w r.1, ?_⟩
          simp only [returnSteps, injectSteps, run_cons, run_nil, exec,
            hinject s rfl rfl, pairWithErrno_eval hf, evalExp, bindLocal_self]
          rfl

theorem resetSteps_run (errno_ : ErrnoPolicy) (s : State) :
    run (exec m fvar) (resetSteps errno_) s = { s with world := resetErrno errno_ s.world } := by
  cases errno_ <;> rfl

/-- Where the lets of the tail stand apart. -/
theorem tail_split (concurrency : NonLwt) (errno_ : ErrnoPolicy) (fvar : CFunction)
    (es : List CExp) (t : Typ) (i : CEff) (n : Nat) :
    ∃ a b v w, n < a ∧ n + 1 < b ∧
      (tailBinds concurrency errno_ fvar es t i n).map .bind ++
          (tailEnd concurrency errno_ i n).steps =
        (callBinds concurrency fvar es t n a b).map .bind ++
          returnSteps concurrency errno_ i (freshName v) (freshName w) := by
  cases concurrency with
  | sequential =>
      cases errno_ with
      | ignoreErrno => exact ⟨n + 1, n + 2, 0, 0, by omega, by omega, rfl⟩
      | returnErrno => exact ⟨n + 1, n + 2, n + 2, 0, by omega, by omega, rfl⟩
  | unlocked =>
      cases errno_ with
      | ignoreErrno => exact ⟨n + 4, n + 3, n + 2, 0, by omega, by omega, rfl⟩
      | returnErrno => exact ⟨n + 6, n + 2, n + 4, n + 5, by omega, by omega, rfl⟩

end Run

/-! ### Whole runs -/

section Run

variable {m : Machine} {concurrency : NonLwt} {errno_ : ErrnoPolicy} {cname stubName : String}
  {f : Fn} {n n1 : Nat} {d : CFundef} {f' : NamedFn} {i : CEff}

theorem StubOf.params_eq (hd : StubOf concurrency errno_ cname stubName f n d f' n1 i) :
    f'.params.map (fun p => p.2) = args f :=
  (args_spec f').symm.trans (congrArg args hd.spec_eq)

/-- At the start of a stub, its parameters hold the arguments. -/
theorem StubOf.params_held (hd : StubOf concurrency errno_ cname stubName f n d f' n1 i)
    {vs : List CVal} (hvs : vs.length = (args f).length) :
    f'.params.map (fun p => paramEnv (valueParams f') vs p.1) = vs := by
  have hnames : (valueParams f').map (fun p => p.1) = f'.params.map fun p => p.1 := by
    rw [valueParams_eq, List.map_map]
    rfl
  have hlength : (valueParams f').length = vs.length := by
    rw [valueParams_eq, List.length_map, hvs, ← hd.params_eq, List.length_map]
  have hheld := map_paramEnv (hnames ▸ hd.names.nodup) hlength
  rw [hnames, List.map_map] at hheld
  exact hheld

/-- Registering the roots changes nothing that a run sees. -/
theorem stub_steps_run (hd : StubOf concurrency errno_ cname stubName f n d f' n1 i)
    (fvar : CFunction) (s : State) :
    run (exec m fvar) d.body.steps s =
      run (exec m fvar) ((tailBinds concurrency errno_ (foreignFunction cname f)
          (projectParams f'.params n1).args f'.ret i (projectParams f'.params n1).next).map .bind ++
          (tailEnd concurrency errno_ i (projectParams f'.params n1).next).steps)
        (run (exec m fvar) (resetSteps errno_)
          (run (exec m fvar) ((projectParams f'.params n1).binds.map .bind) s)) := by
  have hdef := hd.def_eq
  subst hdef
  rw [← run_append, ← run_append]
  cases concurrency with
  | sequential => simp only [CComp.steps_lets, callTail_steps, List.append_assoc]
  | unlocked =>
      simp only [CComp.steps, CComp.steps_lets, callTail_steps, List.append_assoc, run_cons]
      rfl

/-- A run of a generated stub. -/
theorem stub_run (hd : StubOf concurrency errno_ cname stubName f n d f' n1 i) (hf : Accepted f)
    {vs : List CVal} (hvs : vs.length = (args f).length) (fields : String → CVal) (w : World) :
    let fvar := foreignFunction cname f
    let called := callForeign m fvar (receivedArgs m (args f) vs)
      (lockStep m concurrency (resetErrno errno_ w))
    let r := Cbuf.GenerateC.returned m errno_ (resultTyp f).core
      (convertTyp m (resultTyp f) called.1) (lockStep m concurrency called.2)
    ∃ env, runFundef m fvar d vs fields w =
      { env, fields, world := r.2, result := some r.1 } := by
  intro fvar called r
  have hreads : fvar.readsOcamlHeap = false := rfl
  have hret : f'.ret = resultTyp f := (namedFn_ret f').trans (congrArg resultTyp hd.spec_eq)
  let s0 : State := { env := paramEnv (valueParams f') vs, fields, world := w, result := none }
  obtain ⟨env, hrun, -⟩ :=
    run_readingBinds (m := m) hreads (projectParams_reads f'.params n1) s0
  have hargs := projectParams_run (m := m) hreads f'.params n1 s0 fun p hp =>
    (hd.names.drawn p.1 (List.mem_map.mpr ⟨p, hp, rfl⟩)).mono (Nat.zero_le n) (Nat.le_refl n1)
  rw [hrun, hd.params_eq] at hargs
  obtain ⟨a, b, v, x, ha, hb, hsplit⟩ := tail_split concurrency errno_ fvar
    (projectParams f'.params n1).args f'.ret i (projectParams f'.params n1).next
  obtain ⟨env', hcall, hresult⟩ := callBinds_run m fvar rfl concurrency f'.ret
    (projectParams_drawnBefore f'.params n1) ha hb { s0 with env, world := resetErrno errno_ w }
  obtain ⟨env'', hreturn⟩ := returnSteps_run m fvar (returnType_ne_value hf)
    (inj_injection hd.inj_eq) concurrency errno_ (freshName v) (freshName x)
    (s := { s0 with
      env := env'
      world := lockStep m concurrency (callForeign m fvar
        ((projectParams f'.params n1).args.map (evalExp m env))
        (lockStep m concurrency (resetErrno errno_ w))).2 }) hresult
  refine ⟨env'', ?_⟩
  have hbody : d.dec.params = valueParams f' := by rw [hd.def_eq]
  rw [runFundef, hbody, stub_steps_run hd, hrun, resetSteps_run, hsplit, run_append]
  have hvals : (projectParams f'.params n1).args.map (evalExp m env) =
      receivedArgs m (args f) vs :=
    hargs.trans (congrArg (receivedArgs m (args f)) (hd.params_held hvs))
  rw [hret] at hreturn
  rw [hvals] at hcall hreturn
  exact (congrArg (run (exec m fvar) _) hcall).trans hreturn

/-- The policies only differ in what they do to `errno`. -/
theorem stub_callsOnce (hd : StubOf concurrency errno_ cname stubName f n d f' n1 i)
    (hf : Accepted f) {vs : List CVal} {u : Value} (hvs : vs.length = (args f).length)
    (hu : injected m (resultTyp f).core
      (convertTyp m (resultTyp f) (m.foreign (receivedArgs m (args f) vs))) = .value u)
    (fields : String → CVal) (w : World) :
    CallsOnce errno_ cname (receivedArgs m (args f) vs) u w
      (runFundef m (foreignFunction cname f) d vs fields w) := by
  let w0 := lockStep m concurrency (resetErrno errno_ w)
  let called := callForeign m (foreignFunction cname f) (receivedArgs m (args f) vs) w0
  obtain ⟨env, hrun⟩ := stub_run (m := m) hd hf hvs fields w
  obtain ⟨⟨k, hk, hvalue⟩, hcalls, hcreated⟩ :=
    Cbuf.GenerateC.returned_eq hu errno_ (lockStep m concurrency called.2)
  have hlog : called.2.calls = w.calls ++ [⟨cname, receivedArgs m (args f) vs, w0.errno,
      m.foreignErrno (receivedArgs m (args f) vs) w0.errno⟩] := by
    show w0.calls ++ _ = _
    simp [w0, foreignFunction]
  have hsame : called.2.created = w.created := by
    show w0.created = _
    simp [w0]
  rw [hrun]
  apply CallsOnce.mk
  · exact ⟨_, _, hcalls.trans ((lockStep_calls m concurrency called.2).trans hlog)⟩
  · exact ⟨k, hk, congrArg some hvalue⟩
  · exact hcreated.trans ((lockStep_created m concurrency called.2).trans hsame)

end Run

end CtypesCbuf.Cstubs.GenerateC
