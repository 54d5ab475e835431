import CtypesCbuf.Cbuf.Execution
import CtypesCbuf.Cstubs.Arity
import CtypesCbuf.CtypesForeign.FfiCall

/-!
The value of `errno` on every path that returns or checks it. An operation
that allocates or works on the runtime lock may change `errno`. A job of Lwt
and `ctypes_call` read it directly after the call. The stubs read it in
`ctypes_pair_with_errno`, which allocates first.
-/

namespace CtypesCbuf.Cstubs.Lwt

open NameSupply Supply StraightLine
open Ctypes CLanguage Stubs
open CtypesCbuf.Runtime

/-! ### Running a job -/

/-- The value under construction in `result_`: the fields of the tuple, or
the value itself. -/
structure ResultState where
  rv : List CVal
  world : World

/-- A statement of `result_`; `fields` are those of the job. -/
def execResult (m : Machine) (fvar : CFunction) (fields : String → CVal) :
    ResultStmt → ResultState → ResultState
  | .allocTuple n, s =>
      { rv := List.replicate n (.value .unit), world := s.world.clobber m }
  | .storeErrorStatus i, s =>
      { rv := s.rv.set i (library m "ctypes_copy_sint" [fields "error_status"])
        world := s.world.clobber m }
  | .setRv e, s =>
      let (v, w) := eval e s.world
      { rv := [v], world := w }
  | .storeField i e, s =>
      let (v, w) := eval e s.world
      { rv := s.rv.set i v, world := w }
  | .camlParam0, s | .camlLocal1, s | .freeJob, s | .camlReturn, s => s
where
  /-- The injection reads the local that stands for `j->result`. -/
  eval (e : CEff) (w : World) : CVal × World :=
    evalEff m fvar { env := fun _ => fields "result", fields, world := w, result := none } e

def runResult (m : Machine) (fvar : CFunction) (fields : String → CVal)
    (stmts : List ResultStmt) (w : World) : ResultState :=
  run (execResult m fvar fields) stmts { rv := [], world := w }

section Worker

variable {m : Machine} {fn' : CFunction} {j : CLocal} {r : Typ}

theorem workerCall_of_ne_void (hr : r ≠ .void) (args : List CExp) (c : CComp) :
    workerCall fn' j r args c = cast (.ty r) (.ty .void)
      (.letAssign (.pointerField (.var (.clocal j)) "result") (.app fn' args.reverse) c) := by
  cases r <;> first | exact absurd rfl hr | rfl

/-- The worker resets `errno`, calls the C function and stores `errno` in the
job. -/
theorem workerBody_run {args : List CExp} {xs : List Arg} {n n' : Nat} {c : CComp}
    (h : workerBody .returnErrno fn' j r args xs n = .ok (c, n')) (s : State) :
    ∃ cargs, (run (exec m fn') c.steps s).world =
        (callForeign m fn' cargs { s.world with errno := 0 }).2 ∧
      (run (exec m fn') c.steps s).fields "error_status" =
        .int (m.foreignErrno cargs 0) := by
  induction xs generalizing args n s c with
  | nil =>
      refine ⟨args.reverse.map (evalExp m s.env), ?_⟩
      by_cases hr : r = .void
      · subst hr
        cases h
        simp [CComp.steps, exec, assign, evalEff, evalExp, errno, callForeign]
      · rw [workerBody, workerCall_of_ne_void hr] at h
        cases h
        simp [CComp.steps, exec, assign, evalEff, evalExp, errno, callForeign]
  | cons x xs ih =>
      obtain ⟨ty, x⟩ := x
      rw [workerBody, letBind_eff (by simp), letsAround_eq_ok] at h
      obtain ⟨d, hd, rfl⟩ := h
      exact ih hd _

theorem result_errorStatus {stmts : List ResultStmt} (h : result .returnErrno r = .ok stmts)
    {fields : String → CVal} {e : Int} (he : fields "error_status" = .int e) (w : World) :
    (runResult m fn' fields stmts w).rv[1]? =
      some (.value (.boxed .int32 (IntFormat.i32.wrap e))) := by
  have hstmts : ∃ i, stmts = [.camlParam0, .camlLocal1, .allocTuple 2, .storeErrorStatus 1,
      .storeField 0 i, .freeJob, .camlReturn] := by
    unfold result at h
    dsimp only at h
    split at h
    · cases h
      exact ⟨_, rfl⟩
    · obtain ⟨i, -, h⟩ := except_bind_eq_ok h
      cases h
      exact ⟨i, rfl⟩
  obtain ⟨i, rfl⟩ := hstmts
  have hcopy : library m "ctypes_copy_sint" [.int e] =
      .value (.boxed .int32 (IntFormat.i32.wrap e)) := rfl
  simp [runResult, execResult, he, hcopy]

/-- The `errno` of a job is the one that the C function left. -/
theorem job_errno {cname stubName : String} {f : Fn} {n n2 : Nat} {job : Job}
    (h : fn .returnErrno cname stubName f n = .ok (job, n2)) (args : List CVal)
    (fields : String → CVal) (w w' : World) :
    let fvar := GenerateC.foreignFunction cname f
    let s := runFundef m fvar job.worker args fields w
    ∃ call, s.world.calls = w.calls ++ [call] ∧ call.errnoOnEntry = 0 ∧
      (runResult m fvar s.fields job.result w').rv[1]? =
        some (.value (.boxed .int32 (IntFormat.i32.wrap call.errnoOnReturn))) := by
  intro fvar s
  obtain ⟨structure_, n3, -, h⟩ := bind_eq_ok.mp h
  obtain ⟨worker, n4, hworker, h⟩ := bind_eq_ok.mp h
  obtain ⟨result, n5, hresult, h⟩ := bind_eq_ok.mp h
  obtain ⟨stub, n6, -, h⟩ := bind_eq_ok.mp h
  cases h
  obtain ⟨c, n7, hc, hworker⟩ := bind_eq_ok.mp hworker
  cases hworker
  obtain ⟨cargs, hworld, hfields⟩ := workerBody_run (m := m) hc
    { env := paramEnv [jobLocal stubName] args, fields, world := w, result := none }
  refine ⟨_, congrArg World.calls hworld, rfl, ?_⟩
  exact result_errorStatus (lift_eq_ok.mp hresult).1 hfields w'

end Worker

end CtypesCbuf.Cstubs.Lwt

namespace CtypesCbuf

open NameSupply Supply StraightLine
open CLanguage Stubs
open CtypesCbuf.Runtime

/-! ### Calling paths -/

/-- The paths that return or check `errno`, with what they call. -/
inductive CallPath
  | cbuf (f : Cbuf.Fn)
  | cstubs (concurrency : Ctypes.ConcurrencyPolicy) (f : Ctypes.Fn)
  | libffi (runtimeLock : Bool) (f : Ctypes.Fn)

/-- A stub returns the `errno` of its call, which began with 0. -/
def StubFaithful (m : Machine) (fvar : CFunction) (d : CFundef) : Prop :=
  ∀ args fields w, let s := runFundef m fvar d args fields w
    ∃ call v, s.world.calls = w.calls ++ [call] ∧ call.errnoOnEntry = 0 ∧
      s.result = some (.value (.pair v
        (.boxed .int32 (IntFormat.i32.wrap call.errnoOnReturn))))

/-- So does a job, whatever happens between its worker and `result_`. -/
def JobFaithful (m : Machine) (fvar : CFunction) (job : Cstubs.Lwt.Job) : Prop :=
  ∀ args fields w w', let s := runFundef m fvar job.worker args fields w
    ∃ call, s.world.calls = w.calls ++ [call] ∧ call.errnoOnEntry = 0 ∧
      (Cstubs.Lwt.runResult m fvar s.fields job.result w').rv[1]? =
        some (.value (.boxed .int32 (IntFormat.i32.wrap call.errnoOnReturn)))

/-- The first function of a stub is the one that makes the call. -/
def CodeFaithful (m : Machine) (fvar : CFunction) : Cstubs.StubCode → Prop
  | .functions ds => ∀ d ∈ ds.head?, StubFaithful m fvar d
  | .lwtJob job => JobFaithful m fvar job

/-- The code of the path reports `errno` on the machine. -/
def CallPath.Faithful (m : Machine) (cname stubName : String) : CallPath → Prop
  | .cbuf f => ∀ n d n', Cbuf.GenerateC.stub .returnErrno cname stubName f n = .ok (d, n') →
      StubFaithful m (Cbuf.GenerateC.foreignFunction cname f) d
  | .cstubs concurrency f => ∀ n code n',
      Cstubs.fn concurrency .returnErrno cname stubName f n = .ok (code, n') →
        CodeFaithful m (Cstubs.GenerateC.foreignFunction cname f) code
  | .libffi runtimeLock f => ∀ args w,
      let r := CtypesForeign.ctypesCall m { checkErrno := true, runtimeLock }
        (Cstubs.GenerateC.foreignFunction cname f) args w
      ∃ call, r.2.calls = w.calls ++ [call] ∧ call.errnoOnEntry = 0 ∧
        r.1.errno = call.errnoOnReturn

def CallPath.Generated (cname stubName : String) : CallPath → Prop
  | .cbuf f => Succeeds (Cbuf.GenerateC.stub .returnErrno cname stubName f) 0
  | .cstubs concurrency f => Succeeds (Cstubs.fn concurrency .returnErrno cname stubName f) 0
  | .libffi _ _ => True

def CallPath.Typed (m : Machine) : CallPath → Prop
  | .cbuf f => ∀ args, HasCore m.charSigned (Cbuf.GenerateC.resultTyp f).core (m.foreign args)
  | .cstubs _ f | .libffi _ f =>
      ∀ args, HasCore m.charSigned (Cstubs.resultTyp f).core (m.foreign args)

def CallPath.ReadsAtOnce : CallPath → Prop
  | .cbuf _ => False
  | .cstubs concurrency _ => concurrency = .lwtJobs
  | .libffi _ _ => True

/-! ### Stubs -/

/-- The C function leaves 5 in `errno`, and whatever may change it leaves 0. -/
def clobberingMachine (c : CVal) : Machine :=
  { Machine.plain with foreign := fun _ => c, foreignErrno := fun _ _ => 5
                       clobber := fun _ _ => 0 }

/-- The ends of the stubs that return `errno`. -/
inductive EndsInPair : List Step → Prop
  | result (p : List Step) (x : CLocal) :
      EndsInPair (p ++ [.result (pairWithErrno (.clocal x))])
  | camlReturn (p : List Step) (x : CLocal) (y : String) :
      EndsInPair (p ++ [.bind ((y, .ty value), pairWithErrno (.clocal x)),
        .camlReturnT (.ty value) (valueLocal y)])

section Clobbering

variable {c : CVal} {fvar : CFunction}

/-- The pair is allocated before `errno` is read. -/
theorem runPair_clobbered {args : List CVal} {w : World} {v : Value} {e : Int}
    (h : (runPairWithErrno (clobberingMachine c) args w).1 =
      .value (.pair v (.boxed .int32 e))) : e = 0 := by
  unfold runPairWithErrno at h
  split at h
  · injection h with h
    injection h with _ h
    injection h with _ h
    exact h.symm
  · cases h

theorem endsInPair_result {p : List Step} (h : EndsInPair p)
    (hf : returnType fvar.fn ≠ .ty value) (s : State) {v : Value} {e : Int}
    (hr : (run (exec (clobberingMachine c) fvar) p s).result =
      some (.value (.pair v (.boxed .int32 e)))) : e = 0 := by
  cases h with
  | result p x =>
      rw [run_append] at hr
      generalize run (exec (clobberingMachine c) fvar) p s = t at hr
      have hpair : (evalEff (clobberingMachine c) fvar t (pairWithErrno (.clocal x))).1 =
          .value (.pair v (.boxed .int32 e)) := Option.some.inj hr
      rw [pairWithErrno_eval hf] at hpair
      exact runPair_clobbered hpair
  | camlReturn p x y =>
      rw [run_append] at hr
      generalize run (exec (clobberingMachine c) fvar) p s = t at hr
      have hpair : bindLocal t.env y (evalEff (clobberingMachine c) fvar t
          (pairWithErrno (.clocal x))).1 y = .value (.pair v (.boxed .int32 e)) :=
        Option.some.inj hr
      rw [bindLocal_self, pairWithErrno_eval hf] at hpair
      exact runPair_clobbered hpair

/-- Every call leaves 5. -/
theorem evalEff_calls (s : State) (e : CEff)
    (h : ∀ call ∈ s.world.calls, call.errnoOnReturn = 5) :
    ∀ call ∈ (evalEff (clobberingMachine c) fvar s e).2.calls, call.errnoOnReturn = 5 := by
  induction e with
  | app f es =>
      simp only [evalEff]
      split
      · intro call hcall
        rcases List.mem_append.mp hcall with hcall | hcall
        · exact h call hcall
        · obtain rfl := List.mem_singleton.mp hcall
          rfl
      · rw [callFunction_calls]
        exact h
  | index e i ih =>
      rw [evalEff]
      cases hv : evalEff (clobberingMachine c) fvar s e with
      | mk v w =>
          rw [hv] at ih
          dsimp only at ih ⊢
          split
          · exact ih
          · exact ih
  | deref e =>
      rw [evalEff]
      split <;> exact h
  | _ => exact h

theorem run_calls (p : List Step) {s : State}
    (h : ∀ call ∈ s.world.calls, call.errnoOnReturn = 5) :
    ∀ call ∈ (run (exec (clobberingMachine c) fvar) p s).world.calls,
      call.errnoOnReturn = 5 := by
  refine run_preserves (I := fun s : State => ∀ call ∈ s.world.calls,
    call.errnoOnReturn = 5)
    (fun i _ s hs => ?_) h
  cases i with
  | bind b => exact evalEff_calls s b.2 hs
  | assign lv e =>
      intro call hcall
      have hassign := assign_calls lv (evalEff (clobberingMachine c) fvar s e).1
        { s with world := (evalEff (clobberingMachine c) fvar s e).2 }
      have hmem : call ∈ (evalEff (clobberingMachine c) fvar s e).2.calls := hassign ▸ hcall
      exact evalEff_calls s e hs call hmem
  | result e => exact evalEff_calls s e hs
  | _ => exact hs

theorem not_stubFaithful {d : CFundef} (hd : EndsInPair d.body.steps)
    (hf : returnType fvar.fn ≠ .ty value) : ¬ StubFaithful (clobberingMachine c) fvar d := by
  intro h
  obtain ⟨call, v, hcalls, -, hresult⟩ := h [] (fun _ => .undefined) .empty
  have hzero := endsInPair_result hd hf _ hresult
  have hmem : call ∈ (runFundef (clobberingMachine c) fvar d [] (fun _ => .undefined)
      .empty).world.calls := by simp [hcalls]
  have hfive := run_calls d.body.steps (by simp [World.empty]) call hmem
  rw [hfive] at hzero
  revert hzero
  decide

end Clobbering

theorem cbuf_endsInPair {cname stubName : String} {f : Cbuf.Fn} {n n1 : Nat} {d : CFundef}
    {f' : Cbuf.GenerateC.NamedFn} {i : CEff}
    (hd : Cbuf.GenerateC.StubOf .returnErrno cname stubName f n d f' n1 i) :
    EndsInPair d.body.steps := by
  open Cbuf.GenerateC in
  have hsteps : d.body.steps = ((layout [] f' n1).binds.map .bind ++
      (resetSteps .returnErrno ++ [callStep (foreignFunction cname f) (layout [] f' n1).vars
        (layout [] f' n1).ret (layout [] f' n1).next,
        .bind ((freshName ((layout [] f' n1).next + 2), .ty value), i)])) ++
      [.result (pairWithErrno (valueLocal (freshName ((layout [] f' n1).next + 2))))] := by
    rw [hd.def_eq, CComp.steps_lets, callTail_steps]
    simp [returnSteps, Stubs.valueLocal]
  rw [hsteps]
  exact .result _ _

theorem cstubs_endsInPair {concurrency : Ctypes.NonLwt} {cname stubName : String}
    {f : Ctypes.Fn} {n n1 : Nat} {d : CFundef} {f' : Cstubs.GenerateC.NamedFn} {i : CEff}
    (hd : Cstubs.GenerateC.StubOf concurrency .returnErrno cname stubName f n d f' n1 i) :
    EndsInPair d.body.steps := by
  open Cstubs.GenerateC in
  obtain ⟨start, -, hsteps⟩ := Cstubs.stub_steps hd
  rw [hsteps]
  cases concurrency with
  | sequential =>
      rw [← List.append_assoc]
      exact .result _ _
  | unlocked =>
      generalize (projectParams f'.params n1).next = k
      generalize (projectParams f'.params n1).args = args
      have hsplit : (tailBinds .unlocked .returnErrno (foreignFunction cname f) args f'.ret i
            k).map Step.bind ++ (tailEnd .unlocked .returnErrno i k).steps =
          [.bind (voidBind (k + 6) releaseRuntimeSystem),
            .bind (callBind (foreignFunction cname f) args f'.ret k),
            .bind (voidBind (k + 2) acquireRuntimeSystem), .bind (valueBind (k + 4) i)] ++
          [.bind ((freshName (k + 5), .ty value), pairWithErrno (valueLocal (freshName (k + 4)))),
            .camlReturnT (.ty value) (valueLocal (freshName (k + 5)))] := rfl
      rw [hsplit, ← List.append_assoc]
      exact .camlReturn _ _ _

def someValue : Ctypes.Typ → CVal
  | .primitive p =>
      match floatKind p with
      | some k => .flt k 0
      | none => .int 0
  | .pointer _ | .funptr _ => .ptr (.addr 0)
  | .struct _ _ _ | .union _ _ _ => .image []
  | _ => .undefined

theorem someValue_hasCore {core : Ctypes.Typ} (h : Injectable core) :
    HasCore true core (someValue core) := by
  cases core with
  | void => trivial
  | primitive p =>
      cases p with
      | bool => exact ⟨rfl, .inl rfl⟩
      | float | double | ldouble | complex32 | complex64 | complexld =>
          exact Eq.refl (some _)
      | _ =>
          simp only [HasCore, HasPrim, someValue, floatKind, intFormat]
          exact IntFormat.inRange_zero _
  | pointer t | funptr t => exact ⟨_, rfl⟩
  | struct tag spec fields | union utag uspec ufields => exact ⟨_, rfl⟩
  | _ => exact h.elim

/-- A path reports the `errno` of its call, whatever may change `errno` in
between, exactly when it reads it at once. -/
theorem errno_faithful_iff {cname stubName : String} {path : CallPath}
    (h : path.Generated cname stubName) :
    (∀ m, path.Typed m → path.Faithful m cname stubName) ↔ path.ReadsAtOnce := by
  constructor
  · intro hall
    cases path with
    | cbuf f =>
        obtain ⟨⟨d, n2⟩, hd⟩ := h
        obtain ⟨hacc, f', n1, i, hstub⟩ := Cbuf.GenerateC.stub_eq_ok hd
        have hret := Cbuf.GenerateC.layout_ret_injectable [] f' n1 (hstub.spec_eq ▸ hacc)
        rw [Cbuf.GenerateC.layout_ret, hstub.spec_eq] at hret
        exact not_stubFaithful (cbuf_endsInPair hstub)
          (Cbuf.GenerateC.returnType_ne_value hacc)
          (hall (clobberingMachine _) (fun _ => someValue_hasCore hret) 0 d n2 hd)
    | cstubs concurrency f =>
        obtain ⟨⟨code, n2⟩, hcode⟩ := h
        rcases Cstubs.fn_eq_ok hcode with ⟨c, d, n1, -, hd, rfl⟩ | ⟨hjobs, -⟩
        · obtain ⟨hacc, f', n3, i, hstub⟩ := Cstubs.GenerateC.stub_eq_ok hd
          have hret := Cstubs.GenerateC.Accepted.ret (hstub.spec_eq ▸ hacc)
          rw [Cstubs.namedFn_ret, hstub.spec_eq] at hret
          have hfaithful := hall (clobberingMachine _) (fun _ => someValue_hasCore hret) 0 _ n2
            hcode d (by split <;> rfl)
          exact (not_stubFaithful (cstubs_endsInPair hstub)
            (Cstubs.GenerateC.returnType_ne_value hacc) hfaithful).elim
        · exact hjobs
    | libffi runtimeLock f => trivial
  · intro hpath m _
    cases path with
    | cbuf f => exact hpath.elim
    | cstubs concurrency f =>
        intro n code n' hcode
        rcases Cstubs.fn_eq_ok hcode with ⟨c, d, n1, hc, -⟩ | ⟨-, job, hjob, rfl⟩
        · obtain rfl : concurrency = .lwtJobs := hpath
          cases hc
        · exact fun args fields w w' => Cstubs.Lwt.job_errno hjob args fields w w'
    | libffi runtimeLock f =>
        exact fun args w => CtypesForeign.ctypesCall_errno m rfl _ args w

/-- A job of Lwt. -/
theorem errno_faithful_job :
    let path : CallPath := .cstubs .lwtJobs (.function (.primitive .int) (.returns .void))
    path.Generated "f" "stub_1_f" ∧
      ∀ m, path.Typed m → path.Faithful m "f" "stub_1_f" := by
  intro path
  have h : path.Generated "f" "stub_1_f" := ⟨_, rfl⟩
  exact ⟨h, (errno_faithful_iff h).mpr rfl⟩

/-- The sequential stub of a function without results returns 0 where the
function left 5. -/
theorem sequential_not_faithful :
    let f : Ctypes.Fn := .returns .void
    let path : CallPath := .cstubs .sequential f
    path.Generated "f" "stub_1_f" ∧ path.Typed (clobberingMachine .undefined) ∧
      ¬ path.Faithful (clobberingMachine .undefined) "f" "stub_1_f" := by
  intro f path
  refine ⟨⟨_, rfl⟩, fun _ => trivial, fun h => ?_⟩
  obtain ⟨call, v, hcalls, -, hresult⟩ := h 0 _ _ rfl _ rfl [] (fun _ => .undefined) .empty
  have hcall : call = ⟨"f", [], 0, 5⟩ := (List.singleton_inj.mp hcalls).symm
  subst hcall
  have hpair : some (CVal.value (.pair .unit (.boxed .int32 0))) =
      some (.value (.pair v (.boxed .int32 (IntFormat.i32.wrap 5)))) := hresult
  simp only [Option.some.injEq, CVal.value.injEq, Value.pair.injEq, Value.boxed.injEq] at hpair
  exact absurd hpair.2.2 (by decide)

end CtypesCbuf
