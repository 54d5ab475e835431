import CtypesCbuf.ErrnoPaths
import CtypesCbuf.Cbuf.WholeCalls
import CtypesCbuf.Cstubs.Execution

/-!
Running a job of Lwt. The stub fills the members of the job, the worker makes
the call from them, and `result_` makes the value; in between, other threads
run.
-/

namespace CtypesCbuf.Cstubs.Lwt

open NameSupply Supply StraightLine
open Ctypes CLanguage Stubs
open Cbuf.GenerateC (DrawnBefore receivedArgs resetErrno withErrno CallsOnce)
open CtypesCbuf.Runtime

/-! ### Members of a job -/

def memberTyp : Fields → String → Option Typ
  | .nil, _ => none
  | .cons ftype _ fname rest, x => if fname = x then some ftype else memberTyp rest x

def structureMember : Typ → String → Option Typ
  | .struct _ _ fields, x => memberTyp fields x
  | _, _ => none

/-- An assignment converts to the type of the member. -/
def setMember (m : Machine) (structure_ : Typ) (fields : String → CVal) (x : String) (c : CVal) :
    String → CVal := fun y =>
  if y = x then
    match structureMember structure_ x with
    | some t => convertTyp m t c
    | none => .undefined
  else fields y

def fillMembers (m : Machine) (fvar : CFunction) (structure_ : Typ) (s : State) :
    List (String × CEff) → (String → CVal) → String → CVal
  | [], fields => fields
  | (x, e) :: rest, fields =>
      fillMembers m fvar structure_ s rest
        (setMember m structure_ fields x (evalEff m fvar s e).1)

/-- What the stub leaves in the job. It allocates the job last. -/
def startJob (m : Machine) (fvar : CFunction) (job : Job) (vs : List CVal) (w : World) :
    (String → CVal) × World :=
  let fields : String → CVal := fun _ => .undefined
  let s : State :=
    { env := paramEnv (job.stub.params.map fun x => (x, .ty value)) vs, fields, world := w
      result := none }
  let fields :=
    if job.stub.resetsErrorStatus then setMember m job.structure_ fields "error_status" (.int 0)
    else fields
  (fillMembers m fvar job.structure_ s job.stub.fields fields, w.clobber m)

/-- What happens between the parts of a job. Other threads may change `errno`
and allocate, but the calls that are logged are those of this job. -/
structure Others where
  run : World → World
  calls : ∀ w, (run w).calls = w.calls
  created : ∀ w, (run w).created = w.created

/-- The value that `rv` holds: a tuple if it was allocated. -/
def resultValue : List CVal → Value
  | [c] => c.toValue
  | [c, d] => .pair c.toValue d.toValue
  | _ => .unit

/-- The three parts of a job, with other threads before the second and the
third. -/
def runJob (m : Machine) (before after : Others) (fvar : CFunction) (job : Job)
    (vs : List CVal) (w : World) : Value × World :=
  let started := startJob m fvar job vs w
  let s := runFundef m fvar job.worker [] started.1 (before.run started.2)
  let r := runResult m fvar s.fields job.result (after.run s.world)
  (resultValue r.rv, r.world)

/-! ### The stub -/

section Start

variable {m : Machine} {fvar : CFunction}

theorem setMember_self {structure_ : Typ} {x : String} {t : Typ}
    (h : structureMember structure_ x = some t) (fields : String → CVal) (c : CVal) :
    setMember m structure_ fields x c x = convertTyp m t c := by
  rw [setMember, if_pos rfl, h]

theorem setMember_of_ne {structure_ : Typ} {x y : String} (h : y ≠ x)
    (fields : String → CVal) (c : CVal) :
    setMember m structure_ fields x c y = fields y := if_neg h

theorem fillMembers_of_not_mem {structure_ : Typ} {s : State} {fs : List (String × CEff)}
    {y : String} (h : y ∉ fs.map fun p => p.1) (fields : String → CVal) :
    fillMembers m fvar structure_ s fs fields y = fields y := by
  induction fs generalizing fields with
  | nil => rfl
  | cons p fs ih =>
      rw [List.map_cons, List.mem_cons, not_or] at h
      exact (ih h.2 _).trans (setMember_of_ne h.1 fields _)

/-- Each member holds what was assigned to it. -/
theorem fillMembers_of_mem {structure_ : Typ} {s : State} {fs : List (String × CEff)}
    (hnames : (fs.map fun p => p.1).Nodup) {x : String} {e : CEff} (h : (x, e) ∈ fs) {t : Typ}
    (ht : structureMember structure_ x = some t) (fields : String → CVal) :
    fillMembers m fvar structure_ s fs fields x = convertTyp m t (evalEff m fvar s e).1 := by
  induction fs generalizing fields with
  | nil => cases h
  | cons p fs ih =>
      rw [List.map_cons, List.nodup_cons] at hnames
      rcases List.mem_cons.mp h with rfl | h
      · exact (fillMembers_of_not_mem hnames.1 _).trans (setMember_self ht fields _)
      · exact ih hnames.2 h _

/-- What a member holds for a parameter `v`. No local stands between the reader
and the member. -/
def stored (m : Machine) (core : Typ) (v : CVal) : CVal :=
  match core with
  | .primitive p => convert m p (library m (primPrj p).fname [v])
  | core => received m core v

theorem prj_eval {x : String} {t : Typ} {e : CEff} (h : prj (valueLocal x) t = .ok e)
    (hf : fvar.readsOcamlHeap = false) (s : State) :
    t.core ≠ .void ∧ convertTyp m t (evalEff m fvar s e).1 = stored m t.core (s.env x) := by
  induction t using Typ.core.induct with
  | case1 w ty ih =>
      rw [Typ.core_view, convertTyp]
      exact ih h
  | case2 t hview =>
      cases t with
      | view w ty => exact absurd rfl (hview w ty)
      | primitive p =>
          cases h
          refine ⟨(fun h => by cases h), ?_⟩
          rw [evalEff_reader hf ⟨primPrj_allocates p, primPrj_readsOcamlHeap p⟩]
          rfl
      | pointer u =>
          cases h
          refine ⟨(fun h => by cases h), ?_⟩
          rw [ofFatptr, evalEff_reader hf ⟨rfl, rfl⟩]
          rfl
      | funptr fn =>
          cases h
          refine ⟨(fun h => by cases h), ?_⟩
          rw [ofFatptr, evalEff_reader hf ⟨rfl, rfl⟩]
          rfl
      | _ => cases h

end Start

/-! ### The structure of a job -/

/-- The names and types of members, in the order of the list. -/
def members : Fields → List (String × Typ)
  | .nil => []
  | .cons ftype _ fname rest => (fname, ftype) :: members rest

theorem members_append (fs gs : Fields) : members (fs.append gs) = members fs ++ members gs := by
  induction fs using members.induct with
  | case1 => rfl
  | case2 ftype off fname rest ih => exact congrArg (_ :: ·) ih

theorem members_rev (fs : Fields) : members fs.rev = (members fs).reverse := by
  induction fs using members.induct with
  | case1 => rfl
  | case2 ftype off fname rest ih =>
      rw [Fields.rev, members_append, ih]
      exact (List.reverse_cons ..).symm

theorem memberTyp_of_mem {fs : Fields} (hnames : ((members fs).map fun p => p.1).Nodup)
    {x : String} {t : Typ} (h : (x, t) ∈ members fs) : memberTyp fs x = some t := by
  induction fs using members.induct with
  | case1 => cases h
  | case2 ftype off fname rest ih =>
      rw [members, List.map_cons, List.nodup_cons] at hnames
      rw [memberTyp]
      rcases List.mem_cons.mp h with heq | h
      · cases heq
        exact if_pos rfl
      · have hne : fname ≠ x := by
          rintro rfl
          exact hnames.1 (List.mem_map.mpr ⟨_, h, rfl⟩)
        rw [if_neg hne]
        exact ih hnames.2 h

/-- A structure under construction, with these members from the last on. -/
def Building (ms : List (String × Typ)) (t : Typ) : Prop :=
  ∃ tag k fs, t = .struct tag (.incomplete k) fs ∧ members fs = ms

theorem Building.field {ms : List (String × Typ)} {s s' : Typ} (hs : Building ms s)
    {label : String} {ftype : Typ} (h : Ctypes.field label ftype s = .ok s') :
    Building ((label, ftype) :: ms) s' := by
  obtain ⟨tag, k, fs, rfl, rfl⟩ := hs
  rw [Ctypes.field] at h
  obtain ⟨a, -, h⟩ := except_bind_eq_ok h
  obtain ⟨off, -, h⟩ := except_bind_eq_ok h
  obtain ⟨size, -, h⟩ := except_bind_eq_ok h
  cases h
  exact ⟨tag, _, _, rfl, rfl⟩

theorem Building.fields {as : List Arg} {ms : List (String × Typ)} {s s' : Typ}
    (hs : Building ms s)
    (h : as.foldlM (fun s arg => Ctypes.field arg.2 arg.1 s) s = .ok s') :
    Building ((as.map Prod.swap).reverse ++ ms) s' := by
  induction as generalizing ms s with
  | nil =>
      cases h
      exact hs
  | cons a as ih =>
      rw [List.foldlM_cons] at h
      obtain ⟨s1, hs1, h⟩ := except_bind_eq_ok h
      rw [List.map_cons, List.reverse_cons, List.append_assoc]
      exact ih (hs.field hs1) h

theorem Building.seal_ {ms : List (String × Typ)} {s s' : Typ} (hs : Building ms s)
    (h : sealTyp s = .ok s') :
    ∃ tag spec fs, s' = .struct tag spec fs ∧ members fs = ms.reverse := by
  obtain ⟨tag, k, fs, rfl, rfl⟩ := hs
  cases fs with
  | nil => cases h
  | cons ftype off fname rest =>
      rw [sealTyp] at h
      · obtain ⟨a, -, h⟩ := except_bind_eq_ok h
        obtain ⟨size, -, h⟩ := except_bind_eq_ok h
        cases h
        exact ⟨tag, _, _, rfl, members_rev _⟩
      · simp

def resultMember (r : Typ) : Typ := if r = .void then int else r

/-- The members that a job has besides its arguments. -/
def ownMembers (errno_ : ErrnoPolicy) (r : Typ) : List (String × Typ) :=
  [("job", lwtUnixJob), ("result", resultMember r)] ++
    match errno_ with
    | .ignoreErrno => []
    | .returnErrno => [("error_status", sint)]

theorem jobStructure_members {errno_ : ErrnoPolicy} {stubName : String} {as : List Arg} {r s : Typ}
    (h : jobStructure errno_ stubName as r = .ok s) :
    ∃ tag spec fs, s = .struct tag spec fs ∧
      members fs = ownMembers errno_ r ++ as.map Prod.swap := by
  have h0 : Building [] (structureType stubName) := ⟨_, _, _, rfl, rfl⟩
  rw [jobStructure] at h
  obtain ⟨s1, hs1, h⟩ := except_bind_eq_ok h
  have h1 := h0.field hs1
  let rest : Typ → Except Exn Typ := fun s =>
    as.foldlM (fun s arg => Ctypes.field arg.2 arg.1 s) s >>= sealTyp
  have hresult : ∃ s2, Ctypes.field "result" (resultMember r) s1 = .ok s2 ∧
      (match errno_ with
        | .ignoreErrno => pure s2 >>= rest
        | .returnErrno => Ctypes.field "error_status" sint s2 >>= rest) = .ok s := by
    cases r <;> exact except_bind_eq_ok h
  obtain ⟨s2, hs2, h⟩ := hresult
  have h2 := h1.field hs2
  have h3 : ∃ s3, Building (ownMembers errno_ r).reverse s3 ∧ rest s3 = .ok s := by
    cases errno_ with
    | ignoreErrno => exact ⟨s2, h2, h⟩
    | returnErrno =>
        obtain ⟨s3, hs3, h⟩ := except_bind_eq_ok h
        exact ⟨s3, h2.field hs3, h⟩
  obtain ⟨s3, hs3, h⟩ := h3
  obtain ⟨s4, hs4, h⟩ := except_bind_eq_ok h
  obtain ⟨tag, spec, fs, rfl, hfs⟩ := (hs3.fields hs4).seal_ h
  refine ⟨tag, spec, fs, rfl, ?_⟩
  rw [hfs, List.reverse_append, List.reverse_reverse, List.reverse_reverse]

theorem argName_inj {i j : Nat} : argName i = argName j ↔ i = j := by
  constructor
  · intro h
    apply repr_inj.mp
    have hlist := congrArg String.toList h
    rw [argName, argName, String.toList_append, String.toList_append,
      List.append_cancel_left_eq] at hlist
    exact String.toList_inj.mp hlist
  · rintro rfl
    rfl

/-- The names of the arguments of a job are numbered. -/
theorem argsAndResultFrom_names (n : Nat) (f : Fn) (acc : List Arg) :
    ∃ k, (argsAndResultFrom n f acc).1.map (fun a => a.2) =
      acc.reverse.map (fun a => a.2) ++ (List.range' (n + 1) k).map argName := by
  induction n, f, acc using argsAndResultFrom.induct with
  | case1 n f acc ih => exact ih
  | case2 n t f acc ht ih =>
      obtain ⟨k, hk⟩ := ih
      refine ⟨k + 1, ?_⟩
      rw [argsAndResultFrom, hk, List.range'_succ]
      · simp
      · exact ht
  | case3 n t acc => exact ⟨0, by simp [argsAndResultFrom]⟩

theorem fnArgsAndResult_names (f : Fn) :
    ∃ k, (fnArgsAndResult f).1.map (fun a => a.2) = (List.range' 1 k).map argName :=
  argsAndResultFrom_names 0 f []

theorem fnArgsAndResult_nodup (f : Fn) : ((fnArgsAndResult f).1.map fun a => a.2).Nodup := by
  obtain ⟨k, hk⟩ := fnArgsAndResult_names f
  rw [hk]
  exact List.Nodup.map (fun _ _ h => argName_inj.mp h) (List.nodup_range' ..)

/-- No argument is taken for a member that the job has anyway. -/
theorem argName_not_own (errno_ : ErrnoPolicy) (r : Typ) (i : Nat) :
    argName i ∉ (ownMembers errno_ r).map fun p => p.1 := by
  have hhead : (argName i).toList.head? = some 'a' := by
    rw [argName, String.toList_append]
    rfl
  intro h
  have hown : ∀ x ∈ (ownMembers errno_ r).map fun p => p.1, x.toList.head? ≠ some 'a' := by
    cases errno_ <;> simp [ownMembers]
  exact hown _ h hhead

/-- Every member of a job can be told by its name. -/
theorem members_nodup (errno_ : ErrnoPolicy) (f : Fn) (r : Typ) :
    ((ownMembers errno_ r ++ (fnArgsAndResult f).1.map Prod.swap).map fun p => p.1).Nodup := by
  have hswap : ((fnArgsAndResult f).1.map Prod.swap).map (fun p => p.1) =
      (fnArgsAndResult f).1.map fun a => a.2 := by
    rw [List.map_map]
    rfl
  rw [List.map_append, hswap]
  apply List.nodup_append.mpr
  refine ⟨?_, fnArgsAndResult_nodup f, ?_⟩
  · cases errno_ <;> simp [ownMembers]
  · intro x hx y hy hxy
    obtain ⟨k, hk⟩ := fnArgsAndResult_names f
    rw [hk] at hy
    obtain ⟨i, -, rfl⟩ := List.mem_map.mp hy
    exact argName_not_own errno_ r i (hxy ▸ hx)

/-! ### The worker -/

def finished (errno_ : ErrnoPolicy) (r : Typ) (c : CVal) (e : Int) (fields : String → CVal) :
    String → CVal :=
  let fields := if r = .void then fields else fun y => if y = "result" then c else fields y
  match errno_ with
  | .ignoreErrno => fields
  | .returnErrno => fun y => if y = "error_status" then .int e else fields y

theorem finished_result {r : Typ} (hr : r ≠ .void) (errno_ : ErrnoPolicy) (c : CVal) (e : Int)
    (fields : String → CVal) : finished errno_ r c e fields "result" = c := by
  cases errno_ <;> simp [finished, hr]

theorem finished_errorStatus (r : Typ) (c : CVal) (e : Int) (fields : String → CVal) :
    finished .returnErrno r c e fields "error_status" = .int e := by
  simp [finished]

section Worker

variable {m : Machine} {fn' : CFunction} {j : CLocal} {r : Typ} {errno_ : ErrnoPolicy}

/-- A worker calls the C function on the members, in order. -/
theorem workerBody_finished {es : List CExp} {as : List Arg} {n n' : Nat} {c : CComp}
    (h : workerBody errno_ fn' j r es as n = .ok (c, n')) (hes : DrawnBefore n es) (s : State) :
    let cargs := es.reverse.map (evalExp m s.env) ++
      as.map fun a => convertTyp m a.1 (s.fields a.2)
    let called := callForeign m fn' cargs (resetErrno errno_ s.world)
    ∃ env res, run (exec m fn') c.steps s =
      { env, fields := finished errno_ r called.1 called.2.errno s.fields, world := called.2
        result := res } := by
  induction as generalizing es n s c with
  | nil =>
      intro cargs called
      have hcargs : cargs = es.reverse.map (evalExp m s.env) := List.append_nil _
      by_cases hr : r = .void
      · subst hr
        cases errno_ <;> cases h <;>
          simp [CComp.steps, exec, assign, evalEff, evalExp, errno, called, callForeign,
            hcargs, resetErrno, finished]
      · cases errno_ <;> rw [workerBody, workerCall_of_ne_void hr] at h <;> cases h <;>
          simp [CComp.steps, exec, assign, evalEff, evalExp, errno, called, callForeign,
            hcargs, resetErrno, finished, hr]
  | cons a as ih =>
      obtain ⟨ty, x⟩ := a
      intro cargs called
      rw [workerBody, letBind_eff (by simp), letsAround_eq_ok] at h
      obtain ⟨d, hd, rfl⟩ := h
      have hdrawn : DrawnBefore (n + 1) (.clocal (freshName (n + 1), .ty ty) :: es) := by
        intro e he l hl
        rcases List.mem_cons.mp he with rfl | he
        · obtain rfl := List.mem_singleton.mp hl
          exact ⟨n + 1, by omega, Nat.le_refl _, rfl⟩
        · exact (hes e he l hl).mono (Nat.le_refl 0) (Nat.le_succ n)
      let s1 : State := { s with
        env := bindLocal s.env (freshName (n + 1)) (convertTyp m ty (s.fields x)) }
      obtain ⟨env, res, hrun⟩ := ih hd hdrawn s1
      -- the member joins the arguments that are read already
      have hargs : (CExp.clocal (freshName (n + 1), .ty ty) :: es).reverse.map
            (evalExp m s1.env) ++ as.map (fun a => convertTyp m a.1 (s1.fields a.2)) = cargs := by
        have hold := GenerateC.evalExps_bindLocal (m := m) hes (Nat.lt_succ_self n) s.env
          (convertTyp m ty (s.fields x))
        have hnew : evalExp m s1.env (.clocal (freshName (n + 1), .ty ty)) =
            convertTyp m ty (s.fields x) := bindLocal_self _ _ _
        simp only [cargs, List.reverse_cons, List.map_append, List.map_reverse, List.map_cons,
          List.map_nil, hnew, List.append_assoc, List.singleton_append]
        rw [← hold]
      rw [hargs] at hrun
      exact ⟨env, res, hrun⟩

/-- A run of the worker of a job. -/
theorem worker_run {cname stubName : String} {f : Fn} {as : List Arg} {n n' : Nat}
    {d : CFundef} (h : worker errno_ cname stubName f r as n = .ok (d, n'))
    (vs : List CVal) (fields : String → CVal) (w : World) :
    let fvar := GenerateC.foreignFunction cname f
    let called := callForeign m fvar (as.map fun a => convertTyp m a.1 (fields a.2))
      (resetErrno errno_ w)
    ∃ env res, runFundef m fvar d vs fields w =
      { env, fields := finished errno_ r called.1 called.2.errno fields, world := called.2
        result := res } := by
  intro fvar called
  obtain ⟨c, n1, hc, h⟩ := bind_eq_ok.mp h
  cases h
  exact workerBody_finished hc (fun e he => absurd he List.not_mem_nil) _

end Worker

/-! ### The result -/

section Result

variable {m : Machine} {fvar : CFunction} {r : Typ} {errno_ : ErrnoPolicy}

def resultBody (errno_ : ErrnoPolicy) (i : CEff) : List ResultStmt :=
  match errno_ with
  | .ignoreErrno => [.setRv i]
  | .returnErrno => [.allocTuple 2, .storeErrorStatus 1, .storeField 0 i]

theorem result_eq_ok {stmts : List ResultStmt} (h : result errno_ r = .ok stmts) :
    ∃ i, Injection (resultLocal r) r.core i ∧
      stmts = [.camlParam0, .camlLocal1] ++ resultBody errno_ i ++ [.freeJob, .camlReturn] := by
  have hi : ∃ i, Injection (resultLocal r) r.core i ∧
      .ok stmts = (Except.ok ([.camlParam0, .camlLocal1] ++ resultBody errno_ i ++
        [.freeJob, .camlReturn]) : Except Exn (List ResultStmt)) := by
    by_cases hr : r = .void
    · subst hr
      exact ⟨valUnit, .void, h.symm⟩
    · have hmatch : result errno_ r = (inj (resultLocal r) r >>= fun i =>
          pure ([.camlParam0, .camlLocal1] ++ resultBody errno_ i ++ [.freeJob, .camlReturn])) := by
        cases r <;> first | exact absurd rfl hr | rfl
      rw [hmatch] at h
      obtain ⟨i, hi, h⟩ := except_bind_eq_ok h
      exact ⟨i, inj_injection hi, h.symm⟩
  obtain ⟨i, hi, h⟩ := hi
  exact ⟨i, hi, Except.ok.inj h⟩

/-- The value that `result_` makes, where the job is finished. -/
theorem result_value {stmts : List ResultStmt} (h : result errno_ r = .ok stmts)
    (hf : returnType fvar.fn ≠ .ty value) {c : CVal} {u : Value} {e : Int}
    (hu : injected m r.core c = .value u) (fields : String → CVal) (w : World) :
    (∃ k, IntFormat.i32.InRange k ∧ resultValue (runResult m fvar
        (finished errno_ r c e fields) stmts w).rv = withErrno errno_ u k) ∧
      (runResult m fvar (finished errno_ r c e fields) stmts w).world.calls = w.calls ∧
      (runResult m fvar (finished errno_ r c e fields) stmts w).world.created = w.created := by
  obtain ⟨i, hi, rfl⟩ := result_eq_ok h
  have heval : ∀ w, execResult.eval m fvar (finished errno_ r c e fields) i w =
      (.value u, if injectionAllocates r.core then w.clobber m else w) := by
    intro w
    rw [execResult.eval, hi.eval hf, ← hu]
    by_cases hr : r = .void
    · subst hr
      rfl
    · dsimp only
      rw [finished_result hr]
  have hsame : ∀ w : World, (if injectionAllocates r.core then w.clobber m else w).calls = w.calls ∧
      (if injectionAllocates r.core then w.clobber m else w).created = w.created := by
    intro w
    split <;> exact ⟨rfl, rfl⟩
  cases errno_ with
  | ignoreErrno =>
      simp only [runResult, resultBody, List.cons_append, List.nil_append, run_cons, run_nil,
        execResult, heval]
      exact ⟨⟨0, by decide, rfl⟩, hsame w⟩
  | returnErrno =>
      have hcopy : library m "ctypes_copy_sint" [.int e] =
          .value (.boxed .int32 (IntFormat.i32.wrap e)) := rfl
      simp only [runResult, resultBody, List.cons_append, List.nil_append, run_cons, run_nil,
        execResult, heval, finished_errorStatus, hcopy]
      exact ⟨⟨_, IntFormat.wrap_inRange .i32 e, rfl⟩, hsame _⟩

end Result

/-! ### Whole jobs -/

section Job

variable {m : Machine} {errno_ : ErrnoPolicy} {cname stubName : String} {f : Fn} {n n2 : Nat}
  {job : Job}

theorem convert_convert (p : Prim) (c : CVal) :
    convert m p (convert m p c) = convert m p c := by
  cases c with
  | int i =>
      by_cases hbool : p = .bool
      · subst hbool
        by_cases hi : i = 0 <;> simp [convert, hi]
      · cases hf : intFormat m.charSigned p with
        | some fmt => rw [convert_int hf, convert_wrap hf (Nat.le_refl _)]
        | none => cases p <;> first | exact absurd rfl hbool | rfl | cases hf
  | flt k bits =>
      cases hk : floatKind p with
      | some k' => simp [convert, hk]
      | none => simp [convert, hk]
  | _ => rfl

/-- A member is read at its own type. -/
theorem convertTyp_stored (t : Typ) (v : CVal) :
    convertTyp m t (stored m t.core v) = stored m t.core v := by
  rw [← convertTyp_core]
  cases ht : t.core with
  | view w ty => exact absurd ht (Typ.core_ne_view t w ty)
  | primitive p => exact convert_convert p _
  | _ => rfl

theorem argsAndResultFrom_result (n : Nat) (f : Fn) (acc : List Arg) :
    (argsAndResultFrom n f acc).2 = resultTyp f := by
  induction n, f, acc using argsAndResultFrom.induct with
  | case1 n f acc ih => exact ih
  | case2 n t f acc ht ih =>
      rw [argsAndResultFrom, ih]
      · rfl
      · exact ht
  | case3 n t acc => rfl

/-- What is known of a generated job. -/
structure JobOf (errno_ : ErrnoPolicy) (cname stubName : String) (f : Fn) (job : Job) : Prop where
  structure_ : jobStructure errno_ stubName (fnArgsAndResult f).1 (resultTyp f) =
    .ok job.structure_
  worker : ∃ k k', Lwt.worker errno_ cname stubName f (resultTyp f) (fnArgsAndResult f).1 k =
    .ok (job.worker, k')
  result : Lwt.result errno_ (resultTyp f) = .ok job.result
  stub : Lwt.stub errno_ stubName (fnArgsAndResult f).1 = .ok job.stub

theorem fn_jobOf (h : fn errno_ cname stubName f n = .ok (job, n2)) :
    JobOf errno_ cname stubName f job := by
  have hresult : (fnArgsAndResult f).2 = resultTyp f := argsAndResultFrom_result 0 f []
  rw [fn] at h
  dsimp only at h
  rw [hresult] at h
  obtain ⟨s, n3, hs, h⟩ := bind_eq_ok.mp h
  obtain ⟨w, n4, hw, h⟩ := bind_eq_ok.mp h
  obtain ⟨rv, n5, hrv, h⟩ := bind_eq_ok.mp h
  obtain ⟨t, n6, ht, h⟩ := bind_eq_ok.mp h
  cases h
  exact ⟨(lift_eq_ok.mp hs).1, ⟨_, _, hw⟩, (lift_eq_ok.mp hrv).1, (lift_eq_ok.mp ht).1⟩

/-- The stub assigns to one member for each argument. -/
theorem stub_names {as : List Arg} {s : JobStub} (h : stub errno_ stubName as = .ok s) :
    s.fields.map (fun p => p.1) = as.map fun a => a.2 := by
  obtain ⟨fields, hfields, h⟩ := except_bind_eq_ok h
  cases h
  show fields.map _ = _
  clear * - hfields
  induction as generalizing fields with
  | nil =>
      cases hfields
      rfl
  | cons a as ih =>
      rw [List.mapM_cons] at hfields
      obtain ⟨p, hp, hfields⟩ := except_bind_eq_ok hfields
      obtain ⟨e, -, hp⟩ := except_bind_eq_ok hp
      obtain ⟨rest, hrest, hfields⟩ := except_bind_eq_ok hfields
      cases hp
      cases hfields
      exact congrArg (a.2 :: ·) (ih rest hrest)

/-- The members for the arguments, when the stub returns. -/
theorem startJob_members (m : Machine) (fvar : CFunction)
    (hj : JobOf errno_ cname stubName f job) (hf : fvar.readsOcamlHeap = false) {vs : List CVal}
    (hvs : vs.length = (fnArgsAndResult f).1.length) (w : World) :
    (fnArgsAndResult f).1.map (fun a => convertTyp m a.1 ((startJob m fvar job vs w).1 a.2)) =
      List.zipWith (fun t v => stored m t.core v) ((fnArgsAndResult f).1.map fun a => a.1) vs := by
  obtain ⟨tag, spec, fs, hstructure, hmembers⟩ := jobStructure_members hj.structure_
  obtain ⟨-, hparams, hfields⟩ := jobStub_eq_ok hj.stub
  have hnames := stub_names hj.stub
  have hnodup := members_nodup errno_ f (resultTyp f)
  rw [← hmembers] at hnodup
  let params : List (String × Ty) := job.stub.params.map fun x => (x, .ty value)
  have hfst : params.map (fun p => p.1) = (fnArgsAndResult f).1.map fun a => a.2 := by
    rw [List.map_map, hparams]
    exact List.map_id _
  have hheld : (fnArgsAndResult f).1.map (fun a => paramEnv params vs a.2) = vs := by
    have hlength : params.length = vs.length := by
      rw [hvs, List.length_map, hparams, List.length_map]
    have hmap := map_paramEnv (hfst ▸ fnArgsAndResult_nodup f) hlength
    rw [hfst, List.map_map] at hmap
    exact hmap
  have hmember : ∀ a ∈ (fnArgsAndResult f).1,
      convertTyp m a.1 ((startJob m fvar job vs w).1 a.2) =
        stored m a.1.core (paramEnv params vs a.2) := by
    intro a ha
    obtain ⟨e, he, hmem⟩ := hfields a ha
    have htyp : structureMember job.structure_ a.2 = some a.1 := by
      rw [hstructure]
      apply memberTyp_of_mem hnodup
      rw [hmembers]
      exact List.mem_append_right _ (List.mem_map.mpr ⟨a, ha, rfl⟩)
    rw [startJob]
    dsimp only
    rw [fillMembers_of_mem (hnames ▸ fnArgsAndResult_nodup f) hmem htyp, (prj_eval he hf _).2]
    exact convertTyp_stored a.1 _
  conv_rhs => rw [← hheld]
  rw [List.map_congr_left hmember, List.zipWith_map_left, List.zipWith_map_right,
    List.zipWith_self]

/-- A job calls the C function once, on what its stub stored, and makes the
value of the result. Other threads do not matter. -/
theorem job_callsOnce (hj : JobOf errno_ cname stubName f job) (hvoid : .void ∉ args f)
    {vs : List CVal} {u : Value} (hvs : vs.length = (args f).length)
    (hu : injected m (resultTyp f).core
      (m.foreign (List.zipWith (fun t v => stored m t.core v) (args f) vs)) = .value u)
    (before after : Others) (w : World) :
    let cargs := List.zipWith (fun t v => stored m t.core v) (args f) vs
    let r := runJob m before after (GenerateC.foreignFunction cname f) job vs w
    (∃ e e', r.2.calls = w.calls ++ [⟨cname, cargs, e, e'⟩]) ∧
      (∃ k, IntFormat.i32.InRange k ∧ r.1 = withErrno errno_ u k) ∧
      r.2.created = w.created := by
  intro cargs r
  have htypes : (fnArgsAndResult f).1.map (fun a => a.1) = args f := by
    rw [fnArgsAndResult_types, List.filter_eq_self]
    intro t ht
    rw [decide_eq_true_eq]
    rintro rfl
    exact hvoid ht
  have hlen : vs.length = (fnArgsAndResult f).1.length := by
    rw [hvs, ← htypes, List.length_map]
  have hvalue : returnType (GenerateC.foreignFunction cname f).fn ≠ .ty value := by
    intro h
    rw [GenerateC.foreignFunction, returnType_ofCtypes] at h
    obtain ⟨i, hi, -⟩ := result_eq_ok hj.result
    rw [Ty.ty.inj h] at hi
    cases hi
  obtain ⟨k0, k1, hworker⟩ := hj.worker
  let started := startJob m (GenerateC.foreignFunction cname f) job vs w
  have hmembers := startJob_members m (GenerateC.foreignFunction cname f) hj rfl
    hlen w
  rw [htypes] at hmembers
  obtain ⟨env, res, hrun⟩ := worker_run (m := m) hworker [] started.1 (before.run started.2)
  rw [hmembers] at hrun
  let called := callForeign m (GenerateC.foreignFunction cname f) cargs
    (resetErrno errno_ (before.run started.2))
  obtain ⟨hresult, hcalls, hcreated⟩ := result_value (m := m) (e := called.2.errno) hj.result
    hvalue hu started.1 (after.run called.2)
  have hr : r = _ := congrArg (fun s : State =>
    let q := runResult m (GenerateC.foreignFunction cname f) s.fields job.result
      (after.run s.world)
    (resultValue q.rv, q.world)) hrun
  rw [hr]
  have hlog : called.2.calls = w.calls ++ [⟨cname, cargs,
      (resetErrno errno_ (before.run started.2)).errno,
      m.foreignErrno cargs (resetErrno errno_ (before.run started.2)).errno⟩] := by
    show (resetErrno errno_ (before.run started.2)).calls ++ _ = _
    rw [Cbuf.GenerateC.resetErrno_calls, before.calls]
    rfl
  have hsame : called.2.created = w.created := by
    show (resetErrno errno_ (before.run started.2)).created = _
    rw [Cbuf.GenerateC.resetErrno_created, before.created]
    rfl
  refine ⟨⟨_, _, hcalls.trans ((after.calls called.2).trans hlog)⟩, hresult, ?_⟩
  exact hcreated.trans ((after.created called.2).trans hsame)

end Job

end CtypesCbuf.Cstubs.Lwt
