import CtypesCbuf.Cstubs.GenerateC

/-!
What `Generate_C.fn` of `Cstubs_generate_c` accepts and builds: the lets of
the parameters around the call, and after it what the two policies ask for.
-/

namespace CtypesCbuf.Cstubs.GenerateC

open NameSupply Supply
open Ctypes CLanguage Stubs

/-! ### Named parameters -/

def NamedFn.spec : NamedFn → Fn
  | .returns t => .returns t
  | .function _ f t => .function f t.spec

def NamedFn.params : NamedFn → List (String × Typ)
  | .returns _ => []
  | .function x f t => (x, f) :: t.params

def NamedFn.ret : NamedFn → Typ
  | .returns t => t
  | .function _ _ t => t.ret

theorem nameParams_ok (f : Fn) (n : Nat) :
    ∃ f' n', nameParams f n = .ok (f', n') ∧ f'.spec = f ∧
      FreshNames n n' (f'.params.map fun p => p.1) := by
  induction f using nameParams.induct generalizing n with
  | case1 t => exact ⟨_, _, rfl, rfl, FreshNames.nil n⟩
  | case2 f t ih =>
      obtain ⟨t', n1, ht, hts, htn⟩ := ih n
      refine ⟨.function (freshName (n1 + 1)) f t', n1 + 1, ?_, ?_,
        (FreshNames.single _ (by omega) (by omega)).append' htn⟩
      · rw [nameParams, bind_of_ok ht]
        rfl
      · rw [NamedFn.spec, hts]

theorem valueParams_eq (f : NamedFn) :
    valueParams f = f.params.map fun p => (p.1, .ty value) := by
  induction f with
  | returns t => rfl
  | function x f t ih => rw [valueParams, ih, NamedFn.params, List.map_cons]

/-! ### Accepted specifications -/

def Accepted : Fn → Prop
  | .returns t => Injectable t.core
  | .function f t => Passed f ∧ Accepted t

theorem Accepted.params {f : NamedFn} (h : Accepted f.spec) :
    ∀ p ∈ f.params, Passed p.2 := by
  induction f with
  | returns t => simp [NamedFn.params]
  | function x f t ih =>
      intro p hp
      rcases List.mem_cons.mp hp with rfl | hp
      · exact h.1
      · exact ih h.2 p hp

theorem Accepted.ret {f : NamedFn} (h : Accepted f.spec) : Injectable f.ret.core := by
  induction f with
  | returns t => exact h
  | function x f t ih => exact ih h.2

/-- The C function does not return an OCaml value. -/
theorem returnType_ne_value {f : Fn} (h : Accepted f) :
    returnType (Cbuf.Fn.ofCtypes f) ≠ .ty value := by
  induction f using nameParams.induct with
  | case1 t =>
      intro hv
      cases hv
      exact h
  | case2 f t ih => exact ih h.2

/-! ### Layout -/

theorem body_accepted (concurrency : NonLwt) (errno_ : ErrnoPolicy) (fvar : CFunction)
    (vars : List CExp) (f : NamedFn) (n : Nat) (h : Accepted f.spec) :
    body concurrency errno_ fvar vars f n =
      letsAround (projectParams f.params n).binds
        (callAndReturn concurrency errno_ fvar
          ((projectParams f.params n).args.reverse ++ vars) f.ret)
        (projectParams f.params n).next := by
  induction f generalizing vars n with
  | returns t => rw [body, NamedFn.params, projectParams, letsAround_nil]; rfl
  | function x f t ih =>
      obtain ⟨hf, ht⟩ := h
      rw [body, NamedFn.params, projectParams]
      rcases prj_passed hf (valueLocal x) n with ⟨hv, hp⟩ | ⟨hv, c, n', hc, hk⟩
      · rw [bind_of_ok hp, if_pos hv]
        exact ih vars n ht
      · rw [bind_of_ok hc, if_neg hv, List.reverse_cons, List.append_assoc]
        exact (hk _).trans (letsAround_of_eq (ih _ _ ht))

theorem body_rejected (concurrency : NonLwt) (errno_ : ErrnoPolicy) (fvar : CFunction)
    (vars : List CExp) (f : NamedFn) (n : Nat) (h : ¬ Accepted f.spec) :
    ∃ e, body concurrency errno_ fvar vars f n = .error e := by
  induction f generalizing vars n with
  | returns t =>
      rw [body, callAndReturn, freshVar_bind]
      rcases inj_cases (freshName (n + 1), .ty t) t with ⟨hi, -⟩ | ⟨-, e, he⟩
      · exact absurd hi h
      · rw [he]
        exact ⟨e, rfl⟩
  | function x f t ih =>
      rw [body]
      by_cases hf : Passed f
      · have ht : ¬ Accepted t.spec := fun ht => h ⟨hf, ht⟩
        rcases prj_passed hf (valueLocal x) n with ⟨hv, hp⟩ | ⟨hv, c, n', hc, hk⟩
        · rw [bind_of_ok hp]
          exact ih vars n ht
        · rw [bind_of_ok hc]
          obtain ⟨e, he⟩ := ih ((projected f (valueLocal x) n).arg :: vars) _ ht
          exact ⟨e, (hk _).trans (letsAround_of_error he)⟩
      · obtain ⟨e, he⟩ := prj_not_passed hf (valueLocal x) n
        exact ⟨e, bind_of_error he _⟩

/-! ### The end of a stub -/

def resetSteps : ErrnoPolicy → List Step
  | .ignoreErrno => []
  | .returnErrno => [.assign (.var (.global errno)) (.exp (.int 0))]

def voidBind (m : Nat) (e : CEff) : CBind := ((freshName m, .ty .void), e)

def valueBind (m : Nat) (e : CEff) : CBind := ((freshName m, .ty value), e)

def callBind (fvar : CFunction) (args : List CExp) (t : Typ) (n : Nat) : CBind :=
  ((freshName (n + 1), .ty t), .app fvar args)

/-- The lets from the call on, the projections being done with `n` names. -/
def tailBinds (concurrency : NonLwt) (errno_ : ErrnoPolicy) (fvar : CFunction)
    (args : List CExp) (t : Typ) (i : CEff) (n : Nat) : List CBind :=
  match errno_, concurrency with
  | .ignoreErrno, .sequential => [callBind fvar args t n]
  | .ignoreErrno, .unlocked =>
      [voidBind (n + 4) releaseRuntimeSystem, callBind fvar args t n,
        voidBind (n + 3) acquireRuntimeSystem, valueBind (n + 2) i]
  | .returnErrno, .sequential => [callBind fvar args t n, valueBind (n + 2) i]
  | .returnErrno, .unlocked =>
      [voidBind (n + 6) releaseRuntimeSystem, callBind fvar args t n,
        voidBind (n + 2) acquireRuntimeSystem, valueBind (n + 4) i,
        valueBind (n + 5) (pairWithErrno (valueLocal (freshName (n + 4))))]

def tailEnd (concurrency : NonLwt) (errno_ : ErrnoPolicy) (i : CEff) (n : Nat) :
    CComp :=
  match errno_, concurrency with
  | .ignoreErrno, .sequential => .eff i
  | .ignoreErrno, .unlocked => .camlReturnT (.ty value) (valueLocal (freshName (n + 2)))
  | .returnErrno, .sequential =>
      .eff (pairWithErrno (valueLocal (freshName (n + 2))))
  | .returnErrno, .unlocked => .camlReturnT (.ty value) (valueLocal (freshName (n + 5)))

def callTail (concurrency : NonLwt) (errno_ : ErrnoPolicy) (fvar : CFunction)
    (args : List CExp) (t : Typ) (i : CEff) (n : Nat) : CComp :=
  let c := CComp.lets (tailBinds concurrency errno_ fvar args t i n)
    (tailEnd concurrency errno_ i n)
  match errno_ with
  | .ignoreErrno => c
  | .returnErrno => .letAssign (.var (.global errno)) (.exp (.int 0)) c

theorem callTail_steps (concurrency : NonLwt) (errno_ : ErrnoPolicy) (fvar : CFunction)
    (args : List CExp) (t : Typ) (i : CEff) (n : Nat) :
    (callTail concurrency errno_ fvar args t i n).steps =
      resetSteps errno_ ++ (tailBinds concurrency errno_ fvar args t i n).map .bind ++
        (tailEnd concurrency errno_ i n).steps := by
  cases errno_ <;> simp [callTail, resetSteps, CComp.steps]

theorem callAndReturn_accepted (concurrency : NonLwt) (errno_ : ErrnoPolicy)
    (fvar : CFunction) (vars : List CExp) (t : Typ) (n : Nat)
    (h : Injectable t.core) :
    ∃ i n', inj (freshName (n + 1), .ty t) t = .ok i ∧
      callAndReturn concurrency errno_ fvar vars t n =
        .ok (callTail concurrency errno_ fvar vars.reverse t i n, n') := by
  rcases inj_cases (freshName (n + 1), .ty t) t with ⟨-, i, hi, hinj⟩ | ⟨hn, -⟩
  · have hbind := letBind_eff hinj.ne_exp
    have hrel : ∀ v, releaseRuntimeSystem ≠ .exp v := by simp [releaseRuntimeSystem]
    have hacq : ∀ v, acquireRuntimeSystem ≠ .exp v := by simp [acquireRuntimeSystem]
    rw [callAndReturn, freshVar_bind, hi]
    cases errno_ with
    | ignoreErrno =>
        cases concurrency with
        | sequential => exact ⟨i, _, rfl, rfl⟩
        | unlocked =>
            refine ⟨i, n + 4, rfl, ?_⟩
            rw [lift_ok_bind]
            simp only [bind_apply, hbind, andThen_eff hrel, andThen_eff hacq]
            rfl
    | returnErrno =>
        cases concurrency with
        | sequential =>
            refine ⟨i, n + 2, rfl, ?_⟩
            rw [lift_ok_bind]
            simp only [bind_apply, hbind]
            rfl
        | unlocked =>
            refine ⟨i, n + 6, rfl, ?_⟩
            rw [lift_ok_bind]
            have htyp : typeComp (.eff i) = .ok (.ty value) := hinj.typeEff
            simp only [bind_apply, andThen_eff hrel, andThen_eff hacq,
              letBind_letIn htyp, letsAround, hbind]
            rfl
  · exact absurd h hn

/-! ### Generated stubs -/

/-- What is known of a generated stub. -/
structure StubOf (concurrency : NonLwt) (errno_ : ErrnoPolicy) (cname stubName : String)
    (f : Fn) (n : Nat) (d : CFundef) (f' : NamedFn) (n1 : Nat) (i : CEff) : Prop where
  spec_eq : f'.spec = f
  names : FreshNames n n1 (f'.params.map fun p => p.1)
  inj_eq : inj (freshName ((projectParams f'.params n1).next + 1), .ty f'.ret) f'.ret =
    .ok i
  def_eq : d =
    { dec := { name := stubName, params := valueParams f', ret := .ty value }
      body :=
        let c := CComp.lets (projectParams f'.params n1).binds
          (callTail concurrency errno_ (foreignFunction cname f)
            (projectParams f'.params n1).args f'.ret i (projectParams f'.params n1).next)
        match concurrency with
        | .unlocked => .camlParam ((valueParams f').map fun p => p.1) c
        | .sequential => c
      storage := .external }

theorem stub_accepted (concurrency : NonLwt) (errno_ : ErrnoPolicy)
    (cname stubName : String) (f : Fn) (n : Nat) (h : Accepted f) :
    ∃ d n2 f' n1 i, stub concurrency errno_ cname stubName f n = .ok (d, n2) ∧
      StubOf concurrency errno_ cname stubName f n d f' n1 i := by
  obtain ⟨f', n1, hf, rfl, hnames⟩ := nameParams_ok f n
  obtain ⟨i, n2, hi, hc⟩ := callAndReturn_accepted concurrency errno_
    (foreignFunction cname f'.spec) ((projectParams f'.params n1).args.reverse ++ [])
    f'.ret (projectParams f'.params n1).next h.ret
  have hbody := (body_accepted concurrency errno_ (foreignFunction cname f'.spec) [] f'
    n1 h).trans (letsAround_eq_ok.mpr ⟨_, hc, rfl⟩)
  rw [List.append_nil, List.reverse_reverse] at hbody
  refine ⟨_, n2, f', n1, i, ?_, rfl, hnames, hi, rfl⟩
  rw [stub, bind_of_ok hf, bind_of_ok hbody]
  rfl

theorem stub_rejected (concurrency : NonLwt) (errno_ : ErrnoPolicy)
    (cname stubName : String) (f : Fn) (n : Nat) (h : ¬ Accepted f) :
    ∃ e, stub concurrency errno_ cname stubName f n = .error e := by
  obtain ⟨f', n1, hf, rfl, -⟩ := nameParams_ok f n
  obtain ⟨e, he⟩ := body_rejected concurrency errno_ (foreignFunction cname f'.spec) []
    f' n1 h
  refine ⟨e, ?_⟩
  rw [stub, bind_of_ok hf, bind_of_error he]

/-- The rule that takes a generated stub apart. -/
theorem stub_eq_ok {concurrency : NonLwt} {errno_ : ErrnoPolicy}
    {cname stubName : String} {f : Fn} {n n2 : Nat} {d : CFundef}
    (h : stub concurrency errno_ cname stubName f n = .ok (d, n2)) :
    Accepted f ∧ ∃ f' n1 i, StubOf concurrency errno_ cname stubName f n d f' n1 i := by
  have hf : Accepted f := by
    refine Classical.byContradiction fun hn => ?_
    obtain ⟨e, he⟩ := stub_rejected concurrency errno_ cname stubName f n hn
    rw [he] at h
    cases h
  obtain ⟨d', n2', f', n1, i, hd, hshape⟩ :=
    stub_accepted concurrency errno_ cname stubName f n hf
  obtain ⟨rfl, rfl⟩ : d' = d ∧ n2' = n2 := by simpa [hd] using h
  exact ⟨hf, f', n1, i, hshape⟩

end CtypesCbuf.Cstubs.GenerateC
