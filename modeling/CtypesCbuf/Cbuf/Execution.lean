import CtypesCbuf.Cbuf.Ordering
import CtypesCbuf.Stubs.Execution

/-!
Running a generated stub. It calls the C function once, on what its
parameters project to, and returns the injection of the result, with the
policy in a pair with `errno`.
-/

namespace CtypesCbuf.Cbuf.GenerateC

open NameSupply StraightLine
open Ctypes hiding Fn
open CLanguage Stubs
open CtypesCbuf.Runtime

/-! ### The arguments of the call -/

/-- `layoutBuffers` on values: `ρ` says what the parameters hold. -/
def passedBuffers (m : Machine) (ρ : String → CVal) (cpos : CPosition)
    (vars : List CVal) : List CVal → NamedCBuffers → List CVal
  | bufvars, .lastBuf x _ f =>
      if f.core = .void then arrange cpos vars bufvars
      else arrange cpos vars (received m f.core (ρ x) :: bufvars)
  | bufvars, .conBuf (.lastBuf x _ f) t =>
      if f.core = .void then passedBuffers m ρ cpos vars vars t
      else passedBuffers m ρ cpos vars (received m f.core (ρ x) :: bufvars) t
  | _, .conBuf (.conBuf _ _) _ => []

/-- `layout` on values. -/
def passed (m : Machine) (ρ : String → CVal) : List CVal → NamedFn → List CVal
  | vars, .returns _ => vars
  | vars, .function x f t =>
      if f.core = .void then passed m ρ vars t
      else passed m ρ (received m f.core (ρ x) :: vars) t
  | vars, .buffers cpos b r => passed m ρ (passedBuffers m ρ cpos vars [] b) r

def DrawnBefore (n : Nat) (es : List CExp) : Prop :=
  ∀ e ∈ es, ∀ l ∈ e.locals, Drawn freshName 0 n l.1

theorem Reading.drawnBefore {lo hi : Nat} {vars vars' : List CExp} {bs : List CBind}
    (h : Reading lo hi vars bs vars') (hvars : DrawnBefore lo vars) :
    DrawnBefore hi vars' := by
  intro e he l hl
  rcases h.vars e he l hl with hb | ⟨e', he', hl'⟩
  · obtain ⟨c, hc, rfl⟩ := List.mem_map.mp hb
    have hdrawn := h.binds.names.drawn c.1.1 (List.mem_map.mpr ⟨c, hc, rfl⟩)
    exact hdrawn.mono (Nat.zero_le lo) (Nat.le_refl hi)
  · exact (hvars e' he' l hl').mono (Nat.le_refl 0) h.binds.names.le

/-- The expression for a parameter reads what its projection binds. -/
theorem DrawnBefore.projected {n : Nat} {es : List CExp} (h : DrawnBefore n es) (f : Typ)
    (x : CExp) :
    DrawnBefore (projected f x n).next ((projected f x n).arg :: es) := by
  have hreads := projected_reads f x n
  intro e he l hl
  rcases List.mem_cons.mp he with rfl | he
  · obtain ⟨b, hb, rfl⟩ := List.mem_map.mp (projected_arg_locals f x n l hl)
    have hdrawn := hreads.names.drawn b.1.1 (List.mem_map.mpr ⟨b, hb, rfl⟩)
    exact hdrawn.mono (Nat.zero_le n) (Nat.le_refl _)
  · exact (h e he l hl).mono (Nat.le_refl 0) hreads.names.le

section Run

variable {m : Machine} {fvar : CFunction}

/-- Projecting one parameter. -/
theorem project_step (hf : fvar.readsOcamlHeap = false) (f : Typ) {x : String} {n : Nat}
    (s : State) :
    ∃ env, run (exec m fvar) ((projected f (valueLocal x) n).binds.map .bind) s =
        { s with env } ∧
      n ≤ (projected f (valueLocal x) n).next ∧
      (∀ y, Drawn freshName 0 n y → env y = s.env y) ∧
      ∀ es, DrawnBefore n es →
        DrawnBefore (projected f (valueLocal x) n).next
            ((projected f (valueLocal x) n).arg :: es) ∧
          ((projected f (valueLocal x) n).arg :: es).map (evalExp m env) =
            received m f.core (s.env x) :: es.map (evalExp m s.env) := by
  have hreads := projected_reads f (valueLocal x) n
  have hle := hreads.names.le
  obtain ⟨env, hrun, henv⟩ := run_readingBinds (m := m) hf hreads s
  have harg := projected_run (m := m) hf f x n s
  rw [hrun] at harg
  have hold : ∀ y, Drawn freshName 0 n y → env y = s.env y :=
    fun y hy => henv.of_drawn hy
  refine ⟨env, hrun, hle, hold, fun es hes => ⟨hes.projected f (valueLocal x), ?_⟩⟩
  rw [List.map_cons, harg]
  congr 1
  refine List.map_congr_left fun e he => ?_
  exact evalExp_congr fun l hl => hold l.1 (hes e he l hl)

theorem map_arrange {α β : Type} (g : α → β) (cpos : CPosition) (vars bufvars : List α) :
    (arrange cpos vars bufvars).map g = arrange cpos (vars.map g) (bufvars.map g) := by
  cases cpos <;> simp [arrange]

theorem layoutBuffers_run (hf : fvar.readsOcamlHeap = false) {ρ : String → CVal}
    (cpos : CPosition) (vars bufvars : List CExp) (b : NamedCBuffers) (n : Nat) (s : State)
    (hnames : ∀ x ∈ b.names, Drawn freshName 0 n x ∧ s.env x = ρ x)
    (hvars : DrawnBefore n vars) (hbufvars : DrawnBefore n bufvars) :
    (layoutBuffers cpos vars bufvars b n).vars.map (evalExp m (run (exec m fvar)
        ((layoutBuffers cpos vars bufvars b n).binds.map .bind) s).env) =
      passedBuffers m ρ cpos (vars.map (evalExp m s.env))
        (bufvars.map (evalExp m s.env)) b := by
  induction bufvars, b using bodyForCbuffers.induct vars generalizing n s with
  | case1 bufvars x i f =>
      obtain ⟨-, hx⟩ := hnames x (by simp [NamedCBuffers.names])
      rw [layoutBuffers, passedBuffers]
      split
      · exact map_arrange _ cpos vars bufvars
      · obtain ⟨env, hrun, -, -, hstep⟩ := project_step (m := m) hf f (x := x) (n := n) s
        have hmap := (hstep bufvars hbufvars).2
        have hmap' := (hstep vars hvars).2
        rw [hrun, map_arrange, hmap, hx, (List.cons.inj hmap').2]
  | case2 bufvars x i f t ih1 ih2 =>
      obtain ⟨-, hx⟩ := hnames x (by simp [NamedCBuffers.names])
      have ht : ∀ y ∈ t.names, Drawn freshName 0 n y ∧ s.env y = ρ y :=
        fun y hy => hnames y (by simp [NamedCBuffers.names, hy])
      rw [layoutBuffers, passedBuffers]
      split
      · exact ih1 n s ht hvars hvars
      · obtain ⟨env, hrun, hle, hold, hstep⟩ := project_step (m := m) hf f (x := x) (n := n) s
        obtain ⟨hdrawn, hmap⟩ := hstep bufvars hbufvars
        obtain ⟨hdrawn', hmap'⟩ := hstep vars hvars
        rw [BufferLayout.after, List.map_append, run_append, hrun]
        refine (ih2 _ _ { s with env } (fun y hy => ?_) ?_ hdrawn).trans ?_
        · exact ⟨(ht y hy).1.mono (Nat.le_refl 0) hle,
            (hold y (ht y hy).1).trans (ht y hy).2⟩
        · exact fun e he => hdrawn' e (List.mem_cons_of_mem _ he)
        · rw [hmap, hx, (List.cons.inj hmap').2]
  | case3 bufvars l r t => rfl

theorem layout_run (hf : fvar.readsOcamlHeap = false) {ρ : String → CVal}
    (vars : List CExp) (f : NamedFn) (n : Nat) (s : State)
    (hnames : ∀ x ∈ f.names, Drawn freshName 0 n x ∧ s.env x = ρ x)
    (hvars : DrawnBefore n vars) :
    (layout vars f n).vars.map (evalExp m (run (exec m fvar)
        ((layout vars f n).binds.map .bind) s).env) =
      passed m ρ (vars.map (evalExp m s.env)) f := by
  induction f generalizing vars n s with
  | returns t => rfl
  | function x f t ih =>
      have hx := hnames x (by simp [NamedFn.names])
      have ht : ∀ y ∈ t.names, Drawn freshName 0 n y ∧ s.env y = ρ y :=
        fun y hy => hnames y (by simp [NamedFn.names, hy])
      rw [layout, passed]
      split
      · exact ih vars n s ht hvars
      · obtain ⟨env, hrun, hle, hold, hstep⟩ := project_step (m := m) hf f (x := x) (n := n) s
        obtain ⟨hdrawn, hmap⟩ := hstep vars hvars
        rw [Layout.after, List.map_append, run_append, hrun]
        refine (ih _ _ { s with env } (fun y hy => ?_) hdrawn).trans ?_
        · exact ⟨(ht y hy).1.mono (Nat.le_refl 0) hle,
            (hold y (ht y hy).1).trans (ht y hy).2⟩
        · rw [← hx.2, ← hmap]
  | buffers cpos b r ih =>
      have hb : ∀ y ∈ b.names, Drawn freshName 0 n y ∧ s.env y = ρ y :=
        fun y hy => hnames y (by simp [NamedFn.names, hy])
      have hr : ∀ y ∈ r.names, Drawn freshName 0 n y ∧ s.env y = ρ y :=
        fun y hy => hnames y (by simp [NamedFn.names, hy])
      have hvals := layoutBuffers_run (m := m) hf cpos vars [] b n s hb hvars
        (by simp [DrawnBefore])
      have hread := layoutBuffers_reading cpos vars [] b n
      obtain ⟨env, hrun, henv⟩ := run_readingBinds (m := m) hf hread.binds s
      rw [hrun] at hvals
      rw [layout, passed, Layout.after, List.map_append, run_append, hrun]
      refine (ih _ _ { s with env } (fun y hy => ?_) (hread.drawnBefore hvars)).trans ?_
      · exact ⟨(hr y hy).1.mono (Nat.le_refl 0) hread.binds.names.le,
          (henv.of_drawn (hr y hy).1).trans (hr y hy).2⟩
      · rw [hvals]
        rfl

end Run

/-! ### A whole run -/

def resultTyp : Fn → Typ
  | .returns t => t
  | .function _ t => resultTyp t
  | .buffers _ _ r => resultTyp r

@[simp] theorem resultTyp_arrows (args : List Typ) (tail : Fn) :
    resultTyp (arrows args tail) = resultTyp tail := by
  induction args with
  | nil => rfl
  | cons t ts ih => exact ih

theorem layout_ret (vars : List CExp) (f : NamedFn) (n : Nat) :
    (layout vars f n).ret = resultTyp f.spec := by
  induction f generalizing vars n with
  | returns t => rfl
  | function x f t ih =>
      rw [layout]
      split
      · exact ih _ _
      · exact ih _ _
  | buffers cpos b r ih => exact ih _ _

/-- What is done to `errno` before the call. -/
def resetErrno : ErrnoPolicy → World → World
  | .ignoreErrno, w => w
  | .returnErrno, w => { w with errno := 0 }

/-- What a stub makes of the C value `c`, of a type with core `core`. -/
def returned (m : Machine) (errno_ : ErrnoPolicy) (core : Typ) (c : CVal) (w : World) :
    CVal × World :=
  let w' := if injectionAllocates core then w.clobber m else w
  match errno_ with
  | .ignoreErrno => (injected m core c, w')
  | .returnErrno => runPairWithErrno m [injected m core c] w'

/-- The image of the C result. The policy may put it in a pair. -/
def resultImage : ErrnoPolicy → Option CVal → CVal
  | .ignoreErrno, some v => v
  | .returnErrno, some (.value (.pair v _)) => .value v
  | _, _ => .undefined

/-- What OCaml gets when the image of the C result is `u`. -/
def withErrno (errno_ : ErrnoPolicy) (u : Value) (k : Int) : Value :=
  match errno_ with
  | .ignoreErrno => u
  | .returnErrno => .pair u (.boxed .int32 k)

@[simp] theorem resultImage_withErrno (errno_ : ErrnoPolicy) (u : Value) (k : Int) :
    resultImage errno_ (some (.value (withErrno errno_ u k))) = .value u := by
  cases errno_ <;> rfl

@[simp] theorem resetErrno_calls (errno_ : ErrnoPolicy) (w : World) :
    (resetErrno errno_ w).calls = w.calls := by
  cases errno_ <;> rfl

@[simp] theorem resetErrno_created (errno_ : ErrnoPolicy) (w : World) :
    (resetErrno errno_ w).created = w.created := by
  cases errno_ <;> rfl

section Run

variable {m : Machine}

theorem returned_eq {core : Typ} {c : CVal} {u : Value} (hu : injected m core c = .value u)
    (errno_ : ErrnoPolicy) (w : World) :
    (∃ k, IntFormat.i32.InRange k ∧
        (returned m errno_ core c w).1 = .value (withErrno errno_ u k)) ∧
      (returned m errno_ core c w).2.calls = w.calls ∧
      (returned m errno_ core c w).2.created = w.created := by
  refine ⟨?_, ?_⟩
  · cases errno_ with
    | ignoreErrno => exact ⟨0, by decide, hu⟩
    | returnErrno =>
        simp only [returned, hu]
        exact ⟨_, IntFormat.wrap_inRange .i32 _, rfl⟩
  · cases errno_ <;> cases h : injectionAllocates core <;>
      simp [returned, runPairWithErrno, hu, h]

theorem callTail_run {cname : String} {f : Fn} (hf : Accepted f) (errno_ : ErrnoPolicy)
    (vars : List CExp) (t : Typ) {i : CEff} (n : Nat)
    (hi : Injection (freshName (n + 1), .ty t) t.core i) (s : State) :
    let fvar := foreignFunction cname f
    let called := callForeign m fvar (vars.reverse.map (evalExp m s.env))
      (resetErrno errno_ s.world)
    let r := returned m errno_ t.core (convertTyp m t called.1) called.2
    ∃ env, run (exec m fvar) (callTail errno_ fvar vars t i n).steps s =
      { s with env, world := r.2, result := some r.1 } := by
  intro fvar called r
  have hvalue : returnType fvar.fn ≠ .ty value := returnType_ne_value hf
  have hcall : ∀ s : State, evalEff m fvar s (.app fvar vars.reverse) =
      callForeign m fvar (vars.reverse.map (evalExp m s.env)) s.world :=
    fun s => if_pos rfl
  cases errno_ with
  | ignoreErrno =>
      refine ⟨bindLocal s.env (freshName (n + 1)) (convertTyp m t called.1), ?_⟩
      simp only [callTail, CComp.steps, run_cons, run_nil, exec_bind, hcall]
      simp only [exec, hi.eval hvalue, bindLocal_self]
      rfl
  | returnErrno =>
      refine ⟨bindLocal (bindLocal s.env (freshName (n + 1)) (convertTyp m t called.1))
        (freshName (n + 2)) (injected m t.core (convertTyp m t called.1)), ?_⟩
      simp only [callTail, CComp.steps, run_cons, run_nil, exec_bind, hcall]
      simp only [exec, evalEff, evalExp, assign, hi.eval hvalue,
        pairWithErrno_eval hvalue, bindLocal_self]
      rfl

/-- The run of a generated stub. -/
theorem stub_run {errno_ : ErrnoPolicy} {cname stubName : String} {f : Fn} {n n1 : Nat}
    {d : CFundef} {f' : NamedFn} {i : CEff}
    (hd : StubOf errno_ cname stubName f n d f' n1 i) (hf : Accepted f) (args : List CVal)
    (fields : String → CVal) (w : World) :
    let fvar := foreignFunction cname f
    let called := callForeign m fvar
      (passed m (paramEnv (valueParams f') args) [] f').reverse (resetErrno errno_ w)
    let r := returned m errno_ (resultTyp f).core (convertTyp m (resultTyp f) called.1) called.2
    ∃ env, runFundef m fvar d args fields w =
      { env, fields, world := r.2, result := some r.1 } := by
  intro fvar called r
  have hreads : fvar.readsOcamlHeap = false := rfl
  have hret := layout_ret [] f' n1
  rw [hd.spec_eq] at hret
  have hinj := inj_injection hd.inj_eq
  have hlayout := layout_reading [] f' n1
  let s0 : State := { env := paramEnv (valueParams f') args, fields, world := w, result := none }
  obtain ⟨env, hrun, -⟩ := run_readingBinds (m := m) hreads hlayout.binds s0
  have hnames : ∀ x ∈ f'.names,
      Drawn freshName 0 n1 x ∧ s0.env x = paramEnv (valueParams f') args x := fun x hx =>
    ⟨(hd.names.drawn x hx).mono (Nat.zero_le n) (Nat.le_refl n1), rfl⟩
  have hargs := layout_run (m := m) hreads [] f' n1 s0 hnames (by simp [DrawnBefore])
  rw [hrun] at hargs
  obtain ⟨env', htail⟩ := callTail_run (m := m) hf errno_ (layout [] f' n1).vars
    (layout [] f' n1).ret (layout [] f' n1).next hinj { s0 with env }
  refine ⟨env', ?_⟩
  rw [List.map_reverse] at htail
  rw [runFundef, hd.def_eq, CComp.steps_lets, run_append, hrun, htail, hargs, hret]
  rfl

/-- A run calls the C function once, on `cargs`, and the image of the result
is `u`. -/
structure CallsOnce (errno_ : ErrnoPolicy) (cname : String) (cargs : List CVal) (u : Value)
    (w : World) (s : State) : Prop where
  calls : ∃ e e', s.world.calls = w.calls ++ [⟨cname, cargs, e, e'⟩]
  returns : ∃ k, IntFormat.i32.InRange k ∧
    s.result = some (.value (withErrno errno_ u k))
  created : s.world.created = w.created

theorem stub_callsOnce {errno_ : ErrnoPolicy} {cname stubName : String} {f : Fn}
    {n n1 : Nat} {d : CFundef} {f' : NamedFn} {i : CEff} {args cargs : List CVal} {u : Value}
    (hd : StubOf errno_ cname stubName f n d f' n1 i) (hf : Accepted f)
    (hargs : (passed m (paramEnv (valueParams f') args) [] f').reverse = cargs)
    (hu : injected m (resultTyp f).core (convertTyp m (resultTyp f) (m.foreign cargs)) =
      .value u) (fields : String → CVal) (w : World) :
    CallsOnce errno_ cname cargs u w
      (runFundef m (foreignFunction cname f) d args fields w) := by
  obtain ⟨env, hrun⟩ := stub_run (m := m) hd hf args fields w
  rw [hargs] at hrun
  obtain ⟨⟨k, hk, hvalue⟩, hcalls, hcreated⟩ := returned_eq hu errno_
    (callForeign m (foreignFunction cname f) cargs (resetErrno errno_ w)).2
  have hcall : (callForeign m (foreignFunction cname f) cargs (resetErrno errno_ w)).2.calls =
      w.calls ++ [⟨cname, cargs, (resetErrno errno_ w).errno,
        m.foreignErrno cargs (resetErrno errno_ w).errno⟩] := by
    show (resetErrno errno_ w).calls ++ _ = _
    rw [resetErrno_calls]
    rfl
  rw [hrun]
  exact ⟨⟨_, _, hcalls.trans hcall⟩, ⟨k, hk, congrArg some hvalue⟩,
    hcreated.trans (resetErrno_created errno_ w)⟩

end Run

/-! ### Stubs of functions with arguments -/

/-- What C receives for arguments of the types `args` passed as `vs`. -/
def receivedArgs (m : Machine) : List Typ → List CVal → List CVal
  | t :: ts, v :: vs =>
      if t.core = .void then receivedArgs m ts vs
      else received m t.core v :: receivedArgs m ts vs
  | _, _ => []

/-- The arguments of a specification with names, apart from its end. -/
theorem named_arrows {args : List Typ} {tail : Fn} {f' : NamedFn}
    (h : f'.spec = arrows args tail) :
    ∃ xs r, xs.length = args.length ∧ r.spec = tail ∧ f'.names = xs ++ r.names ∧
      valueParams f' = xs.map (fun x => (x, .ty value)) ++ valueParams r ∧
      ∀ m ρ vars, passed m ρ vars f' =
        passed m ρ ((receivedArgs m args (xs.map ρ)).reverse ++ vars) r := by
  induction args generalizing f' with
  | nil => exact ⟨[], f', rfl, h, rfl, rfl, fun _ _ _ => rfl⟩
  | cons t ts ih =>
      cases f' with
      | returns u => cases h
      | buffers cpos b r => cases h
      | function x f t' =>
          obtain ⟨rfl, ht⟩ : f = t ∧ t'.spec = arrows ts tail := by
            simpa [NamedFn.spec] using h
          obtain ⟨xs, r, hlen, hspec, hnames, hparams, hpassed⟩ := ih ht
          refine ⟨x :: xs, r, by simp [hlen], hspec, by simp [NamedFn.names, hnames],
            by simp [valueParams, hparams], fun m ρ vars => ?_⟩
          rw [passed, List.map_cons, receivedArgs]
          split
          · exact hpassed m ρ vars
          · rw [hpassed, List.reverse_cons, List.append_assoc]
            rfl

/-- The stub of a function without buffers passes its arguments. -/
theorem passed_arrows {m : Machine} {errno_ : ErrnoPolicy} {cname stubName : String}
    {args : List Typ} {t : Typ} {n n1 : Nat} {d : CFundef} {f' : NamedFn} {i : CEff}
    {vs : List CVal}
    (hd : StubOf errno_ cname stubName (arrows args (.returns t)) n d f' n1 i)
    (hlen : vs.length = args.length) :
    (passed m (paramEnv (valueParams f') vs) [] f').reverse = receivedArgs m args vs := by
  obtain ⟨xs, r, hxs, hr, hnames, hparams, hpassed⟩ := named_arrows hd.spec_eq
  cases r with
  | function x f t' => cases hr
  | buffers cpos b r => cases hr
  | returns t' =>
      have hfst : (valueParams f').map (fun p => p.1) = xs := by
        rw [hparams]
        simp [valueParams, Function.comp_def]
      have hnodup : xs.Nodup := by
        have h := hd.names.nodup
        rwa [hnames, NamedFn.names, List.append_nil] at h
      have hlength : (valueParams f').length = vs.length := by
        rw [hparams]
        simp [valueParams, hxs, hlen]
      have hmap := map_paramEnv (hfst ▸ hnodup) hlength
      rw [hfst] at hmap
      rw [hpassed, hmap, List.append_nil]
      exact List.reverse_reverse _

end CtypesCbuf.Cbuf.GenerateC
