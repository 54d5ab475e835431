import CtypesCbuf.CLanguage.Steps
import CtypesCbuf.Runtime.Machine

/-!
Running C code. The steps of a function run one after the other; each may
bind a local, assign, call the C function or leave the result. The C function
is the one given as `fvar`; every other function is of the runtime library.
-/

namespace CtypesCbuf.CLanguage

open NameSupply StraightLine
open Ctypes hiding Fn
open CtypesCbuf.Runtime

structure State where
  env : String → CVal
  /-- The fields of the job that a worker is given. -/
  fields : String → CVal
  world : World
  result : Option CVal

def bindLocal (env : String → CVal) (x : String) (v : CVal) : String → CVal :=
  fun y => if y = x then v else env y

@[simp] theorem bindLocal_self (env : String → CVal) (x : String) (v : CVal) :
    bindLocal env x v x = v := if_pos rfl

theorem bindLocal_of_ne {env : String → CVal} {x y : String} (v : CVal) (h : y ≠ x) :
    bindLocal env x v y = env y := if_neg h

def evalExp (m : Machine) (env : String → CVal) : CExp → CVal
  | .int i => .int i
  | .clocal x => env x.1
  | .cast ty e => convertTy m ty (evalExp m env e)
  | .addr (.clocal x) => .addrOf (env x.1)
  | .addr (.global g) => .ptr (.symbol g.name)

def callForeign (m : Machine) (fvar : CFunction) (args : List CVal) (w : World) :
    CVal × World :=
  let e := m.foreignErrno args w.errno
  (m.foreign args, { w with errno := e, calls := w.calls ++ [⟨fvar.fname, args, w.errno, e⟩] })

def pairFunction : CFunction := conser "ctypes_pair_with_errno" (toValue value)

/-- `ctypes_pair_with_errno`. It reads `errno` after it has allocated the
pair, and allocates the number last. -/
def runPairWithErrno (m : Machine) (args : List CVal) (w : World) : CVal × World :=
  let w1 := w.clobber m
  match args with
  | [.value p] =>
      (.value (.pair p (.boxed .int32 (IntFormat.i32.wrap w1.errno))), w1.clobber m)
  | _ => (.undefined, w1.clobber m)

def callFunction (m : Machine) (f : CFunction) (args : List CVal) (w : World) :
    CVal × World :=
  if f = pairFunction then runPairWithErrno m args w
  else (library m f.fname args, if f.allocates then w.clobber m else w)

def evalEff (m : Machine) (fvar : CFunction) (s : State) : CEff → CVal × World
  | .exp e => (evalExp m s.env e, s.world)
  | .camlop _ => (.undefined, s.world)
  | .global g =>
      (if g.name = "Val_unit" then .value .unit
        else if g.name = "errno" then .int s.world.errno else .undefined, s.world)
  | .app f es =>
      let args := es.map (evalExp m s.env)
      if f = fvar then callForeign m fvar args s.world else callFunction m f args s.world
  | .index e i =>
      let (v, w) := evalEff m fvar s e
      match v, evalExp m s.env i with
      | .argv vs, .int k => ((vs[k.toNat]?).elim .undefined .value, w)
      | _, _ => (.undefined, w)
  | .deref e =>
      match typeExp e, evalExp m s.env e with
      | .ty (.pointer t), .ptr p => (.image (m.load t.core p), s.world)
      | _, _ => (.undefined, s.world)
  | .derefField _ f => (s.fields f, s.world)

/-- The part of the state that an assignment changes. -/
def assign (lv : CLvalue) (v : CVal) (s : State) : State :=
  match lv, v with
  | .var (.global g), .int i =>
      if g.name = "errno" then { s with world := { s.world with errno := i } } else s
  | .var (.clocal x), v => { s with env := bindLocal s.env x.1 v }
  | .pointerField _ f, v => { s with fields := fun g => if g = f then v else s.fields g }
  | _, _ => s

def exec (m : Machine) (fvar : CFunction) : Step → State → State
  | .bind (x, e), s =>
      let (v, w) := evalEff m fvar s e
      { s with env := bindLocal s.env x.1 (convertTy m x.2 v), world := w }
  | .const x i, s => { s with env := bindLocal s.env x.1 (.int i) }
  | .assign lv e, s =>
      let (v, w) := evalEff m fvar s e
      assign lv v { s with world := w }
  | .camlParam _, s => s
  | .result e, s =>
      let (v, w) := evalEff m fvar s e
      { s with world := w, result := some v }
  | .camlReturnT ty e, s => { s with result := some (convertTy m ty (evalExp m s.env e)) }
  | .ret ty e, s => { s with result := some (convertTy m ty (evalExp m s.env e)) }

def paramEnv (params : List (String × Ty)) (args : List CVal) : String → CVal := fun x =>
  (((params.map fun p => p.1).zip args).lookup x).getD .undefined

/-- Parameters with distinct names hold the arguments. -/
theorem map_paramEnv {params : List (String × Ty)} {vs : List CVal}
    (hnames : (params.map fun p => p.1).Nodup) (hlen : params.length = vs.length) :
    (params.map fun p => p.1).map (paramEnv params vs) = vs := by
  have hzip : ∀ (xs : List String) (vs : List CVal), xs.Nodup → xs.length = vs.length →
      xs.map (fun x => ((xs.zip vs).lookup x).getD .undefined) = vs := by
    intro xs
    induction xs with
    | nil =>
        intro vs _ hlen
        exact (List.length_eq_zero_iff.mp hlen.symm).symm
    | cons x xs ih =>
        intro vs hnodup hlen
        cases vs with
        | nil => cases hlen
        | cons v vs =>
            obtain ⟨hx, hxs⟩ := List.nodup_cons.mp hnodup
            have htail : ∀ y ∈ xs, (((x :: xs).zip (v :: vs)).lookup y).getD .undefined =
                ((xs.zip vs).lookup y).getD .undefined := by
              intro y hy
              have hne : (y == x) = false := by
                rw [beq_eq_false_iff_ne]
                rintro rfl
                exact hx hy
              rw [List.zip_cons_cons, List.lookup_cons, hne]
            rw [List.map_cons, List.map_congr_left htail, ih vs hxs (Nat.succ.inj hlen)]
            simp
  exact hzip _ vs hnames (by rw [List.length_map, hlen])

/-- The call of a function with a body: its result and the world after it. -/
def runFundef (m : Machine) (fvar : CFunction) (d : CFundef) (args : List CVal)
    (fields : String → CVal) (w : World) : State :=
  run (exec m fvar) d.body.steps
    { env := paramEnv d.dec.params args, fields, world := w, result := none }

/-! ### The log of calls -/

@[simp] theorem runPairWithErrno_calls (m : Machine) (args : List CVal) (w : World) :
    (runPairWithErrno m args w).2.calls = w.calls := by
  unfold runPairWithErrno
  split <;> rfl

@[simp] theorem callFunction_calls (m : Machine) (f : CFunction) (args : List CVal)
    (w : World) : (callFunction m f args w).2.calls = w.calls := by
  unfold callFunction
  split
  · exact runPairWithErrno_calls m args w
  · split <;> rfl

@[simp] theorem assign_calls (lv : CLvalue) (v : CVal) (s : State) :
    (assign lv v s).world.calls = s.world.calls := by
  unfold assign
  split
  · split <;> rfl
  · rfl
  · rfl
  · rfl

/-! ### Byte sequences created -/

@[simp] theorem runPairWithErrno_created (m : Machine) (args : List CVal) (w : World) :
    (runPairWithErrno m args w).2.created = w.created := by
  unfold runPairWithErrno
  split <;> rfl

@[simp] theorem callFunction_created (m : Machine) (f : CFunction) (args : List CVal)
    (w : World) : (callFunction m f args w).2.created = w.created := by
  unfold callFunction
  split
  · exact runPairWithErrno_created m args w
  · split <;> rfl

@[simp] theorem assign_created (lv : CLvalue) (v : CVal) (s : State) :
    (assign lv v s).world.created = s.world.created := by
  unfold assign
  split
  · split <;> rfl
  · rfl
  · rfl
  · rfl

@[simp] theorem evalEff_created (m : Machine) (fvar : CFunction) (s : State) (e : CEff) :
    (evalEff m fvar s e).2.created = s.world.created := by
  induction e with
  | app f es =>
      rw [evalEff]
      split
      · rfl
      · exact callFunction_created m f _ s.world
  | index e i ih =>
      rw [evalEff]
      cases hv : evalEff m fvar s e with
      | mk v w =>
          rw [hv] at ih
          dsimp only at ih ⊢
          split
          · exact ih
          · exact ih
  | deref e =>
      rw [evalEff]
      split <;> rfl
  | _ => rfl

@[simp] theorem exec_created (m : Machine) (fvar : CFunction) (st : Step) (s : State) :
    (exec m fvar st s).world.created = s.world.created := by
  cases st with
  | bind b => exact evalEff_created m fvar s b.2
  | assign lv e => exact (assign_created lv _ _).trans (evalEff_created m fvar s e)
  | result e => exact evalEff_created m fvar s e
  | _ => rfl

/-- C code creates no byte sequences. -/
theorem runFundef_created (m : Machine) (fvar : CFunction) (d : CFundef) (args : List CVal)
    (fields : String → CVal) (w : World) :
    (runFundef m fvar d args fields w).world.created = w.created :=
  run_preserves (I := fun s => s.world.created = w.created)
    (fun st _ s hs => (exec_created m fvar st s).trans hs) rfl

/-! ### Steps that only read -/

/-- The step applies functions that read the OCaml heap and allocate nothing. -/
def CEff.OnlyReads (e : CEff) : Prop :=
  ∀ f ∈ e.functions, f.allocates = false ∧ f.readsOcamlHeap = true

theorem evalEff_world {m : Machine} {fvar : CFunction} (hf : fvar.readsOcamlHeap = false)
    {e : CEff} (he : e.OnlyReads) (s : State) : (evalEff m fvar s e).2 = s.world := by
  induction e with
  | app f es =>
      obtain ⟨hnoalloc, hreads⟩ := he f (by simp [CEff.functions])
      have hne : f ≠ fvar := by
        rintro rfl
        rw [hf] at hreads
        cases hreads
      have hpair : f ≠ pairFunction := by
        rintro rfl
        cases hnoalloc
      simp only [evalEff, if_neg hne, callFunction, if_neg hpair, hnoalloc]
      rfl
  | index e i ih =>
      have h := ih he
      rw [evalEff]
      cases hv : evalEff m fvar s e with
      | mk v w =>
          rw [hv] at h
          dsimp only at h ⊢
          split
          · exact h
          · exact h
  | deref e =>
      rw [evalEff]
      split <;> rfl
  | _ => rfl

theorem exec_bind (m : Machine) (fvar : CFunction) (x : CLocal) (e : CEff) (s : State) :
    exec m fvar (.bind (x, e)) s =
      { s with env := bindLocal s.env x.1 (convertTy m x.2 (evalEff m fvar s e).1)
               world := (evalEff m fvar s e).2 } := rfl

/-- Two environments that agree except on names drawn between two counts. -/
def Agree (lo hi : Nat) (env env' : String → CVal) : Prop :=
  ∀ x, ¬ Drawn freshName lo hi x → env' x = env x

theorem Agree.refl (n : Nat) (env : String → CVal) : Agree n n env env := fun _ _ => rfl

theorem Agree.trans {lo mid hi : Nat} {env env' env'' : String → CVal}
    (h : Agree lo mid env env') (h' : Agree mid hi env' env'') (hlo : lo ≤ mid)
    (hhi : mid ≤ hi) : Agree lo hi env env'' := by
  intro x hx
  have h1 : ¬ Drawn freshName lo mid x := fun hd => hx (hd.mono (Nat.le_refl lo) hhi)
  have h2 : ¬ Drawn freshName mid hi x := fun hd => hx (hd.mono hlo (Nat.le_refl hi))
  rw [h' x h2, h x h1]

/-- A name drawn before is not affected. -/
theorem Agree.of_drawn {lo mid hi : Nat} {env env' : String → CVal}
    (h : Agree mid hi env env') {x : String} (hx : Drawn freshName lo mid x) :
    env' x = env x :=
  h x fun hd => hx.ne freshName_inj hd rfl

theorem evalExp_congr {m : Machine} {env env' : String → CVal} {e : CExp}
    (h : ∀ l ∈ e.locals, env' l.1 = env l.1) : evalExp m env' e = evalExp m env e := by
  induction e with
  | int i => rfl
  | clocal x => exact h x (by simp [CExp.locals])
  | cast ty e ih => rw [evalExp, evalExp, ih h]
  | addr v =>
      cases v with
      | clocal x => rw [evalExp, evalExp, h x (by simp [CExp.locals, CVar.locals])]
      | global g => rfl

end CtypesCbuf.CLanguage
