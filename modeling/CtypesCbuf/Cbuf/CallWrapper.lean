import CtypesCbuf.Cbuf.Calls

/-!
The functions that a generated `foreign` returns, called with all their
arguments. A wrapper that does nothing is the external itself; it is called
in the same way as one that only passes its parameters on.
-/

namespace CtypesCbuf.Cbuf

open NameSupply Supply
open Ctypes hiding Fn
open CLanguage Stubs GenerateML MlLanguage

variable {V W : Type} {I : MlLanguage.Interp V W} {F : File}

/-! ### Forms of wrappers -/

def identExp (x : String) : MlExp := .ident [x]

theorem mapM_ident {xs : List String} (h : ∀ x ∈ xs, ∃ n, x = freshName n) (n : Nat) :
    xs.mapM ident n = .ok (xs.map identExp, n) := by
  induction xs with
  | nil => rfl
  | cons x xs ih =>
      obtain ⟨k, rfl⟩ := h x List.mem_cons_self
      rw [List.mapM_cons, ident_bind,
        bind_of_ok (ih fun y hy => h y (List.mem_cons_of_mem _ hy))]
      rfl

/-- The functions that keep `xs` alive until a promise has its value. -/
def keepAlive (x : String) (xs : List String) : MlExp :=
  .fn [x] (.seq
    (.appl (.ident ["CI", "use_value"]) (.tuple (.ofList (xs.map identExp))))
    (.appl (.ident ["Lwt", "return"]) (.ident [x])))

theorem returnResult_eq {xs : List String} (h : ∀ x ∈ xs, ∃ n, x = freshName n) (n : Nat) :
    returnResult xs n = .ok (keepAlive (freshName (n + 1)) xs, n + 1) := by
  rw [returnResult, freshVar_bind, bind_of_ok (mapM_ident h (n + 1)), ident_bind]
  rfl

def lwtBody (e : MlExp) (x : String) (xs : List String) : MlExp :=
  .appl (.ident ["box_lwt"]) (.appl (.appl (.ident ["Lwt", "bind"]) e) (keepAlive x xs))

/-- What stays alive under Lwt: the parameters and the variables bound. -/
def kept (s : WrapperState) : List String :=
  s.args ++ patsBoundVars (.ofList (s.binds.map fun b => b.1)) []

theorem mem_kept {s : WrapperState} {x : String} :
    x ∈ kept s ↔ x ∈ s.args ∨ x ∈ boundNames s.binds := by
  rw [kept, List.mem_append, mem_patsBoundVars, boundNames, List.mem_flatMap]
  simp

def runsInLwt : ConcurrencyPolicy → Bool
  | .sequential | .unlocked => false
  | .lwtJobs | .lwtPreemptive => true

def wrapperExp (concurrency : ConcurrencyPolicy) (id : Path) (s : WrapperState) (k : Nat) :
    MlExp :=
  if runsInLwt concurrency then
    .fn s.args (letBind s.binds (lwtBody (if s.trivial
      then runExp concurrency ((s.args.map identExp).foldl .appl (.ident id)) else s.exp)
      (freshName k) (kept s)))
  else if s.trivial then letBind s.binds (runExp concurrency (.ident id))
  else .fn s.args (letBind s.binds s.exp)

theorem wrapper_eq_ok {concurrency : ConcurrencyPolicy} {errno_ : ErrnoPolicy} {id : Path}
    {f : Fn} {name : String} {pol : Polarity} {n n' : Nat} {pat : MlPat} {exp : MlExp}
    (hname : pathOfString name = .ok id)
    (h : wrapper concurrency errno_ id f name pol n = .ok ((pat, exp), n')) :
    ∃ s n1, wrapperBody concurrency errno_ pol f (.ident id) [] n = .ok (s, n1) ∧
      pat = s.pat ∧ ((∀ x ∈ kept s, ∃ k, x = freshName k) →
        ∃ k, exp = wrapperExp concurrency id s k) := by
  have hident : ident name n = .ok (.ident id, n) := by
    rw [ident, hname]
    rfl
  rw [wrapper, bind_of_ok hident] at h
  obtain ⟨s, n1, hs, h⟩ := bind_eq_ok.mp h
  refine ⟨s, n1, hs, ?_⟩
  -- under Lwt, what is applied to the values that are kept
  have hlwt : ∀ (e : MlExp) (k : Nat), (returnResult (kept s) >>= fun r => pure (s.pat,
      .fn s.args (letBind s.binds (.appl (.ident ["box_lwt"])
        (.appl (.appl (.ident ["Lwt", "bind"]) e) r))))) k = .ok ((pat, exp), n') →
      pat = s.pat ∧ ((∀ x ∈ kept s, ∃ k, x = freshName k) →
        exp = .fn s.args (letBind s.binds (lwtBody e (freshName (k + 1)) (kept s)))) := by
    intro e k h
    obtain ⟨r, n2, hr, h⟩ := bind_eq_ok.mp h
    cases h
    refine ⟨rfl, fun hkept => ?_⟩
    rw [returnResult_eq hkept] at hr
    cases hr
    rfl
  have hjobs : runsInLwt concurrency → (if s.trivial then (do
      let args ← s.args.mapM ident
      let r ← returnResult (kept s)
      return (s.pat, MlExp.fn s.args (letBind s.binds (.appl (.ident ["box_lwt"])
        (.appl (.appl (.ident ["Lwt", "bind"])
          (runExp concurrency (args.foldl .appl (.ident id)))) r)))))
    else (do
      let r ← returnResult (kept s)
      return (s.pat, MlExp.fn s.args (letBind s.binds (.appl (.ident ["box_lwt"])
        (.appl (.appl (.ident ["Lwt", "bind"]) s.exp) r)))))) n1 = .ok ((pat, exp), n') →
      pat = s.pat ∧ ((∀ x ∈ kept s, ∃ k, x = freshName k) →
        ∃ k, exp = wrapperExp concurrency id s k) := by
    intro hc h
    split at h
    · rename_i ht
      obtain ⟨args, n2, hargs, h⟩ := bind_eq_ok.mp h
      obtain ⟨hpat, hexp⟩ := hlwt _ n2 h
      refine ⟨hpat, fun hkept => ⟨n2 + 1, ?_⟩⟩
      rw [mapM_ident fun x hx => hkept x (mem_kept.mpr (.inl hx))] at hargs
      cases hargs
      rw [hexp hkept, wrapperExp, if_pos hc, if_pos ht]
    · rename_i ht
      obtain ⟨hpat, hexp⟩ := hlwt _ n1 h
      refine ⟨hpat, fun hkept => ⟨n1 + 1, ?_⟩⟩
      rw [hexp hkept, wrapperExp, if_pos hc, if_neg ht]
  have hdirect : runsInLwt concurrency = false → (if s.trivial
      then pure (s.pat, letBind s.binds (runExp concurrency (.ident id)))
      else pure (s.pat, .fn s.args (letBind s.binds s.exp)) : Gen (MlPat × MlExp)) n1 =
        .ok ((pat, exp), n') →
      pat = s.pat ∧ ((∀ x ∈ kept s, ∃ k, x = freshName k) →
        ∃ k, exp = wrapperExp concurrency id s k) := by
    intro hc h
    split at h
    · rename_i ht
      cases h
      refine ⟨rfl, fun _ => ⟨0, ?_⟩⟩
      rw [wrapperExp, hc, if_neg (by simp), if_pos ht]
    · rename_i ht
      cases h
      refine ⟨rfl, fun _ => ⟨0, ?_⟩⟩
      rw [wrapperExp, hc, if_neg (by simp), if_neg ht]
  cases concurrency with
  | sequential => exact hdirect rfl h
  | unlocked => exact hdirect rfl h
  | lwtJobs => exact hjobs rfl h
  | lwtPreemptive => exact hjobs rfl h

/-! ### Calls -/

/-- Distinct names may be bound to what their constraints say. -/
theorem exists_typing {C : Constraints V W} (h : (C.map Prod.fst).Nodup) :
    ∃ T, Respects T C := by
  refine ⟨fun x => (C.lookup x).getD fun _ => False, fun q hq => ?_⟩
  show (C.lookup q.1).getD _ = q.2
  rw [lookup_of_mem h hq]
  rfl

/-- The variables of the pattern and the parameters of the wrapper. -/
def callEnv (b : Bindings) (xs : List String) (vs : List V) : Env V W :=
  (xs.zip (vs.map .val)).reverse ++ b.map fun q => (q.1, .data q.2)

theorem argConstraints_names {xs : List String} {vs : List V} (hlen : xs.length = vs.length) :
    (argConstraints xs vs : Constraints V W).map Prod.fst = xs := by
  induction xs generalizing vs with
  | nil => rfl
  | cons x xs ih =>
      cases vs with
      | nil => cases hlen
      | cons v vs => exact congrArg (x :: ·) (ih (Nat.succ.inj hlen))

theorem argConstraints_zip {T : Typing V W} {xs : List String} {vs : List V}
    (h : Respects T (argConstraints xs vs)) {q : String × Sem V W}
    (hq : q ∈ xs.zip (vs.map .val)) : T q.1 q.2 := by
  induction xs generalizing vs with
  | nil => cases hq
  | cons x xs ih =>
      cases vs with
      | nil => cases hq
      | cons v vs =>
          rcases List.mem_cons.mp hq with rfl | hq
          · have hx : T x = IsVal fun y => y = v := h _ List.mem_cons_self
            show T x (.val v)
            rw [hx]
            exact ⟨v, rfl, rfl⟩
          · exact ih (fun p hp => h p (List.mem_cons_of_mem _ hp)) hq

theorem callEnv_names (b : Bindings) {xs : List String} {vs : List V}
    (hlen : xs.length = vs.length) :
    (callEnv b xs vs : Env V W).map Prod.fst = xs.reverse ++ b.map Prod.fst := by
  have hzip : (xs.zip (vs.map (Sem.val : V → Sem V W))).map Prod.fst = xs :=
    List.map_fst_zip (by simp [hlen])
  rw [callEnv, List.map_append, List.map_reverse, hzip, List.map_map]
  rfl

theorem sat_callEnv {T : Typing V W} {b : Bindings} {xs : List String} {vs : List V}
    {n n' : Nat} (hlen : xs.length = vs.length)
    (hnames : FreshNames n n' (b.map Prod.fst ++ xs)) (hb : Respects T (dataConstraints b))
    (hvs : Respects T (argConstraints xs vs)) :
    Sat T (b.map Prod.fst ++ xs) (callEnv b xs vs) := by
  have henv := callEnv_names (W := W) b hlen
  have hperm : ((callEnv b xs vs : Env V W).map Prod.fst).Perm (b.map Prod.fst ++ xs) := by
    rw [henv]
    exact (List.reverse_perm xs).append_right _ |>.trans List.perm_append_comm
  have hsat : Sat T ((callEnv b xs vs : Env V W).map Prod.fst) (callEnv b xs vs) := by
    refine sat_of_nodup (hperm.nodup_iff.mpr hnames.nodup) (fun q hq => ?_) fun q hq => ?_
    · obtain ⟨k, -, -, hk⟩ := hnames.drawn q.1
        (hperm.mem_iff.mp (List.mem_map.mpr ⟨q, hq, rfl⟩))
      exact .inl ⟨k, hk⟩
    · rcases List.mem_append.mp hq with hq | hq
      · exact argConstraints_zip hvs (List.mem_reverse.mp hq)
      · obtain ⟨p, hp, rfl⟩ := List.mem_map.mp hq
        have hT : T p.1 = IsData p.2 := hb _ (List.mem_map.mpr ⟨p, hp, rfl⟩)
        show T p.1 (.data p.2)
        rw [hT]
        rfl
  exact hsat.mono hperm.symm.subset

/-- Calling the external is like applying it to the parameters of a wrapper. -/
theorem eval_applyEach {env : Env V W} {xs : List String} {vs us : List V} {e : MlExp}
    (hxs : List.Forall₂ (fun x v => env.lookup x = some (.val v)) xs vs) {s : Store V W}
    (he : eval I F e env s = some (.external us, s)) (hle : us.length + vs.length ≤ F.arity) :
    eval I F ((xs.map identExp).foldl .appl e) env s = applyAll I F (.external us) vs s := by
  induction hxs generalizing e us with
  | nil => exact he
  | @cons x v xs vs hx hxs ih =>
      have hident : eval I F (identExp x) env s = some (.val v, s) := by
        simp [identExp, eval, evalIdent, lookupLocal, hx]
      have happ := eval_appl hident he
      rw [List.length_cons] at hle
      rw [List.map_cons, List.foldl_cons, applyAll]
      by_cases hlt : (us ++ [v]).length < F.arity
      · have hsome : applyVal I F (.external us) v s = some (.external (us ++ [v]), s) := by
          simp only [applyVal, if_pos hlt]
        rw [hsome]
        refine ih (happ.trans hsome) ?_
        rw [List.length_append, List.length_singleton]
        omega
      · -- this was the last argument
        have hnil : vs = [] := by
          rw [List.length_append, List.length_singleton] at hlt
          exact List.length_eq_zero_iff.mp (by omega)
        subst hnil
        obtain rfl := List.forall₂_nil_right_iff.mp hxs
        rw [List.map_nil, List.foldl_nil, happ]
        show applyVal I F (.external us) v s = _
        cases applyVal I F (.external us) v s <;> rfl

def delivered (I : MlLanguage.Interp V W) : ConcurrencyPolicy → V → V
  | .sequential, y | .unlocked, y => y
  | .lwtJobs, y | .lwtPreemptive, y => I.boxLwt (I.resolved (I.await y))

theorem delivered_lwt {concurrency : ConcurrencyPolicy} (h : runsInLwt concurrency) (y : V) :
    delivered I concurrency y = I.boxLwt (I.resolved (I.await y)) := by
  cases concurrency <;> first | rfl | cases h

theorem delivered_direct {concurrency : ConcurrencyPolicy} (h : ¬ runsInLwt concurrency)
    (y : V) : delivered I concurrency y = y := by
  cases concurrency <;> first | rfl | exact absurd rfl h

/-- A call of the wrapper: the bindings log `evs1`, the body `evs2`. -/
structure CallSpec (I : MlLanguage.Interp V W) (F : File) (f : Fn) (vs : List V) (w : W)
    (r : Option (Sem V W × Store V W)) (evs1 evs2 : List (Event V)) (y0 : V) : Prop where
  result : r = some (.val (delivered I F.concurrency y0),
    (Store.start w).after I (evs1 ++ evs2))
  binds : ∃ tr, SameWrites tr (writesFrom 0 f.arguments) ∧
    evs1.map Event.label = bindTrace f.sizes tr
  outcome : Outcome I F w f.tail (List.zipWith (argImage I) f.arguments vs)
    ((Store.start w).after I evs1) evs2 y0

theorem pinned_of_argConstraints {T : Typing V W} {xs : List String} {vs : List V}
    (hlen : xs.length = vs.length) (h : Respects T (argConstraints xs vs)) :
    Pinned T xs vs := by
  induction xs generalizing vs with
  | nil =>
      obtain rfl := List.length_eq_zero_iff.mp hlen.symm
      exact .nil
  | cons x xs ih =>
      cases vs with
      | nil => cases hlen
      | cons v vs =>
          exact .cons (h _ List.mem_cons_self)
            (ih (Nat.succ.inj hlen) fun q hq => h q (List.mem_cons_of_mem _ hq))

theorem runExp_direct {concurrency : ConcurrencyPolicy} (h : ¬ runsInLwt concurrency)
    (e : MlExp) : runExp concurrency e = e := by
  cases concurrency <;> first | rfl | exact absurd rfl h

variable {f : Fn} {vs : List V} {w : W} {n n' : Nat} {s : WrapperState} {b : Bindings}
  {C : Constraints V W}

theorem BodySpec.kept_fresh (h : BodySpec I F w f vs n n' s b C) {x : String}
    (hx : x ∈ kept s) : ∃ k, x = freshName k := by
  have hmem : x ∈ b.map Prod.fst ++ s.args ++ C.map Prod.fst := by
    rcases mem_kept.mp hx with hx | hx
    · exact List.mem_append_left _ (List.mem_append_right _ hx)
    · obtain ⟨Q, hQ⟩ := h.bound x hx
      exact List.mem_append_right _ (List.mem_map.mpr ⟨_, hQ, rfl⟩)
  obtain ⟨k, -, -, hk⟩ := h.names.drawn x hmem
  exact ⟨k, hk⟩

/-- What the function generated for a body does. -/
theorem BodySpec.call (h : BodySpec I F w f vs n n' s b C) (hF : F.Sound)
    (hlen : vs.length = f.arguments.length) (harity : f.arguments.length ≤ F.arity) (k : Nat) :
    ∃ evs1 evs2 y0, CallSpec I F f vs w
      ((eval I F (wrapperExp F.concurrency F.external s k)
        (b.map fun q => (q.1, .data q.2)) (Store.start w)).bind
          fun (g, st) => applyAll I F g vs st) evs1 evs2 y0 := by
  have hargs : s.args.length = vs.length := h.length.trans hlen.symm
  have hnodup : ((dataConstraints b ++ argConstraints s.args vs ++ C :
      Constraints V W).map Prod.fst).Nodup := by
    have hdata : (dataConstraints b : Constraints V W).map Prod.fst = b.map Prod.fst := by
      rw [dataConstraints, List.map_map]
      rfl
    rw [List.map_append, List.map_append, argConstraints_names hargs, hdata]
    exact h.names.nodup
  obtain ⟨T, hT⟩ := exists_typing hnodup
  have hb : Respects T (dataConstraints b) := fun q hq =>
    hT q (List.mem_append_left _ (List.mem_append_left _ hq))
  have hvs : Respects T (argConstraints s.args vs) := fun q hq =>
    hT q (List.mem_append_left _ (List.mem_append_right _ hq))
  have hC : Respects T C := fun q hq => hT q (List.mem_append_right _ hq)
  have hpinned := pinned_of_argConstraints hargs hvs
  have hsat := sat_callEnv hargs h.names.left hb hvs
  obtain ⟨tr, hsame, hruns, hevals⟩ := h.runs T hb hC hvs
  -- the bindings and then a body that returns what is delivered
  have hbody : ∀ e r, Evals I F T (boundNames s.binds ++ (b.map Prod.fst ++ s.args)) e
      (fun st evs y => ∃ u, Outcome I F w f.tail
        (List.zipWith (argImage I) f.arguments vs) st evs u ∧
        y = delivered I F.concurrency u) →
      r = eval I F (letBind s.binds e) (callEnv b s.args vs) (Store.start w) →
      ∃ evs1 evs2 y0, CallSpec I F f vs w r evs1 evs2 y0 := by
    intro e r he hr
    obtain ⟨y, evs1, evs2, heval, htr, u, hu, rfl⟩ := hruns.letBind he hsat (at_start I w)
    exact ⟨evs1, evs2, u, hr.trans heval, ⟨tr, hsame, htr⟩, hu⟩
  have hfn : ∀ e, ((eval I F (.fn s.args e) (b.map fun q => (q.1, .data q.2))
      (Store.start w)).bind fun (g, st) => applyAll I F g vs st) =
      eval I F e (callEnv b s.args vs) (Store.start w) := by
    intro e
    rw [eval]
    exact applyAll_close hargs _ _
  by_cases hlwt : runsInLwt F.concurrency
  · -- the value is waited for, and what is bound is kept alive
    have hexp : (if s.trivial then runExp F.concurrency
        ((s.args.map identExp).foldl .appl (.ident F.external)) else s.exp) = s.exp := by
      split
      · rename_i ht
        exact (h.trivial ht).2.symm
      · rfl
    have hkept : ∀ y ∈ kept s,
        y ∈ boundNames s.binds ++ (b.map Prod.fst ++ s.args) ∧ ∃ Q, T y = IsVal Q := by
      intro y hy
      rcases mem_kept.mp hy with hy | hy
      · exact ⟨by simp [hy], Pinned.isVal hpinned hy⟩
      · obtain ⟨Q, hQ⟩ := h.bound y hy
        exact ⟨List.mem_append_left _ hy, Q, hC _ hQ⟩
    rw [wrapperExp, if_pos hlwt, hexp]
    refine hbody (lwtBody s.exp (freshName k) (kept s)) _ ?_ (hfn _)
    refine (hevals.lwtBind hF (.inl ⟨k, rfl⟩) hkept).imp ?_
    rintro st evs y ⟨u, hu, rfl⟩
    exact ⟨u, hu, (delivered_lwt hlwt u).symm⟩
  · have hsame : Evals I F T (boundNames s.binds ++ (b.map Prod.fst ++ s.args)) s.exp
        fun st evs y => ∃ u, Outcome I F w f.tail
          (List.zipWith (argImage I) f.arguments vs) st evs u ∧
          y = delivered I F.concurrency u :=
      hevals.imp fun st evs y hy => ⟨y, hy, (delivered_direct hlwt y).symm⟩
    rw [wrapperExp, if_neg hlwt]
    by_cases ht : s.trivial
    · -- the wrapper is the external
      obtain ⟨hbinds, hexp⟩ := h.trivial ht
      have hsat0 : Sat T (b.map Prod.fst ++ []) (callEnv b [] ([] : List V)) :=
        sat_callEnv rfl (by simpa using h.names.left.left) hb
          (fun _ hq => absurd hq List.not_mem_nil)
      have hext : eval I F (.ident F.external) (b.map fun q => (q.1, .data q.2))
          (Store.start w) = some (.external [], Store.start w) :=
        eval_external hF hsat0 (Store.start w)
      have hzero : ([] : List V).length + vs.length ≤ F.arity := by
        rwa [List.length_nil, Nat.zero_add, hlen]
      have hcall := eval_applyEach (I := I)
        (Pinned.lookup hpinned hsat (List.subset_append_right _ _))
        (eval_external hF hsat (Store.start w)) hzero
      refine hbody s.exp _ hsame ?_
      rw [if_pos ht, hbinds, runExp_direct hlwt, GenerateML.letBind, List.foldl_nil, hext, hexp,
        runExp_direct hlwt]
      exact hcall.symm
    · rw [if_neg ht]
      exact hbody s.exp _ hsame (hfn _)

/-- The call of what `foreign` returns, for every specification that a case is
generated for. -/
theorem callWrapper_spec (hF : F.Sound) (hargs : f.arguments ≠ [])
    (hlen : vs.length = f.arguments.length)
    (harity : F.arity = f.arguments.length + f.sizes.length) {stubName externalName : String}
    (hname : pathOfString externalName = .ok F.external) {c : Case}
    (h : case F.concurrency F.errno_ stubName externalName f n = .ok (c, n')) (w : W) :
    ∃ evs1 evs2 y0, CallSpec I F f vs w (callWrapper I F c f vs w) evs1 evs2 y0 := by
  rw [case, hname, lift_ok_bind] at h
  obtain ⟨⟨pat, exp⟩, n1, hwrapper, h⟩ := bind_eq_ok.mp h
  cases h
  obtain ⟨s, n2, hs, rfl, hexp⟩ := wrapper_eq_ok hname hwrapper
  obtain ⟨b, C, hbody⟩ := body_spec (I := I) (w := w) hF hargs hlen harity hs
  obtain ⟨k, rfl⟩ := hexp fun x hx => hbody.kept_fresh hx
  rw [callWrapper]
  dsimp only
  rw [hbody.matches_]
  exact hbody.call hF hlen (by omega) k

end CtypesCbuf.Cbuf
