import CtypesCbuf.Cbuf.GenerateC
import CtypesCbuf.CLanguage.Steps

/-!
What `Cbuf_generate_c.fn` accepts and what it then builds: a chain of lets
that projects the parameters, then the call and the return of its result.
The chain and the arguments of the call are computed by `layout`, which
draws names as the generator does but handles no continuations.
-/

namespace CtypesCbuf.Cbuf.GenerateC

open NameSupply Supply
open Ctypes hiding Fn
open CLanguage Stubs

/-! ### Names of parameters -/

def NamedCBuffers.spec : NamedCBuffers → CBuffers
  | .lastBuf _ i t => .lastBuf i t
  | .conBuf l r => .conBuf l.spec r.spec

def NamedFn.spec : NamedFn → Fn
  | .returns t => .returns t
  | .function _ f t => .function f t.spec
  | .buffers cpos b r => .buffers cpos b.spec r.spec

def NamedCBuffers.names : NamedCBuffers → List String
  | .lastBuf x _ _ => [x]
  | .conBuf l r => l.names ++ r.names

/-- All names, those after a `Buffers` included. -/
def NamedFn.names : NamedFn → List String
  | .returns _ => []
  | .function x _ t => x :: t.names
  | .buffers _ b r => b.names ++ r.names

theorem nameParamsOfCbuffers_ok (b : CBuffers) (n : Nat) :
    ∃ b' n', nameParamsOfCbuffers b n = .ok (b', n') ∧ b'.spec = b ∧
      FreshNames n n' b'.names := by
  induction b generalizing n with
  | lastBuf i t => exact ⟨_, _, rfl, rfl, FreshNames.single _ (by omega) (by omega)⟩
  | conBuf l r ihl ihr =>
      obtain ⟨r', n1, hr, hrs, hrn⟩ := ihr n
      obtain ⟨l', n2, hl, hls, hln⟩ := ihl n1
      refine ⟨.conBuf l' r', n2, ?_, ?_, hln.append' hrn⟩
      · rw [nameParamsOfCbuffers, bind_of_ok hr, bind_of_ok hl]
        rfl
      · rw [NamedCBuffers.spec, hls, hrs]

theorem nameParams_ok (f : Fn) (n : Nat) :
    ∃ f' n', nameParams f n = .ok (f', n') ∧ f'.spec = f ∧
      FreshNames n n' f'.names := by
  induction f generalizing n with
  | returns t => exact ⟨_, _, rfl, rfl, FreshNames.nil n⟩
  | function f t ih =>
      obtain ⟨t', n1, ht, hts, htn⟩ := ih n
      refine ⟨.function (freshName (n1 + 1)) f t', n1 + 1, ?_, ?_,
        (FreshNames.single _ (by omega) (by omega)).append' htn⟩
      · rw [nameParams, bind_of_ok ht]
        rfl
      · rw [NamedFn.spec, hts]
  | buffers cpos b r ih =>
      obtain ⟨r', n1, hr, hrs, hrn⟩ := ih n
      obtain ⟨b', n2, hb, hbs, hbn⟩ := nameParamsOfCbuffers_ok b n1
      refine ⟨.buffers cpos b' r', n2, ?_, ?_, hbn.append' hrn⟩
      · rw [nameParams, bind_of_ok hr, bind_of_ok hb]
        rfl
      · rw [NamedFn.spec, hbs, hrs]

theorem valueParamsOfCbuffers_eq (b : NamedCBuffers) :
    valueParamsOfCbuffers b = b.names.map fun x => (x, .ty value) := by
  induction b with
  | lastBuf x i t => rfl
  | conBuf l r ihl ihr =>
      rw [valueParamsOfCbuffers, ihl, ihr, NamedCBuffers.names, List.map_append]

/-- Every parameter of the stub is one of the names drawn first. -/
theorem mem_names_of_mem_valueParams {f : NamedFn} {p : String × Ty}
    (h : p ∈ valueParams f) : p.1 ∈ f.names ∧ p.2 = .ty value := by
  induction f with
  | returns t => simp [valueParams] at h
  | function x f t ih =>
      rcases List.mem_cons.mp h with rfl | h
      · exact ⟨by simp [NamedFn.names], rfl⟩
      · obtain ⟨h1, h2⟩ := ih h
        exact ⟨by simp [NamedFn.names, h1], h2⟩
  | buffers cpos b r ih =>
      rw [valueParams, valueParamsOfCbuffers_eq] at h
      obtain ⟨x, hx, rfl⟩ := List.mem_map.mp h
      exact ⟨by simp [NamedFn.names, hx], rfl⟩

/-! ### Accepted specifications -/

/-- The left operand of `@*` has to be a single buffer. -/
def AcceptedBuffers : CBuffers → Prop
  | .lastBuf _ t => Passed t
  | .conBuf (.lastBuf _ t) b => Passed t ∧ AcceptedBuffers b
  | .conBuf (.conBuf _ _) _ => False

def Accepted : Fn → Prop
  | .returns t => Injectable t.core
  | .function f t => Passed f ∧ Accepted t
  | .buffers _ b r => AcceptedBuffers b ∧ Accepted r

/-! ### Layout -/

/-- The lets of a stub, the arguments of the call from the last to the first,
the type returned and the count of names. -/
structure Layout where
  binds : List CBind
  vars : List CExp
  ret : Typ
  next : Nat

def Layout.after (bs : List CBind) (l : Layout) : Layout :=
  { l with binds := bs ++ l.binds }

/-- The buffers of a layout, with the type returned not known yet. -/
structure BufferLayout where
  binds : List CBind
  vars : List CExp
  next : Nat

def BufferLayout.after (bs : List CBind) (l : BufferLayout) : BufferLayout :=
  { l with binds := bs ++ l.binds }

def layoutBuffers (cpos : CPosition) (vars : List CExp) :
    List CExp → NamedCBuffers → Nat → BufferLayout
  | bufvars, .lastBuf x _ f, n =>
      if f.core = .void then ⟨[], arrange cpos vars bufvars, n⟩
      else
        let p := projected f (valueLocal x) n
        ⟨p.binds, arrange cpos vars (p.arg :: bufvars), p.next⟩
  | bufvars, .conBuf (.lastBuf x _ f) t, n =>
      if f.core = .void then layoutBuffers cpos vars vars t n
      else
        let p := projected f (valueLocal x) n
        (layoutBuffers cpos vars (p.arg :: bufvars) t p.next).after p.binds
  | _, .conBuf (.conBuf _ _) _, n => ⟨[], [], n⟩

def layout : List CExp → NamedFn → Nat → Layout
  | vars, .returns t, n => ⟨[], vars, t, n⟩
  | vars, .function x f t, n =>
      if f.core = .void then layout vars t n
      else
        let p := projected f (valueLocal x) n
        (layout (p.arg :: vars) t p.next).after p.binds
  | vars, .buffers cpos b r, n =>
      let l := layoutBuffers cpos vars [] b n
      (layout l.vars r l.next).after l.binds

theorem bodyForCbuffers_accepted (cpos : CPosition) (vars : List CExp)
    (rest : List CExp → Gen CComp) (bufvars : List CExp) (b : NamedCBuffers)
    (n : Nat) (h : AcceptedBuffers b.spec) :
    bodyForCbuffers cpos vars rest bufvars b n =
      letsAround (layoutBuffers cpos vars bufvars b n).binds
        (rest (layoutBuffers cpos vars bufvars b n).vars)
        (layoutBuffers cpos vars bufvars b n).next := by
  induction bufvars, b using bodyForCbuffers.induct vars generalizing n with
  | case1 bufvars x i f =>
      rw [bodyForCbuffers, layoutBuffers]
      rcases prj_passed h (valueLocal x) n with ⟨hv, hp⟩ | ⟨hv, c, n', hc, hk⟩
      · rw [bind_of_ok hp, if_pos hv, letsAround_nil]
      · rw [bind_of_ok hc, if_neg hv]
        exact hk _
  | case2 bufvars x i f t ih1 ih2 =>
      obtain ⟨hf, ht⟩ := h
      rw [bodyForCbuffers, layoutBuffers]
      rcases prj_passed hf (valueLocal x) n with ⟨hv, hp⟩ | ⟨hv, c, n', hc, hk⟩
      · rw [bind_of_ok hp, if_pos hv]
        exact ih1 n ht
      · rw [bind_of_ok hc, if_neg hv]
        exact (hk _).trans (letsAround_of_eq (ih2 _ _ ht))
  | case3 bufvars l r t => exact h.elim

theorem bodyForCbuffers_rejected (cpos : CPosition) (vars : List CExp)
    (rest : List CExp → Gen CComp) (bufvars : List CExp) (b : NamedCBuffers)
    (n : Nat) (h : ¬ AcceptedBuffers b.spec) :
    ∃ e, bodyForCbuffers cpos vars rest bufvars b n = .error e := by
  induction bufvars, b using bodyForCbuffers.induct vars generalizing n with
  | case1 bufvars x i f =>
      obtain ⟨e, he⟩ := prj_not_passed h (valueLocal x) n
      exact ⟨e, bind_of_error he _⟩
  | case2 bufvars x i f t ih1 ih2 =>
      rw [bodyForCbuffers]
      by_cases hf : Passed f
      · have ht : ¬ AcceptedBuffers t.spec := fun ht => h ⟨hf, ht⟩
        rcases prj_passed hf (valueLocal x) n with ⟨hv, hp⟩ | ⟨hv, c, n', hc, hk⟩
        · rw [bind_of_ok hp]
          exact ih1 n ht
        · rw [bind_of_ok hc]
          obtain ⟨e, he⟩ := ih2 _ _ ht
          exact ⟨e, (hk _).trans (letsAround_of_error he)⟩
      · obtain ⟨e, he⟩ := prj_not_passed hf (valueLocal x) n
        exact ⟨e, bind_of_error he _⟩
  | case3 bufvars l r t => exact ⟨_, rfl⟩

/-- The body of an accepted specification is its layout around the call. -/
theorem body_accepted (errno_ : ErrnoPolicy) (fvar : CFunction) (vars : List CExp)
    (f : NamedFn) (n : Nat) (h : Accepted f.spec) :
    body errno_ fvar vars f n =
      letsAround (layout vars f n).binds
        (callAndReturn errno_ fvar (layout vars f n).vars (layout vars f n).ret)
        (layout vars f n).next := by
  induction f generalizing vars n with
  | returns t => rw [body, layout, letsAround_nil]
  | function x f t ih =>
      obtain ⟨hf, ht⟩ := h
      rw [body, layout]
      rcases prj_passed hf (valueLocal x) n with ⟨hv, hp⟩ | ⟨hv, c, n', hc, hk⟩
      · rw [bind_of_ok hp, if_pos hv]
        exact ih vars n ht
      · rw [bind_of_ok hc, if_neg hv]
        exact (hk _).trans (letsAround_of_eq (ih _ _ ht))
  | buffers cpos b r ih =>
      obtain ⟨hb, hr⟩ := h
      rw [body, layout, bodyForCbuffers_accepted _ _ _ _ _ _ hb]
      exact letsAround_of_eq (ih _ _ hr)

theorem callAndReturn_rejected (errno_ : ErrnoPolicy) (fvar : CFunction)
    (vars : List CExp) {t : Typ} (n : Nat) (h : ¬ Injectable t.core) :
    ∃ e, callAndReturn errno_ fvar vars t n = .error e := by
  rw [callAndReturn, freshVar_bind]
  rcases inj_cases (freshName (n + 1), .ty t) t with ⟨hi, -⟩ | ⟨-, e, he⟩
  · exact absurd hi h
  · rw [he]
    exact ⟨e, rfl⟩

theorem body_rejected (errno_ : ErrnoPolicy) (fvar : CFunction) (vars : List CExp)
    (f : NamedFn) (n : Nat) (h : ¬ Accepted f.spec) :
    ∃ e, body errno_ fvar vars f n = .error e := by
  induction f generalizing vars n with
  | returns t => exact callAndReturn_rejected errno_ fvar vars n h
  | function x f t ih =>
      rw [body]
      by_cases hf : Passed f
      · have ht : ¬ Accepted t.spec := fun ht => h ⟨hf, ht⟩
        rcases prj_passed hf (valueLocal x) n with ⟨hv, hp⟩ | ⟨hv, c, n', hc, hk⟩
        · rw [bind_of_ok hp]
          exact ih vars n ht
        · rw [bind_of_ok hc]
          obtain ⟨e, he⟩ := ih ((projected f (valueLocal x) n).arg :: vars) _ ht
          exact ⟨e, (hk _).trans (letsAround_of_error he)⟩
      · obtain ⟨e, he⟩ := prj_not_passed hf (valueLocal x) n
        exact ⟨e, bind_of_error he _⟩
  | buffers cpos b r ih =>
      rw [body]
      by_cases hb : AcceptedBuffers b.spec
      · rw [bodyForCbuffers_accepted _ _ _ _ _ _ hb]
        have hr : ¬ Accepted r.spec := fun hr => h ⟨hb, hr⟩
        obtain ⟨e, he⟩ := ih _ _ hr
        exact ⟨e, letsAround_of_error he⟩
      · exact bodyForCbuffers_rejected _ _ _ _ _ _ hb

/-! ### The end of a stub -/

/-- The code after the projections, for an injection `i` and `n` names. -/
def callTail (errno_ : ErrnoPolicy) (fvar : CFunction) (vars : List CExp) (t : Typ)
    (i : CEff) (n : Nat) : CComp :=
  let x : CLocal := (freshName (n + 1), .ty t)
  match errno_ with
  | .ignoreErrno => .letIn (x, .app fvar vars.reverse) i
  | .returnErrno =>
      let v : CLocal := (freshName (n + 2), .ty value)
      .letAssign (.var (.global errno)) (.exp (.int 0))
        (.letIn (x, .app fvar vars.reverse)
          (.letIn (v, i) (pairWithErrno (.clocal v))))

/-- What is done between the projections and the call. -/
def resetSteps : ErrnoPolicy → List Step
  | .ignoreErrno => []
  | .returnErrno => [.assign (.var (.global errno)) (.exp (.int 0))]

def returnSteps (errno_ : ErrnoPolicy) (i : CEff) (n : Nat) : List Step :=
  match errno_ with
  | .ignoreErrno => [.result i]
  | .returnErrno =>
      let v : CLocal := (freshName (n + 2), .ty value)
      [.bind (v, i), .result (pairWithErrno (.clocal v))]

def callStep (fvar : CFunction) (vars : List CExp) (t : Typ) (n : Nat) : Step :=
  .bind ((freshName (n + 1), .ty t), .app fvar vars.reverse)

theorem callTail_steps (errno_ : ErrnoPolicy) (fvar : CFunction) (vars : List CExp)
    (t : Typ) (i : CEff) (n : Nat) :
    (callTail errno_ fvar vars t i n).steps =
      resetSteps errno_ ++ callStep fvar vars t n :: returnSteps errno_ i n := by
  cases errno_ <;> rfl

theorem callAndReturn_accepted (errno_ : ErrnoPolicy) (fvar : CFunction)
    (vars : List CExp) (t : Typ) (n : Nat) (h : Injectable t.core) :
    ∃ i n', inj (freshName (n + 1), .ty t) t = .ok i ∧
      callAndReturn errno_ fvar vars t n = .ok (callTail errno_ fvar vars t i n, n') := by
  rcases inj_cases (freshName (n + 1), .ty t) t with ⟨-, i, hi, hinj⟩ | ⟨hn, -⟩
  · rw [callAndReturn, freshVar_bind, hi]
    cases errno_ with
    | ignoreErrno => exact ⟨i, _, rfl, rfl⟩
    | returnErrno =>
        refine ⟨i, n + 2, rfl, ?_⟩
        rw [lift_ok_bind]
        simp only [bind_apply, letBind_eff hinj.ne_exp]
        rfl
  · exact absurd h hn

/-- What is known of a generated stub. -/
structure StubOf (errno_ : ErrnoPolicy) (cname stubName : String) (f : Fn)
    (n : Nat) (d : CFundef) (f' : NamedFn) (n1 : Nat) (i : CEff) : Prop where
  spec_eq : f'.spec = f
  names : FreshNames n n1 f'.names
  inj_eq : inj (freshName ((layout [] f' n1).next + 1), .ty (layout [] f' n1).ret)
    (layout [] f' n1).ret = .ok i
  def_eq : d =
    { dec := { name := stubName, params := valueParams f', ret := .ty value }
      body := CComp.lets (layout [] f' n1).binds
        (callTail errno_ (foreignFunction cname f) (layout [] f' n1).vars
          (layout [] f' n1).ret i (layout [] f' n1).next)
      storage := .external }

theorem layout_ret_injectable (vars : List CExp) (f : NamedFn) (n : Nat)
    (h : Accepted f.spec) : Injectable (layout vars f n).ret.core := by
  induction f generalizing vars n with
  | returns t => exact h
  | function x f t ih =>
      rw [layout]
      split
      · exact ih _ _ h.2
      · exact ih _ _ h.2
  | buffers cpos b r ih => exact ih _ _ h.2

/-- The stub for parameters with given names. -/
theorem stub_named (errno_ : ErrnoPolicy) (cname stubName : String) {f : Fn} {n n1 : Nat}
    {f' : NamedFn} (hn : nameParams f n = .ok (f', n1)) (h : Accepted f) :
    ∃ d n2 i, stub errno_ cname stubName f n = .ok (d, n2) ∧
      StubOf errno_ cname stubName f n d f' n1 i := by
  obtain ⟨g, m, hg, hspec, hnames⟩ := nameParams_ok f n
  obtain ⟨rfl, rfl⟩ : g = f' ∧ m = n1 := by simpa [hg] using hn
  subst hspec
  obtain ⟨i, n2, hi, hc⟩ := callAndReturn_accepted errno_
    (foreignFunction cname g.spec) (layout [] g m).vars (layout [] g m).ret
    (layout [] g m).next (layout_ret_injectable [] g m h)
  have hbody : body errno_ (foreignFunction cname g.spec) [] g m =
      .ok (_, n2) :=
    (body_accepted _ _ _ _ _ h).trans (letsAround_eq_ok.mpr ⟨_, hc, rfl⟩)
  refine ⟨_, n2, i, ?_, rfl, hnames, hi, rfl⟩
  rw [stub, bind_of_ok hn, bind_of_ok hbody]
  rfl

theorem stub_accepted (errno_ : ErrnoPolicy) (cname stubName : String) (f : Fn)
    (n : Nat) (h : Accepted f) :
    ∃ d n2 f' n1 i, stub errno_ cname stubName f n = .ok (d, n2) ∧
      StubOf errno_ cname stubName f n d f' n1 i := by
  obtain ⟨f', n1, hf, -, -⟩ := nameParams_ok f n
  obtain ⟨d, n2, i, hd, hshape⟩ := stub_named errno_ cname stubName hf h
  exact ⟨d, n2, f', n1, i, hd, hshape⟩

theorem stub_rejected (errno_ : ErrnoPolicy) (cname stubName : String) (f : Fn)
    (n : Nat) (h : ¬ Accepted f) : ∃ e, stub errno_ cname stubName f n = .error e := by
  obtain ⟨f', n1, hf, rfl, -⟩ := nameParams_ok f n
  obtain ⟨e, he⟩ := body_rejected errno_ (foreignFunction cname f'.spec) [] f' n1 h
  refine ⟨e, ?_⟩
  rw [stub, bind_of_ok hf, bind_of_error he]

/-- A stub is generated for the accepted specifications and no others. -/
theorem stub_succeeds_iff (errno_ : ErrnoPolicy) (cname stubName : String) (f : Fn)
    (n : Nat) : Succeeds (stub errno_ cname stubName f) n ↔ Accepted f := by
  constructor
  · rintro ⟨r, hr⟩
    refine Classical.byContradiction fun hn => ?_
    obtain ⟨e, he⟩ := stub_rejected errno_ cname stubName f n hn
    rw [he] at hr
    cases hr
  · intro h
    obtain ⟨d, n2, f', n1, i, hd, -⟩ := stub_accepted errno_ cname stubName f n h
    exact ⟨_, hd⟩

/-- The rule that takes a generated stub apart. -/
theorem stub_eq_ok {errno_ : ErrnoPolicy} {cname stubName : String} {f : Fn}
    {n n2 : Nat} {d : CFundef} (h : stub errno_ cname stubName f n = .ok (d, n2)) :
    Accepted f ∧ ∃ f' n1 i, StubOf errno_ cname stubName f n d f' n1 i := by
  have hf : Accepted f := (stub_succeeds_iff errno_ cname stubName f n).mp ⟨_, h⟩
  obtain ⟨d', n2', f', n1, i, hd, hshape⟩ := stub_accepted errno_ cname stubName f n hf
  obtain ⟨rfl, rfl⟩ : d' = d ∧ n2' = n2 := by simpa [hd] using h
  exact ⟨hf, f', n1, i, hshape⟩

end CtypesCbuf.Cbuf.GenerateC
