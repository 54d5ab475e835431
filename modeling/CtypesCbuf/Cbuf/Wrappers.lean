import CtypesCbuf.Cbuf.Acceptance
import CtypesCbuf.MlLanguage.Rules

/-!
What the code of a generated wrapper does when it is run. Each part of the
generator draws names and says what they may be bound to; the parts of its
code are then run by the rules.
-/

namespace CtypesCbuf.Cbuf

open NameSupply Supply
open Ctypes hiding Fn
open CLanguage Stubs GenerateML MlLanguage

variable {V W : Type}

/-! ### Arguments -/

/-- What the external gets for an argument `x` of type `t`. -/
def argImage (I : MlLanguage.Interp V W) : Typ → V → V → Prop
  | .pointer _, x, y => y = I.cpointer x
  | .funptr _, x, y => y = I.staticFunptr x
  | .struct _ _ _, x, y | .union _ _ _, x, y => y = I.cpointer (I.addr x)
  | .view v ty, x, y => ∃ w, argImage I ty (I.write v x w).1 y
  | _, x, y => y = x

def writes : Place → Typ → List Label
  | p, .view _ ty => .write p :: writes p.below ty
  | _, _ => []

abbrev Constraints (V W : Type) := List (String × (Sem V W → Prop))

def Respects (T : Typing V W) (C : Constraints V W) : Prop := ∀ q ∈ C, T q.1 = q.2

/-- The variables of a pattern are bound to parts of the description. -/
def dataConstraints (b : Bindings) : Constraints V W := b.map fun q => (q.1, IsData q.2)

/-- What the code for an argument does: the bindings `front` and `back` run the
write functions, and `out` is passed to the external. -/
def ArgumentRuns (I : MlLanguage.Interp V W) (F : File) (T : Typing V W) (t : Typ) (p : Place)
    (front back : List MlBind) (out : Option MlExp) (e : MlExp) (Q : V → Prop)
    (D : List String) (tr : List Label) : Prop :=
  ∃ trb trf tro, trb ++ trf ++ tro = tr ++ writes p t ∧
    (∀ w0 c, Runs I F T w0 D c back trb) ∧
    (∀ w0 c, Runs I F T w0 (boundNames back ++ D) c front trf) ∧
    (tro = if out.isSome then [] else tr) ∧
    Emits I F T (boundNames front ++ (boundNames back ++ D)) (out.getD e) tro
      fun y => ∃ x, Q x ∧ argImage I t x y

/-- What is generated for an argument `e` of type `t` with values in `Q`: a
pattern, further bindings around those that there are, and what is passed. The
names in them are drawn from `n` to `n'`. -/
def ArgumentSpec (I : MlLanguage.Interp V W) (F : File) (t : Typ) (p : Place) (Q : V → Prop)
    (e : MlExp) (binds : List MlBind) (n n' : Nat) (r : PatternExp) : Prop :=
  ∃ (b : Bindings) (C : Constraints V W) (front back : List MlBind),
    matchPat r.pat (.typ p t) = some b ∧ r.binds = front ++ binds ++ back ∧
    FreshNames n n' (b.map Prod.fst ++ C.map Prod.fst) ∧
    (r.exp = none → front = [] ∧ back = []) ∧
    (∀ x ∈ boundNames (front ++ back), ∃ Q, (x, IsVal Q) ∈ C) ∧
    ∀ T, Respects T (dataConstraints b) → Respects T C → ∀ D tr, b.map Prod.fst ⊆ D →
      Emits I F T D e tr Q → ArgumentRuns I F T t p front back r.exp e Q D tr

section Argument

variable {I : MlLanguage.Interp V W} {F : File} {t : Typ} {p : Place} {Q : V → Prop} {e : MlExp}
  {binds : List MlBind} {n n' : Nat} {pat : MlPat}

/-- A value that is passed on as it is. -/
theorem argumentSpec_same (hpat : matchPat pat (.typ p t) = some [])
    (hwrites : writes p t = []) (himage : ∀ x y, argImage I t x y ↔ y = x) :
    ArgumentSpec I F t p Q e binds n n ⟨pat, none, binds⟩ := by
  refine ⟨[], [], [], [], hpat, by simp, FreshNames.nil n, fun _ => ⟨rfl, rfl⟩, nofun, ?_⟩
  intro T _ _ D tr _ he
  refine ⟨[], [], tr, by simp [hwrites], fun _ _ => .nil, fun _ _ => .nil, rfl, ?_⟩
  exact he.imp fun s evs v hv => ⟨hv.1, v, hv.2, (himage v v).mpr rfl⟩

/-- A value that is taken apart by the last binding. -/
theorem argumentSpec_bind {q : MlPat} {e' : MlExp} {k : V → V}
    (hpat : matchPat pat (.typ p t) = some []) (hwrites : writes p t = [])
    (himage : ∀ x y, argImage I t x y ↔ y = k x)
    (hq : patBoundVars q = [freshName (n + 1)])
    (hruns : ∀ T D tr w0 c, Emits I F T D e tr Q →
      (T (freshName (n + 1)) = IsVal fun y => ∃ x, Q x ∧ y = k x) →
      Runs I F T w0 D c [(q, e')] tr) :
    ArgumentSpec I F t p Q e binds n (n + 1)
      ⟨pat, some (.ident [freshName (n + 1)]), binds ++ [(q, e')]⟩ := by
  have hnames : boundNames [(q, e')] = [freshName (n + 1)] := by
    rw [boundNames, List.flatMap_singleton, hq]
  refine ⟨[], [(freshName (n + 1), IsVal fun y => ∃ x, Q x ∧ y = k x)], [], [(q, e')], hpat,
    by simp, FreshNames.single (n + 1) (by omega) (Nat.le_refl _), (fun h => by cases h), ?_, ?_⟩
  · intro x hx
    rw [List.nil_append, hnames] at hx
    obtain rfl := List.mem_singleton.mp hx
    exact ⟨_, List.mem_singleton.mpr rfl⟩
  · intro T _ hC D tr _ he
    have hT := hC _ (List.mem_singleton.mpr rfl)
    refine ⟨tr, [], [], by simp [hwrites], fun w0 c => hruns T D tr w0 c he hT,
      fun _ _ => .nil, rfl, ?_⟩
    have hmem : freshName (n + 1) ∈ boundNames ([] : List MlBind) ++
        (boundNames [(q, e')] ++ D) := by
      rw [hnames]
      simp [boundNames]
    refine (emits_ident hmem hT).imp ?_
    rintro s evs y ⟨htr, x, hx, hy⟩
    exact ⟨htr, x, hx, (himage x y).mpr hy⟩

theorem matchPat_view {ty : Typ} {b : Bindings}
    (h : matchPat pat (.typ p.below ty) = some b) (v : ViewId) {l : Path} {d : Data}
    (hl : (Data.view p v ty).field l = some d) (n : Nat) :
    matchPat (staticCon "View"
      [.record (.cons ["CI", "ty"] pat (.cons l (.var (freshName n)) .nil)) false])
      (.typ p (.view v ty)) = some (b ++ [(freshName n, d)]) := by
  have hty : (Data.view p v ty).field ["CI", "ty"] = some (.typ p.below ty) := rfl
  simp [staticCon, MlPats.ofList, matchPat, matchPats, matchFields, h, hl, hty]

/-- A view: what its write function returns is an argument of the type below. -/
theorem argumentSpec_view {v : ViewId} {ty : Typ} {r : PatternExp}
    (h : ArgumentSpec I F ty p.below (fun y => ∃ x, Q x ∧ ∃ w, y = (I.write v x w).1)
      (.appl (.ident [freshName (n + 1)]) e) binds (n + 2) n' r) :
    ArgumentSpec I F (.view v ty) p Q e binds n n'
      ⟨staticCon "View" [.record (.cons ["CI", "ty"] r.pat
          (.cons ["write"] (.var (freshName (n + 1))) .nil)) false],
        some (.ident [freshName (n + 2)]),
        (.var (freshName (n + 2)), r.exp.getD (.appl (.ident [freshName (n + 1)]) e)) ::
          r.binds⟩ := by
  obtain ⟨b, C, front, back, hpat, hbinds, hnames, -, hbound, hruns⟩ := h
  let Q1 : V → Prop := fun y => ∃ x, Q x ∧ ∃ w, y = (I.write v x w).1
  let Q2 : V → Prop := fun y => ∃ x, Q1 x ∧ argImage I ty x y
  let bind : MlBind :=
    (.var (freshName (n + 2)), r.exp.getD (.appl (.ident [freshName (n + 1)]) e))
  have hbindNames : boundNames [bind] = [freshName (n + 2)] := rfl
  refine ⟨b ++ [(freshName (n + 1), .write p v)], (freshName (n + 2), IsVal Q2) :: C,
    bind :: front, back, matchPat_view hpat v rfl _, ?_, ?_, (fun h => by cases h), ?_, ?_⟩
  · rw [hbinds]
    rfl
  · have h1 : FreshNames n (n + 1) [freshName (n + 1)] :=
      FreshNames.single (n + 1) (by omega) (Nat.le_refl _)
    have h2 : FreshNames (n + 1) (n + 2) [freshName (n + 2)] :=
      FreshNames.single (n + 2) (by omega) (Nat.le_refl _)
    refine ((h1.append h2).append hnames).perm ?_
    simp only [List.map_append, List.map_cons, List.map_nil, List.append_assoc,
      List.cons_append, List.nil_append]
    exact (List.perm_middle.trans (.cons _ List.perm_middle)).symm
  · intro x hx
    rw [List.cons_append, ← List.singleton_append, boundNames_append, hbindNames] at hx
    rcases List.mem_append.mp hx with hx | hx
    · obtain rfl := List.mem_singleton.mp hx
      exact ⟨Q2, List.mem_cons_self⟩
    · obtain ⟨Q', hQ'⟩ := hbound x hx
      exact ⟨Q', List.mem_cons_of_mem _ hQ'⟩
  · intro T hb hC D tr hD he
    have hx : freshName (n + 1) ∈ D := hD (by simp)
    have hTx : T (freshName (n + 1)) = IsData (.write p v) :=
      hb (freshName (n + 1), IsData (.write p v)) (by simp [dataConstraints])
    have hTy : T (freshName (n + 2)) = IsVal Q2 := hC _ List.mem_cons_self
    have happl : Emits I F T D (.appl (.ident [freshName (n + 1)]) e) (tr ++ [.write p]) Q1 :=
      he.appl (fun env s hs => eval_data hs hx hTx s) (fun _ _ => rfl) (acts_write p v)
    obtain ⟨trb, trf, tro, htr, hback, hfront, -, hout⟩ := hruns T
      (fun q hq => hb q (by
        rw [dataConstraints, List.map_append]
        exact List.mem_append_left _ hq))
      (fun q hq => hC q (List.mem_cons_of_mem _ hq)) D _
      (fun y hy => hD (by
        rw [List.map_append]
        exact List.mem_append_left _ hy)) happl
    refine ⟨trb, trf ++ tro, [], ?_, hback, fun w0 c => ?_, rfl, ?_⟩
    · rw [List.append_nil, ← List.append_assoc, htr, List.append_assoc]
      rfl
    · exact (hfront w0 c).append (Runs.var hout (.inl ⟨_, rfl⟩) hTy)
    · refine (emits_ident (List.mem_append_left _ List.mem_cons_self) hTy).imp ?_
      rintro s evs y ⟨htr, u, ⟨x, hx, w, rfl⟩, hy⟩
      exact ⟨htr, x, hx, w, hy⟩

theorem argument_spec (hF : F.Sound) {concurrency : ConcurrencyPolicy} {errno_ : ErrnoPolicy}
    {r : PatternExp}
    (h : patternAndExpOfTyp concurrency errno_ t e .arg binds n = .ok (r, n')) :
    ArgumentSpec I F t p Q e binds n n' r := by
  -- structures and unions are passed by address
  have hstructured : ∀ T D tr w0 c n {Q : V → Prop} {e : MlExp}, Emits I F T D e tr Q →
      (T (freshName n) = IsVal fun y => ∃ x, Q x ∧ y = I.cpointer (I.addr x)) →
      Runs I F T w0 D c [(staticCon "CPointer" [.var (freshName n)],
        .appl (.ident ["Ctypes", "addr"]) e)] tr := by
    intro T D tr w0 c n Q e he hT
    have haddr := he.applLibrary hF (p := ["Ctypes", "addr"]) (f := .addr) rfl fun _ _ => rfl
    refine Runs.cpointer haddr (.inl ⟨n, rfl⟩) (hT.trans ?_)
    congr 1
    funext y
    simp
  induction t using Typ.core.induct generalizing p Q e n n' r with
  | case1 v ty ih =>
      simp only [patternAndExpOfTyp, freshVar_bind, ident_bind, bind_eq_ok, pure_apply,
        Except.ok.injEq, Prod.mk.injEq] at h
      obtain ⟨r1, n1, hr1, rfl, rfl⟩ := h
      exact argumentSpec_view (ih hr1)
  | case2 t hview =>
      cases t with
      | view v ty => exact absurd rfl (hview v ty)
      | void =>
          cases h
          exact argumentSpec_same rfl rfl fun _ _ => Iff.rfl
      | primitive k =>
          cases h
          exact argumentSpec_same
            (by simp [staticCon, MlPats.ofList, matchPat, matchPats]) rfl
            fun _ _ => Iff.rfl
      | ocaml o =>
          cases o <;> cases h <;>
            exact argumentSpec_same rfl rfl fun _ _ => Iff.rfl
      | pointer u =>
          simp only [patternAndExpOfTyp, freshVar_bind, ident_bind, pure_apply,
            Except.ok.injEq, Prod.mk.injEq] at h
          obtain ⟨rfl, rfl⟩ := h
          exact argumentSpec_bind rfl rfl (fun _ _ => Iff.rfl) rfl
            fun T D tr w0 c he hT => Runs.cpointer he (.inl ⟨_, rfl⟩) hT
      | funptr fn =>
          simp only [patternAndExpOfTyp, freshVar_bind, ident_bind, pure_apply,
            Except.ok.injEq, Prod.mk.injEq] at h
          obtain ⟨rfl, rfl⟩ := h
          exact argumentSpec_bind rfl rfl (fun _ _ => Iff.rfl) rfl
            fun T D tr w0 c he hT => Runs.staticFunptr he (.inl ⟨_, rfl⟩) hT
      | struct tag spec fields =>
          simp only [patternAndExpOfTyp, freshVar_bind, ident_bind, pure_apply,
            Except.ok.injEq, Prod.mk.injEq] at h
          obtain ⟨rfl, rfl⟩ := h
          exact argumentSpec_bind rfl rfl (fun _ _ => Iff.rfl) rfl
            fun T D tr w0 c he hT => hstructured T D tr w0 c _ he hT
      | union utag uspec ufields =>
          simp only [patternAndExpOfTyp, freshVar_bind, ident_bind, pure_apply,
            Except.ok.injEq, Prod.mk.injEq] at h
          obtain ⟨rfl, rfl⟩ := h
          exact argumentSpec_bind rfl rfl (fun _ _ => Iff.rfl) rfl
            fun T D tr w0 c he hT => hstructured T D tr w0 c _ he hT
      | abstract a => simp [patternAndExpOfTyp] at h
      | array u k => simp [patternAndExpOfTyp] at h
      | bigarray ba => simp [patternAndExpOfTyp] at h

end Argument

/-! ### Results -/

/-- What OCaml gets for a result `x` of type `t`. -/
def returnImage (I : MlLanguage.Interp V W) (F : File) : Typ → V → V → Prop
  | .pointer t, x, y => mapped I F (fun x y => y = I.makePtr t x) x y
  | .funptr fn, x, y => mapped I F (fun x y => y = I.makeFunPtr fn x) x y
  | .struct tag spec fields, x, y =>
      mapped I F (fun x y => y = I.makeStructured (.struct tag spec fields) x) x y
  | .union utag uspec ufields, x, y =>
      mapped I F (fun x y => y = I.makeStructured (.union utag uspec ufields) x) x y
  | .view v ty, x, y =>
      ∃ u, returnImage I F ty x u ∧ mapped I F (fun x y => ∃ w, y = (I.read v x w).1) u y
  | _, x, y => y = x

def reads : Place → Typ → List Label
  | p, .view _ ty => reads p.below ty ++ [.read p]
  | _, _ => []

def GenerateML.ResultMap.name : ResultMap → String
  | .makePtr x | .makeFunPtr x | .makeStructured x | .appl x => x

def GenerateML.ResultMap.function : ResultMap → MlExp
  | .makePtr x => .appl (.ident ["CI", "make_ptr"]) (.ident [x])
  | .makeFunPtr x => .appl (.ident ["CI", "make_fun_ptr"]) (.ident [x])
  | .makeStructured x => .appl (.ident ["CI", "make_structured"]) (.ident [x])
  | .appl x => .ident [x]

def GenerateML.ResultMap.direct : ResultMap → MlExp → MlExp
  | .makePtr x, e => .makePtr (.ident [x]) e
  | .makeFunPtr x, e => .makeFunPtr (.ident [x]) e
  | .makeStructured x, e => .makeStructured (.ident [x]) e
  | .appl x, e => .appl (.ident [x]) e

/-- Both forms apply `g`. -/
structure MapsBy (I : MlLanguage.Interp V W) (F : File) (T : Typing V W) (D : List String)
    (f : ResultMap) (g : Sem V W) : Prop where
  function : ∀ env s, Sat T D env → eval I F f.function env s = some (g, s)
  direct : ∀ env s s1 e x, Sat T D env → eval I F e env s = some (.val x, s1) →
    eval I F (f.direct e) env s = applyVal I F g x s1
  ne_val : ∀ v, g ≠ .val v

section Result

variable {I : MlLanguage.Interp V W} {F : File} {T : Typing V W} {D : List String} {x : String}

theorem mapsBy_makePtr (hF : F.Sound) {p : Place} {t : Typ} (hx : x ∈ D)
    (hT : T x = IsData (.typ p t)) :
    MapsBy I F T D (.makePtr x) (.library .makePtr [.data (.typ p t)]) := by
  refine ⟨fun env s hs => ?_, fun env s s1 e v hs he => ?_, nofun⟩
  · exact eval_appl (eval_data hs hx hT s)
      (eval_library hF hs (p := ["CI", "make_ptr"]) (f := .makePtr) rfl s)
  · rw [ResultMap.direct, eval, he, evalMake]
    simp only [Option.bind_some, eval_data hs hx hT]
    rfl

theorem mapsBy_makeFunPtr (hF : F.Sound) {fn : Ctypes.Fn} (hx : x ∈ D)
    (hT : T x = IsData (.ctypesFn fn)) :
    MapsBy I F T D (.makeFunPtr x) (.library .makeFunPtr [.data (.ctypesFn fn)]) := by
  refine ⟨fun env s hs => ?_, fun env s s1 e v hs he => ?_, nofun⟩
  · exact eval_appl (eval_data hs hx hT s)
      (eval_library hF hs (p := ["CI", "make_fun_ptr"]) (f := .makeFunPtr) rfl s)
  · rw [ResultMap.direct, eval, he, evalMake]
    simp only [Option.bind_some, eval_data hs hx hT]
    rfl

theorem mapsBy_makeStructured (hF : F.Sound) {p : Place} {t : Typ} (hx : x ∈ D)
    (hT : T x = IsData (.typ p t)) :
    MapsBy I F T D (.makeStructured x) (.library .makeStructured [.data (.typ p t)]) := by
  refine ⟨fun env s hs => ?_, fun env s s1 e v hs he => ?_, nofun⟩
  · exact eval_appl (eval_data hs hx hT s)
      (eval_library hF hs (p := ["CI", "make_structured"]) (f := .makeStructured) rfl s)
  · rw [ResultMap.direct, eval, he, evalMake]
    simp only [Option.bind_some, eval_data hs hx hT]
    rfl

theorem mapsBy_read {p : Place} {v : ViewId} (hx : x ∈ D) (hT : T x = IsData (.read p v)) :
    MapsBy I F T D (.appl x) (.data (.read p v)) := by
  refine ⟨fun env s hs => eval_data hs hx hT s, fun env s s1 e u hs he => ?_, nofun⟩
  exact eval_appl he (eval_data hs hx hT s1)

/-- The library's `map_result` is left out where it would only apply its function. -/
theorem mapResult_eq_ok {concurrency : ConcurrencyPolicy} {errno_ : ErrnoPolicy}
    {f : ResultMap} {k n n' : Nat} {e e' : MlExp} (hname : f.name = freshName k)
    (h : mapResult concurrency errno_ f e n = .ok (e', n')) :
    n' = n ∧ (((concurrency = .sequential ∨ concurrency = .unlocked) ∧
        errno_ = .ignoreErrno ∧ e' = f.direct e) ∨
      e' = .appl (.appl (.ident mapResultId) f.function) e) := by
  unfold mapResult at h
  dsimp only at h
  split at h <;> obtain rfl := hname <;>
    simp only [ident_bind, pure_apply, Except.ok.injEq, Prod.mk.injEq] at h <;>
    obtain ⟨rfl, rfl⟩ := h <;> first
      | exact ⟨rfl, .inl ⟨.inl rfl, rfl, rfl⟩⟩
      | exact ⟨rfl, .inl ⟨.inr rfl, rfl, rfl⟩⟩
      | exact ⟨rfl, .inr rfl⟩

/-- Mapping a result. -/
theorem mapResult_evals (hF : F.Sound) {f : ResultMap} {g : Sem V W} {tr : List Label}
    {G : V → V → Prop} (hf : MapsBy I F T D f g) (hg : Acts I F g tr G) {e e' : MlExp}
    {R : Store V W → List (Event V) → V → Prop} (he : Evals I F T D e R)
    (he' : ((F.concurrency = .sequential ∨ F.concurrency = .unlocked) ∧
        F.errno_ = .ignoreErrno ∧ e' = f.direct e) ∨
      e' = .appl (.appl (.ident mapResultId) f.function) e) :
    Evals I F T D e' fun s evs y => ∃ evs1 evs2 x, evs = evs1 ++ evs2 ∧
      R s evs1 x ∧ evs2.map Event.label = tr ∧ mapped I F G x y := by
  rcases he' with ⟨hc, herrno, rfl⟩ | rfl
  · intro env s hs
    obtain ⟨x, evs1, heval, hR⟩ := he env s hs
    obtain ⟨y, evs2, happ, htr, hG⟩ := hg x (s.after I evs1)
    refine ⟨y, evs1 ++ evs2, ?_, evs1, evs2, x, rfl, hR, htr,
      (mapped_direct I ⟨hc, herrno⟩).mpr hG⟩
    rw [hf.direct env s _ e x hs heval, happ, Store.after_after]
  · exact he.applMapResult hF hf.function hf.ne_val hg

end Result

/-- What is generated for a result `e` of type `t`: a pattern, whose names are
drawn from `n` to `n'`, and an expression for its image. -/
def ResultSpec (I : MlLanguage.Interp V W) (F : File) (t : Typ) (p : Place) (e : MlExp)
    (binds : List MlBind) (n n' : Nat) (r : PatternExp) : Prop :=
  ∃ b : Bindings, matchPat r.pat (.typ p t) = some b ∧ r.binds = binds ∧
    FreshNames n n' (b.map Prod.fst) ∧
    ∀ T D R, Respects T (dataConstraints b) → b.map Prod.fst ⊆ D → Evals I F T D e R →
      Evals I F T D (r.exp.getD e) fun s evs y => ∃ evs1 evs2 x, evs = evs1 ++ evs2 ∧
        R s evs1 x ∧ evs2.map Event.label = reads p t ∧ returnImage I F t x y

section Result

variable {I : MlLanguage.Interp V W} {F : File} {t : Typ} {p : Place} {e : MlExp}
  {binds : List MlBind} {n n' : Nat} {pat : MlPat}

/-- A value that is returned as it is. -/
theorem resultSpec_same (hpat : matchPat pat (.typ p t) = some []) (hreads : reads p t = [])
    (himage : ∀ x y, returnImage I F t x y ↔ y = x) :
    ResultSpec I F t p e binds n n ⟨pat, none, binds⟩ := by
  refine ⟨[], hpat, rfl, FreshNames.nil n, fun T D R _ _ he => he.imp ?_⟩
  intro s evs v hR
  exact ⟨evs, [], v, by simp, hR, hreads.symm, (himage v v).mpr rfl⟩

/-- A value that `map_result` is applied to. -/
theorem resultSpec_map (hF : F.Sound) {f : ResultMap} {e' : MlExp} {d : Data}
    {g : Sem V W} {k : V → V}
    (hpat : matchPat pat (.typ p t) = some [(freshName (n + 1), d)])
    (hreads : reads p t = []) (hname : f.name = freshName (n + 1))
    (himage : ∀ x y, returnImage I F t x y ↔ mapped I F (fun x y => y = k x) x y)
    (hmaps : ∀ T D, freshName (n + 1) ∈ D → T (freshName (n + 1)) = IsData d →
      MapsBy I F T D f g)
    (hk : ∀ x s, applyVal I F g x s = some (.val (k x), s))
    (h : mapResult F.concurrency F.errno_ f e (n + 1) = .ok (e', n')) :
    ResultSpec I F t p e binds n n' ⟨pat, some e', binds⟩ := by
  obtain ⟨rfl, he'⟩ := mapResult_eq_ok hname h
  refine ⟨_, hpat, rfl, FreshNames.single (n + 1) (by omega) (Nat.le_refl _), ?_⟩
  intro T D R hT hD he
  have hx : freshName (n + 1) ∈ D := hD (by simp)
  have hTx : T (freshName (n + 1)) = IsData d := hT _ (List.mem_singleton.mpr rfl)
  refine (mapResult_evals hF (hmaps T D hx hTx) (acts_pure hk) he he').imp ?_
  rintro s evs y ⟨evs1, evs2, x, rfl, hR, htr, hG⟩
  exact ⟨evs1, evs2, x, rfl, hR, htr.trans hreads.symm, (himage x y).mpr hG⟩

theorem matchPat_con_var {c : String} {d d' : Data} (hd : d.con = some (["CI", c], [d']))
    (n : Nat) : matchPat (staticCon c [.var (freshName n)]) d = some [(freshName n, d')] := by
  simp [staticCon, MlPats.ofList, matchPat, matchPats, hd]

theorem matchPat_as_con {c : String} {d d' : Data} (hd : d.con = some (["CI", c], [d']))
    (n : Nat) :
    matchPat (.as (staticCon c [.underscore]) (freshName n)) d = some [(freshName n, d)] := by
  simp [staticCon, MlPats.ofList, matchPat, matchPats, hd]

/-- A view: its read function is applied to the image at the type below. -/
theorem resultSpec_view (hF : F.Sound) {v : ViewId} {ty : Typ} {r : PatternExp} {n1 : Nat}
    {e' : MlExp} (hr : ResultSpec I F ty p.below e binds n n1 r)
    (h : mapResult F.concurrency F.errno_ (.appl (freshName (n1 + 1))) (r.exp.getD e)
      (n1 + 1) = .ok (e', n')) :
    ResultSpec I F (.view v ty) p e binds n n'
      ⟨staticCon "View" [.record (.cons ["CI", "ty"] r.pat
          (.cons ["read"] (.var (freshName (n1 + 1))) .nil)) false],
        some e', r.binds⟩ := by
  obtain ⟨rfl, he'⟩ := mapResult_eq_ok rfl h
  obtain ⟨b, hpat, hbinds, hnames, hruns⟩ := hr
  refine ⟨b ++ [(freshName (n1 + 1), .read p v)], matchPat_view hpat v rfl _, hbinds, ?_, ?_⟩
  · rw [List.map_append]
    exact hnames.append (FreshNames.single (n1 + 1) (by omega) (Nat.le_refl _))
  · intro T D R hT hD he
    rw [dataConstraints, List.map_append] at hT
    rw [List.map_append] at hD
    have hx : freshName (n1 + 1) ∈ D := hD (by simp)
    have hTx : T (freshName (n1 + 1)) = IsData (.read p v) :=
      hT (freshName (n1 + 1), IsData (.read p v)) (by simp)
    have hbelow := hruns T D R (fun q hq => hT q (List.mem_append_left _ hq))
      (fun y hy => hD (List.mem_append_left _ hy)) he
    refine (mapResult_evals hF (mapsBy_read hx hTx) (acts_read p v) hbelow he').imp ?_
    rintro s evs y ⟨evs', evs3, u, rfl, ⟨evs1, evs2, x, rfl, hR, htr2, hu⟩, htr3, hG⟩
    refine ⟨evs1, evs2 ++ evs3, x, List.append_assoc .., hR, ?_, u, hu, hG⟩
    rw [List.map_append, htr2, htr3]
    rfl

theorem result_spec (hF : F.Sound) {r : PatternExp}
    (h : patternAndExpOfTyp F.concurrency F.errno_ t e .result binds n = .ok (r, n')) :
    ResultSpec I F t p e binds n n' r := by
  induction t using Typ.core.induct generalizing p n n' r with
  | case1 v ty ih =>
      simp only [patternAndExpOfTyp, freshVar_bind, bind_eq_ok, pure_apply,
        Except.ok.injEq, Prod.mk.injEq] at h
      obtain ⟨r1, n1, hr1, e', n2, he', rfl, rfl⟩ := h
      exact resultSpec_view hF (ih hr1) he'
  | case2 t hview =>
      cases t with
      | view v ty => exact absurd rfl (hview v ty)
      | void =>
          cases h
          exact resultSpec_same rfl rfl fun _ _ => Iff.rfl
      | primitive k =>
          cases h
          exact resultSpec_same
            (by simp [staticCon, MlPats.ofList, matchPat, matchPats]) rfl
            fun _ _ => Iff.rfl
      | pointer u =>
          simp only [patternAndExpOfTyp, freshVar_bind, bind_eq_ok, pure_apply,
            Except.ok.injEq, Prod.mk.injEq] at h
          obtain ⟨e', n2, he', rfl, rfl⟩ := h
          exact resultSpec_map hF (matchPat_con_var rfl _) rfl rfl (fun _ _ => Iff.rfl)
            (fun T D hx hT => mapsBy_makePtr hF hx hT) (fun _ _ => rfl) he'
      | funptr fn =>
          simp only [patternAndExpOfTyp, freshVar_bind, bind_eq_ok, pure_apply,
            Except.ok.injEq, Prod.mk.injEq] at h
          obtain ⟨e', n2, he', rfl, rfl⟩ := h
          exact resultSpec_map hF (matchPat_con_var rfl _) rfl rfl (fun _ _ => Iff.rfl)
            (fun T D hx hT => mapsBy_makeFunPtr hF hx hT) (fun _ _ => rfl) he'
      | struct tag spec fields =>
          simp only [patternAndExpOfTyp, freshVar_bind, bind_eq_ok, pure_apply,
            Except.ok.injEq, Prod.mk.injEq] at h
          obtain ⟨e', n2, he', rfl, rfl⟩ := h
          exact resultSpec_map hF (matchPat_as_con rfl _) rfl rfl (fun _ _ => Iff.rfl)
            (fun T D hx hT => mapsBy_makeStructured hF hx hT) (fun _ _ => rfl) he'
      | union utag uspec ufields =>
          simp only [patternAndExpOfTyp, freshVar_bind, bind_eq_ok, pure_apply,
            Except.ok.injEq, Prod.mk.injEq] at h
          obtain ⟨e', n2, he', rfl, rfl⟩ := h
          exact resultSpec_map hF (matchPat_as_con rfl _) rfl rfl (fun _ _ => Iff.rfl)
            (fun T D hx hT => mapsBy_makeStructured hF hx hT) (fun _ _ => rfl) he'
      | ocaml o => cases o <;> simp [patternAndExpOfTyp] at h
      | abstract a => simp [patternAndExpOfTyp] at h
      | array u k => simp [patternAndExpOfTyp] at h
      | bigarray ba => simp [patternAndExpOfTyp] at h

end Result

end CtypesCbuf.Cbuf
