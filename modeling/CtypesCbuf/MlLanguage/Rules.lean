import Mathlib.Data.List.Forall2
import CtypesCbuf.MlLanguage.Semantics

/-!
Rules for runs of generated code. A typing says of every name what it may be
bound to; since it is fixed, a name that is bound again is bound to something
of the same kind. `Evals` gives what an expression returns and logs wherever
some names are bound so, and `Runs` what a list of bindings does.
-/

namespace CtypesCbuf.MlLanguage

open NameSupply
open Ctypes hiding Fn
open CLanguage Stubs Cbuf Cbuf.GenerateML

variable {V W : Type} {I : Interp V W} {F : File}

/-! ### The log -/

def Event.effect (I : Interp V W) : Event V → W → W
  | .write _ v x, w => (I.write v x w).2
  | .read _ v x, w => (I.read v x w).2
  | .create i, w => (I.bytesCreate i w).2
  | .call args, w => (I.external args w).2

def replay (I : Interp V W) (evs : List (Event V)) (w : W) : W :=
  evs.foldl (fun w e => e.effect I w) w

def Store.after (I : Interp V W) (s : Store V W) (evs : List (Event V)) : Store V W :=
  { log := s.log ++ evs, world := replay I evs s.world }

@[simp] theorem replay_append (I : Interp V W) (evs evs' : List (Event V)) (w : W) :
    replay I (evs ++ evs') w = replay I evs' (replay I evs w) := List.foldl_append

@[simp] theorem Store.after_nil (I : Interp V W) (s : Store V W) : s.after I [] = s := by
  simp [Store.after, replay]

@[simp] theorem Store.after_after (I : Interp V W) (s : Store V W)
    (evs evs' : List (Event V)) : (s.after I evs).after I evs' = s.after I (evs ++ evs') := by
  simp [Store.after]

/-- An event without the values it is about. -/
inductive Label
  | write (p : Place) | read (p : Place) | create (i : Nat) | call
  deriving DecidableEq, Repr

def Event.label : Event V → Label
  | .write p _ _ => .write p
  | .read p _ _ => .read p
  | .create i => .create i
  | .call _ => .call

def created (tr : List Label) : List Nat :=
  tr.filterMap fun
    | .create i => some i
    | _ => none

@[simp] theorem created_append (tr tr' : List Label) :
    created (tr ++ tr') = created tr ++ created tr' := List.filterMap_append

/-! ### Environments -/

def IsLocal (x : String) : Prop := (∃ n, x = freshName n) ∨ x = "_"

def IsGlobal (p : Path) : Prop := ∀ x, p = [x] → ¬ IsLocal x

/-- The name of the external is no other name. -/
structure File.Sound (F : File) : Prop where
  isGlobal : IsGlobal F.external
  new : libraryTable.lookup F.external = none

theorem isGlobal_of_underscore {x : String} (h : '_' ∈ x.toList) (hne : x ≠ "_") :
    IsGlobal [x] := by
  intro y hy
  obtain rfl := List.singleton_inj.mp hy
  rintro (⟨n, rfl⟩ | hx)
  · rcases mem_freshName h with h | h
    · cases h
    · cases h
  · exact hne hx

/-- Names of the library are not local. -/
theorem isGlobal_of_library {p : Path} {f : Library}
    (h : libraryTable.lookup p = some f) : IsGlobal p := by
  have hlong : ∀ q ∈ libraryTable, q.1.length = 1 → ∃ x, q.1 = [x] ∧ '_' ∈ x.toList ∧
      x ≠ "_" := by
    simp only [libraryTable, List.forall_mem_cons]
    refine ⟨nofun, nofun, nofun, nofun, nofun, nofun, nofun, fun _ => ⟨_, rfl, ?_⟩,
      fun _ => ⟨_, rfl, ?_⟩, nofun, nofun, nofun, nofun, nofun⟩ <;> decide
  obtain ⟨q, hq, hfst⟩ : ∃ q ∈ libraryTable, q.1 = p := by
    obtain ⟨l1, l2, hl, -⟩ := List.lookup_eq_some_iff.mp h
    exact ⟨(p, f), by rw [hl]; simp, rfl⟩
  intro x hx
  obtain ⟨y, hy, hmem, hne⟩ := hlong q hq (by rw [hfst, hx]; rfl)
  exact isGlobal_of_underscore hmem hne x (by rw [← hx, ← hfst, hy])

abbrev Typing (V W : Type) := String → Sem V W → Prop

/-- The names `D` are bound to what they may be. -/
structure Sat (T : Typing V W) (D : List String) (env : Env V W) : Prop where
  typed : ∀ x ∈ D, ∃ d, env.lookup x = some d ∧ T x d
  locals : ∀ q ∈ env, IsLocal q.1

theorem Sat.mono {T : Typing V W} {D D' : List String} {env : Env V W} (h : Sat T D' env)
    (hsub : D ⊆ D') : Sat T D env :=
  ⟨fun x hx => h.typed x (hsub hx), h.locals⟩

theorem Sat.bind {T : Typing V W} {D : List String} {env : Env V W} (h : Sat T D env)
    {x : String} {d : Sem V W} (hx : IsLocal x) (hd : T x d) :
    Sat T (x :: D) ((x, d) :: env) := by
  refine ⟨fun y hy => ?_, fun q hq => ?_⟩
  · rw [List.lookup_cons]
    by_cases hyx : y = x
    · subst hyx
      exact ⟨d, by simp, hd⟩
    · have hmem : y ∈ D := (List.mem_cons.mp hy).resolve_left hyx
      simpa [beq_eq_false_iff_ne.mpr hyx] using h.typed y hmem
  · rcases List.mem_cons.mp hq with rfl | hq
    · exact hx
    · exact h.locals q hq

theorem evalIdent_local {T : Typing V W} {D : List String} {env : Env V W}
    (h : Sat T D env) {x : String} (hx : x ∈ D) :
    ∃ d, evalIdent F env [x] = some d ∧ T x d := by
  obtain ⟨d, hd, hT⟩ := h.typed x hx
  exact ⟨d, by simp [evalIdent, lookupLocal, hd], hT⟩

theorem evalIdent_global {T : Typing V W} {D : List String} {env : Env V W}
    (h : Sat T D env) {p : Path} (hp : IsGlobal p) :
    evalIdent F env p = if p = F.external then some (.external [])
      else (libraryTable.lookup p).map fun f => .library f [] := by
  have hnone : lookupLocal env p = none := by
    unfold lookupLocal
    split
    · rename_i x
      rw [List.lookup_eq_none_iff]
      intro q hq
      rw [bne_iff_ne]
      rintro rfl
      exact hp _ rfl (h.locals q hq)
    · rfl
  rw [evalIdent, hnone]

/-! ### Expressions -/

/-- Where the names `D` are bound, `e` returns a value `v` and logs `evs` such
that `R s evs v`, with `s` the store before. -/
def Evals (I : Interp V W) (F : File) (T : Typing V W) (D : List String) (e : MlExp)
    (R : Store V W → List (Event V) → V → Prop) : Prop :=
  ∀ env s, Sat T D env → ∃ v evs, eval I F e env s = some (.val v, s.after I evs) ∧ R s evs v

/-- `e` returns a value in `Q`, after events with the labels `tr`. -/
def Emits (I : Interp V W) (F : File) (T : Typing V W) (D : List String) (e : MlExp)
    (tr : List Label) (Q : V → Prop) : Prop :=
  Evals I F T D e fun _ evs v => evs.map Event.label = tr ∧ Q v

/-- The values in `Q`. -/
def IsVal (Q : V → Prop) : Sem V W → Prop := fun d => ∃ v, d = .val v ∧ Q v

def IsData (d : Data) : Sem V W → Prop := fun d' => d' = .data d

section Rules

variable {T : Typing V W} {D D' : List String} {e : MlExp}
  {R R' : Store V W → List (Event V) → V → Prop} {tr : List Label} {Q : V → Prop}

theorem Evals.mono (h : Evals I F T D e R) (hsub : D ⊆ D') : Evals I F T D' e R :=
  fun env s hs => h env s (hs.mono hsub)

theorem Evals.congr {T' : Typing V W} (h : Evals I F T D e R)
    (hT : ∀ x ∈ D, T' x = T x) : Evals I F T' D e R := by
  intro env s hs
  refine h env s ⟨fun x hx => ?_, hs.locals⟩
  rw [← hT x hx]
  exact hs.typed x hx

theorem Evals.imp (h : Evals I F T D e R) (himp : ∀ s evs v, R s evs v → R' s evs v) :
    Evals I F T D e R' := by
  intro env s hs
  obtain ⟨v, evs, heval, hR⟩ := h env s hs
  exact ⟨v, evs, heval, himp _ _ _ hR⟩

theorem emits_ident {x : String} (hx : x ∈ D) (hT : T x = IsVal Q) :
    Emits I F T D (.ident [x]) [] Q := by
  intro env s hs
  obtain ⟨d, hd, hTd⟩ := evalIdent_local (F := F) hs hx
  rw [hT] at hTd
  obtain ⟨v, rfl, hv⟩ := hTd
  exact ⟨v, [], by simp [eval, hd], rfl, hv⟩

-- Derive the equations of the evaluator once, before the proofs that use them.
section
attribute [local simp] eval
end

theorem eval_data {env : Env V W} (hs : Sat T D env) {x : String} {d : Data} (hx : x ∈ D)
    (hT : T x = IsData d) (s : Store V W) :
    eval I F (.ident [x]) env s = some (.data d, s) := by
  obtain ⟨d', hd, hTd⟩ := evalIdent_local (F := F) hs hx
  rw [hT] at hTd
  obtain rfl := hTd
  simp [eval, hd]

theorem eval_library (hF : F.Sound) {env : Env V W} (hs : Sat T D env) {p : Path}
    {f : Library} (hp : libraryTable.lookup p = some f) (s : Store V W) :
    eval I F (.ident p) env s = some (.library f [], s) := by
  have hne : p ≠ F.external := by
    rintro rfl
    rw [hF.new] at hp
    cases hp
  rw [eval, evalIdent_global hs (isGlobal_of_library hp), if_neg hne, hp]
  rfl

theorem eval_external (hF : F.Sound) {env : Env V W} (hs : Sat T D env) (s : Store V W) :
    eval I F (.ident F.external) env s = some (.external [], s) := by
  rw [eval, evalIdent_global hs hF.isGlobal, if_pos rfl]
  rfl

theorem eval_appl {f p : MlExp} {env : Env V W} {s s1 s2 : Store V W} {d g : Sem V W}
    (hp : eval I F p env s = some (d, s1)) (hf : eval I F f env s1 = some (g, s2)) :
    eval I F (.appl f p) env s = apply I F g d s2 := by
  rw [eval, hp]
  simp only [Option.bind_some, hf]

/-- What a function does to a value: the labels of what it logs and a relation
between argument and result. -/
def Acts (I : Interp V W) (F : File) (g : Sem V W) (tr : List Label) (G : V → V → Prop) :
    Prop :=
  ∀ x s, ∃ y evs, applyVal I F g x s = some (.val y, s.after I evs) ∧
    evs.map Event.label = tr ∧ G x y

theorem acts_write (p : Place) (v : ViewId) :
    Acts I F (.data (.write p v)) [.write p] fun x y => ∃ w, y = (I.write v x w).1 := by
  intro x s
  exact ⟨_, [.write p v x], rfl, rfl, s.world, rfl⟩

theorem acts_read (p : Place) (v : ViewId) :
    Acts I F (.data (.read p v)) [.read p] fun x y => ∃ w, y = (I.read v x w).1 := by
  intro x s
  exact ⟨_, [.read p v x], rfl, rfl, s.world, rfl⟩

/-- A function that changes nothing. -/
theorem acts_pure {g : Sem V W} {f : V → V}
    (h : ∀ x s, applyVal I F g x s = some (.val (f x), s)) :
    Acts I F g [] fun x y => y = f x := by
  intro x s
  exact ⟨f x, [], by rw [h, Store.after_nil], rfl, rfl⟩

theorem Acts.then {g : Sem V W} {G : V → V → Prop} (h : Acts I F g tr G) (x : V) (k : V → V)
    (s : Store V W) : ∃ y evs, applyThen I F g x k s = some (.val (k y), s.after I evs) ∧
      evs.map Event.label = tr ∧ G x y := by
  obtain ⟨y, evs, happ, htr, hG⟩ := h x s
  exact ⟨y, evs, by rw [applyThen, happ], htr, hG⟩

/-- Application of what stands for a function of values. -/
theorem Evals.appl {f : MlExp} {g : Sem V W} {G : V → V → Prop} (he : Evals I F T D e R)
    (hf : ∀ env s, Sat T D env → eval I F f env s = some (g, s))
    (hval : ∀ x s, apply I F g (.val x) s = applyVal I F g x s) (hg : Acts I F g tr G) :
    Evals I F T D (.appl f e) fun s evs y => ∃ evs1 evs2 x, evs = evs1 ++ evs2 ∧ R s evs1 x ∧
      evs2.map Event.label = tr ∧ G x y := by
  intro env s hs
  obtain ⟨x, evs1, heval, hR⟩ := he env s hs
  obtain ⟨y, evs2, happ, htr, hG⟩ := hg x (s.after I evs1)
  refine ⟨y, evs1 ++ evs2, ?_, evs1, evs2, x, rfl, hR, htr, hG⟩
  rw [eval_appl heval (hf env _ hs), hval, happ, Store.after_after]

theorem Emits.appl {f : MlExp} {g : Sem V W} {G : V → V → Prop} {tr' : List Label}
    (he : Emits I F T D e tr Q)
    (hf : ∀ env s, Sat T D env → eval I F f env s = some (g, s))
    (hval : ∀ x s, apply I F g (.val x) s = applyVal I F g x s) (hg : Acts I F g tr' G) :
    Emits I F T D (.appl f e) (tr ++ tr') fun y => ∃ x, Q x ∧ G x y := by
  refine (Evals.appl he hf hval hg).imp ?_
  rintro s evs y ⟨evs1, evs2, x, rfl, ⟨htr1, hQ⟩, htr2, hG⟩
  exact ⟨by rw [List.map_append, htr1, htr2], x, hQ, hG⟩

/-- A library function of one value. -/
theorem Evals.applLibrary (hF : F.Sound) (he : Evals I F T D e R) {p : Path} {f : Library}
    {k : V → V} (hp : libraryTable.lookup p = some f)
    (hk : ∀ x s, applyVal I F (.library f []) x s = some (.val (k x), s)) :
    Evals I F T D (.appl (.ident p) e) fun s evs y => ∃ x, R s evs x ∧ y = k x := by
  have hval : ∀ x s, apply I F (.library f []) (.val x) s =
      applyVal I F (.library f []) x s := by
    intro x s
    cases f <;> rfl
  refine (Evals.appl he (fun env s hs => eval_library hF hs hp s) hval (acts_pure hk)).imp ?_
  rintro s evs y ⟨evs1, evs2, x, rfl, hR, htr, rfl⟩
  rw [List.map_eq_nil_iff.mp htr, List.append_nil]
  exact ⟨x, hR, rfl⟩

theorem Emits.applLibrary (hF : F.Sound) (he : Emits I F T D e tr Q) {p : Path}
    {f : Library} {k : V → V} (hp : libraryTable.lookup p = some f)
    (hk : ∀ x s, applyVal I F (.library f []) x s = some (.val (k x), s)) :
    Emits I F T D (.appl (.ident p) e) tr fun y => ∃ x, Q x ∧ y = k x := by
  refine (Evals.applLibrary hF he hp hk).imp ?_
  rintro s evs y ⟨x, ⟨htr, hQ⟩, rfl⟩
  exact ⟨htr, x, hQ, rfl⟩

/-! ### Results -/

/-- What `map_result` does when `G` is what its function does. -/
def mapped (I : Interp V W) (F : File) (G : V → V → Prop) (x y : V) : Prop :=
  match F.concurrency, F.errno_ with
  | .sequential, .ignoreErrno | .unlocked, .ignoreErrno => G x y
  | .sequential, .returnErrno | .unlocked, .returnErrno =>
      ∃ r, G (I.fst x) r ∧ y = I.tuple [r, I.snd x]
  | .lwtJobs, .ignoreErrno | .lwtPreemptive, .ignoreErrno =>
      ∃ r, G (I.await x) r ∧ y = I.resolved r
  | .lwtJobs, .returnErrno | .lwtPreemptive, .returnErrno =>
      ∃ r, G (I.fst (I.await x)) r ∧ y = I.resolved (I.tuple [r, I.snd (I.await x)])

theorem Acts.mapResult {g : Sem V W} {G : V → V → Prop} (h : Acts I F g tr G) (x : V)
    (s : Store V W) : ∃ y evs, applyMapResult I F g x s = some (.val y, s.after I evs) ∧
      evs.map Event.label = tr ∧ mapped I F G x y := by
  have hthen : ∀ x k, ∃ y evs, applyThen I F g x k s = some (.val y, s.after I evs) ∧
      evs.map Event.label = tr ∧ ∃ r, G x r ∧ y = k r := by
    intro x k
    obtain ⟨r, evs, happ, htr, hG⟩ := h.then x k s
    exact ⟨k r, evs, happ, htr, r, hG, rfl⟩
  unfold applyMapResult mapped
  cases F.concurrency <;> cases F.errno_
  · exact h x s
  · exact hthen _ _
  · exact h x s
  · exact hthen _ _
  · exact hthen _ _
  · exact hthen _ _
  · exact hthen _ _
  · exact hthen _ _

theorem mapped_direct (I : Interp V W) {G : V → V → Prop} {x y : V}
    (hF : (F.concurrency = .sequential ∨ F.concurrency = .unlocked) ∧
      F.errno_ = .ignoreErrno) : mapped I F G x y ↔ G x y := by
  unfold mapped
  rcases hF with ⟨hc | hc, he⟩ <;> rw [hc, he]

/-- `map_result f e`. -/
theorem Evals.applMapResult (hF : F.Sound) (he : Evals I F T D e R) {f : MlExp}
    {g : Sem V W} {G : V → V → Prop}
    (hf : ∀ env s, Sat T D env → eval I F f env s = some (g, s)) (hne : ∀ v, g ≠ .val v)
    (hg : Acts I F g tr G) :
    Evals I F T D (.appl (.appl (.ident mapResultId) f) e) fun s evs y =>
      ∃ evs1 evs2 x, evs = evs1 ++ evs2 ∧ R s evs1 x ∧ evs2.map Event.label = tr ∧
        mapped I F G x y := by
  intro env s hs
  obtain ⟨x, evs1, heval, hR⟩ := he env s hs
  obtain ⟨y, evs2, happ, htr, hG⟩ := hg.mapResult x (s.after I evs1)
  refine ⟨y, evs1 ++ evs2, ?_, evs1, evs2, x, rfl, hR, htr, hG⟩
  have hmap := eval_appl (hf env (s.after I evs1) hs)
    (eval_library hF hs (p := mapResultId) (f := .mapResult) rfl (s.after I evs1))
  have hsome : apply I F (.library .mapResult []) g (s.after I evs1) =
      some (.library .mapResult [g], s.after I evs1) := by
    cases g with
    | val v => exact absurd rfl (hne v)
    | data d => cases d <;> rfl
    | _ => rfl
  rw [eval_appl heval (hmap.trans hsome), ← Store.after_after]
  exact happ

/-- What becomes of the result of the external before anything else. -/
def ran (I : Interp V W) : ConcurrencyPolicy → V → V
  | .sequential, v | .unlocked, v => v
  | .lwtJobs, v => I.runJob v
  | .lwtPreemptive, v => I.resolved v

theorem Sat.skip {env : Env V W} (h : Sat T D env) {x : String} (hx : IsLocal x)
    (hnew : x ∉ D) (d : Sem V W) : Sat T D ((x, d) :: env) := by
  refine ⟨fun y hy => ?_, fun q hq => ?_⟩
  · have hne : y ≠ x := by
      rintro rfl
      exact hnew hy
    rw [List.lookup_cons, beq_eq_false_iff_ne.mpr hne]
    exact h.typed y hy
  · rcases List.mem_cons.mp hq with rfl | hq
    · exact hx
    · exact h.locals q hq

theorem Evals.runExp (hF : F.Sound) (he : Evals I F T D e R) (hD : "_" ∉ D)
    (concurrency : ConcurrencyPolicy) :
    Evals I F T D (runExp concurrency e) fun s evs v =>
      ∃ u, R s evs u ∧ v = ran I concurrency u := by
  cases concurrency with
  | sequential => exact he.imp fun s evs v h => ⟨v, h, rfl⟩
  | unlocked => exact he.imp fun s evs v h => ⟨v, h, rfl⟩
  | lwtJobs => exact he.applLibrary hF (f := .runJob) rfl fun _ _ => rfl
  | lwtPreemptive =>
      intro env s hs
      obtain ⟨u, evs, heval, hR⟩ := he _ s (hs.skip (.inr rfl) hD (.val I.unit))
      have hfn : eval I F (.fn ["_"] e) env s = some
          (.fn fun v s => eval I F e (("_", .val v) :: env) s, s) := by
        rw [eval, close]
        rfl
      have hdetach := eval_appl hfn
        (eval_library hF hs (p := ["Lwt_preemptive", "detach"]) (f := .detach) rfl s)
      have happ := eval_appl (p := .unit) (by rw [eval]) hdetach
      refine ⟨I.resolved u, evs, ?_, u, hR, rfl⟩
      rw [GenerateML.runExp, happ]
      show applyThen I F _ I.unit I.resolved s = _
      rw [applyThen, applyVal, heval]

/-! ### Calls of the external -/

/-- `e` is the external applied to values in `qs`. -/
def Partial (I : Interp V W) (F : File) (T : Typing V W) (D : List String) (e : MlExp)
    (qs : List (V → Prop)) : Prop :=
  ∀ env s, Sat T D env → ∃ us, eval I F e env s = some (.external us, s) ∧
    List.Forall₂ (fun q u => q u) qs us

theorem Partial.mono {qs : List (V → Prop)} (h : Partial I F T D e qs) (hsub : D ⊆ D') :
    Partial I F T D' e qs :=
  fun env s hs => h env s (hs.mono hsub)

theorem partial_external (hF : F.Sound) : Partial I F T D (.ident F.external) [] :=
  fun _ s hs => ⟨[], eval_external hF hs s, .nil⟩

/-- The only event is the call, of which `v` is the result. -/
def Called (I : Interp V W) (qs : List (V → Prop)) (s : Store V W) (evs : List (Event V))
    (v : V) : Prop :=
  ∃ us, List.Forall₂ (fun q u => q u) qs us ∧ evs = [.call us] ∧
    v = (I.external us s.world).1

theorem forall₂_snoc {α β : Type} {P : α → β → Prop} {as : List α} {bs : List β} {a : α}
    {b : β} (h : List.Forall₂ P as bs) (hab : P a b) :
    List.Forall₂ P (as ++ [a]) (bs ++ [b]) := by
  induction h with
  | nil => exact .cons hab .nil
  | cons hcd _ ih => exact .cons hcd ih

theorem forall₂_split {α β : Type} {P : α → β → Prop} {as as' : List α} {bs : List β}
    (h : List.Forall₂ P (as ++ as') bs) : ∃ bs1 bs2, List.Forall₂ P as bs1 ∧
      List.Forall₂ P as' bs2 ∧ bs = bs1 ++ bs2 := by
  induction as generalizing bs with
  | nil => exact ⟨[], bs, .nil, h, rfl⟩
  | cons a as ih =>
      obtain ⟨b, bs', hab, hrest, rfl⟩ := List.forall₂_cons_left_iff.mp h
      obtain ⟨bs1, bs2, h1, h2, rfl⟩ := ih hrest
      exact ⟨b :: bs1, bs2, .cons hab h1, h2, rfl⟩

theorem Partial.applyVal {qs : List (V → Prop)} {p : MlExp} (h : Partial I F T D e qs)
    (hp : Emits I F T D p [] Q) {env : Env V W} (hs : Sat T D env) (s : Store V W) :
    ∃ us, List.Forall₂ (fun q u => q u) (qs ++ [Q]) us ∧ us.length = qs.length + 1 ∧
      eval I F (.appl e p) env s =
        if us.length < F.arity then some (.external us, s)
        else some (.val (I.external us s.world).1, s.after I [.call us]) := by
  obtain ⟨u, evs, hu, htr, hQ⟩ := hp env s hs
  obtain rfl := List.map_eq_nil_iff.mp htr
  rw [Store.after_nil] at hu
  obtain ⟨us, hus, hqs⟩ := h env s hs
  have hlen : (us ++ [u]).length = qs.length + 1 := by
    rw [List.length_append, hqs.length_eq]
    rfl
  refine ⟨us ++ [u], forall₂_snoc hqs hQ, hlen, ?_⟩
  rw [eval_appl hu hus]
  rfl

theorem Partial.appl {qs : List (V → Prop)} {p : MlExp} (h : Partial I F T D e qs)
    (hp : Emits I F T D p [] Q) (hlt : qs.length + 1 < F.arity) :
    Partial I F T D (.appl e p) (qs ++ [Q]) := by
  intro env s hs
  obtain ⟨us, hqs, hlen, heval⟩ := h.applyVal hp hs s
  refine ⟨us, ?_, hqs⟩
  rw [heval, if_pos (by omega)]

theorem Partial.call {qs : List (V → Prop)} {p : MlExp} (h : Partial I F T D e qs)
    (hp : Emits I F T D p [] Q) (hle : F.arity ≤ qs.length + 1) :
    Evals I F T D (.appl e p) (Called I (qs ++ [Q])) := by
  intro env s hs
  obtain ⟨us, hqs, hlen, heval⟩ := h.applyVal hp hs s
  refine ⟨_, _, ?_, us, hqs, rfl, rfl⟩
  rw [heval, if_neg (by omega)]

/-- The external applied to some of its arguments. -/
theorem Partial.applyEach {qs qs' : List (V → Prop)} {es : List MlExp}
    (h : Partial I F T D e qs)
    (hes : List.Forall₂ (fun e q => Emits I F T D e [] q) es qs')
    (hlt : qs.length + es.length < F.arity) :
    Partial I F T D (es.foldl .appl e) (qs ++ qs') := by
  induction hes generalizing e qs with
  | nil => rwa [List.append_nil]
  | @cons p q es qs' hp _ ih =>
      rw [List.length_cons] at hlt
      have hfirst : Partial I F T D (.appl e p) (qs ++ [q]) := h.appl hp (by omega)
      have hrest := ih hfirst (by rw [List.length_append, List.length_singleton]; omega)
      rwa [List.append_assoc] at hrest

/-- The external applied to all its arguments. -/
theorem evals_call (hF : F.Sound) {qs : List (V → Prop)} {es : List MlExp}
    (hes : List.Forall₂ (fun e q => Emits I F T D e [] q) es qs)
    (harity : es.length = F.arity) (hpos : 0 < F.arity) :
    Evals I F T D (es.foldl .appl (.ident F.external)) (Called I qs) := by
  rcases List.eq_nil_or_concat es with rfl | ⟨init, last, rfl⟩
  · rw [← harity] at hpos
    cases hpos
  · rw [List.concat_eq_append] at hes harity ⊢
    obtain ⟨qs1, qs2, hinit, hlast, rfl⟩ := forall₂_split hes
    obtain ⟨q, rest, hq, hrest, rfl⟩ := List.forall₂_cons_left_iff.mp hlast
    obtain rfl := List.forall₂_nil_left_iff.mp hrest
    rw [List.length_append, List.length_singleton] at harity
    have hsome := (partial_external (D := D) (T := T) (I := I) hF).applyEach hinit
      (by simp only [List.length_nil]; omega)
    rw [List.foldl_append]
    exact hsome.call hq (by
      rw [List.nil_append, ← hinit.length_eq]
      omega)

/-! ### Bindings -/

/-- The bindings in the order in which they are evaluated. -/
def runBinds (I : Interp V W) (F : File) :
    List MlBind → Env V W → Store V W → Option (Env V W × Store V W)
  | [], env, s => some (env, s)
  | b :: bs, env, s =>
      (eval I F b.2 env s).bind fun (d, s) =>
        (bindPat I b.1 d env).bind fun env => runBinds I F bs env s

theorem runBinds_append (bs bs' : List MlBind) (env : Env V W) (s : Store V W) :
    runBinds I F (bs ++ bs') env s =
      (runBinds I F bs env s).bind fun (env, s) => runBinds I F bs' env s := by
  induction bs generalizing env s with
  | nil => rfl
  | cons b bs ih =>
      rw [List.cons_append, runBinds, runBinds]
      cases eval I F b.2 env s with
      | none => rfl
      | some r =>
          simp only [Option.bind_some]
          cases bindPat I b.1 r.1 env with
          | none => rfl
          | some env' => exact ih env' r.2

theorem eval_letBind (binds : List MlBind) (e : MlExp) (env : Env V W) (s : Store V W) :
    eval I F (letBind binds e) env s =
      (runBinds I F binds.reverse env s).bind fun (env, s) => eval I F e env s := by
  induction binds generalizing e with
  | nil => rfl
  | cons b bs ih =>
      have hlet : letBind (b :: bs) e = letBind bs (.letIn b.1 b.2 e) := rfl
      rw [hlet, ih, List.reverse_cons, runBinds_append]
      cases runBinds I F bs.reverse env s with
      | none => rfl
      | some r =>
          simp only [Option.bind_some, runBinds, eval]
          cases eval I F b.2 r.1 r.2 with
          | none => rfl
          | some d =>
              simp only [Option.bind_some]
              cases bindPat I b.1 d.1 r.1 <;> rfl

/-- The store of a run that started in the world `w0` and has created
sequences of the sizes `c`. -/
structure At (I : Interp V W) (w0 : W) (c : List Nat) (s : Store V W) : Prop where
  creates : created (s.log.map Event.label) = c
  world : s.world = replay I s.log w0

def Store.start (w : W) : Store V W := { log := [], world := w }

theorem at_start (I : Interp V W) (w : W) : At I w [] (Store.start w : Store V W) :=
  ⟨rfl, rfl⟩

theorem At.after {w0 : W} {c : List Nat} {s : Store V W} (h : At I w0 c s)
    {evs : List (Event V)} (htr : evs.map Event.label = tr) :
    At I w0 (c ++ created tr) (s.after I evs) := by
  refine ⟨?_, ?_⟩
  · rw [Store.after, List.map_append, created_append, h.creates, htr]
  · rw [Store.after, replay_append, ← h.world]

def boundNames (binds : List MlBind) : List String := binds.flatMap fun b => patBoundVars b.1

@[simp] theorem boundNames_append (binds binds' : List MlBind) :
    boundNames (binds ++ binds') = boundNames binds ++ boundNames binds' :=
  List.flatMap_append

/-- Where at least the names `D` are bound, after creations of the sizes `c`,
the bindings bind their names too and log events with the labels `tr`. -/
def Runs (I : Interp V W) (F : File) (T : Typing V W) (w0 : W) (D : List String)
    (c : List Nat) (binds : List MlBind) (tr : List Label) : Prop :=
  ∀ D' env s, D ⊆ D' → Sat T D' env → At I w0 c s → ∃ env' evs,
    runBinds I F binds.reverse env s = some (env', s.after I evs) ∧
      Sat T (boundNames binds ++ D') env' ∧ evs.map Event.label = tr

section Runs

variable {w0 : W} {c : List Nat} {binds binds' : List MlBind} {tr' : List Label} {x : String}

theorem Runs.mono (h : Runs I F T w0 D c binds tr) (hsub : D ⊆ D') :
    Runs I F T w0 D' c binds tr :=
  fun D2 env s hD2 => h D2 env s (List.Subset.trans hsub hD2)

theorem Runs.nil : Runs I F T w0 D c [] [] := by
  intro D' env s _ hs _
  exact ⟨env, [], by simp [runBinds], hs, rfl⟩

/-- What stands later in the list is evaluated first. -/
theorem Runs.append (h : Runs I F T w0 D c binds tr)
    (h' : Runs I F T w0 (boundNames binds ++ D) (c ++ created tr) binds' tr') :
    Runs I F T w0 D c (binds' ++ binds) (tr ++ tr') := by
  intro D' env s hD' hs hat
  obtain ⟨env1, evs1, hrun1, hs1, htr1⟩ := h D' env s hD' hs hat
  have hsub : boundNames binds ++ D ⊆ boundNames binds ++ D' := by
    intro y hy
    rcases List.mem_append.mp hy with hy | hy
    · exact List.mem_append_left _ hy
    · exact List.mem_append_right _ (hD' hy)
  obtain ⟨env2, evs2, hrun2, hs2, htr2⟩ := h' _ env1 _ hsub hs1 (hat.after htr1)
  refine ⟨env2, evs1 ++ evs2, ?_, ?_, ?_⟩
  · rw [List.reverse_append, runBinds_append, hrun1]
    simp only [Option.bind_some]
    rw [hrun2, Store.after_after]
  · rwa [boundNames_append, List.append_assoc]
  · rw [List.map_append, htr1, htr2]

/-- One binding. -/
theorem Runs.bind {p : MlPat} {R : Store V W → List (Event V) → V → Prop}
    (he : Evals I F T D e R) (hp : patBoundVars p = [x]) (hx : IsLocal x)
    (hbind : ∀ env s evs v, At I w0 c s → R s evs v → evs.map Event.label = tr ∧
      ∃ d, bindPat I p (.val v) env = some ((x, d) :: env) ∧ T x d) :
    Runs I F T w0 D c [(p, e)] tr := by
  intro D' env s hD' hs hat
  obtain ⟨v, evs, heval, hR⟩ := he.mono hD' env s hs
  obtain ⟨htr, d, hpat, hd⟩ := hbind env s evs v hat hR
  have hnames : boundNames [(p, e)] = [x] := by
    rw [boundNames, List.flatMap_singleton, hp]
  rw [hnames]
  refine ⟨_, evs, ?_, hs.bind hx hd, htr⟩
  simp only [List.reverse_singleton, runBinds, heval, Option.bind_some, hpat]

theorem Runs.var (he : Emits I F T D e tr Q) (hx : IsLocal x) (hT : T x = IsVal Q) :
    Runs I F T w0 D c [(.var x, e)] tr := by
  refine Runs.bind he rfl hx fun env s evs v _ hR => ⟨hR.1, .val v, rfl, ?_⟩
  rw [hT]
  exact ⟨v, rfl, hR.2⟩

/-- `let CI.CPointer x = e`. -/
theorem Runs.cpointer (he : Emits I F T D e tr Q) (hx : IsLocal x)
    (hT : T x = IsVal fun y => ∃ v, Q v ∧ y = I.cpointer v) :
    Runs I F T w0 D c [(staticCon "CPointer" [.var x], e)] tr := by
  refine Runs.bind he rfl hx fun env s evs v _ hR => ⟨hR.1, .val (I.cpointer v), rfl, ?_⟩
  rw [hT]
  exact ⟨_, rfl, v, hR.2, rfl⟩

/-- `let CI.Static_funptr x = e`. -/
theorem Runs.staticFunptr (he : Emits I F T D e tr Q) (hx : IsLocal x)
    (hT : T x = IsVal fun y => ∃ v, Q v ∧ y = I.staticFunptr v) :
    Runs I F T w0 D c [(staticCon "Static_funptr" [.var x], e)] tr := by
  refine Runs.bind he rfl hx fun env s evs v _ hR => ⟨hR.1, .val (I.staticFunptr v), ?_, ?_⟩
  · simp [bindPat, staticCon, MlPats.ofList]
  · rw [hT]
    exact ⟨_, rfl, v, hR.2, rfl⟩

/-- What `Bytes.create i` returns after creations of the sizes `c`. -/
def Fresh (I : Interp V W) (w0 : W) (c : List Nat) (i : Nat) (v : V) : Prop :=
  ∃ s, At I w0 c s ∧ v = (I.bytesCreate i s.world).1

theorem Runs.create (hF : F.Sound) {i : Nat} (hx : IsLocal x)
    (hT : T x = IsVal (Fresh I w0 c i)) :
    Runs I F T w0 D c [(.var x, bytesCreate i)] [.create i] := by
  have he : Evals I F T D (bytesCreate i) fun s evs v =>
      evs = [.create i] ∧ v = (I.bytesCreate i s.world).1 := by
    intro env s hs
    have hconst : eval I F (.const (Nat.repr i)) env s = some (.data (.int i), s) := by
      simp [eval]
    refine ⟨_, _, ?_, rfl, rfl⟩
    exact eval_appl hconst
      (eval_library hF hs (p := ["Bytes", "create"]) (f := .bytesCreate) rfl s)
  refine Runs.bind he rfl hx fun env s evs v hat hR => ?_
  obtain ⟨rfl, rfl⟩ := hR
  refine ⟨rfl, .val _, rfl, ?_⟩
  rw [hT]
  exact ⟨_, rfl, s, hat, rfl⟩

/-- The bindings, then the body. -/
theorem Runs.letBind {R : Store V W → List (Event V) → V → Prop}
    (h : Runs I F T w0 D c binds tr) (he : Evals I F T (boundNames binds ++ D) e R)
    {env : Env V W} {s : Store V W} (hs : Sat T D env) (hat : At I w0 c s) :
    ∃ v evs1 evs2, eval I F (letBind binds e) env s = some (.val v, s.after I (evs1 ++ evs2)) ∧
      evs1.map Event.label = tr ∧ R (s.after I evs1) evs2 v := by
  obtain ⟨env', evs1, hrun, hs', htr⟩ := h D env s (List.Subset.refl D) hs hat
  obtain ⟨v, evs2, heval, hR⟩ := he env' (s.after I evs1) hs'
  refine ⟨v, evs1, evs2, ?_, htr, hR⟩
  rw [eval_letBind, hrun]
  simp only [Option.bind_some]
  rw [heval, Store.after_after]

end Runs

/-! ### Particular values -/

/-- The names `xs` are bound to the values `vs`. -/
def Pinned (T : Typing V W) (xs : List String) (vs : List V) : Prop :=
  List.Forall₂ (fun x v => T x = IsVal fun y => y = v) xs vs

theorem Pinned.lookup {T : Typing V W} {D xs : List String} {vs : List V} {env : Env V W}
    (h : Pinned T xs vs) (hs : Sat T D env) (hD : xs ⊆ D) :
    List.Forall₂ (fun x v => env.lookup x = some (.val v)) xs vs := by
  induction h with
  | nil => exact .nil
  | @cons x v xs vs hx _ ih =>
      obtain ⟨d, hd, hTd⟩ := hs.typed x (hD List.mem_cons_self)
      rw [hx] at hTd
      obtain ⟨v', rfl, rfl⟩ := hTd
      exact .cons hd (ih fun y hy => hD (List.mem_cons_of_mem _ hy))

theorem Pinned.isVal {T : Typing V W} {xs : List String} {vs : List V} (h : Pinned T xs vs)
    {x : String} (hx : x ∈ xs) : ∃ Q, T x = IsVal Q := by
  induction h with
  | nil => cases hx
  | cons hy _ ih =>
      rcases List.mem_cons.mp hx with rfl | hx
      · exact ⟨_, hy⟩
      · exact ih hx

/-- For a run it is enough to look at the values that it has bound to `xs`. -/
theorem Evals.pin {xs : List String} {Qs : List (V → Prop)}
    {R : List V → Store V W → List (Event V) → V → Prop}
    (hT : List.Forall₂ (fun x Q => T x = IsVal Q) xs Qs) (hxs : xs ⊆ D)
    (h : ∀ vs T', List.Forall₂ (fun Q v => Q v) Qs vs → (∀ x, x ∉ xs → T' x = T x) →
      Pinned T' xs vs → Evals I F T' D e (R vs)) :
    Evals I F T D e fun s evs y => ∃ vs, List.Forall₂ (fun Q v => Q v) Qs vs ∧
      R vs s evs y := by
  intro env s hs
  have hvalues : ∃ vs, List.Forall₂ (fun Q v => Q v) Qs vs ∧
      List.Forall₂ (fun x v => env.lookup x = some (.val v)) xs vs := by
    clear h
    induction hT with
    | nil => exact ⟨[], .nil, .nil⟩
    | @cons x Q xs Qs hx _ ih =>
        obtain ⟨vs, hQs, hvs⟩ := ih fun y hy => hxs (List.mem_cons_of_mem _ hy)
        obtain ⟨d, hd, hTd⟩ := hs.typed x (hxs List.mem_cons_self)
        rw [hx] at hTd
        obtain ⟨v, rfl, hv⟩ := hTd
        exact ⟨v :: vs, .cons hv hQs, .cons hd hvs⟩
  obtain ⟨vs, hQs, hvs⟩ := hvalues
  let T' : Typing V W := fun x d => if x ∈ xs then env.lookup x = some d else T x d
  have hpinned : Pinned T' xs vs := by
    have hmem : ∀ x ∈ xs, T' x = fun d => env.lookup x = some d := by
      intro x hx
      funext d
      exact if_pos hx
    obtain ⟨hlen, hzip⟩ := List.forall₂_iff_zip.mp hvs
    refine List.forall₂_iff_zip.mpr ⟨hlen, fun {x v} hxv => ?_⟩
    rw [hmem x (List.of_mem_zip hxv).1]
    funext d
    rw [hzip hxv, IsVal]
    simp [eq_comm]
  have hs' : Sat T' D env := by
    refine ⟨fun x hx => ?_, hs.locals⟩
    obtain ⟨d, hd, hTd⟩ := hs.typed x hx
    refine ⟨d, hd, ?_⟩
    show if x ∈ xs then _ else _
    split
    · exact hd
    · exact hTd
  have hother : ∀ x, x ∉ xs → T' x = T x := by
    intro x hx
    funext d
    exact if_neg hx
  obtain ⟨y, evs, heval, hR⟩ := h vs T' hQs hother hpinned env s hs'
  exact ⟨y, evs, heval, vs, hQs, hR⟩

/-! ### Tuples and functions -/

theorem emits_pair {e' : MlExp} {Q' : V → Prop} (he : Emits I F T D e [] Q)
    (he' : Emits I F T D e' [] Q') :
    Emits I F T D (.tuple (.ofList [e, e'])) [] fun v =>
      ∃ a b, Q a ∧ Q' b ∧ v = I.tuple [a, b] := by
  intro env s hs
  obtain ⟨b, evs', heval', htr', hb⟩ := he' env s hs
  obtain rfl := List.map_eq_nil_iff.mp htr'
  rw [Store.after_nil] at heval'
  obtain ⟨a, evs, heval, htr, ha⟩ := he env s hs
  obtain rfl := List.map_eq_nil_iff.mp htr
  rw [Store.after_nil] at heval
  refine ⟨I.tuple [a, b], [], ?_, rfl, a, b, ha, hb, rfl⟩
  have hlist : MlExps.ofList [e, e'] = .cons e (.cons e' .nil) := rfl
  rw [Store.after_nil, hlist, eval, evalTuple, evalTuple, evalTuple]
  simp only [Option.bind_some, heval', heval, Option.map_some]

/-- A result that is named and returned behind something else. -/
theorem Evals.letPair {x : String} {e' : MlExp} (he : Evals I F T D e R) (hx : IsLocal x)
    (hnew : x ∉ D) (he' : Emits I F T D e' [] Q) :
    Evals I F T D (.letIn (.var x) e (.tuple (.ofList [e', .ident [x]])))
      fun s evs v => ∃ a u, R s evs u ∧ Q a ∧ v = I.tuple [a, u] := by
  intro env s hs
  obtain ⟨u, evs, heval, hR⟩ := he env s hs
  obtain ⟨a, evs', heval', htr, ha⟩ := he' _ (s.after I evs) (hs.skip hx hnew (.val u))
  obtain rfl := List.map_eq_nil_iff.mp htr
  rw [Store.after_nil] at heval'
  refine ⟨I.tuple [a, u], evs, ?_, a, u, hR, ha, rfl⟩
  have hident : eval I F (.ident [x]) ((x, .val u) :: env) (s.after I evs) =
      some (.val u, s.after I evs) := by
    simp [eval, evalIdent, lookupLocal]
  have hlist : MlExps.ofList [e', .ident [x]] = .cons e' (.cons (.ident [x]) .nil) := rfl
  rw [eval, heval]
  simp only [Option.bind_some, bindPat]
  rw [hlist, eval, evalTuple, evalTuple, evalTuple]
  simp only [Option.bind_some, hident, heval', Option.map_some]

theorem evalTuple_idents {env : Env V W} {xs : List String}
    (h : ∀ x ∈ xs, ∃ v, env.lookup x = some (.val v)) (s : Store V W) :
    ∃ vs, evalTuple I F (.ofList (xs.map fun x => .ident [x])) env s = some (vs, s) := by
  induction xs with
  | nil => exact ⟨[], by rw [List.map_nil]; exact evalTuple.eq_1 ..⟩
  | cons x xs ih =>
      obtain ⟨v, hv⟩ := h x List.mem_cons_self
      obtain ⟨vs, hvs⟩ := ih fun y hy => h y (List.mem_cons_of_mem _ hy)
      have hlist : MlExps.ofList ((x :: xs).map fun x => .ident [x]) =
          .cons (.ident [x]) (.ofList (xs.map fun x => .ident [x])) := rfl
      refine ⟨v :: vs, ?_⟩
      rw [hlist, evalTuple, hvs]
      simp [eval, evalIdent, lookupLocal, hv]

/-- A function with parameters `xs` binds them to its arguments. -/
theorem applyAll_close {body : Env V W → Store V W → Option (Sem V W × Store V W)}
    {xs : List String} {vs : List V} (hlen : xs.length = vs.length) (env : Env V W)
    (s : Store V W) :
    ((close body xs env s).bind fun (f, s) => applyAll I F f vs s) =
      body ((xs.zip (vs.map .val)).reverse ++ env) s := by
  induction xs generalizing vs env with
  | nil =>
      obtain rfl := List.length_eq_zero_iff.mp hlen.symm
      show (body env s).bind _ = body env s
      cases body env s <;> rfl
  | cons x xs ih =>
      cases vs with
      | nil => cases hlen
      | cons v vs =>
          rw [close, Option.bind_some]
          simp only [applyAll, applyVal]
          rw [ih (Nat.succ.inj hlen)]
          simp

/-- The last step of a wrapper under Lwt; `xs` are only kept alive. -/
theorem Evals.lwtBind (hF : F.Sound) (he : Evals I F T D e R) {x : String} (hx : IsLocal x)
    {xs : List String} (hxs : ∀ y ∈ xs, y ∈ D ∧ ∃ Q, T y = IsVal Q) :
    Evals I F T D (.appl (.ident ["box_lwt"]) (.appl (.appl (.ident ["Lwt", "bind"]) e)
        (.fn [x] (.seq
          (.appl (.ident ["CI", "use_value"]) (.tuple (.ofList (xs.map fun x => .ident [x]))))
          (.appl (.ident ["Lwt", "return"]) (.ident [x]))))))
      fun s evs v => ∃ u, R s evs u ∧ v = I.boxLwt (I.resolved (I.await u)) := by
  intro env s hs
  obtain ⟨u, evs, heval, hR⟩ := he env s hs
  refine ⟨_, evs, ?_, u, hR, rfl⟩
  let env' : Env V W := (x, .val (I.await u)) :: env
  have hs' : Sat T [] env' := by
    refine ⟨nofun, fun q hq => ?_⟩
    rcases List.mem_cons.mp hq with rfl | hq
    · exact hx
    · exact hs.locals q hq
  have hself : env'.lookup x = some (.val (I.await u)) := by simp [env']
  have hlookup : ∀ y ∈ xs, ∃ v, env'.lookup y = some (.val v) := by
    intro y hy
    by_cases hyx : y = x
    · subst hyx
      exact ⟨_, hself⟩
    · obtain ⟨hD, Q, hT⟩ := hxs y hy
      obtain ⟨d, hd, hTd⟩ := hs.typed y hD
      rw [hT] at hTd
      obtain ⟨v, rfl, -⟩ := hTd
      exact ⟨v, by simpa [env', List.lookup_cons, beq_eq_false_iff_ne.mpr hyx] using hd⟩
  obtain ⟨vs, hvs⟩ := evalTuple_idents (I := I) (F := F) hlookup (s.after I evs)
  have htuple : eval I F (.tuple (.ofList (xs.map fun x => .ident [x]))) env'
      (s.after I evs) = some (.val (I.tuple vs), s.after I evs) := by
    rw [eval, hvs]
    rfl
  have huse := eval_appl htuple
    (eval_library hF hs' (p := ["CI", "use_value"]) (f := .useValue) rfl (s.after I evs))
  have hident : eval I F (.ident [x]) env' (s.after I evs) =
      some (.val (I.await u), s.after I evs) := by
    rw [eval, evalIdent, lookupLocal, hself]
    rfl
  have hreturn := eval_appl hident
    (eval_library hF hs' (p := ["Lwt", "return"]) (f := .lwtReturn) rfl (s.after I evs))
  have hbody : eval I F (.seq
      (.appl (.ident ["CI", "use_value"]) (.tuple (.ofList (xs.map fun x => .ident [x]))))
      (.appl (.ident ["Lwt", "return"]) (.ident [x]))) env' (s.after I evs) =
        some (.val (I.resolved (I.await u)), s.after I evs) := by
    rw [eval, huse]
    exact hreturn
  have hfn : eval I F (.fn [x] (.seq
      (.appl (.ident ["CI", "use_value"]) (.tuple (.ofList (xs.map fun x => .ident [x]))))
      (.appl (.ident ["Lwt", "return"]) (.ident [x])))) env s = some (.fn fun v s => eval I F
        (.seq
          (.appl (.ident ["CI", "use_value"]) (.tuple (.ofList (xs.map fun x => .ident [x]))))
          (.appl (.ident ["Lwt", "return"]) (.ident [x]))) ((x, .val v) :: env) s, s) := by
    rw [eval, close]
    rfl
  have hsome := eval_appl heval
    (eval_library hF hs (p := ["Lwt", "bind"]) (f := .lwtBind) rfl (s.after I evs))
  have hbind := (eval_appl hfn hsome).trans hbody
  exact eval_appl hbind
    (eval_library hF hs (p := ["box_lwt"]) (f := .boxLwt) rfl (s.after I evs))

end Rules

/-! ### Environments with distinct names -/

theorem lookup_of_mem {α : Type} {l : List (String × α)}
    (hnodup : (l.map Prod.fst).Nodup) {q : String × α} (hq : q ∈ l) :
    l.lookup q.1 = some q.2 := by
  induction l with
  | nil => cases hq
  | cons p l ih =>
      obtain ⟨hp, hl⟩ := List.nodup_cons.mp hnodup
      rcases List.mem_cons.mp hq with rfl | hq
      · obtain ⟨x, d⟩ := q
        simp
      · have hne : q.1 ≠ p.1 := by
          intro h
          exact hp (h ▸ List.mem_map.mpr ⟨q, hq, rfl⟩)
        rw [List.lookup_cons, beq_eq_false_iff_ne.mpr hne]
        exact ih hl hq

theorem sat_of_nodup {T : Typing V W} {env : Env V W} (hnodup : (env.map Prod.fst).Nodup)
    (hlocals : ∀ q ∈ env, IsLocal q.1) (hT : ∀ q ∈ env, T q.1 q.2) :
    Sat T (env.map Prod.fst) env := by
  refine ⟨fun x hx => ?_, hlocals⟩
  obtain ⟨q, hq, rfl⟩ := List.mem_map.mp hx
  exact ⟨q.2, lookup_of_mem hnodup hq, hT q hq⟩

end CtypesCbuf.MlLanguage
