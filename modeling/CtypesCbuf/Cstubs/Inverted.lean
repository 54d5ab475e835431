import Mathlib.Data.List.Induction
import CtypesCbuf.Cbuf.Dispatch
import CtypesCbuf.Cstubs.External

/-!
Inverted stubs, `Cstubs_inverted`. The generated C functions call OCaml
functions through a table; the generated `internal` puts a function there. C
code names an entry of the table by an enumerator, OCaml code by a constant
constructor, and both stand for a position in a list of declarations.
-/

namespace CtypesCbuf.Cstubs.Inverted

open NameSupply Supply
open Ctypes CLanguage Stubs
open Cbuf (MatchesFn wrapper_matches)
open Cbuf.GenerateML
open MlLanguage (matchPat shapeFn)

/-! ### Declarations -/

/-- `fn_meta` and the function type it belongs to. -/
structure FnInfo where
  fnRuntimeLock : Bool
  fnName : String
  fn : Fn
  deriving DecidableEq, Repr

inductive Decl
  | fn (info : FnInfo)
  | ty (typ : Typ)
  | typedef (typ : Typ) (name : String)
  | enum (constants : List (String × Int)) (typ : Typ)
  deriving DecidableEq, Repr

/-- A call of a function of `INTERNAL`. What `internal` does with the OCaml
function is not the generators' concern. -/
inductive Binding
  | enum (constants : List (String × Int)) (typ : Typ)
  | structure_ (typ : Typ)
  | union (typ : Typ)
  | typedef (typ : Typ) (name : String)
  | internal (runtimeLock : Bool) (name : String) (fn : Fn)
  deriving DecidableEq, Repr

def Binding.decl : Binding → Decl
  | .enum constants typ => .enum constants typ
  | .structure_ typ | .union typ => .ty typ
  | .typedef typ name => .typedef typ name
  | .internal runtimeLock name fn =>
      .fn { fnRuntimeLock := runtimeLock, fnName := name, fn }

/-- `collector`: every call pushes a declaration. -/
def collector (program : List Binding) : List Decl :=
  (program.foldl (fun decls b => b.decl :: decls) []).reverse

def Decl.functions : Decl → List FnInfo
  | .fn info => [info]
  | _ => []

def functions (decls : List Decl) : List FnInfo := (decls.map Decl.functions).flatten

/-- The functions are declared in the order of the calls. -/
theorem functions_collector (program : List Binding) :
    functions (collector program) = program.flatMap fun b => b.decl.functions := by
  have hpush : ∀ decls : List Decl, (program.foldl (fun ds b => b.decl :: ds) decls).reverse =
      decls.reverse ++ program.map Binding.decl := by
    induction program with
    | nil => simp
    | cons b bs ih =>
        intro decls
        rw [List.foldl_cons, ih, List.reverse_cons, List.append_assoc]
        rfl
  rw [functions, collector, hpush, List.reverse_nil, List.nil_append, List.map_map,
    List.flatMap_def]
  rfl

/-! ### The C file -/

structure CFile where
  /-- The enumerators of `enum functions`. The last one is the size of the table. -/
  enumerators : List String
  register : String
  functions : List CFundef
  deriving DecidableEq, Repr

def formatEnumValues (infos : List FnInfo) : List String :=
  infos.map fun info => "fn_" ++ info.fnName

/-- `inverse_fn` of `Cstubs_generate_c`, of which `Cbuf_generate_c` has a copy. -/
def cFunction (info : FnInfo) : Gen CFundef :=
  Cbuf.GenerateC.inverseFn info.fnName info.fnRuntimeLock (.ofCtypes info.fn)

def genC (register : String) (infos : List FnInfo) : Gen CFile := do
  let functions ← infos.mapM cFunction
  return { enumerators := formatEnumValues infos ++ ["fn_count"], register, functions }

def writeC (pre : String) (program : List Binding) : Gen CFile :=
  genC (pre ++ "_register") (functions (collector program))

/-! ### The ML file -/

/-- A case of the generated `internal`: it registers `exp` under `con`. -/
structure InverseCase where
  pat : MlPat
  name : String
  con : String
  exp : MlExp
  deriving DecidableEq, Repr

structure MlFile where
  /-- The constructors of the type `name`. -/
  constructors : List (String × MlExternalType)
  register : String
  cases : List InverseCase
  deriving DecidableEq, Repr

def constructorDecl (name : String) (fn : Fn) : Except Exn (String × MlExternalType) := do
  return (name, ← mlExternalTypeOfFn .sequential .ignoreErrno .arg fn)

def inverseCase (con name : String) (fn : Fn) : Gen InverseCase := do
  let id ← lift (Cbuf.pathOfString "f")
  let (pat, exp) ←
    wrapper .sequential .ignoreErrno id (.ofCtypes fn) "f" .result
  return { pat, name, con, exp }

def genML (register : String) (infos : List FnInfo) : Gen MlFile := do
  let constructors ← lift (infos.mapM fun info => constructorDecl ("Fn_" ++ info.fnName) info.fn)
  let cases ← infos.mapM fun info => inverseCase ("Fn_" ++ info.fnName) info.fnName info.fn
  return { constructors, register, cases }

def writeML (pre : String) (program : List Binding) : Gen MlFile :=
  genML (pre ++ "_register") (functions (collector program))

/-! ### Registering functions -/

/-- What is registered: the expression of a case, around the function `f` that
`internal` was given. -/
structure Registered (F : Type) where
  exp : MlExp
  f : F
  deriving DecidableEq, Repr

/-- The array `functions`. -/
abbrev Table (F : Type) := Nat → Option (Registered F)

variable {F : Type}

/-- The C function that `register_value` is. -/
def registerValue (i : Nat) (v : Registered F) (table : Table F) : Table F :=
  fun j => if j = i then some v else table j

/-- Constant constructors are numbered in the order of their declaration. -/
def MlFile.tag (file : MlFile) (con : String) : Nat :=
  (file.constructors.map fun c => c.1).idxOf con

def CFile.index (file : CFile) (enumerator : String) : Nat := file.enumerators.idxOf enumerator

/-- A call of the generated `internal`. -/
structure Registration (F : Type) where
  name : String
  fn : Fn
  f : F

def InverseCase.selects (c : InverseCase) (name : String) (fn : Fn) : Bool :=
  (matchPat c.pat (.fn 0 (.ofCtypes fn))).isSome && c.name == name

def MlFile.internal (file : MlFile) (r : Registration F) (table : Table F) :
    Except Exn (Table F) :=
  match file.cases.find? fun c => c.selects r.name r.fn with
  | some c => .ok (registerValue (file.tag c.con) ⟨c.exp, r.f⟩ table)
  | none => .error (.failure ("Linking mismatch on name: " ++ r.name))

def MlFile.attempt (file : MlFile) (table : Table F) (r : Registration F) : Table F :=
  match file.internal r table with
  | .ok table' => table'
  | .error _ => table

def MlFile.internals (file : MlFile) (rs : List (Registration F)) (table : Table F) : Table F :=
  rs.foldl file.attempt table

/-! ### Positions -/

/-- Names behind one prefix, in the order of the declarations. -/
theorem idxOf_named {infos : List FnInfo} (hnames : (infos.map FnInfo.fnName).Nodup)
    {i : Nat} {info : FnInfo} (hi : infos[i]? = some info) (pre : String)
    (tail : List String) :
    (infos.map (fun info => pre ++ info.fnName) ++ tail).idxOf (pre ++ info.fnName) = i := by
  have hnodup : (infos.map fun info => pre ++ info.fnName).Nodup := by
    rw [← Function.comp_def (fun s => pre ++ s), ← List.map_map]
    exact hnames.map fun x y h => by simpa using h
  obtain ⟨hlt, rfl⟩ := List.getElem?_eq_some_iff.mp hi
  have hlen : i < (infos.map fun info => pre ++ info.fnName).length := by
    rwa [List.length_map]
  have hget : (infos.map fun info => pre ++ info.fnName)[i] = pre ++ infos[i].fnName := by
    simp
  rw [← hget, List.idxOf_append_of_mem (List.getElem_mem hlen), hnodup.idxOf_getElem]

/-- C rejects an enumeration that declares a name twice, as it does when there is
a function called `count`. -/
theorem enumerators_nodup_iff (infos : List FnInfo) :
    (formatEnumValues infos ++ ["fn_count"]).Nodup ↔
      (infos.map FnInfo.fnName).Nodup ∧ "count" ∉ infos.map FnInfo.fnName := by
  have hinj : Function.Injective ("fn_" ++ · : String → String) := fun x y h => by simpa using h
  have hvalues : formatEnumValues infos = (infos.map FnInfo.fnName).map ("fn_" ++ ·) := by
    rw [List.map_map]
    rfl
  have hcount : "fn_count" ∈ (infos.map FnInfo.fnName).map ("fn_" ++ ·) ↔
      "count" ∈ infos.map FnInfo.fnName :=
    List.mem_map_of_injective hinj (a := "count")
  rw [hvalues, List.nodup_append_comm, List.singleton_append, List.nodup_cons,
    List.nodup_map_iff hinj, hcount, and_comm]

/-! ### What is registered -/

/-- The number of arguments that what is registered takes: an abstraction takes
its own, and `f` itself those of its type. -/
def numArguments (fn : Fn) : MlExp → Nat
  | .fn xs _ => xs.length
  | .ident _ => (Cbuf.Fn.ofCtypes fn).arguments.length
  | _ => 0

structure CaseFor (info : FnInfo) (c : InverseCase) : Prop where
  name_eq : c.name = info.fnName
  con_eq : c.con = "Fn_" ++ info.fnName
  pattern : MatchesFn c.pat (shapeFn (.ofCtypes info.fn))
  arguments : numArguments info.fn c.exp = (Cbuf.Fn.ofCtypes info.fn).arguments.length

/-- Only an expression of its own brings bindings with it. -/
theorem patternAndExpOfTyp_binds {concurrency : ConcurrencyPolicy} {errno_ : ErrnoPolicy}
    {t : Typ} {e : MlExp} {pol : Polarity} {binds : List MlBind} {n n' : Nat}
    {r : PatternExp} (h : patternAndExpOfTyp concurrency errno_ t e pol binds n = .ok (r, n'))
    (hexp : r.exp = none) : r.binds = binds := by
  cases t with
  | void =>
      cases h
      rfl
  | primitive p =>
      cases h
      rfl
  | ocaml o =>
      cases pol <;> cases o <;> cases h <;> rfl
  | view v ty =>
      cases pol <;> simp only [patternAndExpOfTyp, freshVar_bind, ident_bind, bind_eq_ok,
        pure_apply, Except.ok.injEq, Prod.mk.injEq] at h
      · obtain ⟨r1, n1, hr1, rfl, -⟩ := h
        cases hexp
      · obtain ⟨r1, n1, -, e1, n2, -, rfl, -⟩ := h
        cases hexp
  | abstract a => simp [patternAndExpOfTyp] at h
  | array u k => simp [patternAndExpOfTyp] at h
  | bigarray ba => simp [patternAndExpOfTyp] at h
  | _ =>
      cases pol <;> simp only [patternAndExpOfTyp, freshVar_bind, bind_eq_ok, pure_apply,
        Except.ok.injEq, Prod.mk.injEq] at h <;>
        obtain ⟨_, _, -, rfl, -⟩ := h <;> cases hexp

/-- A wrapper has a parameter for each argument, and a trivial one has no
bindings. -/
theorem wrapperBody_arguments {concurrency : ConcurrencyPolicy} {errno_ : ErrnoPolicy}
    {pol : Polarity} {f : Cbuf.Fn} {exp : MlExp} {binds : List MlBind} {n n' : Nat}
    {s : WrapperState} (h : wrapperBody concurrency errno_ pol f exp binds n = .ok (s, n')) :
    s.args.length = f.arguments.length ∧ (s.trivial = true → s.binds = binds) := by
  induction f generalizing exp binds n n' s with
  | returns t =>
      simp only [wrapperBody, bind_eq_ok, pure_apply, Except.ok.injEq, Prod.mk.injEq] at h
      obtain ⟨r, n1, hr, rfl, -⟩ := h
      exact ⟨rfl, fun ht => patternAndExpOfTyp_binds hr (Option.isNone_iff_eq_none.mp ht)⟩
  | function t f ih =>
      obtain ⟨r, n1, s1, hr, hs1, rfl⟩ := wrapperBody_function h
      obtain ⟨hargs, hbinds⟩ := ih hs1
      refine ⟨congrArg Nat.succ hargs, fun ht => ?_⟩
      obtain ⟨hexp, ht⟩ := Bool.and_eq_true_iff.mp ht
      exact (hbinds ht).trans
        (patternAndExpOfTyp_binds hr (Option.isNone_iff_eq_none.mp hexp))
  | buffers cpos b r ih =>
      cases r with
      | function t f => simp [wrapperBody] at h
      | buffers cpos' b' r' => simp [wrapperBody] at h
      | returns t =>
          simp only [wrapperBody, Supply.pure_bind, bind_eq_ok, pure_apply, Except.ok.injEq,
            Prod.mk.injEq] at h
          obtain ⟨q, n1, hq, p, n2, hp, rfl, -⟩ := h
          exact ⟨rfl, fun h => (Bool.false_ne_true h).elim⟩

theorem inverseCase_eq_ok {con name : String} {fn : Fn} {n n' : Nat} {c : InverseCase}
    (h : inverseCase con name fn n = .ok (c, n')) :
    c.name = name ∧ c.con = con ∧ MatchesFn c.pat (shapeFn (.ofCtypes fn)) ∧
      numArguments fn c.exp = (Cbuf.Fn.ofCtypes fn).arguments.length := by
  obtain ⟨id, n1, -, h⟩ := bind_eq_ok.mp h
  obtain ⟨⟨pat, exp⟩, n2, hw, h⟩ := bind_eq_ok.mp h
  cases h
  refine ⟨rfl, rfl, wrapper_matches hw, ?_⟩
  simp only [wrapper, bind_eq_ok] at hw
  obtain ⟨e, n3, -, p, n4, hp, hw⟩ := hw
  obtain ⟨hargs, hbinds⟩ := wrapperBody_arguments hp
  split at hw
  · rename_i ht
    rw [hbinds ht] at hw
    cases hw
    rfl
  · cases hw
    exact hargs

theorem genML_eq_ok {register : String} {infos : List FnInfo} {file : MlFile} {n n' : Nat}
    (h : genML register infos n = .ok (file, n')) :
    (file.constructors.map fun c => c.1) = infos.map (fun info => "Fn_" ++ info.fnName) ∧
      List.Forall₂ CaseFor infos file.cases := by
  obtain ⟨constructors, n1, hcon, h⟩ := bind_eq_ok.mp h
  obtain ⟨cases', n2, hcases, h⟩ := bind_eq_ok.mp h
  cases h
  constructor
  · obtain ⟨hcon, -⟩ := lift_eq_ok.mp hcon
    have hnames : List.Forall₂ (fun c info => c.1 = "Fn_" ++ info.fnName) constructors infos := by
      refine ((except_mapM_eq_ok hcon).imp fun info c hc => ?_).flip
      obtain ⟨typ, -, hc⟩ := except_bind_eq_ok hc
      cases hc
      rfl
    have heq : List.Forall₂ Eq (constructors.map fun c => c.1)
        (infos.map fun info => "Fn_" ++ info.fnName) :=
      List.forall₂_map_left_iff.mpr (List.forall₂_map_right_iff.mpr hnames)
    rwa [List.forall₂_eq_eq_eq] at heq
  · refine (mapM_eq_ok hcases).imp fun info c ⟨k, k', hc⟩ => ?_
    obtain ⟨hname, hcon, hpat, hargs⟩ := inverseCase_eq_ok hc
    exact ⟨hname, hcon, hpat, hargs⟩

def FnInfo.Accepts (info : FnInfo) (r : Registration F) : Prop :=
  r.name = info.fnName ∧ shapeFn (.ofCtypes r.fn) = shapeFn (.ofCtypes info.fn)

instance (info : FnInfo) (r : Registration F) : Decidable (info.Accepts r) := by
  unfold FnInfo.Accepts
  infer_instance

theorem CaseFor.selects_iff {info : FnInfo} {c : InverseCase} (h : CaseFor info c)
    (r : Registration F) : c.selects r.name r.fn = true ↔ info.Accepts r := by
  rw [InverseCase.selects, Bool.and_eq_true, h.pattern 0, h.name_eq, beq_iff_eq,
    FnInfo.Accepts, eq_comm (a := info.fnName), and_comm]

structure MlFileFor (infos : List FnInfo) (file : MlFile) : Prop where
  constructors : (file.constructors.map fun c => c.1) =
    infos.map fun info => "Fn_" ++ info.fnName
  cases : List.Forall₂ CaseFor infos file.cases

section Registering

variable {infos : List FnInfo} {file : MlFile} {i : Nat} {info : FnInfo} {c : InverseCase}

theorem MlFileFor.tag_eq (h : MlFileFor infos file) (hnames : (infos.map FnInfo.fnName).Nodup)
    (hi : infos[i]? = some info) : file.tag ("Fn_" ++ info.fnName) = i := by
  rw [MlFile.tag, h.constructors, ← List.append_nil (infos.map _)]
  exact idxOf_named hnames hi "Fn_" []

theorem MlFileFor.caseFor (h : MlFileFor infos file) (hi : infos[i]? = some info)
    (hc : file.cases[i]? = some c) : CaseFor info c := by
  obtain ⟨hlt, rfl⟩ := List.getElem?_eq_some_iff.mp hi
  obtain ⟨hlt', rfl⟩ := List.getElem?_eq_some_iff.mp hc
  exact h.cases.get hlt hlt'

/-- One call changes the entry of the declaration that accepts it. -/
theorem MlFileFor.attempt_apply (h : MlFileFor infos file)
    (hnames : (infos.map FnInfo.fnName).Nodup) (hi : infos[i]? = some info)
    (hc : file.cases[i]? = some c) (table : Table F) (r : Registration F) :
    file.attempt table r i = if info.Accepts r then some ⟨c.exp, r.f⟩ else table i := by
  have hcase := h.caseFor hi hc
  rw [MlFile.attempt, MlFile.internal]
  cases hfind : file.cases.find? fun c => c.selects r.name r.fn with
  | none =>
      have hnone := List.find?_eq_none.mp hfind c (List.mem_of_getElem? hc)
      rw [hcase.selects_iff] at hnone
      rw [if_neg hnone]
  | some c' =>
      obtain ⟨j, hj⟩ := List.getElem?_of_mem (List.mem_of_find?_eq_some hfind)
      obtain ⟨hlt, -⟩ := List.getElem?_eq_some_iff.mp hj
      have hlen : infos.length = file.cases.length := h.cases.length_eq
      obtain ⟨info', hinfo'⟩ : ∃ info', infos[j]? = some info' :=
        ⟨_, List.getElem?_eq_getElem (hlen ▸ hlt)⟩
      have hcase' := h.caseFor hinfo' hj
      have haccepts : info'.Accepts r :=
        (hcase'.selects_iff r).mp
          (List.find?_some (p := fun d : InverseCase => d.selects r.name r.fn) hfind)
      have htag : file.tag c'.con = j := by rw [hcase'.con_eq, h.tag_eq hnames hinfo']
      show registerValue (file.tag c'.con) ⟨c'.exp, r.f⟩ table i = _
      rw [htag, registerValue]
      by_cases hij : i = j
      · subst hij
        obtain rfl : info = info' := Option.some.inj (hi.symm.trans hinfo')
        obtain rfl : c = c' := Option.some.inj (hc.symm.trans hj)
        rw [if_pos rfl, if_pos haccepts]
      · have hother : ¬ info.Accepts r := by
          intro hacc
          have hname : info.fnName = info'.fnName := hacc.1.symm.trans haccepts.1
          have hindex := h.tag_eq hnames hi
          rw [hname, h.tag_eq hnames hinfo'] at hindex
          exact hij hindex.symm
        rw [if_neg hij, if_neg hother]

/-- After any calls the table holds the function that was registered last. -/
theorem MlFileFor.internals_apply (h : MlFileFor infos file)
    (hnames : (infos.map FnInfo.fnName).Nodup) (hi : infos[i]? = some info)
    (hc : file.cases[i]? = some c) (rs : List (Registration F)) (table : Table F) :
    file.internals rs table i =
      ((rs.reverse.find? fun r => info.Accepts r).map fun r => ⟨c.exp, r.f⟩).or (table i) := by
  induction rs using List.reverseRecOn with
  | nil => rfl
  | append_singleton rs r ih =>
      rw [MlFile.internals, List.foldl_append, List.foldl_cons, List.foldl_nil]
      rw [h.attempt_apply hnames hi hc, List.reverse_append, List.reverse_singleton,
        List.singleton_append, List.find?_cons]
      by_cases hacc : info.Accepts r
      · simp [hacc]
      · rw [if_neg hacc, ← MlFile.internals, ih]
        simp [hacc]

end Registering

end CtypesCbuf.Cstubs.Inverted
