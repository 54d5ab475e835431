import CtypesCbuf.Cstubs.JobExecution
import CtypesCbuf.Cstubs.Program

/-!
Calls of a wrapper of Cstubs that runs on the code printed for it. Under every
policy the C function is called once, and OCaml gets the image of what it
returns. The policies differ in what they make of OCaml integers of more than
32 bits.
-/

namespace CtypesCbuf.Cstubs

open NameSupply Supply
open Ctypes CLanguage Stubs
open Cbuf (argImage returnImage contents pairOf HasTyp cValue cValues FitsInt externFile)
open Cbuf.GenerateC (receivedArgs withErrno)
open Cbuf.GenerateML (Case)
open MlLanguage
open CtypesCbuf.Runtime

/-! ### The code as an external -/

def runCode (m : Machine) (before after : Lwt.Others) (fvar : CFunction) (code : StubCode)
    (vs : List Value) (w : World) : Value × World :=
  match code with
  | .functions (d :: _) =>
      let s := runFundef m fvar d (vs.map .value) (fun _ => .undefined) w
      ((s.result.getD .undefined).toValue, s.world)
  | .functions [] => (.unit, w)
  | .lwtJob job => Lwt.runJob m before after fvar job (vs.map .value) w

/-- The external is the code printed for a function. Promises are not told from
their values. -/
def onCode (m : Machine) (before after : Lwt.Others) (fvar : CFunction) (code : StubCode) :
    MlLanguage.Interp Value World where
  unit := .unit
  tuple := pairOf
  fst := Cbuf.pairFst
  snd := Cbuf.pairSnd
  cpointer := contents
  staticFunptr := contents
  addr := contents
  ocamlBytesStart v := .ocamlRef .bytes 0 v
  makePtr := Cbuf.madePtr
  makeFunPtr := Cbuf.madeFunPtr
  makeStructured := Cbuf.madeStructured
  write v x w := (m.write v x, w)
  read v x w := (m.read v x, w)
  bytesCreate i w := (.object .bytes w.created.length, Cbuf.withSequence i w)
  external := runCode m before after fvar code
  runJob := id
  await := id
  resolved := id
  boxLwt := id

/-! ### Arguments -/

def passedValue (m : Machine) : Typ → Value → Value
  | .pointer _, v | .funptr _, v => contents v
  | .struct _ _ _, v | .union _ _ _, v => contents (contents v)
  | .view w ty, v => passedValue m ty (m.write w v)
  | _, v => v

def callArgs (m : Machine) (concurrency : ConcurrencyPolicy) (f : Fn) (vs : List Value) :
    List CVal :=
  let passed := (List.zipWith (passedValue m) (args f) vs).map .value
  match concurrency with
  | .lwtJobs => List.zipWith (fun t v => Lwt.stored m t.core v) (args f) passed
  | _ => receivedArgs m (args f) passed

section Arguments

variable {m : Machine} {before after : Lwt.Others} {fvar : CFunction} {code : StubCode}

theorem argImage_onCode {t : Typ} {v y : Value}
    (h : argImage (onCode m before after fvar code) t v y) : y = passedValue m t v := by
  induction t using Typ.core.induct generalizing v with
  | case1 w ty ih =>
      obtain ⟨_, h⟩ := h
      exact ih h
  | case2 t hview =>
      cases t with
      | view w ty => exact absurd rfl (hview w ty)
      | _ => exact h

theorem argImage_passedValue (fvar : CFunction) (d : CFundef) (t : Typ) (v : Value) :
    argImage (Cbuf.onStub m fvar d) t v (passedValue m t v) := by
  induction t using Typ.core.induct generalizing v with
  | case1 w ty ih => exact ⟨.empty, ih _⟩
  | case2 t hview =>
      cases t with
      | view w ty => exact absurd rfl (hview w ty)
      | _ => rfl

theorem passedValues_eq {ts : List Typ} {vs us : List Value} (hlen : ts.length = vs.length)
    (h : List.Forall₂ (fun q u => q u)
      (List.zipWith (argImage (onCode m before after fvar code)) ts vs) us) :
    us = List.zipWith (passedValue m) ts vs := by
  induction ts generalizing vs us with
  | nil => exact List.forall₂_nil_left_iff.mp h
  | cons t ts ih =>
      cases vs with
      | nil => cases hlen
      | cons v vs =>
          obtain ⟨u, us', hu, hus, rfl⟩ := List.forall₂_cons_left_iff.mp h
          rw [List.zipWith_cons_cons, ← ih (Nat.succ.inj hlen) hus, argImage_onCode hu]

/-- The stubs that pass arguments through locals pass their C values, unless an
OCaml integer does not fit. -/
theorem receivedArgs_iff (hm : m.integers.Lawful) {ts : List Typ} {vs : List Value}
    (hts : ∀ t ∈ ts, Passed t) (hvs : List.Forall₂ (HasTyp m) ts vs) :
    let passed := (List.zipWith (passedValue m) ts vs).map CVal.value
    (receivedArgs m ts passed).length = (cValues m ts vs).length ∧
      (receivedArgs m ts passed = cValues m ts vs ↔ ∀ q ∈ ts.zip vs, FitsInt m q.1 q.2) := by
  have himages : List.Forall₂ (fun q u => q u)
      (List.zipWith (argImage (Cbuf.onStub m pairFunction (byteDef "" (.returns .void) 0 0)))
        ts vs)
      (List.zipWith (passedValue m) ts vs) := by
    clear hts hvs
    induction ts generalizing vs with
    | nil => exact .nil
    | cons t ts ih =>
        cases vs with
        | nil => exact .nil
        | cons v vs => exact .cons (argImage_passedValue _ _ t v) ih
  exact Cbuf.receivedArgs_cValues hm hts hvs himages

/-- A member of the type takes what `ctypes_write` stores: between the reader
and the member there is no local of the reader's result type. -/
theorem stored_primitive (hm : m.integers.Lawful) {p : Prim} {v : Value}
    (hv : HasMlPrim m (mlPrim p) v) :
    Lwt.stored m (.primitive p) (.value v) = ctypesWrite m p v := by
  by_cases hp : Integral p
  · obtain ⟨i, hi⟩ := Cbuf.denotes_of_hasMlPrim hp hv
    obtain ⟨g, hread, hbits⟩ := Cbuf.GenerateC.primPrj_eval hm hp hi
    rw [ctypesWrite_eq hm hp hi, Lwt.stored, hread]
    by_cases hbool : p = .bool
    · subst hbool
      obtain ⟨rfl, rfl | rfl⟩ := hi
      · exact congrArg (convert m .bool) hread.symm
      · exact congrArg (convert m .bool) hread.symm
    · obtain ⟨f, hf⟩ := intFormat_of_integral (m := m) hp hbool
      rw [convert_wrap hf (hbits f hf), convert_int hf]
  · cases p <;> first | rfl | exact absurd rfl hp

/-- The member for an argument takes its C value. -/
theorem stored_argument (hm : m.integers.Lawful) {x : String} {t : Typ} {e : CEff}
    (ht : Lwt.prj (valueLocal x) t = .ok e) {v : Value} (hv : HasTyp m t v) :
    cValue m t v = some (Lwt.stored m t.core (.value (passedValue m t v))) := by
  induction t using Typ.core.induct generalizing v with
  | case1 w ty ih =>
      rw [HasTyp] at hv
      rw [Typ.core_view, cValue, passedValue]
      exact ih ht hv
  | case2 t hview =>
      cases t with
      | view w ty => exact absurd rfl (hview w ty)
      | primitive p => exact congrArg some (stored_primitive hm hv).symm
      | pointer u =>
          obtain ⟨managed, reftyp, q, rfl⟩ := hv
          rfl
      | funptr fn =>
          obtain ⟨managed, fn', q, rfl⟩ := hv
          rfl
      | _ => cases ht

theorem storedArgs_eq (hm : m.integers.Lawful) {ts : List Typ} {vs : List Value}
    (hts : ∀ t ∈ ts, ∃ x e, Lwt.prj (valueLocal x) t = .ok e)
    (hvs : List.Forall₂ (HasTyp m) ts vs) :
    List.zipWith (fun t v => Lwt.stored m t.core v) ts
        ((List.zipWith (passedValue m) ts vs).map .value) = cValues m ts vs := by
  induction hvs with
  | nil => rfl
  | @cons t v ts vs hv hvs ih =>
      obtain ⟨⟨x, e, he⟩, hts'⟩ := List.forall_mem_cons.mp hts
      rw [cValues, List.zipWith_cons_cons, List.map_cons, List.zipWith_cons_cons,
        List.zipWith_cons_cons, stored_argument hm he hv, List.reduceOption_cons_of_some,
        ih hts']
      rfl

end Arguments

/-! ### Results -/

/-- The OCaml value of a C result, as `build` of `ctypes_memory.ml` makes it.
That function has no case for unions. -/
def readResult (m : Machine) : Typ → CVal → Value
  | .primitive p, c => (ctypesRead m p c).toValue
  | .pointer reftyp, c => .cpointer (.fatptr .unit reftyp c.toPtr)
  | .funptr fn, c => .staticFunptr (.fatfunptr .unit fn c.toPtr)
  | .struct tag (.complete size align) fields, c =>
      copyStruct (.struct tag (.complete size align) fields) size c
  | .union utag (some spec) ufields, c => copyStruct (.union utag (some spec) ufields) spec.size c
  | .view w ty, c => m.read w (readResult m ty c)
  | _, _ => .unit

theorem build_eq_readResult {m : Machine} {t : Typ} {get : CVal → Except Exn Value}
    (h : build m t = .ok get) {c : CVal} {u : Value} (hu : get c = .ok u) :
    u = readResult m t c := by
  induction t using Typ.core.induct generalizing get u with
  | case1 w ty ih =>
      rw [build] at h
      obtain ⟨get', hget, h⟩ := except_bind_eq_ok h
      cases h
      obtain ⟨u', hu', hu⟩ := except_bind_eq_ok hu
      cases hu
      rw [readResult, ih hget hu']
  | case2 t hview =>
      cases t with
      | view w ty => exact absurd rfl (hview w ty)
      | struct tag spec fields =>
          cases spec with
          | incomplete k => cases h
          | complete size align =>
              cases h
              cases hu
              rfl
      | ocaml o =>
          cases h
          cases hu
      | _ =>
          cases h <;> cases hu <;> rfl

/-- A structure that a stub can copy: its size is a C `int`. -/
def Copyable : Typ → Prop
  | .struct _ (.complete size _) _ => size < 2 ^ 31
  | .union _ (some spec) _ => spec.size < 2 ^ 31
  | _ => True

section Results

variable {m : Machine} {before after : Lwt.Others} {fvar : CFunction} {code : StubCode} {F : File}

/-- Under each policy `map_result` acts on the image and keeps `errno`. -/
theorem mapped_onCode {G : Value → Value → Prop} {u y : Value} {k : Int}
    (h : mapped (onCode m before after fvar code) F G (withErrno F.errno_ u k) y) :
    ∃ r, G u r ∧ y = withErrno F.errno_ r k := by
  unfold mapped at h
  cases hc : F.concurrency <;> cases he : F.errno_ <;> rw [hc, he] at h <;>
    first | exact h | exact ⟨y, h, rfl⟩

/-- A copy of a structure is as long as the structure. -/
theorem copyBlock_size {c : CVal} {bytes : List UInt8} (hc : c = .image bytes) {size : Nat}
    (hsize : size < 2 ^ 31) :
    copyBlock [.addrOf c, .int (sintOfInt size)] = .value (.managedBuffer (bytes.take size)) := by
  subst hc
  have hsint : sintOfInt size = size := by
    rw [sintOfInt]
    apply Int.bmod_eq_of_le <;> omega
  rw [copyBlock, hsint, Int.toNat_natCast]

/-- What the stub injects becomes the value that `build` makes. -/
theorem returnImage_onCode (before after : Lwt.Others) (fvar : CFunction) (code : StubCode)
    (F : File) {t : Typ} (ht : Injectable t.core) (hsize : Copyable t.core) {c : CVal}
    (hc : HasCore m.charSigned t.core c) :
    ∃ u, injected m t.core c = .value u ∧ ∀ k y,
      returnImage (onCode m before after fvar code) F t (withErrno F.errno_ u k) y →
        y = withErrno F.errno_ (readResult m t c) k := by
  induction t using Typ.core.induct with
  | case1 w ty ih =>
      rw [Typ.core_view] at ht hsize hc
      obtain ⟨u, hu, himage⟩ := ih ht hsize hc
      refine ⟨u, by rw [Typ.core_view, hu], fun k y hy => ?_⟩
      obtain ⟨u', hu', hy⟩ := hy
      rw [himage k u' hu'] at hy
      obtain ⟨r, ⟨world, rfl⟩, rfl⟩ := mapped_onCode hy
      rfl
  | case2 t hview =>
      cases t with
      | view w ty => exact absurd rfl (hview w ty)
      | void =>
          refine ⟨.unit, rfl, fun k y hy => ?_⟩
          exact hy
      | primitive p =>
          obtain ⟨u, hu, -⟩ := Cbuf.injected_primitive hc
          refine ⟨u, hu, fun k y hy => ?_⟩
          have hread : readResult m (.primitive p) c = u := by
            rw [readResult, ← Cbuf.GenerateC.injected_eq_ctypesRead hc, hu]
            rfl
          rw [hread]
          exact hy
      | pointer reftyp =>
          obtain ⟨p, rfl⟩ := hc
          refine ⟨.rawPtr p, rfl, fun k y hy => ?_⟩
          obtain ⟨r, rfl, rfl⟩ := mapped_onCode hy
          rfl
      | funptr fn =>
          obtain ⟨p, rfl⟩ := hc
          refine ⟨.rawPtr p, rfl, fun k y hy => ?_⟩
          obtain ⟨r, rfl, rfl⟩ := mapped_onCode hy
          rfl
      | struct tag spec fields =>
          cases spec with
          | incomplete k => cases ht
          | complete size align =>
              obtain ⟨bytes, rfl⟩ := hc
              refine ⟨_, copyBlock_size rfl hsize, fun k y hy => ?_⟩
              obtain ⟨r, rfl, rfl⟩ := mapped_onCode hy
              rfl
      | union utag uspec ufields =>
          cases uspec with
          | none => cases ht
          | some spec =>
              obtain ⟨bytes, rfl⟩ := hc
              refine ⟨_, copyBlock_size rfl hsize, fun k y hy => ?_⟩
              obtain ⟨r, rfl, rfl⟩ := mapped_onCode hy
              rfl
      | _ => cases ht

/-- A value of the type is not converted when it is bound to a local. -/
theorem convertTyp_of_hasCore {t : Typ} {c : CVal} (hc : HasCore m.charSigned t.core c) :
    convertTyp m t c = c := by
  rw [← convertTyp_core]
  cases ht : t.core with
  | view w ty => exact absurd ht (Typ.core_ne_view t w ty)
  | primitive p =>
      rw [ht] at hc
      exact convert_of_hasPrim hc
  | _ => rfl

end Results

/-! ### Whole calls -/

/-- The call that ends as `r` from the world `w` has called the C function once,
on `cargs`, and returns its image, with `errno` if the policy says so. -/
def Delivers (m : Machine) (cname : String) (cargs : List CVal) (t : Typ) (errno_ : ErrnoPolicy)
    (w : World) (r : Option (Sem Value World × Store Value World)) : Prop :=
  ∃ k st, r = some (.val (withErrno errno_ (readResult m t (m.foreign cargs)) k), st) ∧
    IntFormat.i32.InRange k ∧
    (∃ e e', st.world.calls = w.calls ++ [⟨cname, cargs, e, e'⟩]) ∧ st.world.created = w.created

theorem Delivers.args_unique {m : Machine} {cname : String} {cargs cargs' : List CVal} {t : Typ}
    {errno_ : ErrnoPolicy} {w : World} {r : Option (Sem Value World × Store Value World)}
    (h : Delivers m cname cargs t errno_ w r) (h' : Delivers m cname cargs' t errno_ w r) :
    cargs = cargs' := by
  obtain ⟨k, st, hr, -, ⟨e, e1, hcalls⟩, -⟩ := h
  obtain ⟨k', st', hr', -, ⟨e', e1', hcalls'⟩, -⟩ := h'
  obtain ⟨-, rfl⟩ := Prod.mk.inj (Option.some.inj (hr.symm.trans hr'))
  rw [hcalls, List.append_cancel_left_eq, List.singleton_inj] at hcalls'
  exact congrArg Call.args hcalls'

section Call

variable {m : Machine} {concurrency : ConcurrencyPolicy} {errno_ : ErrnoPolicy}
  {cname stubName : String} {f : Fn} {n n' : Nat} {code : StubCode} {vs : List Value}

theorem arguments_ofCtypes (f : Fn) : (Cbuf.Fn.ofCtypes f).arguments = args f := by
  induction f using args.induct with
  | case1 t => rfl
  | case2 f t ih => exact congrArg (f :: ·) ih

theorem sizes_ofCtypes (f : Fn) : (Cbuf.Fn.ofCtypes f).sizes = [] := by
  induction f using args.induct with
  | case1 t => rfl
  | case2 f t ih => exact ih

theorem tail_ofCtypes (f : Fn) : (Cbuf.Fn.ofCtypes f).tail = .returns (resultTyp f) := by
  induction f using args.induct with
  | case1 t => rfl
  | case2 f t ih => exact ih

/-- A call of the external on the images of the arguments. -/
theorem runCode_callsOnce (hcode : fn concurrency errno_ cname stubName f n = .ok (code, n'))
    (hvoid : concurrency = .lwtJobs → .void ∉ args f) {us : List Value} {cargs : List CVal}
    (hus : us.length = (args f).length)
    (hcargs : cargs = match concurrency with
      | .lwtJobs => List.zipWith (fun t v => Lwt.stored m t.core v) (args f) (us.map .value)
      | _ => receivedArgs m (args f) (us.map .value))
    {u : Value} (hu : injected m (resultTyp f).core (m.foreign cargs) = .value u)
    (hc : convertTyp m (resultTyp f) (m.foreign cargs) = m.foreign cargs)
    (before after : Lwt.Others) (w : World) :
    let r := runCode m before after (GenerateC.foreignFunction cname f) code us w
    (∃ e e', r.2.calls = w.calls ++ [⟨cname, cargs, e, e'⟩]) ∧
      (∃ k, IntFormat.i32.InRange k ∧ r.1 = withErrno errno_ u k) ∧ r.2.created = w.created := by
  intro r
  have hlen : (us.map CVal.value).length = (args f).length := by rw [List.length_map, hus]
  rcases fn_eq_ok hcode with ⟨c, d, n1, hpolicy, hd, rfl⟩ | ⟨rfl, job, hjob, rfl⟩
  · obtain ⟨hf, f', n2, i, hstub⟩ := GenerateC.stub_eq_ok hd
    have hreceived : cargs = receivedArgs m (args f) (us.map .value) := by
      rw [hcargs]
      cases concurrency <;> first | rfl | cases hpolicy
    subst hreceived
    rw [← hc] at hu
    obtain ⟨hcalls, ⟨k, hk, hvalue⟩, hcreated⟩ := GenerateC.stub_callsOnce hstub hf hlen hu
      (fun _ => .undefined) w
    have hrun : r = ((((runFundef m (GenerateC.foreignFunction cname f) d (us.map .value)
        (fun _ => .undefined) w).result).getD .undefined).toValue,
        (runFundef m (GenerateC.foreignFunction cname f) d (us.map .value)
          (fun _ => .undefined) w).world) := by
      simp only [r]
      split <;> rfl
    rw [hrun, hvalue]
    exact ⟨hcalls, ⟨k, hk, rfl⟩, hcreated⟩
  · subst hcargs
    exact Lwt.job_callsOnce (Lwt.fn_jobOf hjob) (hvoid rfl) hlen hu before after w

/-- Views keep the world. -/
theorem replay_views (before after : Lwt.Others) (fvar : CFunction) (code : StubCode)
    {evs : List (Event Value)}
    (h : ∀ l ∈ evs.map Event.label, ∃ p, l = .write p ∨ l = .read p) (w : World) :
    replay (onCode m before after fvar code) evs w = w := by
  induction evs generalizing w with
  | nil => rfl
  | cons e evs ih =>
      rw [List.map_cons, List.forall_mem_cons] at h
      obtain ⟨⟨p, he⟩, hevs⟩ := h
      have hkeep : e.effect (onCode m before after fvar code) w = w := by
        cases e with
        | write q v x => rfl
        | read q v x => rfl
        | create i => rcases he with he | he <;> cases he
        | call vs => rcases he with he | he <;> cases he
      show replay _ evs (e.effect _ w) = w
      rw [hkeep]
      exact ih hevs w

theorem externFile_arity {stubName externalName : String} {ext : Extern}
    (h : extern_ concurrency errno_ stubName externalName f = .ok ext) :
    ext.ident = externalName ∧ arity ext.typ = (args f).length := by
  refine ⟨?_, (extern_eq_ok h).2.2.length_eq.symm⟩
  rw [extern_] at h
  obtain ⟨typ, -, h⟩ := except_bind_eq_ok h
  cases h
  rfl

/-- The types of the arguments, by what the policy does with them. -/
theorem fn_arguments (hcode : fn concurrency errno_ cname stubName f n = .ok (code, n'))
    (hvoid : concurrency = .lwtJobs → .void ∉ args f) :
    (concurrency ≠ .lwtJobs → ∀ t ∈ args f, Passed t) ∧
      (concurrency = .lwtJobs → ∀ t ∈ args f, ∃ x e, Lwt.prj (valueLocal x) t = .ok e) := by
  rcases fn_eq_ok hcode with ⟨c, d, n1, hpolicy, hd, -⟩ | ⟨rfl, job, hjob, -⟩
  · refine ⟨fun _ => ?_, fun h => by rw [h] at hpolicy; cases hpolicy⟩
    obtain ⟨hf, f', n2, i, hstub⟩ := GenerateC.stub_eq_ok hd
    have hspec := hstub.spec_eq
    subst hspec
    intro t ht
    rw [args_spec] at ht
    obtain ⟨p, hp, rfl⟩ := List.mem_map.mp ht
    exact hf.params p hp
  · refine ⟨fun h => absurd rfl h, fun _ => ?_⟩
    obtain ⟨-, -, hfields⟩ := jobStub_eq_ok (Lwt.fn_jobOf hjob).stub
    intro t ht
    have hkept : t ∈ (args f).filter fun t => t ≠ .void := by
      apply List.mem_filter.mpr
      refine ⟨ht, ?_⟩
      rw [decide_eq_true_eq]
      rintro rfl
      exact hvoid rfl ht
    rw [← fnArgsAndResult_types] at hkept
    obtain ⟨a, ha, rfl⟩ := List.mem_map.mp hkept
    obtain ⟨e, he, -⟩ := hfields a ha
    exact ⟨a.2, e, he⟩

/-- What the C function gets is the C values of the arguments, for a job always
and otherwise if every OCaml integer fits a C `int`. -/
theorem callArgs_eq_cValues_iff (hm : m.integers.Lawful)
    (hcode : fn concurrency errno_ cname stubName f n = .ok (code, n'))
    (hvoid : concurrency = .lwtJobs → .void ∉ args f)
    (hvs : List.Forall₂ (HasTyp m) (args f) vs) :
    callArgs m concurrency f vs = cValues m (args f) vs ↔
      (concurrency = .lwtJobs ∨ ∀ q ∈ (args f).zip vs, FitsInt m q.1 q.2) := by
  obtain ⟨hpassed, hstored⟩ := fn_arguments hcode hvoid
  by_cases hjobs : concurrency = .lwtJobs
  · have heq := storedArgs_eq hm (hstored hjobs) hvs
    subst hjobs
    exact iff_of_true heq (.inl rfl)
  · have hreceived : callArgs m concurrency f vs =
        receivedArgs m (args f) ((List.zipWith (passedValue m) (args f) vs).map .value) := by
      cases concurrency <;> first | rfl | exact absurd rfl hjobs
    rw [hreceived, (receivedArgs_iff hm (hpassed hjobs) hvs).2, or_iff_right hjobs]

end Call

/-- What is generated for a declaration under two policies. -/
structure GeneratedFor (concurrency : ConcurrencyPolicy) (errno_ : ErrnoPolicy)
    (pre cname : String) (counter : Nat) (f : Fn) where
  ext : Extern
  wrapperCase : Case
  code : StubCode
  ext_eq : extern_ concurrency errno_ (var pre counter cname) (var pre counter cname) f = .ok ext
  case_eq : ∃ n n', GenerateML.case concurrency errno_ cname (var pre counter cname) f n =
    .ok (wrapperCase, n')
  code_eq : ∃ n n', fn concurrency errno_ cname (var pre counter cname) f n = .ok (code, n')

section Call

variable {m : Machine} {concurrency : ConcurrencyPolicy} {errno_ : ErrnoPolicy}
  {pre cname : String} {counter : Nat} {f : Fn} {vs : List Value}

/-- A call of the wrapper, on the code that is printed with it. -/
def GeneratedFor.call (g : GeneratedFor concurrency errno_ pre cname counter f) (m : Machine)
    (before after : Lwt.Others) (vs : List Value) (w : World) :
    Option (Sem Value World × Store Value World) :=
  callWrapper (onCode m before after (GenerateC.foreignFunction cname f) g.code)
    (externFile concurrency errno_ g.ext) g.wrapperCase (.ofCtypes f) vs w

/-- The call calls the C function on what the policy makes of the arguments,
whatever other threads do between the parts of a job. -/
theorem GeneratedFor.call_delivers (g : GeneratedFor concurrency errno_ pre cname counter f)
    (hargs : args f ≠ []) (hvoid : concurrency = .lwtJobs → .void ∉ args f)
    (hforeign : ∀ cargs, HasCore m.charSigned (resultTyp f).core (m.foreign cargs))
    (hsize : Copyable (resultTyp f).core) (hlen : vs.length = (args f).length)
    (before after : Lwt.Others) (w : World) :
    Delivers m cname (callArgs m concurrency f vs) (resultTyp f) errno_ w
      (g.call m before after vs w) := by
  obtain ⟨ext, c, code, hext, ⟨k, k', hcase⟩, ⟨n, n', hcode⟩⟩ := g
  rw [call]
  dsimp only
  let I := onCode m before after (GenerateC.foreignFunction cname f) code
  let us := List.zipWith (passedValue m) (args f) vs
  have hus : us.length = (args f).length := by
    rw [List.length_zipWith, hlen, Nat.min_self]
  have hinjectable : Injectable (resultTyp f).core := by
    rcases fn_eq_ok hcode with ⟨c, d, n1, -, hd, -⟩ | ⟨-, job, hjob, -⟩
    · have haccepted := (GenerateC.stub_eq_ok hd).1
      clear * - haccepted
      induction f using args.induct with
      | case1 t => exact haccepted
      | case2 f t ih => exact ih haccepted.2
    · obtain ⟨i, hi, -⟩ := Lwt.result_eq_ok (Lwt.fn_jobOf hjob).result
      generalize (resultTyp f).core = core at hi ⊢
      cases hi <;> trivial
  -- the wrapper, run on any external
  obtain ⟨hident, harity⟩ := externFile_arity hext
  rw [GenerateML.case_ofCtypes] at hcase
  obtain ⟨id, n1, hid, -⟩ := bind_eq_ok.mp hcase
  obtain ⟨hid, -⟩ := lift_eq_ok.mp hid
  have hexternal : (externFile concurrency errno_ ext).external = id := by
    rw [Cbuf.pathOfString_eq_split hid, ← hident]
    rfl
  have hsound := Cbuf.externFile_sound hid (externFile concurrency errno_ ext) hexternal
  rw [← hexternal] at hid
  obtain ⟨evs1, evs2, y0, hresult, ⟨tr, hsame, htr⟩, hout⟩ :=
    Cbuf.callWrapper_spec (F := externFile concurrency errno_ ext) (I := I) hsound
      (by rwa [arguments_ofCtypes]) (by rw [arguments_ofCtypes, hlen])
      (by rw [arguments_ofCtypes, sizes_ofCtypes]; exact harity) hid hcase w
  rw [tail_ofCtypes, arguments_ofCtypes] at hout
  rw [sizes_ofCtypes] at htr
  obtain ⟨us', bufs, evs, hus', hbufs, rfl, hreads, hreturned⟩ := hout
  obtain rfl : bufs = [] := List.forall₂_nil_left_iff.mp hbufs
  obtain rfl : us' = us := passedValues_eq hlen.symm hus'
  rw [List.map_nil, List.append_nil] at hreturned
  -- the code
  obtain ⟨u, hu, himage⟩ := returnImage_onCode before after (GenerateC.foreignFunction cname f)
    code (externFile concurrency errno_ ext) hinjectable hsize
    (hforeign (callArgs m concurrency f vs))
  have hw : replay I evs1 w = w := replay_views before after _ _ (fun l hl => by
    rw [htr] at hl
    obtain ⟨p, hp⟩ := hsame.2 l hl
    exact ⟨p, .inl hp⟩) w
  obtain ⟨hcalls, ⟨j, hj, hvalue⟩, hcreated⟩ := runCode_callsOnce hcode hvoid hus rfl hu
    (convertTyp_of_hasCore (hforeign _)) before after w
  have hexternalValue : (I.external us (replay I evs1 w)).1 = withErrno errno_ u j := by
    rw [hw]
    exact hvalue
  have hdelivered : Cbuf.delivered I concurrency y0 =
      withErrno errno_
        (readResult m (resultTyp f) (m.foreign (callArgs m concurrency f vs))) j := by
    have hran : ran I concurrency (I.external us (replay I evs1 w)).1 = withErrno errno_ u j := by
      rw [← hexternalValue]
      cases concurrency <;> rfl
    have hy := himage j y0 (hran ▸ hreturned)
    cases concurrency <;> exact hy
  have hlast : ((Store.start w : Store Value World).after I (evs1 ++ .call us :: evs)).world =
      (I.external us w).2 := by
    have hreadsOnly : ∀ l ∈ evs.map Event.label, ∃ p, l = .write p ∨ l = .read p := by
      intro l hl
      rw [hreads] at hl
      obtain ⟨p, hp⟩ := Cbuf.mem_reads hl
      exact ⟨p, .inr hp⟩
    show replay I (evs1 ++ .call us :: evs) w = _
    rw [replay_append, hw]
    exact replay_views before after _ _ hreadsOnly _
  rw [List.map_nil, List.append_nil] at hresult
  refine ⟨j, (Store.start w).after I (evs1 ++ .call us :: evs), hresult.trans ?_, hj, ?_, ?_⟩
  · show some (Sem.val (Cbuf.delivered I concurrency y0), _) = _
    rw [hdelivered]
  · rw [hlast]
    exact hcalls
  · rw [hlast]
    exact hcreated

/-- The C values of the arguments arrive in C under the policy of jobs, and
under the others exactly if every OCaml integer among them fits a C `int`. -/
theorem GeneratedFor.call_delivers_iff (g : GeneratedFor concurrency errno_ pre cname counter f)
    (hm : m.integers.Lawful) (hargs : args f ≠ [])
    (hvoid : concurrency = .lwtJobs → .void ∉ args f)
    (hforeign : ∀ cargs, HasCore m.charSigned (resultTyp f).core (m.foreign cargs))
    (hsize : Copyable (resultTyp f).core) (hvs : List.Forall₂ (HasTyp m) (args f) vs)
    (before after : Lwt.Others) (w : World) :
    Delivers m cname (cValues m (args f) vs) (resultTyp f) errno_ w (g.call m before after vs w) ↔
      (concurrency = .lwtJobs ∨ ∀ q ∈ (args f).zip vs, FitsInt m q.1 q.2) := by
  have hcall := g.call_delivers hargs hvoid hforeign hsize hvs.length_eq.symm before after w
  obtain ⟨n, n', hcode⟩ := g.code_eq
  rw [← callArgs_eq_cValues_iff hm hcode hvoid hvs]
  constructor
  · intro h
    exact hcall.args_unique h
  · intro h
    rwa [← h]

/-- Two policies call the C function on the same arguments and return the same
image, exactly if both or none of them are that of jobs, or every OCaml integer
fits. -/
theorem GeneratedFor.calls_agree_iff {concurrency' : ConcurrencyPolicy} {errno' : ErrnoPolicy}
    {pre' : String} {counter' : Nat} (g : GeneratedFor concurrency errno_ pre cname counter f)
    (g' : GeneratedFor concurrency' errno' pre' cname counter' f)
    (hm : m.integers.Lawful) (hargs : args f ≠ [])
    (hvoid : concurrency = .lwtJobs ∨ concurrency' = .lwtJobs → .void ∉ args f)
    (hforeign : ∀ cargs, HasCore m.charSigned (resultTyp f).core (m.foreign cargs))
    (hsize : Copyable (resultTyp f).core) (hvs : List.Forall₂ (HasTyp m) (args f) vs)
    (before after before' after' : Lwt.Others) (w w' : World) :
    (∃ cargs, Delivers m cname cargs (resultTyp f) errno_ w (g.call m before after vs w) ∧
        Delivers m cname cargs (resultTyp f) errno' w' (g'.call m before' after' vs w')) ↔
      ((concurrency = .lwtJobs ↔ concurrency' = .lwtJobs) ∨
        ∀ q ∈ (args f).zip vs, FitsInt m q.1 q.2) := by
  have hvoid1 : concurrency = .lwtJobs → .void ∉ args f := fun h => hvoid (.inl h)
  have hvoid2 : concurrency' = .lwtJobs → .void ∉ args f := fun h => hvoid (.inr h)
  have hcall := g.call_delivers hargs hvoid1 hforeign hsize hvs.length_eq.symm before after w
  have hcall' := g'.call_delivers hargs hvoid2 hforeign hsize hvs.length_eq.symm before' after' w'
  obtain ⟨n, n', hcode⟩ := g.code_eq
  obtain ⟨k, k', hcode'⟩ := g'.code_eq
  have hiff := callArgs_eq_cValues_iff hm hcode hvoid1 hvs
  have hiff' := callArgs_eq_cValues_iff hm hcode' hvoid2 hvs
  have hsame : (∃ cargs,
        Delivers m cname cargs (resultTyp f) errno_ w (g.call m before after vs w) ∧
        Delivers m cname cargs (resultTyp f) errno' w' (g'.call m before' after' vs w')) ↔
      callArgs m concurrency f vs = callArgs m concurrency' f vs := by
    constructor
    · rintro ⟨cargs, h, h'⟩
      exact (hcall.args_unique h).trans (h'.args_unique hcall')
    · intro h
      exact ⟨_, hcall, h ▸ hcall'⟩
  rw [hsame]
  by_cases hjobs : concurrency = .lwtJobs <;> by_cases hjobs' : concurrency' = .lwtJobs
  · subst hjobs hjobs'
    exact iff_of_true rfl (.inl Iff.rfl)
  · -- one of the policies passes the C values
    have hnot : ¬ (concurrency = .lwtJobs ↔ concurrency' = .lwtJobs) := fun h => hjobs' (h.mp hjobs)
    rw [hiff.mpr (.inl hjobs), or_iff_right hnot, eq_comm, hiff', or_iff_right hjobs']
  · have hnot : ¬ (concurrency = .lwtJobs ↔ concurrency' = .lwtJobs) := fun h =>
      hjobs (h.mpr hjobs')
    rw [hiff'.mpr (.inl hjobs'), or_iff_right hnot, hiff, or_iff_right hjobs]
  · have heq : callArgs m concurrency f vs = callArgs m concurrency' f vs := by
      cases concurrency <;> cases concurrency' <;>
        first | rfl | exact absurd rfl hjobs | exact absurd rfl hjobs'
    exact iff_of_true heq (.inl (iff_of_false hjobs hjobs'))

end Call

def sampleFn : Fn :=
  .function (.view 0 (.primitive .camlint)) (.function (ptr int) (.returns (ptr int)))

def sampleArgs : List Value := [.int 2147483648, .cpointer (.fatptr .unit int (.addr 64))]

def sampleMachine : Machine := { Machine.plain with foreign := fun _ => .ptr (.addr 32) }

def idle : Lwt.Others := ⟨id, fun _ => rfl, fun _ => rfl⟩

theorem sampleArgs_hasTyp : List.Forall₂ (HasTyp sampleMachine) (args sampleFn) sampleArgs :=
  .cons ⟨_, rfl, by decide⟩ (.cons ⟨_, _, _, rfl⟩ .nil)

/-- A job passes an OCaml integer of 32 bits. -/
theorem job_delivers_sample :
    ∃ g : GeneratedFor .lwtJobs .returnErrno "stub" "f" 1 sampleFn,
      Delivers sampleMachine "f" [.int 2147483648, .ptr (.addr 64)] (ptr int) .returnErrno .empty
        (g.call sampleMachine idle idle sampleArgs .empty) := by
  let g : GeneratedFor .lwtJobs .returnErrno "stub" "f" 1 sampleFn :=
    ⟨_, _, _, rfl, ⟨0, _, rfl⟩, ⟨0, _, rfl⟩⟩
  refine ⟨g, (g.call_delivers_iff Integers.plain_lawful (List.cons_ne_nil _ _) (fun _ => by decide)
    (fun _ => ⟨_, rfl⟩) trivial sampleArgs_hasTyp idle idle .empty).mpr (.inl rfl)⟩

/-- A stub that is called directly does not pass it. -/
theorem job_not_agrees_sample :
    ∃ (g : GeneratedFor .lwtJobs .returnErrno "stub" "f" 1 sampleFn)
      (g' : GeneratedFor .unlocked .ignoreErrno "stub" "f" 1 sampleFn),
      ¬ ∃ cargs, Delivers sampleMachine "f" cargs (ptr int) .returnErrno .empty
          (g.call sampleMachine idle idle sampleArgs .empty) ∧
        Delivers sampleMachine "f" cargs (ptr int) .ignoreErrno .empty
          (g'.call sampleMachine idle idle sampleArgs .empty) := by
  let g : GeneratedFor .lwtJobs .returnErrno "stub" "f" 1 sampleFn :=
    ⟨_, _, _, rfl, ⟨0, _, rfl⟩, ⟨0, _, rfl⟩⟩
  let g' : GeneratedFor .unlocked .ignoreErrno "stub" "f" 1 sampleFn :=
    ⟨_, _, _, rfl, ⟨0, _, rfl⟩, ⟨0, _, rfl⟩⟩
  refine ⟨g, g', fun h => ?_⟩
  rcases (g.calls_agree_iff g' Integers.plain_lawful (List.cons_ne_nil _ _) (fun _ => by decide)
    (fun _ => ⟨_, rfl⟩) trivial sampleArgs_hasTyp idle idle idle idle .empty .empty).mp h with
      hpolicy | hfits
  · cases hpolicy.mp rfl
  · have hfit := hfits (.view 0 (.primitive .camlint), .int 2147483648) List.mem_cons_self rfl
      2147483648 rfl
    exact absurd hfit (by decide)

end CtypesCbuf.Cstubs
