import CtypesCbuf.Cbuf.Linking
import CtypesCbuf.Cbuf.CallWrapper

/-!
How often a call of a generated wrapper runs the write functions of its
arguments, creates its buffers and calls the external.
-/

namespace CtypesCbuf.Cbuf

open NameSupply Supply
open Ctypes hiding Fn
open CLanguage Stubs GenerateML MlLanguage

variable {V W : Type}

/-! ### Externals of generated wrappers -/

def externFile (concurrency : ConcurrencyPolicy) (errno_ : ErrnoPolicy) (ext : Extern) :
    File :=
  { concurrency, errno_, external := split ext.ident, arity := arity ext.typ }

theorem pathOfString_eq_split {s : String} {p : Path} (h : pathOfString s = .ok p) :
    p = split s := by
  rw [pathOfString] at h
  split at h
  · cases h
    rfl
  · cases h

theorem sizes_length (b : GenerateC.NamedCBuffers) :
    b.spec.sizes.length = b.names.length := by
  induction b with
  | lastBuf x i t => rfl
  | conBuf l r ihl ihr =>
      rw [CBuffers.sizes, List.length_map] at ihl ihr
      rw [GenerateC.NamedCBuffers.spec, CBuffers.sizes, CBuffers.toList, List.length_map,
        List.length_append, GenerateC.NamedCBuffers.names, List.length_append, ihl, ihr]

theorem valueParams_length (f : GenerateC.NamedFn) :
    (GenerateC.valueParams f).length = f.spec.arguments.length + f.spec.sizes.length := by
  induction f with
  | returns t => rfl
  | function x f t ih =>
      rw [GenerateC.valueParams, List.length_cons, ih, GenerateC.NamedFn.spec, Fn.arguments,
        Fn.sizes, List.length_cons]
      omega
  | buffers cpos b r _ =>
      rw [GenerateC.valueParams, GenerateC.valueParamsOfCbuffers_eq, List.length_map,
        ← sizes_length]
      exact (Nat.zero_add _).symm

/-- The external takes every argument and every buffer. -/
theorem extern_arity {errno_ : ErrnoPolicy} {stubName externalName : String} {f : Fn}
    {ext : Extern} (h : extern_ errno_ stubName externalName f = .ok ext) :
    ext.ident = externalName ∧ arity ext.typ = f.arguments.length + f.sizes.length := by
  rw [extern_] at h
  obtain ⟨typ, htyp, h⟩ := except_bind_eq_ok h
  obtain ⟨as, -, h⟩ := except_bind_eq_ok h
  cases h
  obtain ⟨f', n', -, rfl, -⟩ := GenerateC.nameParams_ok f 0
  exact ⟨rfl, (mlExternalTypeOfFn_arity htyp).trans (valueParams_length f')⟩

theorem mem_var (pre : String) (counter : Nat) (name : String) :
    '_' ∈ (var pre counter name).toList ∧ ∃ c ∈ (var pre counter name).toList, c.isDigit := by
  have hlist : (var pre counter name).toList = pre.toList ++ ('_' :: (Nat.repr counter).toList) ++
      ('_' :: name.toList) := by
    simp only [var, String.toList_append]
    simp
  rw [hlist]
  obtain ⟨c, hc⟩ := List.exists_mem_of_ne_nil (Nat.repr counter).toList (by
    rw [Nat.toList_repr]
    exact Nat.toDigits_ne_nil)
  exact ⟨by simp, c, List.mem_append_left _ (List.mem_append_right _
    (List.mem_cons_of_mem _ hc)), isDigit_of_mem_repr hc⟩

/-- The names of generated externals are not names of the library. -/
theorem externFile_sound {pre cname : String} {counter : Nat} {p : Path}
    (hp : pathOfString (var pre counter cname) = .ok p) (F : File) (hF : F.external = p) :
    F.Sound := by
  obtain ⟨hunderscore, d, hd, hdigit⟩ := mem_var pre counter cname
  have hdot : d ≠ '.' := by
    rintro rfl
    cases hdigit
  obtain ⟨l, hl, hdl⟩ := mem_pathOfString hp hdot hd
  obtain ⟨l', hl', hul⟩ := mem_pathOfString hp (by decide) hunderscore
  refine ⟨?_, ?_⟩
  · intro x hx
    rw [hF] at hx
    subst hx
    obtain rfl := List.mem_singleton.mp hl
    obtain rfl := List.mem_singleton.mp hl'
    refine isGlobal_of_underscore hul ?_ _ rfl
    rintro rfl
    have hmem : d = '_' := by simpa using hdl
    subst hmem
    cases hdigit
  · rw [hF, List.lookup_eq_none_iff]
    have hall : (libraryTable.all fun q => q.1.all fun y => y.toList.all fun c =>
        !c.isDigit) = true := by decide
    have hnone : ∀ q ∈ libraryTable, ∀ y ∈ q.1, ∀ c ∈ y.toList, ¬ c.isDigit := by
      simpa only [List.all_eq_true, Bool.not_eq_true, Bool.not_eq_true'] using hall
    intro q hq
    rw [bne_iff_ne]
    rintro rfl
    exact hnone q hq l hl d hdl hdigit

/-! ### Counts -/

/-- The chain of write functions of argument `j`, the outermost first. -/
def Fn.chain (f : Fn) (j : Nat) : List Label :=
  match f.arguments[j]? with
  | some t => writes ⟨.argument j, 0⟩ t
  | none => []

/-- A call that returns has run the chain of each argument once, created each
buffer once and called the external once. -/
def EvaluatedOnce (f : Fn) (r : Option (Sem V W × Store V W)) : Prop :=
  ∃ y st, r = some (.val y, st) ∧
    (∀ j, (st.log.map Event.label).filter (ofArgument j) = f.chain j) ∧
    (created (st.log.map Event.label)).Perm f.sizes ∧
    (st.log.map Event.label).count .call = 1

/-- There is at most one output buffer, or there are no views among the arguments. -/
def CountsRight (f : Fn) : Prop :=
  f.sizes.length ≤ 1 ∨ ∀ t ∈ f.arguments, ∀ v ty, t ≠ .view v ty

theorem filter_writesFrom (i : Nat) (ts : List Typ) (j : Nat) :
    (writesFrom i ts).filter (ofArgument (i + j)) =
      match ts[j]? with
      | some t => writes ⟨.argument (i + j), 0⟩ t
      | none => [] := by
  induction ts generalizing i j with
  | nil => rfl
  | cons t ts ih =>
      rw [writesFrom, List.filter_append]
      cases j with
      | zero =>
          rw [Nat.add_zero, filter_writes_self, filter_writesFrom_lt (Nat.lt_succ_self i),
            List.append_nil]
          rfl
      | succ j =>
          rw [filter_writes_ne (by omega), List.nil_append, ← Nat.add_assoc,
            Nat.add_right_comm, ih (i + 1) j]
          rfl

theorem SameWrites.filter_eq_chain {f : Fn} {tr : List Label}
    (h : SameWrites tr (writesFrom 0 f.arguments)) (j : Nat) :
    tr.filter (ofArgument j) = f.chain j := by
  have hj := filter_writesFrom 0 f.arguments j
  rw [Nat.zero_add] at hj
  rw [h.1 j, hj]
  rfl

/-- The write functions are run once for every buffer. -/
theorem filter_bufferTrace (tr : List Label) (is : List Nat) (j : Nat) :
    ((bufferTrace tr is).filter (ofArgument j)).length =
      is.length * (tr.filter (ofArgument j)).length := by
  induction is with
  | nil => simp [bufferTrace]
  | cons i is ih =>
      have hcreate : (Label.create i :: tr).filter (ofArgument j) = tr.filter (ofArgument j) :=
        rfl
      rw [bufferTrace, List.filter_append, List.length_append, ih, hcreate, List.length_cons,
        Nat.add_mul, Nat.one_mul]

theorem count_call_bufferTrace {tr : List Label} (h : tr.count .call = 0) (is : List Nat) :
    (bufferTrace tr is).count .call = 0 := by
  induction is with
  | nil => rfl
  | cons i is ih => simp [bufferTrace, ih, h]

theorem SameWrites.count_call {tr tr' : List Label} (h : SameWrites tr tr') :
    tr.count .call = 0 := by
  rw [List.count_eq_zero]
  intro hcall
  obtain ⟨p, hp⟩ := h.2 _ hcall
  cases hp

theorem mem_reads {t : Typ} {p : Place} {l : Label} (h : l ∈ reads p t) :
    ∃ q, l = .read q := by
  induction t using Typ.core.induct generalizing p with
  | case1 v ty ih =>
      rcases List.mem_append.mp h with h | h
      · exact ih (p := p.below) h
      · exact ⟨p, List.mem_singleton.mp h⟩
  | case2 t hview =>
      cases t with
      | view v ty => exact absurd rfl (hview v ty)
      | _ => cases h

theorem mem_resultReads {f : Fn} {l : Label} (h : l ∈ resultReads f) : ∃ q, l = .read q := by
  cases f with
  | returns t => exact mem_reads h
  | _ => cases h

/-- After the bindings, the labels are those of one call and of reads. -/
theorem Outcome.labels {I : MlLanguage.Interp V W} {F : File} {w : W} {tail : Fn}
    {qs : List (V → Prop)} {s : Store V W} {evs : List (Event V)} {y : V}
    (h : Outcome I F w tail qs s evs y) :
    ∃ tr, evs.map Event.label = .call :: tr ∧ ∀ l ∈ tr, ∃ q, l = .read q := by
  obtain ⟨us, bufs, evs', -, -, rfl, hreads, -⟩ := h
  refine ⟨resultReads tail, by rw [List.map_cons, hreads]; rfl, fun l hl => mem_resultReads hl⟩

theorem chain_eq_nil_iff {f : Fn} :
    (∀ j, f.chain j = []) ↔ ∀ t ∈ f.arguments, ∀ v ty, t ≠ .view v ty := by
  constructor
  · rintro h _ ht v ty rfl
    obtain ⟨j, hj⟩ := List.mem_iff_getElem?.mp ht
    have hnil := h j
    rw [Fn.chain, hj] at hnil
    cases hnil
  · intro h j
    rw [Fn.chain]
    cases hj : f.arguments[j]? with
    | none => rfl
    | some t =>
        have ht := h t (List.mem_iff_getElem?.mpr ⟨j, hj⟩)
        cases t with
        | view v ty => exact absurd rfl (ht v ty)
        | _ => rfl

/-- The bindings run every chain once iff the buffers repeat none. -/
theorem filter_bindTrace_iff {f : Fn} {tr : List Label}
    (h : SameWrites tr (writesFrom 0 f.arguments)) :
    (∀ j, (bindTrace f.sizes tr).filter (ofArgument j) = f.chain j) ↔ CountsRight f := by
  have hchain := h.filter_eq_chain
  rw [CountsRight, ← chain_eq_nil_iff]
  cases hsizes : f.sizes with
  | nil => simpa [bindTrace] using hchain
  | cons i is =>
      have hlength : ∀ j, ((bindTrace (i :: is) tr).filter (ofArgument j)).length =
          (is.length + 1) * (f.chain j).length := by
        intro j
        rw [← hchain j]
        exact filter_bufferTrace tr (i :: is) j
      constructor
      · intro hall
        by_cases his : is.length = 0
        · exact .inl (by rw [List.length_cons, his])
        · -- a chain that runs more than once is empty
          refine .inr fun j => List.length_eq_zero_iff.mp ?_
          have hj := hlength j
          rw [hall j, Nat.add_mul, Nat.one_mul] at hj
          have hzero : is.length * (f.chain j).length = 0 := by omega
          exact (Nat.mul_eq_zero.mp hzero).resolve_left his
      · rintro (hle | hnil) j
        · obtain rfl : is = [] := by
            rw [List.length_cons] at hle
            exact List.length_eq_zero_iff.mp (by omega)
          exact hchain j
        · rw [hnil j]
          have hj := hlength j
          rw [hnil j, List.length_nil, Nat.mul_zero] at hj
          exact List.length_eq_zero_iff.mp hj

theorem created_bindTrace {tr tr' : List Label} (h : SameWrites tr tr') (is : List Nat) :
    created (bindTrace is tr) = is.reverse := by
  cases is with
  | nil => exact h.created_eq_nil
  | cons i is => exact created_bufferTrace h.created_eq_nil (i :: is)

theorem count_call_bindTrace {tr tr' : List Label} (h : SameWrites tr tr') (is : List Nat) :
    (bindTrace is tr).count .call = 0 := by
  cases is with
  | nil => exact h.count_call
  | cons i is => exact count_call_bufferTrace h.count_call (i :: is)

/-- A call counts right iff no two buffers repeat the bindings of a view. -/
theorem CallSpec.evaluatedOnce_iff {I : MlLanguage.Interp V W} {F : File} {f : Fn} {vs : List V}
    {w : W}
    {r : Option (Sem V W × Store V W)} {evs1 evs2 : List (Event V)} {y0 : V}
    (h : CallSpec I F f vs w r evs1 evs2 y0) : EvaluatedOnce f r ↔ CountsRight f := by
  obtain ⟨rfl, ⟨tr, hsame, htr⟩, hout⟩ := h
  obtain ⟨rest, hrest, hreads⟩ := hout.labels
  have hlog : ((Store.start w : Store V W).after I (evs1 ++ evs2)).log.map Event.label =
      bindTrace f.sizes tr ++ .call :: rest := by
    rw [Store.after, Store.start, List.nil_append, List.map_append, htr, hrest]
  have hfilter : ∀ j, (bindTrace f.sizes tr ++ .call :: rest).filter (ofArgument j) =
      (bindTrace f.sizes tr).filter (ofArgument j) := by
    intro j
    have hnil : (Label.call :: rest).filter (ofArgument j) = [] := by
      rw [List.filter_eq_nil_iff]
      intro l hl
      rcases List.mem_cons.mp hl with rfl | hl
      · simp [ofArgument]
      · obtain ⟨q, rfl⟩ := hreads l hl
        simp [ofArgument]
    rw [List.filter_append, hnil, List.append_nil]
  have hcreated : created (bindTrace f.sizes tr ++ .call :: rest) = f.sizes.reverse := by
    have hnil : created (.call :: rest) = [] := by
      rw [created, List.filterMap_eq_nil_iff]
      intro l hl
      rcases List.mem_cons.mp hl with rfl | hl
      · rfl
      · obtain ⟨q, rfl⟩ := hreads l hl
        rfl
    rw [created_append, created_bindTrace hsame, hnil, List.append_nil]
  have hcall : (bindTrace f.sizes tr ++ .call :: rest).count .call = 1 := by
    have hzero : rest.count .call = 0 := by
      rw [List.count_eq_zero]
      intro hcall
      obtain ⟨q, hq⟩ := hreads _ hcall
      cases hq
    rw [List.count_append, count_call_bindTrace hsame, List.count_cons, hzero]
    rfl
  rw [← filter_bindTrace_iff hsame]
  constructor
  · rintro ⟨y, st, hr, hwrites, -⟩ j
    obtain ⟨-, rfl⟩ := Prod.mk.inj (Option.some.inj hr)
    have hj := hwrites j
    rwa [hlog, hfilter] at hj
  · intro hwrites
    refine ⟨_, _, rfl, fun j => ?_, ?_, ?_⟩
    · rw [hlog, hfilter]
      exact hwrites j
    · rw [hlog, hcreated]
      exact List.reverse_perm f.sizes
    · rw [hlog, hcall]

/-- The call of a wrapper that is generated with its external. -/
theorem callWrapper_generated {concurrency : ConcurrencyPolicy} {errno_ : ErrnoPolicy}
    {pre cname : String} {counter : Nat} {f : Fn} {ext : Extern} {c : Case} {n n' : Nat}
    (hext : extern_ errno_ (var pre counter cname) (var pre counter cname) f = .ok ext)
    (hcase : case concurrency errno_ cname (var pre counter cname) f n = .ok (c, n'))
    (I : MlLanguage.Interp V W) (hf : f.arguments ≠ []) {args : List V}
    (hargs : args.length = f.arguments.length) (w : W) :
    ∃ evs1 evs2 y0, CallSpec I (externFile concurrency errno_ ext) f args w
      (callWrapper I (externFile concurrency errno_ ext) c f args w) evs1 evs2 y0 := by
  obtain ⟨hident, harity⟩ := extern_arity hext
  obtain ⟨id, n1, hid, -⟩ := bind_eq_ok.mp hcase
  obtain ⟨hid, -⟩ := lift_eq_ok.mp hid
  have hexternal : (externFile concurrency errno_ ext).external = id := by
    rw [pathOfString_eq_split hid, ← hident]
    rfl
  have hsound := externFile_sound hid (externFile concurrency errno_ ext) hexternal
  rw [← hexternal] at hid
  exact callWrapper_spec (F := externFile concurrency errno_ ext) (I := I) hsound hf hargs
    harity hid hcase w

/-- A call of the wrapper generated for a declaration counts right iff its
specification has at most one output buffer or no views among its arguments. -/
theorem callWrapper_evaluatedOnce_iff {concurrency : ConcurrencyPolicy} {errno_ : ErrnoPolicy}
    {pre cname : String} {counter : Nat} {f : Fn} {ext : Extern} {c : Case} {n n' : Nat}
    (hext : extern_ errno_ (var pre counter cname) (var pre counter cname) f = .ok ext)
    (hcase : case concurrency errno_ cname (var pre counter cname) f n = .ok (c, n'))
    (I : MlLanguage.Interp V W) (hf : f.arguments ≠ []) {args : List V}
    (hargs : args.length = f.arguments.length) (w : W) :
    EvaluatedOnce f (callWrapper I (externFile concurrency errno_ ext) c f args w) ↔
      CountsRight f := by
  obtain ⟨evs1, evs2, y0, hcall⟩ := callWrapper_generated hext hcase I hf hargs w
  exact hcall.evaluatedOnce_iff

def unitInterp : MlLanguage.Interp Unit Unit :=
  { unit := (), tuple := fun _ => (), fst := id, snd := id, cpointer := id,
    staticFunptr := id, addr := id, ocamlBytesStart := id, makePtr := fun _ => id,
    makeFunPtr := fun _ => id, makeStructured := fun _ => id,
    write := fun _ x w => (x, w), read := fun _ x w => (x, w),
    bytesCreate := fun _ w => ((), w), external := fun _ w => ((), w),
    runJob := id, await := id, resolved := id, boxLwt := id }

/-- Two views above `int` and one output buffer. -/
def viewsAndBuffer : Fn :=
  .function (.view 0 (.view 1 int)) (retbuf (buffer 4 (.ocaml .bytes)) (.returns .void))

theorem viewsAndBuffer_evaluatedOnce_iff :
    ∃ ext c n',
      extern_ .ignoreErrno (var "stub" 1 "f") (var "stub" 1 "f") viewsAndBuffer = .ok ext ∧
      case .sequential .ignoreErrno "f" (var "stub" 1 "f") viewsAndBuffer 0 = .ok (c, n') ∧
      (EvaluatedOnce viewsAndBuffer (callWrapper unitInterp
        (externFile .sequential .ignoreErrno ext) c viewsAndBuffer [()] ()) ↔
          CountsRight viewsAndBuffer) := by
  have hext : extern_ .ignoreErrno (var "stub" 1 "f") (var "stub" 1 "f") viewsAndBuffer =
      .ok _ := rfl
  have hcase : case .sequential .ignoreErrno "f" (var "stub" 1 "f") viewsAndBuffer 0 =
      .ok _ := rfl
  exact ⟨_, _, _, hext, hcase,
    callWrapper_evaluatedOnce_iff hext hcase unitInterp (by simp [viewsAndBuffer, Fn.arguments])
      rfl ()⟩

def viewAndBuffers : Fn :=
  .function (.view 0 int)
    (retbuf (.conBuf (buffer 4 (.ocaml .bytes)) (buffer 4 (.ocaml .bytes))) (.returns .void))

/-- The write function of the view is run for each of the buffers. -/
theorem viewAndBuffers_not_evaluatedOnce :
    ∃ ext c n',
      extern_ .ignoreErrno (var "stub" 1 "f") (var "stub" 1 "f") viewAndBuffers = .ok ext ∧
      case .sequential .ignoreErrno "f" (var "stub" 1 "f") viewAndBuffers 0 = .ok (c, n') ∧
      ¬ EvaluatedOnce viewAndBuffers (callWrapper unitInterp
        (externFile .sequential .ignoreErrno ext) c viewAndBuffers [()] ()) := by
  refine ⟨_, _, _, rfl, rfl, ?_⟩
  rintro ⟨y, st, h, hwrites, -⟩
  have hlog : st.log.map Event.label = [.create 4, .write ⟨.argument 0, 0⟩, .create 4,
      .write ⟨.argument 0, 0⟩, .call] := by
    cases h
    rfl
  have hzero := hwrites 0
  rw [hlog] at hzero
  exact absurd hzero (by decide)

end CtypesCbuf.Cbuf
