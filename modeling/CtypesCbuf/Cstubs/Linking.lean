import CtypesCbuf.Cbuf.Linking
import CtypesCbuf.Cstubs.Arity
import CtypesCbuf.Cstubs.JobExecution
import CtypesCbuf.Cstubs.Program

/-!
The two files of a program of Cstubs link, under every policy. A job defines
three functions, so its names are told apart from those of the other
declarations by the word in front of them.
-/

namespace CtypesCbuf.Cstubs

open NameSupply Supply
open Ctypes CLanguage Stubs
open Cbuf (BytecodeFor byteName_ne byteName_var byteDef_bytecodeFor isDigit_of_mem_repr var_inj
  var_toList)

/-! ### What a declaration defines -/

def StubCode.defined : StubCode → List String
  | .functions ds => ds.map fun d => d.dec.name
  | .lwtJob j => j.worker.dec.name :: ("result_" ++ j.stub.name) :: j.stub.name ::
      (j.byteStub.map fun b => b.name).toList

/-- The functions refer to each other: the bytecode stub passes its arguments
on, and a job has the worker that `LWT_UNIX_INIT_JOB` looks for. -/
def StubCode.SelfContained : StubCode → Prop
  | .functions [] => False
  | .functions (d :: rest) => ∀ b ∈ rest, BytecodeFor b d.dec.name d.dec.params.length
  | .lwtJob j => j.worker.dec.name = "worker_" ++ j.stub.name ∧
      ∀ b ∈ j.byteStub, b.callee = j.stub.name ∧ b.indexes = List.range j.stub.params.length

theorem name_mem_defined {code : StubCode} {name : String} (h : code.name = some name) :
    name ∈ code.defined := by
  cases code with
  | functions ds =>
      obtain ⟨d, hd, rfl⟩ := Option.map_eq_some_iff.mp h
      exact List.mem_map_of_mem (List.mem_of_mem_head? hd)
  | lwtJob j =>
      cases h
      exact List.mem_cons_of_mem _ (List.mem_cons_of_mem _ List.mem_cons_self)

theorem mem_defined_of_mem_byteNames {code : StubCode} {name : String}
    (h : name ∈ code.byteNames) : name ∈ code.defined := by
  cases code with
  | functions ds =>
      obtain ⟨d, hd, rfl⟩ := List.mem_map.mp h
      exact List.mem_map_of_mem (List.mem_of_mem_tail hd)
  | lwtJob j =>
      obtain ⟨b, hb, rfl⟩ := List.mem_map.mp h
      refine List.mem_cons_of_mem _ (List.mem_cons_of_mem _ (List.mem_cons_of_mem _ ?_))
      exact Option.mem_toList.mpr (Option.mem_map_of_mem _ (Option.mem_toList.mp hb))

/-! ### Names -/

/-- A word before a name cannot be taken for the start of the prefix: what
follows the prefix is a number. -/
theorem append_ne_of_isDigit {t : List Char} (ht : '_' ∉ t) {c : Char} {t' : List Char}
    (hc : t = c :: t') (hdigit : c.isDigit = false) {d : Char} (hd : d.isDigit = true)
    (pre x y : List Char) : pre ++ '_' :: d :: x ≠ t ++ '_' :: (pre ++ '_' :: y) := by
  -- one word and one separator are taken off the prefix at a time
  suffices h : ∀ n (pre : List Char), pre.length ≤ n → ∀ x y,
      pre ++ '_' :: d :: x ≠ t ++ '_' :: (pre ++ '_' :: y) from h _ pre (Nat.le_refl _) x y
  intro n
  induction n with
  | zero =>
      intro pre hlen x y h
      obtain rfl : pre = [] := List.length_eq_zero_iff.mp (Nat.le_zero.mp hlen)
      subst hc
      have hhead : '_' = c := (List.cons.inj h).1
      exact ht (hhead ▸ List.mem_cons_self)
  | succ n ih =>
      intro pre hlen x y h
      rcases List.append_eq_append_iff.mp h with ⟨rest, rfl, hrest⟩ | ⟨rest, rfl, hrest⟩
      · cases rest with
        | nil =>
            -- the prefix is the word, which does not start with a digit
            rw [List.append_nil] at hc
            subst hc
            have hhead : d = c := (List.cons.inj (List.cons.inj hrest).2).1
            rw [hhead, hdigit] at hd
            exact Bool.false_ne_true hd
        | cons e rest =>
            have hhead : '_' = e := (List.cons.inj hrest).1
            exact ht (hhead ▸ List.mem_append_right _ List.mem_cons_self)
      · cases rest with
        | nil =>
            rw [List.append_nil] at hlen hrest
            subst hc
            have hhead : c = d := (List.cons.inj (List.cons.inj hrest).2).1
            rw [← hhead, hdigit] at hd
            exact Bool.false_ne_true hd
        | cons e rest =>
            obtain ⟨rfl, htail⟩ := List.cons.inj hrest
            have hshort : rest.length ≤ n := by
              rw [List.length_append, List.length_cons] at hlen
              omega
            rw [List.append_assoc] at htail
            exact ih rest hshort x y htail.symm

/-- A name of the declaration `k`, perhaps with a word of the job macros. -/
def Numbered (pre : String) (k : Nat) (name : String) : Prop :=
  ∃ word ∈ ["", "worker_", "result_"], ∃ s, name = word ++ var pre k s

theorem worded_ne_var (pre : String) {k k' : Nat} {s s' : String} :
    ∀ word ∈ ["worker_", "result_"], word ++ var pre k s ≠ var pre k' s' := by
  intro word hword h
  have hlist := congrArg String.toList h
  rw [String.toList_append, var, var, var_toList, var_toList] at hlist
  obtain ⟨d, ds, hrepr⟩ := List.exists_cons_of_ne_nil (l := (Nat.repr k').toList) (by
    rw [Nat.toList_repr]
    exact Nat.toDigits_ne_nil)
  have hd : d.isDigit = true := isDigit_of_mem_repr (hrepr ▸ List.mem_cons_self)
  rw [hrepr, List.cons_append] at hlist
  rcases List.mem_pair.mp hword with rfl | rfl
  · exact append_ne_of_isDigit (t := "worker".toList) (by decide) rfl rfl hd _ _ _ hlist.symm
  · exact append_ne_of_isDigit (t := "result".toList) (by decide) rfl rfl hd _ _ _ hlist.symm

theorem worker_ne_result (x y : String) : "worker_" ++ x ≠ "result_" ++ y := by
  intro h
  have hhead := congrArg (fun s => s.toList.head?) h
  simp [String.toList_append] at hhead

/-- Different declarations define different names. -/
theorem Numbered.inj {pre name : String} {k k' : Nat} (h : Numbered pre k name)
    (h' : Numbered pre k' name) : k = k' := by
  obtain ⟨word, hword, s, rfl⟩ := h
  obtain ⟨word', hword', s', heq⟩ := h'
  simp only [List.mem_cons, List.not_mem_nil, or_false] at hword hword'
  rcases hword with rfl | rfl | rfl <;> rcases hword' with rfl | rfl | rfl
  · exact var_inj (by simpa [var] using heq)
  · exact absurd (by simpa using heq.symm) (worded_ne_var pre _ (by simp))
  · exact absurd (by simpa using heq.symm) (worded_ne_var pre _ (by simp))
  · exact absurd (by simpa using heq) (worded_ne_var pre _ (by simp))
  · exact var_inj (by simpa [var] using heq)
  · exact absurd heq (worker_ne_result _ _)
  · exact absurd (by simpa using heq) (worded_ne_var pre _ (by simp))
  · exact absurd heq.symm (worker_ne_result _ _)
  · exact var_inj (by simpa [var] using heq)

theorem numbered_var (pre : String) (k : Nat) (s : String) : Numbered pre k (var pre k s) :=
  ⟨"", by simp, s, by simp⟩

theorem numbered_byteName (pre : String) (k : Nat) (s : String) (nargs : Nat) :
    Numbered pre k (byteName (var pre k s) nargs) :=
  ⟨"", by simp, byteName s nargs, by simp [var, byteName_var]⟩

/-! ### One declaration -/

/-- What a declaration adds to the two files. -/
structure CodeOf (pre : String) (k : Nat) (code : StubCode) (ext : Extern) : Prop where
  name_eq : code.name = some ext.primname
  selfContained : code.SelfContained
  numbered : ∀ name ∈ code.defined, Numbered pre k name
  nodup : code.defined.Nodup

theorem job_codeOf {errno_ : ErrnoPolicy} {pre cname : String} {k : Nat} {f : Fn} {n n' : Nat}
    {job : Lwt.Job} {ext : Extern}
    (hc : Lwt.fn errno_ cname (var pre k cname) f n = .ok (job, n'))
    (hm : extern_ .lwtJobs errno_ (var pre k cname) (var pre k cname) f = .ok ext) :
    CodeOf pre k (.lwtJob job) ext := by
  obtain ⟨hprim, -, -⟩ := extern_eq_ok hm
  obtain ⟨hstub, hbyte⟩ := job_eq_ok hc
  obtain ⟨hname, hparams, -⟩ := jobStub_eq_ok hstub
  obtain ⟨k0, k1, hw⟩ := (Lwt.fn_jobOf hc).worker
  obtain ⟨c, k2, -, hworker⟩ := bind_eq_ok.mp hw
  have hworker : job.worker.dec.name = "worker_" ++ var pre k cname := by
    rw [← (Prod.mk.inj (Except.ok.inj hworker)).1]
  have hbytes : ∀ b ∈ job.byteStub, b = Lwt.byteStub (var pre k cname)
      (Lwt.fnArgsAndResult f).1 := by
    intro b hb
    rw [hbyte] at hb
    split at hb
    · exact (Option.some.inj hb).symm
    · cases hb
  have hbyteName : ∀ name ∈ (job.byteStub.map fun b => b.name).toList,
      ∃ nargs, name = byteName (var pre k cname) nargs := by
    intro name h
    obtain ⟨b, hb, rfl⟩ := Option.mem_map.mp (Option.mem_toList.mp h)
    exact ⟨_, by rw [hbytes b hb, Lwt.byteStub]⟩
  have hdefined : StubCode.defined (.lwtJob job) = ("worker_" ++ var pre k cname) ::
      ("result_" ++ var pre k cname) :: var pre k cname ::
        (job.byteStub.map fun b => b.name).toList := by
    rw [StubCode.defined, hworker, hname]
  refine ⟨by rw [hprim]; exact congrArg some hname, ⟨by rw [hworker, hname], ?_⟩, ?_, ?_⟩
  · intro b hb
    rw [hbytes b hb, hname, hparams, List.length_map]
    exact ⟨rfl, rfl⟩
  · intro name h
    rw [hdefined] at h
    rcases List.mem_cons.mp h with rfl | h
    · exact ⟨"worker_", by simp, cname, rfl⟩
    rcases List.mem_cons.mp h with rfl | h
    · exact ⟨"result_", by simp, cname, rfl⟩
    rcases List.mem_cons.mp h with rfl | h
    · exact numbered_var pre k cname
    · obtain ⟨nargs, rfl⟩ := hbyteName name h
      exact numbered_byteName pre k cname nargs
  · rw [hdefined]
    have hworded : ∀ word ∈ ["worker_", "result_"], ∀ name ∈
        var pre k cname :: (job.byteStub.map fun b => b.name).toList,
        name ≠ word ++ var pre k cname := by
      intro word hword name h heq
      rcases List.mem_cons.mp h with rfl | h
      · exact worded_ne_var pre word hword heq.symm
      · obtain ⟨nargs, rfl⟩ := hbyteName name h
        rw [var, byteName_var] at heq
        exact worded_ne_var pre word hword heq.symm
    refine List.nodup_cons.mpr ⟨?_, List.nodup_cons.mpr ⟨?_, List.nodup_cons.mpr ⟨?_, ?_⟩⟩⟩
    · intro h
      rcases List.mem_cons.mp h with h | h
      · exact worker_ne_result _ _ h
      · exact hworded "worker_" (by simp) _ h rfl
    · exact fun h => hworded "result_" (by simp) _ h rfl
    · intro h
      obtain ⟨nargs, h⟩ := hbyteName _ h
      exact byteName_ne _ nargs h.symm
    · cases job.byteStub <;> simp

theorem functions_codeOf {pre cname : String} {k nargs n : Nat} {d : CFundef} (fn : Cbuf.Fn)
    {ext : Extern} {code : StubCode} (hname : d.dec.name = var pre k cname)
    (hprim : ext.primname = var pre k cname) (hnargs : nargs = d.dec.params.length)
    (hcode : code = .functions (if nargs > maxByteArgs then
      [d, byteDef d.dec.name fn nargs n] else [d])) : CodeOf pre k code ext := by
  subst hcode hnargs
  have hbyteName : (byteDef d.dec.name fn d.dec.params.length n).dec.name =
      byteName (var pre k cname) d.dec.params.length := by
    rw [← hname]
    rfl
  split
  · refine ⟨by rw [hprim, ← hname]; rfl, ?_, ?_, ?_⟩
    · intro b hb
      obtain rfl := List.mem_singleton.mp hb
      exact byteDef_bytecodeFor _ fn _ n
    · intro name h
      simp only [StubCode.defined, List.map_cons, List.map_nil, List.mem_cons,
        List.not_mem_nil, or_false, hname] at h
      rcases h with rfl | rfl
      · exact numbered_var pre k cname
      · exact numbered_byteName pre k cname _
    · rw [StubCode.defined, List.map_cons, List.map_cons, hbyteName, hname]
      simpa using (byteName_ne (var pre k cname) d.dec.params.length).symm
  · refine ⟨by rw [hprim, ← hname]; rfl, List.forall_mem_nil _, ?_, ?_⟩
    · intro name h
      obtain rfl := List.mem_singleton.mp h
      show Numbered pre k d.dec.name
      rw [hname]
      exact numbered_var pre k cname
    · exact List.nodup_singleton _

theorem foreign_codeOf {concurrency : ConcurrencyPolicy} {errno_ : ErrnoPolicy}
    {pre cname : String} {k : Nat} {f : Fn} {n n' : Nat} {code : StubCode} {ext : Extern}
    (hc : fn concurrency errno_ cname (var pre k cname) f n = .ok (code, n'))
    (hm : extern_ concurrency errno_ (var pre k cname) (var pre k cname) f = .ok ext) :
    CodeOf pre k code ext := by
  obtain ⟨hprim, -, -⟩ := extern_eq_ok hm
  rcases fn_eq_ok hc with ⟨c, d, n1, -, hd, hcode⟩ | ⟨rfl, j, hj, rfl⟩
  · obtain ⟨-, f', n2, i, hstub⟩ := GenerateC.stub_eq_ok hd
    have hname : d.dec.name = var pre k cname := by rw [hstub.def_eq]
    exact functions_codeOf (.ofCtypes f) hname hprim rfl hcode
  · exact job_codeOf hj hm

theorem foreignValue_codeOf {pre cname : String} {k : Nat} {typ : Typ} {n n' : Nat}
    {d : CFundef} {ext : Extern}
    (hc : valueStub cname (var pre k cname) typ n = .ok (d, n'))
    (hm : extern_ .sequential .ignoreErrno (var pre k cname) (var pre k cname) valueFn =
      .ok ext) : CodeOf pre k (.functions [d]) ext := by
  obtain ⟨x, n1, -, hc⟩ := bind_eq_ok.mp hc
  have hdec : d.dec =
      { name := var pre k cname, params := [("_", .ty value)], ret := .ty value } := by
    rw [← (Prod.mk.inj (Except.ok.inj hc)).1]
  cases hm
  refine functions_codeOf (d := d) (n := 0) (.returns .void) (by rw [hdec]) rfl rfl ?_
  rw [hdec]
  rfl

/-- The stub of a variable and its external take one argument, which is not
read. -/
theorem foreignValue_matches {pre cname : String} {k : Nat} {typ : Typ} {n n' : Nat}
    {d : CFundef} {ext : Extern}
    (hc : valueStub cname (var pre k cname) typ n = .ok (d, n'))
    (hm : extern_ .sequential .ignoreErrno (var pre k cname) (var pre k cname) valueFn =
      .ok ext) : Matches (.functions [d]) ext := by
  obtain ⟨x, n1, hx, hc⟩ := bind_eq_ok.mp hc
  cases hx
  cases hc
  cases hm
  refine ⟨rfl, .cons ⟨.void, ?_, rfl⟩ .nil, rfl⟩
  show ∀ s ∈ _, _
  rintro s hs ⟨l, hl, hlx⟩
  simp only [CComp.steps, List.mem_cons, List.not_mem_nil, or_false] at hs
  rcases hs with rfl | rfl
  · cases hl
  · obtain rfl := List.mem_singleton.mp hl
    have hname := congrArg Prod.fst (List.mem_singleton.mp hlx)
    exact Cbuf.freshName_ne_underscore _ hname

/-- The files match in a foreign function unless a job leaves out a `void`. -/
theorem foreign_matches_iff {concurrency : ConcurrencyPolicy} {errno_ : ErrnoPolicy}
    {pre cname : String} {k : Nat} {f : Fn} {n n' : Nat} {code : StubCode} {ext : Extern}
    (hc : fn concurrency errno_ cname (var pre k cname) f n = .ok (code, n'))
    (hm : extern_ concurrency errno_ (var pre k cname) (var pre k cname) f = .ok ext) :
    Matches code ext ↔ (concurrency = .lwtJobs → .void ∉ args f) := by
  rcases fn_eq_ok hc with ⟨c, d, n1, hpolicy, hd, hcode⟩ | ⟨hjobs, j, hj, rfl⟩
  · have hne : concurrency ≠ .lwtJobs := by
      rintro rfl
      cases hpolicy
    exact iff_of_true (functions_match hd hcode hm) fun h => absurd h hne
  · subst hjobs
    rw [job_match_iff hj hm]
    exact ⟨fun h _ => h, fun h => h rfl⟩

/-! ### Whole runs -/

theorem forall₂_concat_iff {α β : Type} {R : α → β → Prop} {as : List α} {bs : List β} {a : α}
    {b : β} : List.Forall₂ R (as ++ [a]) (bs ++ [b]) ↔ List.Forall₂ R as bs ∧ R a b := by
  rw [← List.forall₂_reverse_iff, List.reverse_append, List.reverse_append,
    List.reverse_singleton, List.reverse_singleton]
  show List.Forall₂ R (a :: as.reverse) (b :: bs.reverse) ↔ _
  rw [List.forall₂_cons, List.forall₂_reverse_iff, and_comm]

theorem exists_of_mem_forall₂ {α β : Type} {R : α → β → Prop} {as : List α} {bs : List β}
    (h : List.Forall₂ R as bs) {b : β} (hb : b ∈ bs) : ∃ a ∈ as, R a b := by
  induction h with
  | nil => cases hb
  | @cons a c as bs hac h ih =>
      rcases List.mem_cons.mp hb with rfl | hb
      · exact ⟨a, List.mem_cons_self, hac⟩
      · obtain ⟨a', ha', hab⟩ := ih hb
        exact ⟨a', List.mem_cons_of_mem a ha', hab⟩

/-- No function takes an argument of type `void`, if it is called in a job. -/
def NoVoid (concurrency : ConcurrencyPolicy) (d : Declaration) : Prop :=
  match d with
  | .foreign _ f => concurrency = .lwtJobs → .void ∉ args f
  | .foreignValue _ _ => True

/-- The two generators after the same declarations. -/
structure InStep (concurrency : ConcurrencyPolicy) (pre : String) (program : List Declaration)
    (c : CState) (m : MlState) : Prop where
  counter_eq : m.counter = c.counter
  numbered : ∀ name ∈ c.code.flatMap StubCode.defined,
    ∃ k ≤ c.counter, Numbered pre k name
  nodup : (c.code.flatMap StubCode.defined).Nodup
  paired : List.Forall₂ (fun code ext => code.SelfContained ∧ code.name = some ext.primname)
    c.code m.externs
  matches_iff : List.Forall₂ Matches c.code m.externs ↔ ∀ d ∈ program, NoVoid concurrency d

theorem InStep.initial (concurrency : ConcurrencyPolicy) (pre : String) :
    InStep concurrency pre [] { counter := 0, code := [] }
      { counter := 0, externs := [], bindings := [], valBindings := [] } := by
  refine ⟨rfl, List.forall_mem_nil _, List.nodup_nil, .nil, ?_⟩
  exact iff_of_true .nil (List.forall_mem_nil _)

/-- What a declaration adds leaves the earlier part as it was. -/
theorem InStep.add {concurrency : ConcurrencyPolicy} {pre : String} {program : List Declaration}
    {c : CState} {m : MlState} (h : InStep concurrency pre program c m) {code : StubCode}
    {ext : Extern} (hcode : CodeOf pre (c.counter + 1) code ext) {d : Declaration}
    (hmatches : Matches code ext ↔ NoVoid concurrency d) (bindings : List Bind)
    (valBindings : List ValBind) :
    InStep concurrency pre (program ++ [d])
      { counter := c.counter + 1, code := c.code ++ [code] }
      { counter := m.counter + 1, externs := m.externs ++ [ext], bindings, valBindings } := by
  have hflat : (c.code ++ [code]).flatMap StubCode.defined =
      c.code.flatMap StubCode.defined ++ code.defined := by simp
  refine ⟨by rw [h.counter_eq], ?_, ?_, ?_, ?_⟩
  · rw [hflat]
    intro name hname
    rcases List.mem_append.mp hname with hname | hname
    · obtain ⟨k, hk, hnumbered⟩ := h.numbered name hname
      exact ⟨k, Nat.le_succ_of_le hk, hnumbered⟩
    · exact ⟨_, Nat.le_refl _, hcode.numbered name hname⟩
  · rw [hflat]
    refine List.nodup_append.mpr ⟨h.nodup, hcode.nodup, ?_⟩
    rintro x hx y hy rfl
    obtain ⟨k, hk, hnumbered⟩ := h.numbered x hx
    have hnum := hnumbered.inj (hcode.numbered x hy)
    omega
  · exact forall₂_concat_iff.mpr ⟨h.paired, hcode.selfContained, hcode.name_eq⟩
  · rw [forall₂_concat_iff, h.matches_iff, hmatches, List.forall_mem_append,
      List.forall_mem_singleton]

/-- Every declaration that both sides accept keeps them in step. -/
theorem InStep.declare {concurrency : ConcurrencyPolicy} {errno_ : ErrnoPolicy} {pre : String}
    {program : List Declaration} {c c' : CState} {m m' : MlState} {d : Declaration} {n n' : Nat}
    (h : InStep concurrency pre program c m)
    (hc : c.declare concurrency errno_ pre d n = .ok (c', n'))
    (hm : m.declare concurrency errno_ pre d = .ok m') :
    InStep concurrency pre (program ++ [d]) c' m' := by
  have hcounter := h.counter_eq
  cases d with
  | foreign cname f =>
      obtain ⟨code, n1, hcode, hc⟩ := bind_eq_ok.mp hc
      obtain ⟨ext, hext, hm⟩ := except_bind_eq_ok hm
      cases hc
      cases hm
      rw [hcounter] at hext
      exact h.add (foreign_codeOf hcode hext) (d := .foreign cname f)
        (foreign_matches_iff hcode hext) _ _
  | foreignValue cname typ =>
      obtain ⟨e, n1, he, hc⟩ := bind_eq_ok.mp hc
      obtain ⟨ext, hext, hm⟩ := except_bind_eq_ok hm
      cases hc
      cases hm
      rw [hcounter] at hext
      exact h.add (foreignValue_codeOf he hext)
        (d := .foreignValue cname typ)
        (iff_of_true (foreignValue_matches he hext) trivial) _ _

theorem InStep.run {concurrency : ConcurrencyPolicy} {errno_ : ErrnoPolicy} {pre : String}
    {done program : List Declaration} {c c' : CState} {m m' : MlState} {n n' : Nat}
    (h : InStep concurrency pre done c m)
    (hc : genC concurrency errno_ pre program c n = .ok (c', n'))
    (hm : genML concurrency errno_ pre program m = .ok m') :
    InStep concurrency pre (done ++ program) c' m' := by
  induction program generalizing done c m n with
  | nil =>
      cases hc
      cases hm
      rw [List.append_nil]
      exact h
  | cons d ds ih =>
      obtain ⟨c1, n1, hc1, hc⟩ := bind_eq_ok.mp hc
      obtain ⟨m1, hm1, hm⟩ := except_bind_eq_ok hm
      have hrun := ih (h.declare hc1 hm1) hc hm
      rwa [List.append_assoc] at hrun

/-- The two files of a program link. The C functions have names of their own,
each external has a function, and they go together unless a job leaves out an
argument of type `void`. -/
theorem program_links {concurrency : ConcurrencyPolicy} {errno_ : ErrnoPolicy} {pre : String}
    {program : List Declaration} {n n' m m' : Nat} {file : CFile} {mlFile : MlFile}
    (hc : writeC concurrency errno_ pre program n = .ok (file, n'))
    (hm : writeML concurrency errno_ pre program m = .ok (mlFile, m')) :
    let names := file.code.flatMap StubCode.defined
    names.Nodup ∧ (∀ code ∈ file.code, code.SelfContained) ∧
      (∀ ext ∈ mlFile.externs, names.count ext.primname = 1) ∧
      (List.Forall₂ Matches file.code mlFile.externs ↔ ∀ d ∈ program, NoVoid concurrency d) ∧
      ((∀ d ∈ program, NoVoid concurrency d) →
        ∀ ext ∈ mlFile.externs, ∀ b ∈ ext.primnameByte, names.count b = 1) := by
  obtain ⟨c, n1, hc, hrest⟩ := bind_eq_ok.mp hc
  cases hrest
  obtain ⟨s, m1, hs, hrest⟩ := bind_eq_ok.mp hm
  obtain ⟨cases_, m2, -, hrest⟩ := bind_eq_ok.mp hrest
  obtain ⟨valCases, m3, -, hrest⟩ := bind_eq_ok.mp hrest
  cases hrest
  have h := (InStep.initial concurrency pre).run hc (lift_eq_ok.mp hs).1
  rw [List.nil_append] at h
  intro names
  have hdefined : ∀ {code : StubCode} {name : String}, code ∈ c.code → name ∈ code.defined →
      names.count name = 1 := fun hcode hname =>
    List.count_eq_one_of_mem h.nodup (List.mem_flatMap.mpr ⟨_, hcode, hname⟩)
  have hpaired := (List.forall₂_and_left _ _).mp h.paired
  refine ⟨h.nodup, hpaired.1, ?_, h.matches_iff, ?_⟩
  · intro ext hext
    obtain ⟨code, hcode, hname⟩ := exists_of_mem_forall₂ hpaired.2 hext
    exact hdefined hcode (name_mem_defined hname)
  · intro hvoid ext hext b hb
    obtain ⟨code, hcode, hmatch⟩ := exists_of_mem_forall₂ (h.matches_iff.mpr hvoid) hext
    refine hdefined hcode (mem_defined_of_mem_byteNames ?_)
    rw [hmatch.byteNames_eq]
    exact Option.mem_toList.mpr hb

/-- A job of six arguments that leaves one out, and a variable. -/
def sampleProgram : List Declaration :=
  [.foreign "f" (.function .void (.function int (.function int (.function int (.function int
    (.function int (.function int (.returns .void)))))))), .foreignValue "v" int]

/-- Its functions are defined once, but they do not go with their externals. -/
theorem sampleProgram_links :
    ∃ file n' mlFile m', writeC .lwtJobs .returnErrno "stub" sampleProgram 0 = .ok (file, n') ∧
      writeML .lwtJobs .returnErrno "stub" sampleProgram 0 = .ok (mlFile, m') ∧
      (file.code.flatMap StubCode.defined).Nodup ∧
      ¬ List.Forall₂ Matches file.code mlFile.externs := by
  have hc : writeC .lwtJobs .returnErrno "stub" sampleProgram 0 = .ok _ := rfl
  have hm : writeML .lwtJobs .returnErrno "stub" sampleProgram 0 = .ok _ := rfl
  obtain ⟨hnodup, -, -, hmatches, -⟩ := program_links hc hm
  refine ⟨_, _, _, _, hc, hm, hnodup, fun h => ?_⟩
  exact hmatches.mp h (.foreign "f" _) List.mem_cons_self rfl List.mem_cons_self

end CtypesCbuf.Cstubs
