import Mathlib.Data.List.TakeWhile
import CtypesCbuf.Cbuf.Layout
import CtypesCbuf.Cbuf.Program

/-!
The two files of a program link. Their generators count declarations alike,
and what one declaration adds to each file refers to the same functions:
`InStep` is kept by every declaration and so holds of whole runs.
-/

namespace CtypesCbuf.Cbuf

open NameSupply Supply
open Ctypes hiding Fn
open CLanguage Stubs

/-! ### Names -/

theorem var_toList (pre : String) (k : Nat) (s : String) :
    (var pre k s).toList = pre.toList ++ '_' :: ((Nat.repr k).toList ++ '_' :: s.toList) := by
  simp [var, String.toList_append]

/-- The digits before the second separator tell the counter. -/
theorem takeDigits (k : Nat) (s : List Char) :
    ((Nat.repr k).toList ++ '_' :: s).takeWhile Char.isDigit = (Nat.repr k).toList := by
  rw [List.takeWhile_append_of_pos fun c hc => isDigit_of_mem_repr hc]
  simp

/-- Different declarations get different names. -/
theorem var_inj {pre : String} {k k' : Nat} {s s' : String}
    (h : var pre k s = var pre k' s') : k = k' := by
  have hlist := congrArg String.toList h
  rw [var_toList, var_toList, List.append_cancel_left_eq] at hlist
  have hdigits := congrArg (List.takeWhile Char.isDigit) (List.tail_eq_of_cons_eq hlist)
  rw [takeDigits, takeDigits] at hdigits
  exact repr_inj.mp (String.toList_inj.mp hdigits)

/-- A bytecode function is named as another of the same declaration. -/
theorem byteName_var (pre : String) (k : Nat) (s : String) (nargs : Nat) :
    byteName (var pre k s) nargs = var pre k (byteName s nargs) := by
  simp [byteName, var, String.append_assoc]

theorem byteName_ne (name : String) (nargs : Nat) : byteName name nargs ≠ name := by
  intro h
  have hlen := congrArg (fun s : String => s.toList.length) h
  simp [byteName, String.toList_append] at hlen

/-! ### What linking means -/

/-- `d` reads its arguments from `argv` and passes them on in order. -/
structure BytecodeFor (d : CFundef) (callee : String) (nargs : Nat) : Prop where
  params : d.dec.params = [argv, argc]
  body : ∃ binds f args, d.body = CComp.lets binds (.eff (.app f args)) ∧
    f.fname = callee ∧ args.length = nargs ∧ (binds.map fun b => b.1.1).Nodup ∧
    (∀ b ∈ binds, ∃ i < nargs, b.2 = .index (.exp (.clocal argv)) (.int i)) ∧
    ∀ i < nargs, ∃ x, args[i]? = some (.clocal x) ∧
      (x, .index (.exp (.clocal argv)) (.int i)) ∈ binds

/-- An external and the C functions behind it. -/
structure Linked (defs : List CFundef) (ext : Extern) : Prop where
  byte_iff : ext.primnameByte.isSome ↔ arity ext.typ > 5
  native : ∃ d ∈ defs, d.dec.name = ext.primname ∧
    d.dec.params.length = ext.typ.args.length ∧ ∀ p ∈ d.dec.params, p.2 = .ty value
  byte : ∀ b, ext.primnameByte = some b →
    ∃ d ∈ defs, d.dec.name = b ∧ BytecodeFor d ext.primname (arity ext.typ)

theorem Linked.mono {defs defs' : List CFundef} {ext : Extern} (h : Linked defs ext)
    (hsub : ∀ d ∈ defs, d ∈ defs') : Linked defs' ext := by
  refine ⟨h.byte_iff, ?_, fun b hb => ?_⟩
  · obtain ⟨d, hd, hrest⟩ := h.native
    exact ⟨d, hsub d hd, hrest⟩
  · obtain ⟨d, hd, hrest⟩ := h.byte b hb
    exact ⟨d, hsub d hd, hrest⟩

theorem argvBinds_index (k n : Nat) : ∀ b ∈ argvBinds k n,
    ∃ i < k, b.2 = .index (.exp (.clocal argv)) (.int i) := by
  induction k generalizing n with
  | zero => simp [argvBinds]
  | succ k ih =>
      intro b hb
      rcases List.mem_cons.mp hb with rfl | hb
      · exact ⟨k, by omega, rfl⟩
      · obtain ⟨i, hi, h⟩ := ih (n + 1) b hb
        exact ⟨i, by omega, h⟩

theorem argvBinds_fresh (k n : Nat) :
    FreshNames n (n + k) ((argvBinds k n).map fun b => b.1.1) := by
  induction k generalizing n with
  | zero => exact FreshNames.nil n
  | succ k ih =>
      have hfirst : FreshNames n (n + 1) [freshName (n + 1)] :=
        FreshNames.single _ (by omega) (by omega)
      have h := hfirst.append (ih (n + 1))
      rwa [Nat.succ_add_eq_add_succ] at h

theorem byteDef_bytecodeFor (fname : String) (fn : Fn) (nargs n : Nat) :
    BytecodeFor (byteDef fname fn nargs n) fname nargs := by
  refine ⟨rfl, _, _, _, rfl, rfl, argvArgs_length nargs n, (argvBinds_fresh nargs n).nodup,
    argvBinds_index nargs n, fun i hi => argvArgs_getElem? n hi⟩

/-! ### One declaration -/

theorem mlExternalTypeOfCbuffers_arity {b : GenerateC.NamedCBuffers} {r : Fn}
    {e : MlExternalType}
    (h : GenerateML.mlExternalTypeOfCbuffers b.spec r .result = .ok e) :
    e.args.length = b.names.length := by
  induction b generalizing e with
  | lastBuf x i t =>
      cases r with
      | returns rt =>
          rw [GenerateC.NamedCBuffers.spec, GenerateML.mlExternalTypeOfCbuffers] at h
          obtain ⟨u, -, h⟩ := except_bind_eq_ok h
          obtain ⟨a, -, h⟩ := except_bind_eq_ok h
          cases h
          rfl
      | _ => cases h
  | conBuf l b ihl ihb =>
      cases l with
      | conBuf l r' => cases h
      | lastBuf x i t =>
          rw [GenerateC.NamedCBuffers.spec, GenerateC.NamedCBuffers.spec,
            GenerateML.mlExternalTypeOfCbuffers] at h
          obtain ⟨e', he', h⟩ := except_bind_eq_ok h
          obtain ⟨a, -, h⟩ := except_bind_eq_ok h
          cases h
          have hlen := ihb he'
          simp only [List.length_cons, GenerateC.NamedCBuffers.names, List.length_append,
            List.length_nil]
          omega

/-- Both sides count the parameters of a specification alike. -/
theorem mlExternalTypeOfFn_arity {errno_ : ErrnoPolicy} {f : GenerateC.NamedFn}
    {e : MlExternalType}
    (h : GenerateML.mlExternalTypeOfFn errno_ .result f.spec = .ok e) :
    e.args.length = (GenerateC.valueParams f).length := by
  induction f generalizing e with
  | returns t =>
      rw [GenerateC.NamedFn.spec, GenerateML.mlExternalTypeOfFn] at h
      obtain ⟨r, -, h⟩ := except_bind_eq_ok h
      cases h
      rfl
  | function x f t ih =>
      rw [GenerateC.NamedFn.spec, GenerateML.mlExternalTypeOfFn] at h
      obtain ⟨e', he', h⟩ := except_bind_eq_ok h
      obtain ⟨a, -, h⟩ := except_bind_eq_ok h
      cases h
      rw [GenerateC.valueParams, List.length_cons, List.length_cons, ih he']
  | buffers cpos b r ih =>
      rw [GenerateC.valueParams, GenerateC.valueParamsOfCbuffers_eq, List.length_map]
      exact mlExternalTypeOfCbuffers_arity h

theorem extern_eq_ok {errno_ : ErrnoPolicy} {name : String} {f : Fn} {ext : Extern}
    (h : GenerateML.extern_ errno_ name name f = .ok ext) :
    ext.primname = name ∧ ext.primnameByte = byteStubName name ext.typ ∧
      GenerateML.mlExternalTypeOfFn errno_ .result f = .ok ext.typ := by
  rw [GenerateML.extern_] at h
  obtain ⟨typ, htyp, h⟩ := except_bind_eq_ok h
  obtain ⟨as, -, h⟩ := except_bind_eq_ok h
  cases h
  exact ⟨rfl, rfl, htyp⟩

/-- The C definitions of one declaration: they link with its external, have
names of their own and carry the number of the declaration. -/
structure DefsOf (pre : String) (k : Nat) (ds : List CFundef) (ext : Extern) : Prop where
  linked : Linked ds ext
  names : ∀ d ∈ ds, ∃ s, d.dec.name = var pre k s
  nodup : (ds.map fun d => d.dec.name).Nodup

theorem foreign_defsOf {errno_ : ErrnoPolicy} {pre cname : String} {k : Nat} {f : Fn}
    {n n' : Nat} {ds : List CFundef} {ext : Extern}
    (hc : GenerateC.fn errno_ cname (var pre k cname) f n = .ok (ds, n'))
    (hm : GenerateML.extern_ errno_ (var pre k cname) (var pre k cname) f = .ok ext) :
    DefsOf pre k ds ext := by
  obtain ⟨hprim, hbyte, htyp⟩ := extern_eq_ok hm
  obtain ⟨d, n1, hd, hrest⟩ := bind_eq_ok.mp hc
  obtain ⟨-, f', n2, i, hstub⟩ := GenerateC.stub_eq_ok hd
  have hdec : d.dec = _ := congrArg CFundef.dec hstub.def_eq
  have hname : d.dec.name = var pre k cname := by rw [hdec]
  rw [← hstub.spec_eq] at htyp
  have harity : d.dec.params.length = arity ext.typ := by
    rw [hdec, arity, mlExternalTypeOfFn_arity htyp]
  have hvalue : ∀ p ∈ d.dec.params, p.2 = .ty value := by
    rw [hdec]
    exact fun p hp => (GenerateC.mem_names_of_mem_valueParams hp).2
  obtain ⟨n3, hds⟩ := withByteFn_eq f d n1
  rw [hds] at hrest
  cases hrest
  rw [byteStubName, ← harity] at hbyte
  split
  · rename_i hmany
    rw [if_pos hmany] at hbyte
    have hbytecode := byteDef_bytecodeFor d.dec.name f d.dec.params.length n1
    refine ⟨⟨?_, ⟨d, by simp, by rw [hname, hprim], harity, hvalue⟩, ?_⟩, ?_, ?_⟩
    · rw [hbyte, ← harity]
      simpa [maxByteArgs] using hmany
    · intro b hb
      rw [hbyte, Option.some.injEq] at hb
      refine ⟨_, List.mem_cons_of_mem _ List.mem_cons_self, ?_, ?_⟩
      · rw [← hb, ← hname]
        rfl
      · rw [hprim, ← hname, ← harity]
        exact hbytecode
    · intro e he
      rcases List.mem_cons.mp he with rfl | he
      · exact ⟨_, hname⟩
      · obtain rfl := List.mem_singleton.mp he
        refine ⟨byteName cname d.dec.params.length, ?_⟩
        rw [byteDef, hname]
        exact byteName_var pre k cname _
    · have hne := byteName_ne d.dec.name d.dec.params.length
      simpa [byteDef] using hne.symm
  · rename_i hfew
    rw [if_neg hfew] at hbyte
    refine ⟨⟨?_, ⟨d, by simp, by rw [hname, hprim], harity, hvalue⟩, ?_⟩, ?_, by simp⟩
    · rw [hbyte, ← harity]
      simpa [maxByteArgs] using hfew
    · intro b hb
      rw [hbyte] at hb
      cases hb
    · intro e he
      obtain rfl := List.mem_singleton.mp he
      exact ⟨_, hname⟩

theorem foreignValue_defsOf {pre cname : String} {k : Nat} {typ : Typ}
    {n n' : Nat} {d : CFundef} {ext : Extern}
    (hc : GenerateC.valueStub cname (var pre k cname) typ n = .ok (d, n'))
    (hm : GenerateML.extern_ .ignoreErrno (var pre k cname) (var pre k cname) valueFn =
      .ok ext) : DefsOf pre k [d] ext := by
  obtain ⟨i, n1, -, hrest⟩ := bind_eq_ok.mp hc
  cases hrest
  cases hm
  refine ⟨⟨by simp [byteStubName, arity, maxByteArgs],
    ⟨_, List.mem_singleton_self _, rfl, rfl, by simp⟩, fun b hb => ?_⟩, ?_, by simp⟩
  · cases hb
  · intro e he
    obtain rfl := List.mem_singleton.mp he
    exact ⟨_, rfl⟩

/-! ### Whole runs -/

/-- Among functions with names of their own, a name picks one out. -/
theorem filter_name_of_nodup {defs : List CFundef}
    (h : (defs.map fun d => d.dec.name).Nodup) {d : CFundef} (hd : d ∈ defs) :
    defs.filter (fun e => e.dec.name = d.dec.name) = [d] := by
  induction defs with
  | nil => cases hd
  | cons e defs ih =>
      rw [List.map_cons, List.nodup_cons] at h
      rcases List.mem_cons.mp hd with rfl | hd
      · have hnone : defs.filter (fun e => e.dec.name = d.dec.name) = [] := by
          rw [List.filter_eq_nil_iff]
          intro e he heq
          exact h.1 (List.mem_map.mpr ⟨e, he, by simpa using heq⟩)
        rw [List.filter_cons_of_pos (by simp), hnone]
      · have hne : e.dec.name ≠ d.dec.name := fun heq =>
          h.1 (List.mem_map.mpr ⟨d, hd, heq.symm⟩)
        rw [List.filter_cons_of_neg (by simpa using hne), ih h.2 hd]

/-- The two generators after the same declarations. -/
structure InStep (pre : String) (c : CState) (m : MlState) : Prop where
  counter_eq : m.counter = c.counter
  names : ∀ d ∈ c.defs, ∃ k s, k ≤ c.counter ∧ d.dec.name = var pre k s
  nodup : (c.defs.map fun d => d.dec.name).Nodup
  linked : ∀ ext ∈ m.externs, Linked c.defs ext

theorem InStep.initial (pre : String) :
    InStep pre { counter := 0, defs := [] }
      { counter := 0, externs := [], bindings := [], valBindings := [] } :=
  ⟨rfl, by simp, by simp, by simp⟩

/-- What a declaration adds leaves the earlier part as it was. -/
theorem InStep.add {pre : String} {c : CState} {m : MlState} (h : InStep pre c m)
    {ds : List CFundef} {ext : Extern} (hds : DefsOf pre (c.counter + 1) ds ext)
    (bindings : List Bind) (valBindings : List ValBind) :
    InStep pre { counter := c.counter + 1, defs := c.defs ++ ds }
      { counter := m.counter + 1, externs := m.externs ++ [ext], bindings, valBindings } := by
  refine ⟨by rw [h.counter_eq], ?_, ?_, ?_⟩
  · intro d hd
    rcases List.mem_append.mp hd with hd | hd
    · obtain ⟨k, s, hk, hs⟩ := h.names d hd
      exact ⟨k, s, Nat.le_succ_of_le hk, hs⟩
    · obtain ⟨s, hs⟩ := hds.names d hd
      exact ⟨_, s, Nat.le_refl _, hs⟩
  · rw [List.map_append]
    refine List.nodup_append.mpr ⟨h.nodup, hds.nodup, ?_⟩
    intro x hx y hy hxy
    obtain ⟨d, hd, rfl⟩ := List.mem_map.mp hx
    obtain ⟨e, he, rfl⟩ := List.mem_map.mp hy
    obtain ⟨k, s, hk, hs⟩ := h.names d hd
    obtain ⟨s', hs'⟩ := hds.names e he
    have hnum : k = c.counter + 1 := var_inj (hs.symm.trans (hxy.trans hs'))
    omega
  · intro e he
    rcases List.mem_append.mp he with he | he
    · exact (h.linked e he).mono fun d hd => List.mem_append_left _ hd
    · obtain rfl := List.mem_singleton.mp he
      exact hds.linked.mono fun d hd => List.mem_append_right _ hd

/-- Every declaration that both sides accept keeps them in step. -/
theorem InStep.declare {errno_ : ErrnoPolicy} {pre : String} {c c' : CState}
    {m m' : MlState} {d : Declaration} {n n' : Nat} (h : InStep pre c m)
    (hc : c.declare errno_ pre d n = .ok (c', n')) (hm : m.declare errno_ pre d = .ok m') :
    InStep pre c' m' := by
  have hcounter := h.counter_eq
  cases d with
  | foreign cname f =>
      obtain ⟨ds, n1, hds, hc⟩ := bind_eq_ok.mp hc
      obtain ⟨ext, hext, hm⟩ := except_bind_eq_ok hm
      cases hc
      cases hm
      rw [hcounter] at hext
      exact h.add (foreign_defsOf hds hext) _ _
  | foreignValue cname typ =>
      obtain ⟨e, n1, he, hc⟩ := bind_eq_ok.mp hc
      obtain ⟨ext, hext, hm⟩ := except_bind_eq_ok hm
      cases hc
      cases hm
      rw [hcounter] at hext
      exact h.add (foreignValue_defsOf he hext) _ _

theorem InStep.run {errno_ : ErrnoPolicy} {pre : String} {program : List Declaration}
    {c c' : CState} {m m' : MlState} {n n' : Nat} (h : InStep pre c m)
    (hc : genC errno_ pre program c n = .ok (c', n'))
    (hm : genML errno_ pre program m = .ok m') : InStep pre c' m' := by
  induction program generalizing c m n with
  | nil =>
      cases hc
      cases hm
      exact h
  | cons d ds ih =>
      obtain ⟨c1, n1, hc1, hc⟩ := bind_eq_ok.mp hc
      obtain ⟨m1, hm1, hm⟩ := except_bind_eq_ok hm
      exact ih (h.declare hc1 hm1) hc hm

/-- The two files of a program link: the C functions have names of their own
and each external refers to exactly one of them, with a bytecode function
when it has more than five arguments. -/
theorem files_link {concurrency : ConcurrencyPolicy} {errno_ : ErrnoPolicy}
    {pre : String} {program : List Declaration} {n n' m m' : Nat}
    {defs : List CFundef} {file : MlFile}
    (hc : writeC errno_ pre program n = .ok (defs, n'))
    (hm : writeML concurrency errno_ pre program m = .ok (file, m')) :
    (defs.map fun d => d.dec.name).Nodup ∧ ∀ ext ∈ file.externs, Linked defs ext ∧
      ∀ name, (name = ext.primname ∨ ext.primnameByte = some name) →
        ∃ d, defs.filter (fun d => d.dec.name = name) = [d] := by
  obtain ⟨c, n1, hc, hrest⟩ := bind_eq_ok.mp hc
  cases hrest
  obtain ⟨s, m1, hs, hrest⟩ := bind_eq_ok.mp hm
  obtain ⟨cases_, m2, -, hrest⟩ := bind_eq_ok.mp hrest
  obtain ⟨valCases, m3, -, hrest⟩ := bind_eq_ok.mp hrest
  cases hrest
  have h := (InStep.initial pre).run hc (lift_eq_ok.mp hs).1
  refine ⟨h.nodup, fun ext hext => ⟨h.linked ext hext, fun name hname => ?_⟩⟩
  have hmem : ∃ d ∈ c.defs, d.dec.name = name := by
    rcases hname with rfl | hname
    · obtain ⟨d, hd, hdn, -⟩ := (h.linked ext hext).native
      exact ⟨d, hd, hdn⟩
    · obtain ⟨d, hd, hdn, -⟩ := (h.linked ext hext).byte name hname
      exact ⟨d, hd, hdn⟩
  obtain ⟨d, hd, rfl⟩ := hmem
  exact ⟨d, filter_name_of_nodup h.nodup hd⟩

/-- A function with five arguments and a buffer, and a variable. -/
theorem files_link_example :
    ∃ defs n' file m',
      writeC .ignoreErrno "stub" [.foreign "f" (arrows (List.replicate 5 (.primitive .int))
        (retbuf (buffer 4 (.ocaml .bytes)) (.returns .void))), .foreignValue "v" int] 0 =
          .ok (defs, n') ∧
      writeML .sequential .ignoreErrno "stub"
        [.foreign "f" (arrows (List.replicate 5 (.primitive .int))
          (retbuf (buffer 4 (.ocaml .bytes)) (.returns .void))), .foreignValue "v" int] 0 =
          .ok (file, m') ∧
      (defs.map fun d => d.dec.name).Nodup ∧ ∀ ext ∈ file.externs, Linked defs ext ∧
        ∀ name, (name = ext.primname ∨ ext.primnameByte = some name) →
          ∃ d, defs.filter (fun d => d.dec.name = name) = [d] := by
  have hc : writeC .ignoreErrno "stub" [.foreign "f" (arrows
      (List.replicate 5 (.primitive .int))
      (retbuf (buffer 4 (.ocaml .bytes)) (.returns .void))), .foreignValue "v" int] 0 =
        .ok _ := rfl
  have hm : writeML .sequential .ignoreErrno "stub" [.foreign "f" (arrows
      (List.replicate 5 (.primitive .int))
      (retbuf (buffer 4 (.ocaml .bytes)) (.returns .void))), .foreignValue "v" int] 0 =
        .ok _ := rfl
  exact ⟨_, _, _, _, hc, hm, files_link hc hm⟩

end CtypesCbuf.Cbuf
