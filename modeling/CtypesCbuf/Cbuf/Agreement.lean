import CtypesCbuf.Cbuf.Acceptance

/-!
Whether the two generators accept the same specifications. They do, except
for the five kinds of `Mismatch`.
-/

namespace CtypesCbuf.Cbuf

open NameSupply Supply
open Ctypes hiding Fn
open CLanguage Stubs
open GenerateC (AcceptedBuffers Accepted)
open GenerateML

def CSucceeds (errno_ : ErrnoPolicy) (cname stubName : String) (f : Fn) (n : Nat) : Prop :=
  Succeeds (GenerateC.fn errno_ cname stubName f) n

/-- The external and the case of its wrapper are generated. -/
def MlSucceeds (concurrency : ConcurrencyPolicy) (errno_ : ErrnoPolicy)
    (cname externalName : String) (f : Fn) (n : Nat) : Prop :=
  (∃ ext, extern_ errno_ externalName externalName f = .ok ext) ∧
    Succeeds (case concurrency errno_ cname externalName f) n

theorem fn_succeeds_iff (errno_ : ErrnoPolicy) (cname stubName : String) (f : Fn)
    (n : Nat) : CSucceeds errno_ cname stubName f n ↔ Accepted f := by
  rw [CSucceeds, GenerateC.fn, succeeds_bind,
    ← GenerateC.stub_succeeds_iff errno_ cname stubName f n]
  constructor
  · rintro ⟨d, n', hd, -⟩
    exact ⟨_, hd⟩
  · rintro ⟨⟨d, n'⟩, hd⟩
    obtain ⟨n'', h⟩ := withByteFn_eq f d n'
    exact ⟨d, n', hd, _, h⟩

/-- What has a wrapper has an external type. -/
theorem hasExternalType_of_wrappable {f : Fn} (h : Wrappable f) : HasExternalType f := by
  induction f with
  | returns t => exact hasReturnTyp_of_returnable h
  | function f t ih => exact ⟨hasArgTyp_of_passed h.1, ih h.2⟩
  | buffers cpos b r ih =>
      cases r with
      | returns t =>
          obtain ⟨ht, hb⟩ := h
          show HasExternalType.HasBufferTypes b (.returns t)
          induction b with
          | lastBuf i u => exact ⟨hasArgTyp_of_passed hb, hasArgTyp_of_passed ht⟩
          | conBuf l b ihl ihb =>
              cases l with
              | lastBuf i u => exact ⟨hasArgTyp_of_passed hb.1, ihb hb.2⟩
              | conBuf l r => exact hb.elim
      | _ => exact h.elim

theorem mlSucceeds_iff (concurrency : ConcurrencyPolicy) (errno_ : ErrnoPolicy)
    (cname externalName : String) (f : Fn) (n : Nat) :
    MlSucceeds concurrency errno_ cname externalName f n ↔
      ValidName externalName ∧ Wrappable f ∧ ¬ FloatBuffers f := by
  have hext := extern_yields errno_ externalName externalName f
  have hcase := case_succeeds_iff concurrency errno_ cname externalName f n
  have htyp := @hasExternalType_of_wrappable f
  rw [Yields] at hext
  rw [MlSucceeds, hext, hcase]
  tauto

/-! ### Arguments first -/

theorem exists_arrows (f : Fn) : ∃ args tail, f = arrows args tail ∧
    ((∃ t, tail = .returns t) ∨ ∃ cpos b r, tail = .buffers cpos b r) := by
  induction f with
  | returns t => exact ⟨[], _, rfl, .inl ⟨t, rfl⟩⟩
  | function f t ih =>
      obtain ⟨args, tail, rfl, htail⟩ := ih
      exact ⟨f :: args, tail, rfl, htail⟩
  | buffers cpos b r ih => exact ⟨[], _, rfl, .inr ⟨cpos, b, r, rfl⟩⟩

theorem accepted_arrows {args : List Typ} {tail : Fn} :
    Accepted (arrows args tail) ↔ (∀ a ∈ args, Passed a) ∧ Accepted tail := by
  induction args with
  | nil => simp
  | cons a args ih => rw [arrows_cons, Accepted, ih, List.forall_mem_cons, and_assoc]

theorem wrappable_arrows {args : List Typ} {tail : Fn} :
    Wrappable (arrows args tail) ↔ (∀ a ∈ args, Passed a) ∧ Wrappable tail := by
  induction args with
  | nil => simp
  | cons a args ih => rw [arrows_cons, Wrappable, ih, List.forall_mem_cons, and_assoc]

theorem floatBuffers_arrows {args : List Typ} {tail : Fn} :
    FloatBuffers (arrows args tail) ↔
      (∀ a ∈ args, isFloatPrimitive a = true) ∧ FloatBuffers tail := by
  induction args with
  | nil => simp
  | cons a args ih => rw [arrows_cons, FloatBuffers, ih, List.forall_mem_cons, and_assoc]

theorem passed_of_isFloatPrimitive {t : Typ} (h : isFloatPrimitive t = true) : Passed t := by
  cases t with
  | primitive p => exact .inr trivial
  | _ => cases h

theorem not_injectable_of_incomplete {t : Typ} (h : Incomplete t) : ¬ Injectable t := by
  cases t with
  | struct tag spec fields => cases spec <;> simp_all [Incomplete, Injectable]
  | union utag uspec ufields => cases uspec <;> simp_all [Incomplete, Injectable]
  | _ => exact h.elim

/-! ### Disagreement -/

/-- The specifications that one side accepts and the other rejects. -/
inductive Mismatch (externalName : String) : Fn → Prop
  /-- ML code cannot mention the external. -/
  | invalidName {f : Fn} (hname : ¬ ValidName externalName) (hf : Accepted f) :
      Mismatch externalName f
  /-- C needs the size of what it returns. -/
  | incompleteReturn {args : List Typ} {t : Typ} (hname : ValidName externalName)
      (hargs : ∀ a ∈ args, Passed a) (ht : Incomplete t.core) :
      Mismatch externalName (arrows args (.returns t))
  /-- After buffers, ML treats the result as an argument. -/
  | bufferReturn {args : List Typ} {cpos : CPosition} {b : CBuffers} {t : Typ}
      (hname : ValidName externalName) (hargs : ∀ a ∈ args, Passed a)
      (hfloat : ∃ a ∈ args, isFloatPrimitive a = false) (hb : AcceptedBuffers b)
      (ht : Incomplete t.core ∨ ∃ o, t.core = .ocaml o) :
      Mismatch externalName (arrows args (.buffers cpos b (.returns t)))
  /-- The analysis of float functions reaches the buffers. -/
  | floatArguments {args : List Typ} {cpos : CPosition} {b : CBuffers} {r : Fn}
      (hargs : ∀ a ∈ args, isFloatPrimitive a = true) (hb : AcceptedBuffers b)
      (hr : Accepted r) : Mismatch externalName (arrows args (.buffers cpos b r))
  /-- ML allows nothing but the result after buffers. -/
  | noReturn {args : List Typ} {cpos : CPosition} {b : CBuffers} {r : Fn}
      (hargs : ∀ a ∈ args, Passed a) (hb : AcceptedBuffers b) (hr : Accepted r)
      (hret : ∀ t, r ≠ .returns t) :
      Mismatch externalName (arrows args (.buffers cpos b r))

/-- What each kind of mismatch is: accepted by one side alone. -/
theorem Mismatch.disagree {externalName : String} {f : Fn}
    (h : Mismatch externalName f) :
    ¬ (Accepted f ↔ ValidName externalName ∧ Wrappable f ∧ ¬ FloatBuffers f) := by
  cases h with
  | invalidName hname hf => exact fun h => hname (h.mp hf).1
  | incompleteReturn hname hargs ht =>
      rename_i args t
      rw [accepted_arrows, wrappable_arrows, floatBuffers_arrows]
      intro h
      have hret : Returnable t.core := (returnable_iff _).mpr (.inr ht)
      have hinj : Injectable t.core :=
        (h.mpr ⟨hname, ⟨hargs, hret⟩, fun hf => hf.2⟩).2
      exact not_injectable_of_incomplete ht hinj
  | bufferReturn hname hargs hfloat hb ht =>
      rename_i args cpos b t
      rw [accepted_arrows, wrappable_arrows, floatBuffers_arrows]
      intro h
      have hpassed : Passed t := (passed_iff t).mpr (.inr ht)
      have hnot : ¬ ((∀ a ∈ args, isFloatPrimitive a = true) ∧
          FloatBuffers (.buffers cpos b (.returns t))) := by
        rintro ⟨hall, -⟩
        obtain ⟨a, ha, hfalse⟩ := hfloat
        rw [hall a ha] at hfalse
        cases hfalse
      have hinj : Injectable t.core := (h.mpr ⟨hname, ⟨hargs, hpassed, hb⟩, hnot⟩).2.2
      rcases ht with ht | ⟨o, ho⟩
      · exact not_injectable_of_incomplete ht hinj
      · rw [ho] at hinj
        exact hinj
  | floatArguments hargs hb hr =>
      rw [accepted_arrows, wrappable_arrows, floatBuffers_arrows]
      intro h
      have hpassed := fun a ha => passed_of_isFloatPrimitive (hargs a ha)
      exact (h.mp ⟨hpassed, hb, hr⟩).2.2 ⟨hargs, trivial⟩
  | noReturn hargs hb hr hret =>
      rename_i args cpos b r
      rw [accepted_arrows, wrappable_arrows, floatBuffers_arrows]
      intro h
      have hw : Wrappable (.buffers cpos b r) := (h.mp ⟨hargs, hb, hr⟩).2.1.2
      cases r with
      | returns t => exact hret t rfl
      | _ => exact hw.elim

/-- The C side accepts a specification exactly when the ML side does, unless
it is one of the mismatches. -/
theorem cSucceeds_iff_mlSucceeds_iff (concurrency : ConcurrencyPolicy)
    (errno_ : ErrnoPolicy) (cname stubName externalName : String) (f : Fn) (n m : Nat) :
    (CSucceeds errno_ cname stubName f n ↔
        MlSucceeds concurrency errno_ cname externalName f m) ↔
      ¬ Mismatch externalName f := by
  rw [fn_succeeds_iff, mlSucceeds_iff]
  constructor
  · exact fun h hm => hm.disagree h
  · intro hno
    have hvalid : Accepted f → ValidName externalName := fun hf =>
      Classical.byContradiction fun hname => hno (.invalidName hname hf)
    obtain ⟨args, tail, rfl, ⟨t, rfl⟩ | ⟨cpos, b, r, rfl⟩⟩ := exists_arrows f
    · rw [accepted_arrows, wrappable_arrows, floatBuffers_arrows] at *
      constructor
      · rintro ⟨hargs, ht⟩
        exact ⟨hvalid ⟨hargs, ht⟩, ⟨hargs, (returnable_iff _).mpr (.inl ht)⟩,
          fun hf => hf.2⟩
      · rintro ⟨hname, ⟨hargs, ht⟩, -⟩
        rcases (returnable_iff _).mp ht with ht | ht
        · exact ⟨hargs, ht⟩
        · exact absurd (.incompleteReturn hname hargs ht) hno
    · rw [accepted_arrows, wrappable_arrows, floatBuffers_arrows] at *
      constructor
      · rintro ⟨hargs, hb, hr⟩
        have hfloat : ¬ ((∀ a ∈ args, isFloatPrimitive a = true) ∧
            FloatBuffers (.buffers cpos b r)) := fun hf =>
          hno (.floatArguments hf.1 hb hr)
        refine ⟨hvalid ⟨hargs, hb, hr⟩, ⟨hargs, ?_⟩, hfloat⟩
        cases r with
        | returns t => exact ⟨(passed_iff t).mpr (.inl hr), hb⟩
        | function f t => exact absurd (.noReturn hargs hb hr (by simp)) hno
        | buffers cpos' b' r' => exact absurd (.noReturn hargs hb hr (by simp)) hno
      · rintro ⟨hname, ⟨hargs, hw⟩, hfloat⟩
        cases r with
        | returns t =>
            obtain ⟨ht, hb⟩ := hw
            rcases (passed_iff t).mp ht with ht | ht
            · exact ⟨hargs, hb, ht⟩
            · have hsome : ∃ a ∈ args, isFloatPrimitive a = false := by
                refine Classical.byContradiction fun hall => hfloat ⟨fun a ha => ?_, trivial⟩
                cases hfa : isFloatPrimitive a with
                | true => rfl
                | false => exact absurd ⟨a, ha, hfa⟩ hall
              exact absurd (.bufferReturn hname hargs hsome hb ht) hno
        | function f t => exact hw.elim
        | buffers cpos' b' r' => exact hw.elim

/-- A function of a float alone that fills a buffer has a C stub and no ML
wrapper. -/
theorem cSucceeds_not_mlSucceeds :
    ¬ (CSucceeds .ignoreErrno "f" "stub_1_f"
        (.function (.primitive .double)
          (retbuf (buffer 4 (.ocaml .bytes)) (.returns (.primitive .int)))) 0 ↔
      MlSucceeds .sequential .ignoreErrno "f" "stub_1_f"
        (.function (.primitive .double)
          (retbuf (buffer 4 (.ocaml .bytes)) (.returns (.primitive .int)))) 0) := by
  intro h
  obtain ⟨⟨ext, hext⟩, -⟩ := h.mp ⟨_, rfl⟩
  cases hext

end CtypesCbuf.Cbuf
