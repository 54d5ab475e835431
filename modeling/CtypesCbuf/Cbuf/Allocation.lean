import CtypesCbuf.Cbuf.Representation

/-!
The allocation analysis behind the attribute `noalloc` of an external. It
looks at the type of the result alone: not at what is returned when there are
buffers, and not at the pair that carries `errno`.
-/

namespace CtypesCbuf.Cbuf

open NameSupply
open Ctypes hiding Fn
open CLanguage Stubs
open GenerateC (Accepted stub foreignFunction resultTyp)

/-- A primitive read without allocation is injected without allocation. -/
theorem primInj_of_noalloc {p : Prim} (h : primitiveAllocation p = .noalloc) :
    (primInj p).allocates = false := by
  cases p <;> first | rfl | cases h

theorem injection_of_noalloc {t : Typ} (h : allocation t = .noalloc) :
    injectionAllocates t.core = false := by
  induction t using Typ.core.induct with
  | case1 v ty ih =>
      rw [Typ.core_view]
      exact ih h
  | case2 t hview =>
      rw [Typ.core]
      · cases t with
        | void => rfl
        | primitive p => exact primInj_of_noalloc h
        | view v ty => exact absurd rfl (hview v ty)
        | _ => cases h
      · exact hview

/-- Without buffers the analysis looks at the type of the C result. -/
theorem mayAllocate_of_no_buffers {f : Fn} (h : hasBuffers f = false) :
    GenerateML.mayAllocate f = false ↔ allocation (resultTyp f) = .noalloc := by
  induction f with
  | returns t =>
      rw [GenerateML.mayAllocate, resultTyp]
      cases allocation t <;> simp
  | function f t ih => exact ih h
  | buffers cpos b r ih => cases h

theorem mayAllocate_of_buffers {f : Fn} (h : hasBuffers f = true) :
    GenerateML.mayAllocate f = false := by
  induction f with
  | returns t => cases h
  | function f t ih => exact ih h
  | buffers cpos b r ih => rfl

/-- An injection allocates as `injectionAllocates` says. -/
theorem injection_allocates_iff {x : CLocal} {t : Typ} {i : CEff}
    (hi : Injection x t i) :
    (∃ g ∈ i.functions, g.allocates = true) ↔ injectionAllocates t = true := by
  cases hi with
  | void => simp [valUnit, CEff.functions, injectionAllocates]
  | primitive p => simp [CEff.functions, injectionAllocates]
  | _ => simp [fromPtr, copyBytes, conser, CEff.functions, injectionAllocates]

/-- What a stub does after its call allocates through the injection of the
result, and in the policy that returns `errno` through the pair. -/
theorem returnSteps_allocate_iff {errno_ : ErrnoPolicy} {x : CLocal} {t : Typ} {i : CEff}
    (hi : Injection x t i) (n : Nat) :
    (∀ s ∈ GenerateC.returnSteps errno_ i n, ¬ s.Allocates) ↔
      errno_ = .ignoreErrno ∧ injectionAllocates t = false := by
  have hinj := injection_allocates_iff hi
  cases errno_ with
  | ignoreErrno =>
      have hstep : (Step.result i).Allocates ↔ injectionAllocates t = true := hinj
      simp [GenerateC.returnSteps, hstep]
  | returnErrno =>
      refine ⟨fun h => ?_, fun h => nomatch h.1⟩
      have hpair :
          (Step.result (pairWithErrno (.clocal (freshName (n + 2), .ty value)))).Allocates :=
        ⟨_, List.mem_singleton.mpr rfl, rfl⟩
      exact absurd hpair (h _ (List.mem_cons_of_mem _ List.mem_cons_self))

/-- A stub allocates nothing when it returns a value without allocation, and
no `errno`. -/
theorem stub_allocates_iff {errno_ : ErrnoPolicy} {cname stubName : String} {f : Fn}
    {n n2 : Nat} {d : CFundef} (h : stub errno_ cname stubName f n = .ok (d, n2)) :
    (∀ s ∈ d.body.steps, ¬ s.Allocates) ↔
      errno_ = .ignoreErrno ∧ injectionAllocates (resultTyp f).core = false := by
  obtain ⟨hf, f', n1, i, hd⟩ := GenerateC.stub_eq_ok h
  have hret := GenerateC.layout_ret [] f' n1
  rw [hd.spec_eq] at hret
  have hinj := inj_injection hd.inj_eq
  have hbefore := @GenerateC.before_call cname f _ _ _ errno_
    (GenerateC.layout_reading [] f' n1).binds
  rw [← hret, ← returnSteps_allocate_iff hinj (GenerateC.layout [] f' n1).next, hd.def_eq,
    CComp.steps_lets, GenerateC.callTail_steps, ← List.append_assoc]
  constructor
  · intro hall s hs
    exact hall s (List.mem_append_right _ (List.mem_cons_of_mem _ hs))
  · intro hafter s hs
    rcases List.mem_append.mp hs with hs | hs
    · exact (hbefore s hs).1
    · rcases List.mem_cons.mp hs with rfl | hs
      · rintro ⟨g, hg, ha⟩
        obtain rfl := List.mem_singleton.mp hg
        cases ha
      · exact hafter s hs

/-- With buffers, the C result is injected without allocation and `errno` is
ignored. Without, `errno` is ignored or reading the result allocates. -/
def AnalysisFits (errno_ : ErrnoPolicy) (f : Fn) : Prop :=
  if hasBuffers f then
    errno_ = .ignoreErrno ∧ injectionAllocates (resultTyp f).core = false
  else errno_ = .ignoreErrno ∨ allocation (resultTyp f) = .alloc

/-- The analysis is sound exactly for the specifications and policies that fit
it. -/
theorem mayAllocate_sound_iff {errno_ : ErrnoPolicy} {cname stubName : String} {f : Fn}
    {n n2 : Nat} {d : CFundef} (h : stub errno_ cname stubName f n = .ok (d, n2)) :
    (GenerateML.mayAllocate f = false → ∀ s ∈ d.body.steps, ¬ s.Allocates) ↔
      AnalysisFits errno_ f := by
  rw [stub_allocates_iff h, AnalysisFits]
  cases hbuf : hasBuffers f with
  | true =>
      rw [if_pos rfl]
      exact ⟨fun hsound => hsound (mayAllocate_of_buffers hbuf), fun hfits _ => hfits⟩
  | false =>
      rw [if_neg (by simp), mayAllocate_of_no_buffers hbuf]
      constructor
      · intro hsound
        cases ha : allocation (resultTyp f) with
        | noalloc => exact .inl (hsound ha).1
        | alloc => exact .inr rfl
      · intro hfits hnoalloc
        refine ⟨hfits.resolve_right fun ha => ?_, injection_of_noalloc hnoalloc⟩
        rw [hnoalloc] at ha
        cases ha

def bytesAndInt : Fn :=
  .function int (.function int (retbuf (buffer 8 (.ocaml .bytes)) (.returns int)))

theorem bytesAndInt_noalloc :
    ∃ d n2, stub .ignoreErrno "f" "stub" bytesAndInt 0 = .ok (d, n2) ∧
      ((GenerateML.mayAllocate bytesAndInt = false → ∀ s ∈ d.body.steps, ¬ s.Allocates) ↔
        AnalysisFits .ignoreErrno bytesAndInt) := by
  obtain ⟨d, n2, -, -, -, hd, -⟩ := GenerateC.stub_accepted .ignoreErrno "f" "stub" bytesAndInt
    0 ⟨.inr trivial, .inr trivial, .inr trivial, trivial⟩
  exact ⟨d, n2, hd, mayAllocate_sound_iff hd⟩

/-- An integer in, 8 bytes and a float out. The external has `noalloc`, and
its stub boxes the float. -/
def bytesAndDouble : Fn :=
  .function int (retbuf (buffer 8 (.ocaml .bytes)) (.returns (.primitive .double)))

theorem bytesAndDouble_allocates :
    GenerateML.attributes bytesAndDouble = .ok { float := false, noalloc := true } ∧
      ∃ d n2, stub .ignoreErrno "f" "stub" bytesAndDouble 0 = .ok (d, n2) ∧
        ¬ (GenerateML.mayAllocate bytesAndDouble = false →
          ∀ s ∈ d.body.steps, ¬ s.Allocates) := by
  obtain ⟨d, n2, -, -, -, hd, -⟩ := GenerateC.stub_accepted .ignoreErrno "f" "stub"
    bytesAndDouble 0 ⟨.inr trivial, .inr trivial, trivial⟩
  refine ⟨rfl, d, n2, hd, fun h => ?_⟩
  exact absurd ((stub_allocates_iff hd).mp (h rfl)).2 (by decide)

end CtypesCbuf.Cbuf
