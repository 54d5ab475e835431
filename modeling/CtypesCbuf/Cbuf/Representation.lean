import CtypesCbuf.Cbuf.Acceptance
import CtypesCbuf.Cbuf.Integers

/-!
The OCaml value that a stub returns and the type that its external declares.
They agree without output buffers. With buffers the declared type is the one
of an argument, which leaves out `errno` and the difference between typed and
raw pointers.
-/

namespace CtypesCbuf.Cbuf

open NameSupply Supply IntFormat
open Ctypes hiding Fn
open CLanguage Stubs
open CtypesCbuf.Runtime

/-- The values that the type of an external stands for. -/
def HasRepr (m : Machine) : MlType → Value → Prop
  | .ident p, v =>
      (p = ["unit"] ∧ v = .unit) ∨ (∃ k, p = identOfMlPrim k ∧ HasMlPrim m k v) ∨
        (.ident p = managedBuffer ∧ ∃ block, v = .managedBuffer block) ∨
        (.ident p = voidp ∧ ∃ q, v = .rawPtr q)
  | .appl p t, v =>
      (.appl p t = fatptr ∧ ∃ managed reftyp q, v = .fatptr managed reftyp q) ∨
        (.appl p t = fatfunptr ∧ ∃ managed reftyp q, v = .fatfunptr managed reftyp q) ∨
        (p = ["CI", "ocaml"] ∧ ∃ ty off obj, v = .ocamlRef ty off obj)
  | .pair t u, .pair v w => HasRepr m t v ∧ HasRepr m u w
  | .pair _ _, _ => False

variable {m : Machine}

/-! ### Results of injections -/

theorem injected_primitive {p : Prim} {c : CVal} (hc : HasPrim m.charSigned p c) :
    ∃ u, injected m (.primitive p) c = .value u ∧ HasMlPrim m (mlPrim p) u := by
  rw [GenerateC.injected_eq_ctypesRead hc]
  exact ctypesRead_hasMlPrim hc

/-- What a stub makes of a C value is a value of the type that a function
returning it declares. -/
theorem injected_hasRepr {core : Typ} {c : CVal} (hi : Injectable core)
    (hc : HasCore m.charSigned core c) :
    ∃ u t, injected m core c = .value u ∧ mlTypOfReturnTyp core = .ok t ∧ HasRepr m t u := by
  cases core with
  | void => exact ⟨_, _, rfl, rfl, .inl ⟨rfl, rfl⟩⟩
  | primitive p =>
      obtain ⟨u, hu, hprim⟩ := injected_primitive hc
      exact ⟨u, _, hu, rfl, .inr (.inl ⟨_, rfl, hprim⟩)⟩
  | pointer t | funptr t =>
      obtain ⟨q, rfl⟩ := hc
      exact ⟨_, _, rfl, rfl, .inr (.inr (.inr ⟨rfl, q, rfl⟩))⟩
  | struct tag spec fields =>
      obtain ⟨bytes, rfl⟩ := hc
      cases spec with
      | incomplete isize => exact hi.elim
      | complete size align =>
          exact ⟨_, _, rfl, rfl, .inr (.inr (.inl ⟨rfl, _, rfl⟩))⟩
  | union utag uspec ufields =>
      obtain ⟨bytes, rfl⟩ := hc
      cases uspec with
      | none => exact hi.elim
      | some spec => exact ⟨_, _, rfl, rfl, .inr (.inr (.inl ⟨rfl, _, rfl⟩))⟩
  | _ => exact hc.elim

/-! ### The declared result -/

def hasBuffers : Fn → Bool
  | .returns _ => false
  | .function _ t => hasBuffers t
  | .buffers _ _ _ => true

/-- The type of the result, in the words of the generator. -/
def declaredResult (errno_ : ErrnoPolicy) (f : Fn) : Except Exn MlType :=
  if hasBuffers f then mlTypOfArgTyp (GenerateC.resultTyp f)
  else do
    let r ← mlTypOfReturnTyp (GenerateC.resultTyp f)
    return match errno_ with
      | .ignoreErrno => r
      | .returnErrno => .pair r intType

theorem mlExternalTypeOfCbuffers_result {b : CBuffers} {r : Fn} {e : MlExternalType}
    (h : GenerateML.mlExternalTypeOfCbuffers b r .result = .ok e) :
    mlTypOfArgTyp (GenerateC.resultTyp r) = .ok e.result := by
  induction b generalizing e with
  | lastBuf i t =>
      cases r with
      | returns rt =>
          rw [GenerateML.mlExternalTypeOfCbuffers] at h
          obtain ⟨u, hu, h⟩ := except_bind_eq_ok h
          obtain ⟨a, -, h⟩ := except_bind_eq_ok h
          cases h
          exact hu
      | _ => cases h
  | conBuf l b ihl ihb =>
      cases l with
      | conBuf l r' => cases h
      | lastBuf i t =>
          rw [GenerateML.mlExternalTypeOfCbuffers] at h
          obtain ⟨e', he, h⟩ := except_bind_eq_ok h
          obtain ⟨a, -, h⟩ := except_bind_eq_ok h
          cases h
          exact ihb (e := e') he

theorem mlExternalTypeOfFn_result {errno_ : ErrnoPolicy} {f : Fn} {e : MlExternalType}
    (h : GenerateML.mlExternalTypeOfFn errno_ .result f = .ok e) :
    declaredResult errno_ f = .ok e.result := by
  induction f generalizing e with
  | returns t =>
      rw [GenerateML.mlExternalTypeOfFn] at h
      obtain ⟨u, hu, h⟩ := except_bind_eq_ok h
      cases h
      have ht : mlTypOfReturnTyp t = .ok u := hu
      simp only [declaredResult, hasBuffers, GenerateC.resultTyp, ht]
      rfl
  | function f t ih =>
      rw [GenerateML.mlExternalTypeOfFn] at h
      obtain ⟨e', he, h⟩ := except_bind_eq_ok h
      obtain ⟨a, -, h⟩ := except_bind_eq_ok h
      cases h
      exact ih (e := e') he
  | buffers cpos b r ih =>
      show mlTypOfArgTyp (GenerateC.resultTyp r) = .ok e.result
      exact mlExternalTypeOfCbuffers_result (b := b) h

/-! ### Stubs and externals -/

/-- The specifications whose external declares what the stub returns. -/
def DeclaresResult (errno_ : ErrnoPolicy) (f : Fn) : Prop :=
  hasBuffers f = false ∨
    errno_ = .ignoreErrno ∧ ((GenerateC.resultTyp f).core = .void ∨
      ∃ p, (GenerateC.resultTyp f).core = .primitive p)

theorem convertTyp_of_hasCore {t : Typ} {c : CVal}
    (hc : HasCore m.charSigned t.core c) : convertTyp m t c = c := by
  by_cases hp : ∃ p, t.core = .primitive p
  · obtain ⟨p, hp⟩ := hp
    rw [hp] at hc
    rw [← convertTyp_core, hp]
    exact convert_of_hasPrim hc
  · exact convertTyp_of_core (fun p h => hp ⟨p, h⟩) c

theorem not_hasMlPrim_pair (hm : m.integers.Lawful) {k : MlPrim} {v w : Value} :
    ¬ HasMlPrim m k (.pair v w) := by
  have hmake : ∀ make ∈ [m.integers.valUint8, m.integers.valUint16, m.integers.copyUint32,
      m.integers.copyUint64], ∀ i, Value.pair v w ≠ make i :=
    fun make hmem i h => hm.number make hmem i v w h.symm
  intro h
  cases k with
  | uchar | uint8 =>
      obtain ⟨i, h, -⟩ := h
      exact hmake _ (by simp) i h
  | ushort | uint16 =>
      obtain ⟨i, h, -⟩ := h
      exact hmake _ (by simp) i h
  | uint | uint32 =>
      obtain ⟨i, h, -⟩ := h
      exact hmake _ (by simp) i h
  | sizeT | ulong | ullong | uint64 =>
      obtain ⟨i, h, -⟩ := h
      exact hmake _ (by simp) i h
  | float | ldouble | complex | complexld =>
      obtain ⟨i, h⟩ := h
      exact h
  | _ =>
      obtain ⟨i, h, -⟩ := h
      cases h

/-- No argument of an external is declared as a pair. -/
theorem not_hasRepr_pair (hm : m.integers.Lawful) {t : Typ} {u : MlType}
    (hu : mlTypOfArgTyp t = .ok u) (v w : Value) : ¬ HasRepr m u (.pair v w) := by
  have hident : ∀ p, ¬ HasRepr m (.ident p) (.pair v w) := by
    rintro p (⟨-, h⟩ | ⟨k, -, h⟩ | ⟨-, block, h⟩ | ⟨-, q, h⟩)
    · cases h
    · exact not_hasMlPrim_pair hm h
    · cases h
    · cases h
  have happl : ∀ p t, ¬ HasRepr m (.appl p t) (.pair v w) := by
    rintro p t (⟨-, _, _, _, h⟩ | ⟨-, _, _, _, h⟩ | ⟨-, _, _, _, h⟩) <;> cases h
  cases u with
  | ident p => exact hident p
  | appl p t => exact happl p t
  | pair u u' =>
      rw [← mlTypOfArgTyp_core] at hu
      cases ht : t.core with
      | view x ty => exact absurd ht (Typ.core_ne_view t x ty)
      | ocaml o => rw [ht] at hu; cases o <;> cases hu
      | _ => rw [ht] at hu; cases hu

/-- As an argument of that type, a result is declared right only when it needs
no pointer. -/
theorem hasRepr_argTyp_iff {core : Typ} {c : CVal} {u : Value} {t : MlType}
    (hc : HasCore m.charSigned core c) (hu : injected m core c = .value u)
    (ht : mlTypOfArgTyp core = .ok t) :
    HasRepr m t u ↔ core = .void ∨ ∃ p, core = .primitive p := by
  have hptr : ∀ q, ¬ HasRepr m fatptr (.rawPtr q) ∧ ¬ HasRepr m fatfunptr (.rawPtr q) := by
    intro q
    refine ⟨?_, ?_⟩ <;>
      rintro (⟨-, _, _, _, h⟩ | ⟨-, _, _, _, h⟩ | ⟨-, _, _, _, h⟩) <;> cases h
  have hbuffer : ∀ block, ¬ HasRepr m fatptr (.managedBuffer block) := by
    rintro block (⟨-, _, _, _, h⟩ | ⟨-, _, _, _, h⟩ | ⟨-, _, _, _, h⟩) <;> cases h
  cases core with
  | void =>
      cases hu
      cases ht
      simp [HasRepr]
  | primitive p =>
      cases ht
      obtain ⟨u', hu', hprim⟩ := injected_primitive hc
      obtain rfl : u' = u := CVal.value.inj (hu'.symm.trans hu)
      simp only [Typ.primitive.injEq, exists_eq', or_true, iff_true]
      exact .inr (.inl ⟨_, rfl, hprim⟩)
  | pointer s =>
      obtain ⟨q, rfl⟩ := hc
      cases hu
      cases ht
      simpa using (hptr q).1
  | funptr fn =>
      obtain ⟨q, rfl⟩ := hc
      cases hu
      cases ht
      simpa using (hptr q).2
  | struct tag spec fields =>
      obtain ⟨bytes, rfl⟩ := hc
      cases ht
      cases spec with
      | incomplete isize => cases hu
      | complete size align =>
          cases hu
          simpa using hbuffer _
  | union utag uspec ufields =>
      obtain ⟨bytes, rfl⟩ := hc
      cases ht
      cases uspec with
      | none => cases hu
      | some spec =>
          cases hu
          simpa using hbuffer _
  | _ => exact hc.elim

theorem stub_returns_declared_iff (hm : m.integers.Lawful) {errno_ : ErrnoPolicy}
    {cname stubName externalName : String} {f : Fn} {n n2 : Nat} {d : CFundef} {e : Extern}
    (hd : GenerateC.stub errno_ cname stubName f n = .ok (d, n2))
    (he : GenerateML.extern_ errno_ stubName externalName f = .ok e)
    (hforeign : ∀ cargs, HasCore m.charSigned (GenerateC.resultTyp f).core (m.foreign cargs))
    (args : List CVal) (fields : String → CVal) (w : World) :
    (∃ v, (runFundef m (GenerateC.foreignFunction cname f) d args fields w).result =
        some (.value v) ∧ HasRepr m e.typ.result v) ↔ DeclaresResult errno_ f := by
  obtain ⟨hacc, f', n1, i, hstub⟩ := GenerateC.stub_eq_ok hd
  obtain ⟨typ, htyp, he⟩ := except_bind_eq_ok he
  obtain ⟨attrs, -, he⟩ := except_bind_eq_ok he
  have hresult := mlExternalTypeOfFn_result htyp
  obtain rfl : typ = e.typ := by cases he; rfl
  have hinjectable : Injectable (GenerateC.resultTyp f).core := by
    have h := GenerateC.layout_ret_injectable [] f' n1 (hstub.spec_eq ▸ hacc)
    rwa [GenerateC.layout_ret, hstub.spec_eq] at h
  have hcore := hforeign (GenerateC.passed m (paramEnv (GenerateC.valueParams f') args)
    [] f').reverse
  obtain ⟨u, t, hu, ht, hrepr⟩ := injected_hasRepr hinjectable hcore
  rw [mlTypOfReturnTyp_core] at ht
  rw [← convertTyp_of_hasCore hcore] at hu
  obtain ⟨-, ⟨k, hk, hrun⟩, -⟩ := GenerateC.stub_callsOnce hstub hacc rfl hu fields w
  rw [hrun]
  simp only [Option.some.injEq, CVal.value.injEq, exists_eq_left', DeclaresResult]
  rw [declaredResult] at hresult
  cases hbuf : hasBuffers f with
  | false =>
      rw [hbuf, ht] at hresult
      have hdeclared := (Except.ok.inj hresult).symm
      rw [hdeclared]
      refine ⟨fun _ => .inl rfl, fun _ => ?_⟩
      cases errno_ with
      | ignoreErrno => exact hrepr
      | returnErrno => exact ⟨hrepr, .inr (.inl ⟨.sint, rfl, k, rfl, hk⟩)⟩
  | true =>
      rw [hbuf, if_pos rfl, ← mlTypOfArgTyp_core] at hresult
      cases errno_ with
      | ignoreErrno =>
          rw [convertTyp_of_hasCore hcore] at hu
          simpa [GenerateC.withErrno] using hasRepr_argTyp_iff hcore hu hresult
      | returnErrno => simpa [GenerateC.withErrno] using not_hasRepr_pair hm hresult _ _

def addressMachine : Machine := { Machine.plain with foreign := fun _ => .ptr (.addr 4096) }

theorem stub_returns_declared_pair :
    let f := arrows [int] (.returns (ptr int))
    ∃ d n e, GenerateC.stub .returnErrno "f" "stub_1_f" f 0 = .ok (d, n) ∧
      GenerateML.extern_ .returnErrno "stub_1_f" "stub_1_f" f = .ok e ∧
      ∃ v, (runFundef addressMachine (GenerateC.foreignFunction "f" f) d [.value (.int 1)]
        (fun _ => .undefined) .empty).result = some (.value v) ∧
          HasRepr addressMachine e.typ.result v := by
  intro f
  have hd : GenerateC.stub .returnErrno "f" "stub_1_f" f 0 = .ok (_, _) := rfl
  have he : GenerateML.extern_ .returnErrno "stub_1_f" "stub_1_f" f = .ok _ := rfl
  have hforeign : ∀ cargs, HasCore addressMachine.charSigned (GenerateC.resultTyp f).core
      (addressMachine.foreign cargs) := fun _ => ⟨.addr 4096, rfl⟩
  exact ⟨_, _, _, hd, he, (stub_returns_declared_iff (m := addressMachine)
    Integers.plain_lawful hd he hforeign _ _ _).mpr (.inl rfl)⟩

/-- A raw pointer is returned where the external declares a typed one. -/
theorem buffers_not_declared :
    let f := arrows [int] (retbuf (buffer 4 (.ocaml .bytes)) (.returns (ptr int)))
    ∃ d n e, GenerateC.stub .ignoreErrno "f" "stub_1_f" f 0 = .ok (d, n) ∧
      GenerateML.extern_ .ignoreErrno "stub_1_f" "stub_1_f" f = .ok e ∧
      Succeeds (GenerateML.case .sequential .ignoreErrno "f" "stub_1_f" f) 0 ∧
      ¬ ∃ v, (runFundef addressMachine (GenerateC.foreignFunction "f" f) d
        [.value (.int 1), .value (.ocamlRef .bytes 0 (.object .bytes 0))]
        (fun _ => .undefined) .empty).result = some (.value v) ∧
          HasRepr addressMachine e.typ.result v := by
  intro f
  refine ⟨_, _, _, rfl, rfl, ⟨_, rfl⟩, ?_⟩
  rintro ⟨v, hv, hrepr⟩
  obtain rfl : v = .rawPtr (.addr 4096) := by
    have hrun : some (CVal.value (.rawPtr (.addr 4096))) = some (.value v) := hv
    simpa [eq_comm] using hrun
  rcases hrepr with ⟨-, _, _, _, h⟩ | ⟨-, _, _, _, h⟩ | ⟨-, _, _, _, h⟩ <;> cases h

end CtypesCbuf.Cbuf
