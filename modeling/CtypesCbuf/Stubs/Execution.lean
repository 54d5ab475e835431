import CtypesCbuf.CLanguage.Semantics
import CtypesCbuf.Stubs.Projection

/-!
What projections and injections compute. The lets of a projection leave what
C receives in the expression for the parameter, and change nothing else that
was there; the injection of a C value is a value of its own.
-/

namespace CtypesCbuf.Stubs

open NameSupply StraightLine
open Ctypes hiding Fn
open Cbuf CLanguage
open CtypesCbuf.Runtime

/-! ### The runtime library -/

section Library

variable (m : Machine)

@[simp] theorem library_addrOfFatptr :
    library m "CTYPES_ADDR_OF_FATPTR" = addrOfFatptr := rfl

@[simp] theorem library_ptrOfOcamlString :
    library m "CTYPES_PTR_OF_OCAML_STRING" = interiorPtr := rfl

@[simp] theorem library_ptrOfOcamlBytes :
    library m "CTYPES_PTR_OF_OCAML_BYTES" = interiorPtr := rfl

@[simp] theorem library_ptrOfFloatArray :
    library m "CTYPES_PTR_OF_FLOAT_ARRAY" = floatArrayPtr m := rfl

@[simp] theorem library_fromPtr : library m "CTYPES_FROM_PTR" = Runtime.fromPtr := rfl

@[simp] theorem library_copyBytes : library m "ctypes_copy_bytes" = copyBlock := rfl

end Library

/-! ### Conversions -/

theorem convertTyp_core (m : Machine) (t : Typ) (v : CVal) :
    convertTyp m t.core v = convertTyp m t v := by
  induction t using Typ.core.induct with
  | case1 w ty ih => simpa only [Typ.core_view, convertTyp] using ih
  | case2 t h =>
      rw [Typ.core]
      exact h

/-- Only primitives are converted. -/
theorem convertTyp_of_core {m : Machine} {t : Typ} (h : ∀ p, t.core ≠ .primitive p)
    (v : CVal) : convertTyp m t v = v := by
  rw [← convertTyp_core]
  cases ht : t.core with
  | primitive p => exact absurd ht (h p)
  | view w ty => exact absurd ht (Typ.core_ne_view t w ty)
  | _ => rfl

/-! ### Projections -/

/-- What C receives for a parameter that holds `v`, for a type with core
`core`. -/
def received (m : Machine) (core : Typ) (v : CVal) : CVal :=
  match core with
  | .primitive p =>
      convert m p (convert m (primPrjResult p) (library m (primPrj p).fname [v]))
  | .struct _ _ _ | .union _ _ _ =>
      match addrOfFatptr [v] with
      | .ptr p => .image (m.load core p)
      | _ => .undefined
  | .ocaml o => ocamlPtr m o [v]
  | _ => addrOfFatptr [v]

section Projection

variable {m : Machine} {fvar : CFunction}

/-- A reader is a function of the library, applied in an unchanged world. -/
theorem evalEff_reader (hf : fvar.readsOcamlHeap = false) {g : CFunction}
    (hg : g.allocates = false ∧ g.readsOcamlHeap = true) (es : List CExp) (s : State) :
    evalEff m fvar s (.app g es) =
      (library m g.fname (es.map (evalExp m s.env)), s.world) := by
  have hne : g ≠ fvar := by
    rintro rfl
    rw [hf] at hg
    cases hg.2
  have hpair : g ≠ pairFunction := by
    rintro rfl
    cases hg.1
  simp only [evalEff, if_neg hne, callFunction, if_neg hpair, hg.1]
  rfl

/-- Binding names that are drawn between two counts, by reading only. -/
theorem run_reading (hf : fvar.readsOcamlHeap = false) {lo hi : Nat} {bs : List CBind}
    (hnames : ∀ b ∈ bs, Drawn freshName lo hi b.1.1) (hreads : ∀ b ∈ bs, b.2.OnlyReads)
    (s : State) :
    ∃ env, run (exec m fvar) (bs.map .bind) s = { s with env } ∧
      ∀ x, ¬ Drawn freshName lo hi x → env x = s.env x := by
  induction bs generalizing s with
  | nil => exact ⟨s.env, rfl, fun _ _ => rfl⟩
  | cons b bs ih =>
      have hworld := evalEff_world (m := m) hf (hreads b (by simp)) s
      have hb := hnames b (by simp)
      rw [List.map_cons, run_cons, exec_bind, hworld]
      obtain ⟨env, hrun, henv⟩ := ih (fun c hc => hnames c (by simp [hc]))
        (fun c hc => hreads c (by simp [hc]))
        { s with env := bindLocal s.env b.1.1 (convertTy m b.1.2 (evalEff m fvar s b.2).1) }
      refine ⟨env, hrun, fun x hx => ?_⟩
      rw [henv x hx]
      exact bindLocal_of_ne _ fun h => hx (h ▸ hb)

theorem run_readingBinds (hf : fvar.readsOcamlHeap = false) {lo hi : Nat}
    {bs : List CBind} (h : ReadingBinds lo hi bs) (s : State) :
    ∃ env, run (exec m fvar) (bs.map .bind) s = { s with env } ∧ Agree lo hi s.env env :=
  run_reading hf
    (fun b hb => h.names.drawn b.1.1 (List.mem_map.mpr ⟨b, hb, rfl⟩)) h.readers s

/-- The lets of a structure: its address, then its bytes. -/
theorem deref_run (hf : fvar.readsOcamlHeap = false) {f core : Typ} (hcore : f.core = core)
    (s : State) (x : String) (n : Nat) (hprim : ∀ p, core ≠ .primitive p) :
    evalExp m (run (exec m fvar) [
        .bind ((freshName (n + 1), .ty (ptr .void)), ofFatptr (valueLocal x)),
        .bind ((freshName (n + 3), .ty f), .deref (.cast (.ty (ptr f))
          (.clocal (freshName (n + 1), .ty (ptr .void)))))] s).env
      (.clocal (freshName (n + 3), .ty f)) =
        match addrOfFatptr [s.env x] with
        | .ptr p => .image (m.load core p)
        | _ => .undefined := by
  subst hcore
  have happ : evalEff m fvar s (ofFatptr (valueLocal x)) =
      (addrOfFatptr [s.env x], s.world) := evalEff_reader hf ⟨rfl, rfl⟩ _ s
  have hconv : ∀ v, convertTyp m f v = v := convertTyp_of_core hprim
  simp only [run_cons, run_nil, exec_bind, happ, evalExp, bindLocal_self, convertTy, hconv]
  show (evalEff m fvar _ (.deref _)).1 = _
  simp only [evalEff, typeExp, evalExp, convertTy, ptr, convertTyp, bindLocal_self]
  cases addrOfFatptr [s.env x] <;> rfl

/-- After its lets, the expression for a parameter is what C receives. -/
theorem projected_run (hf : fvar.readsOcamlHeap = false) (f : Typ) (x : String) (n : Nat)
    (s : State) :
    evalExp m (run (exec m fvar) ((projected f (valueLocal x) n).binds.map .bind) s).env
        (projected f (valueLocal x) n).arg = received m f.core (s.env x) := by
  have happ : ∀ (g : String) (fn : Cbuf.Fn), evalEff m fvar s
      (.app (reader g fn) [valueLocal x]) = (library m g [s.env x], s.world) :=
    fun g fn => evalEff_reader hf ⟨rfl, rfl⟩ _ s
  have hprim : ∀ p, evalEff m fvar s (.app (primPrj p) [valueLocal x]) =
      (library m (primPrj p).fname [s.env x], s.world) := fun p =>
    evalEff_reader hf ⟨primPrj_allocates p, primPrj_readsOcamlHeap p⟩ _ s
  have hconv : (∀ p, f.core ≠ .primitive p) → ∀ v, convertTyp m f v = v :=
    fun h v => convertTyp_of_core h v
  have hptr : ∀ v, convertTyp m (ptr .void) v = v := fun v => rfl
  rw [projected]
  cases hcore : f.core with
  | view v ty => exact absurd hcore (Typ.core_ne_view f v ty)
  | primitive p =>
      simp only [Projected.ofCore, List.map_cons, List.map_nil, run_cons, run_nil, exec_bind,
        hprim, evalExp, bindLocal_self]
      rfl
  | struct tag spec fields => exact deref_run hf hcore s x n (by simp)
  | union utag uspec ufields => exact deref_run hf hcore s x n (by simp)
  | ocaml o =>
      rw [hcore] at hconv
      cases o <;> simp [Projected.ofCore, exec_bind, happ, ocamlToPtr, stringToPtr, bytesToPtr,
        floatArrayToPtr, evalExp, convertTy, hconv, received, ocamlPtr]
  | _ =>
      rw [hcore] at hconv
      simp [Projected.ofCore, exec_bind, happ, ofFatptr, evalExp, convertTy, hconv, received]

end Projection

/-! ### Injections -/

/-- What the injection of the C value `c` gives, for a type with core `core`. -/
def injected (m : Machine) (core : Typ) (c : CVal) : CVal :=
  match core with
  | .void => .value .unit
  | .primitive p => library m (primInj p).fname [convert m p c]
  | .pointer _ | .funptr _ => Runtime.fromPtr [c]
  | .struct _ (.complete size _) _ => copyBlock [.addrOf c, .int (sintOfInt size)]
  | .union _ (some spec) _ => copyBlock [.addrOf c, .int (sintOfInt spec.size)]
  | _ => .undefined

def injectionAllocates : Typ → Bool
  | .void => false
  | .primitive p => (primInj p).allocates
  | _ => true

theorem primInj_ne_pairFunction (p : Prim) : primInj p ≠ pairFunction := by
  cases p <;> decide

section Injection

variable {m : Machine} {fvar : CFunction}

/-- What returns a `value` is a function of the library. -/
theorem evalEff_library (hf : returnType fvar.fn ≠ .ty value) {g : CFunction}
    (hg : returnType g.fn = .ty value) (hpair : g ≠ pairFunction) (es : List CExp)
    (s : State) :
    evalEff m fvar s (.app g es) = (library m g.fname (es.map (evalExp m s.env)),
      if g.allocates then s.world.clobber m else s.world) := by
  have hne : g ≠ fvar := by
    rintro rfl
    exact hf hg
  simp only [evalEff, if_neg hne, callFunction, if_neg hpair]

theorem Injection.eval {x : CLocal} {t : Typ} {i : CEff} (hi : Injection x t i)
    (hf : returnType fvar.fn ≠ .ty value) (s : State) :
    evalEff m fvar s i = (injected m t (s.env x.1),
      if injectionAllocates t then s.world.clobber m else s.world) := by
  have hcopy : copyBytes ≠ pairFunction := by decide
  have hfrom : conser "CTYPES_FROM_PTR" (toValue (ptr .void)) ≠ pairFunction := by decide
  cases hi with
  | void => rfl
  | primitive p =>
      rw [evalEff_library hf (returnType_primInj p) (primInj_ne_pairFunction p)]
      rfl
  | pointer t => exact evalEff_library hf rfl hfrom _ s
  | funptr fn => exact evalEff_library hf rfl hfrom _ s
  | struct tag size align fields => exact evalEff_library hf rfl hcopy _ s
  | union utag spec ufields => exact evalEff_library hf rfl hcopy _ s

theorem pairWithErrno_eval (hf : returnType fvar.fn ≠ .ty value) (x : CLocal) (s : State) :
    evalEff m fvar s (pairWithErrno (.clocal x)) =
      runPairWithErrno m [s.env x.1] s.world := by
  have hne : pairFunction ≠ fvar := by
    rintro rfl
    exact hf rfl
  show (if pairFunction = fvar then _ else _) = _
  rw [if_neg hne]
  rfl

end Injection

end CtypesCbuf.Stubs
