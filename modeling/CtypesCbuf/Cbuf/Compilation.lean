import CtypesCbuf.Cbuf.PrintedStubs
import CtypesCbuf.Runtime.Machine

/-!
What a C compiler asks of generated functions: a local has a type that objects
have, what is applied is defined and no parameter or local hides it, and no
structure is declared a second time.
-/

namespace CtypesCbuf.Cbuf.Compilation

open NameSupply Supply
open Ctypes hiding Fn
open CLanguage Stubs GenerateC EmitC
open Ctypes.TypePrinting
open CtypesCbuf.Runtime

/-! ### C programs -/

/-- The functions and macros of the headers that generated files include.
`CTYPES_PTR_OF_FLOAT_ARRAY` is not among them. -/
def headerFunctions : List String :=
  ["ctypes_pair_with_errno", "caml_callbackN", "caml_acquire_runtime_system",
    "caml_release_runtime_system"] ++
    ((libraryTable .plain).map fun q => q.1).erase "CTYPES_PTR_OF_FLOAT_ARRAY"

/-- The program that a generated file becomes part of. -/
structure CProgram where
  views : ViewFormats
  /-- Types that are printed as a C type of the program, by names that no
  parameter or local of the generated code hides. -/
  hasType : Typ → Prop
  /-- Functions and macros besides those of the headers. -/
  functions : String → Prop
  /-- Names that mean nothing yet: they are no keywords, and no header declares or
  defines them. -/
  free : String → Prop
  void : hasType .void
  value : hasType value
  voidPointer : hasType (ptr .void)
  primitive : ∀ p, hasType (.primitive p)
  ocaml : ∀ o, hasType (.ocaml o)

def CProgram.defines (p : CProgram) (fname : String) : Prop :=
  fname ∈ headerFunctions ∨ p.functions fname

def CProgram.hasTy (p : CProgram) : Ty → Prop
  | .ty t => p.hasType t
  | .bufTy _ => False

/-- The type is `void` in C. A view has the C type of what it is over. -/
def IsVoid : Ty → Prop
  | .ty t => t.core = .void
  | .bufTy _ => False

/-- The locals that are declared. One of the type `void` itself is printed as a
statement. -/
def declares : Step → List CLocal
  | .bind (x, _) => if x.2 = .ty .void then [] else [x]
  | _ => []

def declaredNames : Step → List String
  | .const x _ => [x.1]
  | .bind (_, .camlop (.camlLocalN (.clocal a) _)) => [a.1]
  | st => (declares st).map fun x => x.1

/-- What the steps apply is defined, and neither the names in `scope` nor what is
declared up to there hide it. -/
def Applies (p : CProgram) : List String → List Step → Prop
  | _, [] => True
  | scope, st :: sts =>
      (∀ f ∈ st.functions, p.defines f.fname ∧ f.fname ∉ scope ++ declaredNames st) ∧
        Applies p (scope ++ declaredNames st) sts

/-- `(void)` is printed for a single parameter of the type `void`. No other
parameter may have this type in C. -/
def ParameterList (params : List (String × Ty)) : Prop :=
  params.map (fun q => q.2) = [.ty .void] ∨ ∀ q ∈ params, ¬ IsVoid q.2

/-- `return;` is printed for the type `void` itself. C wants it in the functions
that return nothing, and there only. -/
def Returns (d : CFundef) : Prop :=
  ∀ ty e, .ret ty e ∈ d.body.steps → (ty = .ty .void ↔ IsVoid d.dec.ret)

/-- A C compiler accepts the function. -/
structure Compiles (p : CProgram) (d : CFundef) : Prop where
  parameters : ParameterList d.dec.params
  signature : (∀ q ∈ d.dec.params, p.hasTy q.2) ∧ p.hasTy d.dec.ret
  locals : ∀ st ∈ d.body.steps, ∀ x ∈ declares st, p.hasTy x.2 ∧ ¬ IsVoid x.2
  applies : Applies p (d.dec.params.map fun q => q.1) d.body.steps
  returns : Returns d
  tags : NamesByTag p.views d

/-! ### Scopes -/

section Scopes

variable {p : CProgram} {scope : List String} {st : Step} {sts sts' : List Step}

theorem applies_append : Applies p scope (sts ++ sts') ↔
    Applies p scope sts ∧ Applies p (scope ++ sts.flatMap declaredNames) sts' := by
  induction sts generalizing scope with
  | nil => simp [Applies]
  | cons st sts ih =>
      rw [List.cons_append, Applies, ih, Applies, List.flatMap_cons, and_assoc,
        List.append_assoc]

/-- Names that no local has are not hidden. -/
theorem applies_of_not_hidden
    (h : ∀ st ∈ sts, ∀ f ∈ st.functions, f.fname ∉ scope ++ sts.flatMap declaredNames) :
    Applies p scope sts ↔ ∀ st ∈ sts, ∀ f ∈ st.functions, p.defines f.fname := by
  induction sts generalizing scope with
  | nil => simp [Applies]
  | cons st sts ih =>
      have hrest : ∀ st' ∈ sts, ∀ f ∈ st'.functions,
          f.fname ∉ scope ++ declaredNames st ++ sts.flatMap declaredNames := by
        intro st' hst' f hf
        rw [List.append_assoc]
        exact h st' (List.mem_cons_of_mem st hst') f hf
      have hself : ∀ f ∈ st.functions, f.fname ∉ scope ++ declaredNames st := by
        intro f hf hmem
        refine h st List.mem_cons_self f hf ?_
        rw [List.flatMap_cons, ← List.append_assoc]
        exact List.mem_append_left _ hmem
      rw [Applies, ih hrest, List.forall_mem_cons]
      exact and_congr_left' (forall₂_congr fun f hf => and_iff_left (hself f hf))

end Scopes

/-- Names that generated locals have. -/
def LocalName (x : String) : Prop := (∃ j, x = freshName j) ∨ x = "nargs" ∨ x = "locals"

theorem not_localName {x : String} (hx : x.toList.head? ≠ some 'x')
    (hne : x ≠ "nargs" ∧ x ≠ "locals") : ¬ LocalName x := by
  rintro (⟨j, hj⟩ | h | h)
  · exact ne_freshName hx j hj
  · exact hne.1 h
  · exact hne.2 h

theorem headerFunctions_not_localName {x : String} (h : x ∈ headerFunctions) :
    ¬ LocalName x := by
  have hall : ∀ y ∈ headerFunctions,
      y.toList.head? ≠ some 'x' ∧ y ≠ "nargs" ∧ y ≠ "locals" := by decide
  exact not_localName (hall x h).1 (hall x h).2

/-! ### Projections -/

def floatArrayMacro : String := "CTYPES_PTR_OF_FLOAT_ARRAY"

/-- The projection of the type is code that compiles. A primitive is bound at the
type that its reader returns. -/
def Projects (p : CProgram) (t : Typ) : Prop :=
  match t.core with
  | .void | .primitive _ => True
  | .ocaml .floatArray => p.hasType t ∧ p.functions floatArrayMacro
  | _ => p.hasType t

def drawnNames (t : Typ) : Nat :=
  match t.core with
  | .void => 0
  | .primitive _ | .struct _ _ _ | .union _ _ _ => 3
  | _ => 1

def declaredNumbers (t : Typ) : List Nat :=
  match t.core with
  | .void => []
  | .struct _ _ _ | .union _ _ _ => [1, 3]
  | _ => [1]

/-- One projection behind the other, when `n` names are drawn. -/
def localNumbers : List Typ → Nat → List Nat
  | [], _ => []
  | t :: ts, n => (declaredNumbers t).map (n + ·) ++ localNumbers ts (n + drawnNames t)

/-- The declarations and the functions of a binding. -/
def BindCompiles (p : CProgram) (b : CBind) : Prop :=
  (∀ x ∈ declares (.bind b), p.hasTy x.2 ∧ ¬ IsVoid x.2) ∧ ∀ f ∈ b.2.functions, p.defines f.fname

theorem defines_of_header (p : CProgram) {x : String} (h : x ∈ headerFunctions) : p.defines x :=
  .inl h

theorem primPrj_header (q : Prim) : (primPrj q).fname ∈ headerFunctions := by
  cases q <;> decide

theorem primInj_header (q : Prim) : (primInj q).fname ∈ headerFunctions := by
  cases q <;> decide

theorem defines_floatArray (p : CProgram) :
    p.defines floatArrayMacro ↔ p.functions floatArrayMacro := by
  rw [CProgram.defines, or_iff_right (by decide)]

section Projections

variable {p : CProgram} {t : Typ}

/-- A declared local. -/
theorem bindCompiles_iff {y : String} {u : Typ} {e : CEff} (hu : u.core ≠ .void) :
    BindCompiles p ((y, .ty u), e) ↔ p.hasType u ∧ ∀ f ∈ e.functions, p.defines f.fname := by
  have hne : Ty.ty u ≠ .ty .void := by
    intro h
    cases h
    exact hu rfl
  rw [BindCompiles, declares, if_neg hne]
  simp [CProgram.hasTy, IsVoid, hu]

theorem projected_compiles (ht : Projectable t.core) (x : String) (n : Nat) :
    (∀ b ∈ (projected t (Stubs.valueLocal x) n).binds, BindCompiles p b) ↔ Projects p t := by
  have hvoid : t.core ≠ .void := by
    intro h
    rw [h] at ht
    exact ht
  have hptr : (ptr .void).core ≠ .void := by simp [ptr, Typ.core]
  have hfatptr : ∀ f ∈ (ofFatptr (Stubs.valueLocal x)).functions, p.defines f.fname := by
    intro f hf
    obtain rfl := List.mem_singleton.mp hf
    exact defines_of_header p (by decide)
  have hscalar : BindCompiles p ((freshName (n + 1), .ty t), ofFatptr (Stubs.valueLocal x)) ↔
      p.hasType t := (bindCompiles_iff hvoid).trans (and_iff_left hfatptr)
  have haggregate : ∀ y : CLocal, (BindCompiles p ((freshName (n + 1), .ty (ptr .void)),
        ofFatptr (Stubs.valueLocal x)) ∧
      BindCompiles p ((freshName (n + 3), .ty t), .deref (.cast (.ty (ptr t)) (.clocal y)))) ↔
      p.hasType t := by
    intro y
    rw [bindCompiles_iff hvoid, bindCompiles_iff hptr, and_iff_left hfatptr,
      and_iff_right p.voidPointer]
    exact and_iff_left fun f hf => absurd hf List.not_mem_nil
  rw [projected, Projects]
  cases hcore : t.core with
  | primitive q =>
      refine iff_of_true (List.forall_mem_singleton.mpr ?_) trivial
      refine (bindCompiles_iff (by simp [Typ.core])).mpr ⟨p.primitive _, fun f hf => ?_⟩
      obtain rfl := List.mem_singleton.mp hf
      exact defines_of_header p (primPrj_header q)
  | pointer u => simpa [Projected.ofCore] using hscalar
  | funptr fn => simpa [Projected.ofCore] using hscalar
  | struct tag spec fields => simpa [Projected.ofCore] using haggregate _
  | union utag uspec ufields => simpa [Projected.ofCore] using haggregate _
  | ocaml o =>
      refine List.forall_mem_singleton.trans ((bindCompiles_iff hvoid).trans ?_)
      cases o with
      | floatArray =>
          exact and_congr_right' (List.forall_mem_singleton.trans (defines_floatArray p))
      | _ =>
          refine and_iff_left fun f hf => ?_
          obtain rfl := List.mem_singleton.mp hf
          exact defines_of_header p (by decide)
  | _ => simp [hcore, Projectable] at ht

theorem projected_declares (ht : Projectable t.core) (x : String) (n : Nat) :
    ((projected t (Stubs.valueLocal x) n).binds.map .bind).flatMap declaredNames =
        (declaredNumbers t).map (fun j => freshName (n + j)) ∧
      (projected t (Stubs.valueLocal x) n).next = n + drawnNames t := by
  have hne : Ty.ty t ≠ .ty .void := by
    rintro h
    cases h
    exact ht
  rw [projected, declaredNumbers, drawnNames]
  cases hcore : t.core with
  | ocaml o =>
      cases o <;> simp [Projected.ofCore, declaredNames, declares, hne, ocamlToPtr, stringToPtr,
        bytesToPtr, floatArrayToPtr]
  | primitive q => simp [Projected.ofCore, declaredNames, declares]
  | pointer u => simp [Projected.ofCore, declaredNames, declares, hne, ofFatptr]
  | funptr fn => simp [Projected.ofCore, declaredNames, declares, hne, ofFatptr]
  | struct tag spec fields =>
      simp [Projected.ofCore, declaredNames, declares, hne, ofFatptr, ptr]
  | union utag uspec ufields =>
      simp [Projected.ofCore, declaredNames, declares, hne, ofFatptr, ptr]
  | _ => simp [hcore, Projectable] at ht

/-! ### Parameters -/

theorem projectParams_append (ps qs : List (String × Typ)) (n : Nat) :
    (projectParams (ps ++ qs) n).binds =
        (projectParams ps n).binds ++ (projectParams qs (projectParams ps n).next).binds ∧
      (projectParams (ps ++ qs) n).next = (projectParams qs (projectParams ps n).next).next := by
  induction ps generalizing n with
  | nil => exact ⟨rfl, rfl⟩
  | cons q ps ih =>
      obtain ⟨y, u⟩ := q
      rw [List.cons_append, projectParams, projectParams]
      split
      · exact ih n
      · obtain ⟨hbinds, hnext⟩ := ih (projected u (Stubs.valueLocal y) n).next
        exact ⟨by simp only [hbinds, List.append_assoc], hnext⟩

theorem projectParams_compiles {ps : List (String × Typ)} (hps : ∀ q ∈ ps, Passed q.2)
    (n : Nat) :
    (∀ b ∈ (projectParams ps n).binds, BindCompiles p b) ↔ ∀ q ∈ ps, Projects p q.2 := by
  induction ps generalizing n with
  | nil => simp [projectParams]
  | cons q ps ih =>
      obtain ⟨y, u⟩ := q
      obtain ⟨hu, hps⟩ := List.forall_mem_cons.mp hps
      rw [projectParams, List.forall_mem_cons]
      split
      · next hv =>
          rw [ih hps, and_iff_right]
          simp [Projects, hv]
      · next hv =>
          rw [List.forall_mem_append, ih hps, projected_compiles (hu.resolve_left hv)]

theorem projectParams_declares {ps : List (String × Typ)} (hps : ∀ q ∈ ps, Passed q.2)
    (n : Nat) :
    ((projectParams ps n).binds.map .bind).flatMap declaredNames =
        (localNumbers (ps.map Prod.snd) n).map freshName ∧
      (projectParams ps n).next = n + (ps.map fun q => drawnNames q.2).sum := by
  induction ps generalizing n with
  | nil => simp [projectParams, localNumbers]
  | cons q ps ih =>
      obtain ⟨y, u⟩ := q
      obtain ⟨hu, hps⟩ := List.forall_mem_cons.mp hps
      rw [projectParams, List.map_cons, List.map_cons, List.sum_cons, localNumbers]
      split
      · next hv => simpa [declaredNumbers, drawnNames, hv] using ih hps n
      · next hv =>
          obtain ⟨hnames, hnext⟩ := projected_declares (hu.resolve_left hv) y n
          obtain ⟨hrest, hlast⟩ := ih hps (n + drawnNames u)
          dsimp only
          rw [hnext, List.map_append, List.flatMap_append, hnames, hrest, hlast]
          exact ⟨by simp [Function.comp_def], Nat.add_assoc n _ _⟩

end Projections

end CtypesCbuf.Cbuf.Compilation
