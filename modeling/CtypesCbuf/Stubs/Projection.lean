import Mathlib.Data.Int.Lemmas
import CtypesCbuf.CLanguage.Steps

/-!
Projection of OCaml values into C and injection of C values into OCaml, the
part of `Cbuf_generate_c` and `Cstubs_generate_c` that the two share.

`prj` builds code that `>>=` then takes apart again. `projected` describes
what is left of it in a finished stub: the lets it adds, the expression that
stands for the parameter from then on, and the number of names drawn.
-/

namespace CtypesCbuf.Stubs

open NameSupply Supply
open Ctypes hiding Fn
open Cbuf CLanguage

def valueLocal (x : String) : CExp := .clocal (x, .ty value)

def argv : CLocal := ("argv", .ty (ptr value))

def argc : CLocal := ("argc", .ty int)

def unpassable (what : String) : Exn :=
  .unsupported ("cstubs does not support passing " ++ what)

def reportUnpassable {α : Type} (what : String) : Except Exn α :=
  .error (unpassable what)

def ofFatptr (x : CExp) : CEff :=
  .app (reader "CTYPES_ADDR_OF_FATPTR" (valueTo (ptr .void))) [x]

def pairWithErrno (x : CExp) : CEff :=
  .app (conser "ctypes_pair_with_errno" (toValue value)) [x]

def stringToPtr (x : CExp) : CEff :=
  .app (reader "CTYPES_PTR_OF_OCAML_STRING" (valueTo (ptr .void))) [x]

def bytesToPtr (x : CExp) : CEff :=
  .app (reader "CTYPES_PTR_OF_OCAML_BYTES" (valueTo (ptr .void))) [x]

def floatArrayToPtr (x : CExp) : CEff :=
  .app (reader "CTYPES_PTR_OF_FLOAT_ARRAY" (valueTo (ptr .void))) [x]

def ocamlToPtr : OcamlType → CExp → CEff
  | .string => stringToPtr
  | .bytes => bytesToPtr
  | .floatArray => floatArrayToPtr

def fromPtr (x : CExp) : CEff :=
  .app (conser "CTYPES_FROM_PTR" (toValue (ptr .void))) [x]

def voidToVoid : Cbuf.Fn := .function .void (.returns .void)

def acquireFunction : CFunction := conser "caml_acquire_runtime_system" voidToVoid

def releaseFunction : CFunction := conser "caml_release_runtime_system" voidToVoid

def acquireRuntimeSystem : CEff := .app acquireFunction []

def releaseRuntimeSystem : CEff := .app releaseFunction []

def valUnit : CEff :=
  .global { name := "Val_unit", referencesOcamlHeap := true, typ := .ty value }

def errno : CGlobal :=
  { name := "errno", referencesOcamlHeap := false, typ := .ty sint }

def copyBytes : CFunction :=
  { fname := "ctypes_copy_bytes", allocates := true, readsOcamlHeap := true
    fn := .function (ptr .void) (.function (.primitive .sizeT) (.returns value)) }

/-- `Signed.SInt.of_int`, which keeps 32 bits. -/
def sintOfInt (i : Int) : Int := i.bmod (2 ^ 32)

def cast (source into : Ty) (e : CComp) : Gen CComp :=
  match source with
  | .ty source => letBind e source fun x => pure (.eff (.exp (.cast into x)))
  | .bufTy _ => fail .matchFailure

def prjOrig (orig : Typ) (x : CExp) : Typ → Gen (Option CComp)
  | .void => return none
  | .primitive p => do
      return some (← cast (returnType (primPrj p).fn) (.ty (.primitive p))
        (.eff (.app (primPrj p) [x])))
  | .pointer _ => return some (.eff (ofFatptr x))
  | .funptr _ => return some (.eff (ofFatptr x))
  | .struct _ _ _ => do
      return some (← letBind (.eff (ofFatptr x)) (ptr .void) fun y =>
        pure (.eff (.deref (.cast (.ty (ptr orig)) y))))
  | .union _ _ _ => do
      return some (← letBind (.eff (ofFatptr x)) (ptr .void) fun y =>
        pure (.eff (.deref (.cast (.ty (ptr orig)) y))))
  | .abstract _ => lift (reportUnpassable "values of abstract type")
  | .view _ ty => prjOrig orig x ty
  | .array _ _ => lift (reportUnpassable "arrays")
  | .bigarray _ => lift (reportUnpassable "bigarrays")
  | .ocaml .string => return some (.eff (stringToPtr x))
  | .ocaml .bytes => return some (.eff (bytesToPtr x))
  | .ocaml .floatArray => return some (.eff (floatArrayToPtr x))

def prj (ty : Typ) (x : CExp) : Gen (Option CComp) := prjOrig ty x ty

def inj (x : CLocal) : Typ → Except Exn CEff
  | .void => .ok valUnit
  | .primitive p => .ok (.app (primInj p) [.cast (.ty (.primitive p)) (.clocal x)])
  | .pointer _ => .ok (fromPtr (.clocal x))
  | .funptr _ => .ok (fromPtr (.clocal x))
  | .struct tag spec fields => do
      let size ← sizeof (.struct tag spec fields)
      return .app copyBytes [.addr (.clocal x), .int (sintOfInt size)]
  | .union utag uspec ufields => do
      let size ← sizeof (.union utag uspec ufields)
      return .app copyBytes [.addr (.clocal x), .int (sintOfInt size)]
  | .abstract _ => reportUnpassable "values of abstract type"
  | .view _ ty => inj x ty
  | .array _ _ => reportUnpassable "arrays"
  | .bigarray _ => reportUnpassable "bigarrays"
  | .ocaml _ => reportUnpassable "ocaml references as return values"

/-- `build_call`. The number of arguments is far below the range of `sint`. -/
def buildCall (f : CFunction) : List CExp → Nat → Gen CComp
  | args, 0 => return .eff (.app f args)
  | args, n + 1 =>
      letBind (.eff (.index (.exp (.clocal argv)) (.int n))) value fun x =>
        buildCall f (x :: args) n

def byteFn (fname : String) (fn : Cbuf.Fn) (nargs : Nat) : Gen CFundef := do
  let f : CFunction := { fname, allocates := true, readsOcamlHeap := true, fn }
  let c ← buildCall f [] nargs
  return { dec := { name := byteName fname nargs, params := [argv, argc]
                    ret := .ty value }
           body := c
           storage := .external }

/-- The end of both functions `fn`: the stub they print, and the bytecode
function after it when there is one. -/
def withByteFn (f : Cbuf.Fn) (dec : CFundef) : Gen (List CFundef) := do
  let nargs := dec.dec.params.length
  if nargs > maxByteArgs then
    let byte ← byteFn dec.dec.name f nargs
    return [dec, byte]
  else
    return [dec]

/-! ### What projections and injections build -/

/-- Both functions look through views. -/
theorem prjOrig_core (orig : Typ) (x : CExp) (ty : Typ) :
    prjOrig orig x ty.core = prjOrig orig x ty := by
  induction ty using Typ.core.induct with
  | case1 v ty ih =>
      simpa only [Typ.core_view, prjOrig] using ih
  | case2 t h =>
      rw [Typ.core]
      exact h

theorem inj_core (x : CLocal) (ty : Typ) : inj x ty.core = inj x ty := by
  induction ty using Typ.core.induct with
  | case1 v ty ih =>
      simpa only [Typ.core_view, inj] using ih
  | case2 t h =>
      rw [Typ.core]
      exact h

/-- What a projected parameter adds to a stub. -/
structure Projected where
  binds : List CBind
  arg : CExp
  next : Nat

/-- The lets that a projection leaves behind when `n` names are drawn, for a
type with core `core`. -/
def Projected.ofCore (f : Typ) (x : CExp) (n : Nat) (core : Typ) : Projected :=
  match core with
  | .primitive p =>
      let a : CLocal := (freshName (n + 1), .ty (.primitive (primPrjResult p)))
      { binds := [(a, .app (primPrj p) [x])]
        arg := .cast (.ty (.primitive p)) (.clocal a)
        next := n + 3 }
  | .struct _ _ _ | .union _ _ _ =>
      let a : CLocal := (freshName (n + 1), .ty (ptr .void))
      let s : CLocal := (freshName (n + 3), .ty f)
      { binds := [(a, ofFatptr x), (s, .deref (.cast (.ty (ptr f)) (.clocal a)))]
        arg := .clocal s
        next := n + 3 }
  | .ocaml o =>
      let a : CLocal := (freshName (n + 1), .ty f)
      { binds := [(a, ocamlToPtr o x)], arg := .clocal a, next := n + 1 }
  | _ =>
      let a : CLocal := (freshName (n + 1), .ty f)
      { binds := [(a, ofFatptr x)], arg := .clocal a, next := n + 1 }

def projected (f : Typ) (x : CExp) (n : Nat) : Projected :=
  Projected.ofCore f x n f.core

def Projectable : Typ → Prop
  | .primitive _ | .pointer _ | .funptr _ | .struct _ _ _ | .union _ _ _
  | .ocaml _ => True
  | _ => False

instance (t : Typ) : Decidable (Projectable t) := by
  cases t <;> simp only [Projectable] <;> infer_instance

/-- Whether a parameter of the type is passed to C, is left out, or stops the
generator. -/
theorem prj_cases (f : Typ) (x : CExp) (n : Nat) :
    (f.core = .void ∧ prj f x n = .ok (none, n)) ∨
    (f.core ≠ .void ∧ ¬ Projectable f.core ∧
      ∃ msg, prj f x n = .error (.unsupported msg)) ∨
    (Projectable f.core ∧ ∃ c n', prj f x n = .ok (some c, n') ∧
      ∀ k, letBind c f k n' =
        letsAround (projected f x n).binds (k (projected f x n).arg)
          (projected f x n).next) := by
  have hcore := prjOrig_core f x f
  rw [prj, projected, ← hcore]
  cases hf : f.core with
  | void => exact .inl ⟨rfl, rfl⟩
  | view v ty => exact absurd hf (Typ.core_ne_view f v ty)
  | abstract a => exact .inr (.inl ⟨by simp, by simp [Projectable], _, rfl⟩)
  | array t m => exact .inr (.inl ⟨by simp, by simp [Projectable], _, rfl⟩)
  | bigarray ba => exact .inr (.inl ⟨by simp, by simp [Projectable], _, rfl⟩)
  | primitive p =>
      have hprj : prjOrig f x (.primitive p) n =
          .ok (some (.letIn ((freshName (n + 1), .ty (.primitive (primPrjResult p))),
            .app (primPrj p) [x]) (.eff (.exp (.cast (.ty (.primitive p))
              (.clocal (freshName (n + 1), .ty (.primitive (primPrjResult p)))))))),
            n + 1) := by
        rw [prjOrig, returnType_primPrj]
        rfl
      refine .inr (.inr ⟨trivial, _, _, hprj, fun k => ?_⟩)
      rw [letBind_letIn rfl]
      rfl
  | pointer t => exact .inr (.inr ⟨trivial, _, n, rfl, fun k => rfl⟩)
  | funptr fn => exact .inr (.inr ⟨trivial, _, n, rfl, fun k => rfl⟩)
  | struct tag spec fields =>
      refine .inr (.inr ⟨trivial, _, n + 1, rfl, fun k => ?_⟩)
      rw [letBind_letIn rfl]
      exact letsAround_of_eq rfl
  | union utag uspec ufields =>
      refine .inr (.inr ⟨trivial, _, n + 1, rfl, fun k => ?_⟩)
      rw [letBind_letIn rfl]
      exact letsAround_of_eq rfl
  | ocaml o =>
      cases o <;> exact .inr (.inr ⟨trivial, _, n, rfl, fun k => rfl⟩)

def Passed (t : Typ) : Prop := t.core = .void ∨ Projectable t.core

instance (t : Typ) : Decidable (Passed t) := by
  unfold Passed
  infer_instance

theorem prj_passed {f : Typ} (h : Passed f) (x : CExp) (n : Nat) :
    (f.core = .void ∧ prj f x n = .ok (none, n)) ∨
    (f.core ≠ .void ∧ ∃ c n', prj f x n = .ok (some c, n') ∧
      ∀ k, letBind c f k n' =
        letsAround (projected f x n).binds (k (projected f x n).arg)
          (projected f x n).next) := by
  rcases prj_cases f x n with hv | ⟨hv, hp, -⟩ | ⟨hp, hc⟩
  · exact .inl hv
  · exact (h.elim hv hp).elim
  · refine .inr ⟨fun hv => ?_, hc⟩
    rw [hv] at hp
    exact hp

theorem prj_not_passed {f : Typ} (h : ¬ Passed f) (x : CExp) (n : Nat) :
    ∃ e, prj f x n = .error e := by
  rcases prj_cases f x n with ⟨hv, -⟩ | ⟨-, -, msg, hm⟩ | ⟨hp, -⟩
  · exact absurd (.inl hv) h
  · exact ⟨_, hm⟩
  · exact absurd (.inr hp) h

def Injectable : Typ → Prop
  | .void | .primitive _ | .pointer _ | .funptr _ | .struct _ (.complete _ _) _
  | .union _ (some _) _ => True
  | _ => False

instance (t : Typ) : Decidable (Injectable t) := by
  unfold Injectable
  split <;> infer_instance

/-- The injection of each type with one, views looked through. -/
inductive Injection (x : CLocal) : Typ → CEff → Prop
  | void : Injection x .void valUnit
  | primitive (p : Prim) : Injection x (.primitive p)
      (.app (primInj p) [.cast (.ty (.primitive p)) (.clocal x)])
  | pointer (t : Typ) : Injection x (.pointer t) (fromPtr (.clocal x))
  | funptr (fn : Ctypes.Fn) : Injection x (.funptr fn) (fromPtr (.clocal x))
  | struct (tag : String) (size align : Nat) (fields : Fields) :
      Injection x (.struct tag (.complete size align) fields)
        (.app copyBytes [.addr (.clocal x), .int (sintOfInt size)])
  | union (utag : String) (spec : StructuredSpec) (ufields : Fields) :
      Injection x (.union utag (some spec) ufields)
        (.app copyBytes [.addr (.clocal x), .int (sintOfInt spec.size)])

theorem inj_cases (x : CLocal) (t : Typ) :
    (Injectable t.core ∧ ∃ i, inj x t = .ok i ∧ Injection x t.core i) ∨
    (¬ Injectable t.core ∧ ∃ e, inj x t = .error e) := by
  rw [← inj_core x t]
  cases ht : t.core with
  | void => exact .inl ⟨trivial, _, rfl, .void⟩
  | primitive p => exact .inl ⟨trivial, _, rfl, .primitive p⟩
  | pointer u => exact .inl ⟨trivial, _, rfl, .pointer u⟩
  | funptr fn => exact .inl ⟨trivial, _, rfl, .funptr fn⟩
  | struct tag spec fields =>
      cases spec with
      | incomplete isize => exact .inr ⟨id, _, rfl⟩
      | complete size align => exact .inl ⟨trivial, _, rfl, .struct tag size align fields⟩
  | union utag uspec ufields =>
      cases uspec with
      | none => exact .inr ⟨id, _, rfl⟩
      | some spec => exact .inl ⟨trivial, _, rfl, .union utag spec ufields⟩
  | view v ty => exact absurd ht (Typ.core_ne_view t v ty)
  | abstract a => exact .inr ⟨id, _, rfl⟩
  | array u n => exact .inr ⟨id, _, rfl⟩
  | bigarray ba => exact .inr ⟨id, _, rfl⟩
  | ocaml o => exact .inr ⟨id, _, rfl⟩

theorem inj_injection {x : CLocal} {t : Typ} {i : CEff} (h : inj x t = .ok i) :
    Injection x t.core i := by
  rcases inj_cases x t with ⟨-, j, hj, hi⟩ | ⟨-, e, he⟩
  · obtain rfl : j = i := by simpa [hj] using h
    exact hi
  · rw [he] at h
    cases h

section Injection

variable {x : CLocal} {t : Typ} {i : CEff}

theorem Injection.ne_exp (h : Injection x t i) (v : CExp) : i ≠ .exp v := by
  cases h <;> simp [valUnit, fromPtr]

theorem Injection.typeEff (h : Injection x t i) : typeEff i = .ok (.ty value) := by
  cases h with
  | primitive p => simp [CLanguage.typeEff]
  | _ => rfl

/-- An injection reads the local it is given and no other. -/
theorem Injection.locals (h : Injection x t i) : ∀ l ∈ i.locals, l = x := by
  cases h <;> simp [valUnit, fromPtr, CEff.locals, CExp.locals, CVar.locals]

/-- What an injection applies returns a `value`. -/
theorem Injection.functions (h : Injection x t i) :
    ∀ f ∈ i.functions, returnType f.fn = .ty value := by
  cases h <;> simp [valUnit, fromPtr, CEff.functions, conser, copyBytes, toValue,
    returnType]

end Injection

/-! ### What the lets of a projection do -/

/-- Lets that bind names drawn between two counts and only read the OCaml
heap. -/
structure ReadingBinds (lo hi : Nat) (bs : List CBind) : Prop where
  names : FreshNames lo hi (bs.map fun b => b.1.1)
  readers : ∀ b ∈ bs, ∀ f ∈ b.2.functions,
    f.allocates = false ∧ f.readsOcamlHeap = true

theorem ReadingBinds.nil (n : Nat) : ReadingBinds n n [] :=
  ⟨FreshNames.nil n, by simp⟩

theorem ReadingBinds.append {lo mid hi : Nat} {bs bs' : List CBind}
    (h : ReadingBinds lo mid bs) (h' : ReadingBinds mid hi bs') :
    ReadingBinds lo hi (bs ++ bs') := by
  refine ⟨?_, ?_⟩
  · rw [List.map_append]
    exact h.names.append h'.names
  · intro b hb
    rcases List.mem_append.mp hb with hb | hb
    · exact h.readers b hb
    · exact h'.readers b hb

theorem projected_reads (f : Typ) (x : CExp) (n : Nat) :
    ReadingBinds n (projected f x n).next (projected f x n).binds := by
  have hfresh : ∀ i j, n < i → i ≤ j → FreshNames n j [freshName i] :=
    fun i j => FreshNames.single i
  rw [projected]
  cases f.core with
  | primitive p =>
      refine ⟨hfresh (n + 1) (n + 3) (by omega) (by omega), ?_⟩
      intro b hb g hg
      obtain rfl := List.mem_singleton.mp hb
      obtain rfl := List.mem_singleton.mp hg
      exact ⟨primPrj_allocates p, primPrj_readsOcamlHeap p⟩
  | struct tag spec fields =>
      refine ⟨?_, by simp [Projected.ofCore, ofFatptr, CEff.functions, reader]⟩
      exact (hfresh (n + 1) (n + 1) (by omega) (by omega)).append
        (FreshNames.single (n + 3) (by omega) (Nat.le_refl _))
  | union utag uspec ufields =>
      refine ⟨?_, by simp [Projected.ofCore, ofFatptr, CEff.functions, reader]⟩
      exact (hfresh (n + 1) (n + 1) (by omega) (by omega)).append
        (FreshNames.single (n + 3) (by omega) (Nat.le_refl _))
  | ocaml o =>
      refine ⟨hfresh _ _ (by omega) (Nat.le_refl _), ?_⟩
      cases o <;> simp [Projected.ofCore, ocamlToPtr, stringToPtr, bytesToPtr,
        floatArrayToPtr, CEff.functions, reader]
  | _ =>
      refine ⟨hfresh _ _ (by omega) (Nat.le_refl _), ?_⟩
      simp [Projected.ofCore, ofFatptr, CEff.functions, reader]

/-- The projected parameter is a local that the lets bind. -/
theorem projected_arg_locals (f : Typ) (x : CExp) (n : Nat) :
    ∀ l ∈ (projected f x n).arg.locals,
      l ∈ (projected f x n).binds.map fun b => b.1 := by
  rw [projected]
  cases f.core <;> simp [Projected.ofCore, CExp.locals]

/-! ### Bytecode functions -/

/-- The lets of `build_call` for `k` arguments: the last one is read first. -/
def argvBinds : Nat → Nat → List CBind
  | 0, _ => []
  | k + 1, n =>
      ((freshName (n + 1), .ty value), .index (.exp (.clocal argv)) (.int k)) ::
        argvBinds k (n + 1)

/-- The arguments of `build_call`, from the first to the last. -/
def argvArgs : Nat → Nat → List CExp
  | 0, _ => []
  | k + 1, n => argvArgs k (n + 1) ++ [valueLocal (freshName (n + 1))]

theorem buildCall_eq (f : CFunction) (args : List CExp) (k n : Nat) :
    buildCall f args k n =
      .ok (CComp.lets (argvBinds k n) (.eff (.app f (argvArgs k n ++ args))), n + k) := by
  induction k generalizing args n with
  | zero => rfl
  | succ k ih =>
      rw [buildCall, letBind_eff (by simp), letsAround_eq_ok]
      refine ⟨_, ?_, rfl⟩
      rw [ih, argvArgs, List.append_assoc, Nat.succ_add_eq_add_succ]
      rfl

theorem argvArgs_length (k n : Nat) : (argvArgs k n).length = k := by
  induction k generalizing n with
  | zero => rfl
  | succ k ih => rw [argvArgs, List.length_append, ih]; rfl

/-- Argument `i` stands for `argv[i]`. -/
theorem argvArgs_getElem? {k i : Nat} (n : Nat) (hi : i < k) :
    ∃ x, (argvArgs k n)[i]? = some (.clocal x) ∧
      (x, .index (.exp (.clocal argv)) (.int i)) ∈ argvBinds k n := by
  induction k generalizing n with
  | zero => omega
  | succ k ih =>
      rw [argvArgs, argvBinds]
      rcases Nat.lt_or_ge i k with hik | hik
      · obtain ⟨x, hx, hb⟩ := ih (n + 1) hik
        refine ⟨x, ?_, List.mem_cons_of_mem _ hb⟩
        rw [List.getElem?_append_left (by rw [argvArgs_length]; exact hik), hx]
      · obtain rfl : i = k := by omega
        refine ⟨(freshName (n + 1), .ty value), ?_, List.mem_cons_self⟩
        rw [List.getElem?_append_right (Nat.le_of_eq (argvArgs_length _ _)), argvArgs_length]
        simp [valueLocal]

/-- The bytecode function of `fname` for `nargs` arguments. -/
def byteDef (fname : String) (fn : Cbuf.Fn) (nargs n : Nat) : CFundef :=
  { dec := { name := byteName fname nargs, params := [argv, argc], ret := .ty value }
    body := CComp.lets (argvBinds nargs n)
      (.eff (.app { fname, allocates := true, readsOcamlHeap := true, fn }
        (argvArgs nargs n)))
    storage := .external }

theorem byteFn_eq (fname : String) (fn : Cbuf.Fn) (nargs n : Nat) :
    byteFn fname fn nargs n = .ok (byteDef fname fn nargs n, n + nargs) := by
  rw [byteFn, bind_of_ok (buildCall_eq _ _ _ _), List.append_nil]
  rfl

/-- A bytecode function is printed exactly when there are more than five
parameters. -/
theorem withByteFn_eq (f : Cbuf.Fn) (dec : CFundef) (n : Nat) :
    ∃ n', withByteFn f dec n = .ok
      (if dec.dec.params.length > maxByteArgs then
        [dec, byteDef dec.dec.name f dec.dec.params.length n] else [dec], n') := by
  rw [withByteFn]
  split
  · refine ⟨n + dec.dec.params.length, ?_⟩
    rw [bind_of_ok (byteFn_eq _ _ _ _)]
    rfl
  · exact ⟨n, rfl⟩

/-! ### Lists of parameters -/

/-- The lets of a list of parameters, the arguments they stand for and the
count of names. -/
structure ParamLayout where
  binds : List CBind
  args : List CExp
  next : Nat

def projectParams : List (String × Typ) → Nat → ParamLayout
  | [], n => ⟨[], [], n⟩
  | (x, f) :: ps, n =>
      if f.core = .void then projectParams ps n
      else
        let p := projected f (valueLocal x) n
        let l := projectParams ps p.next
        ⟨p.binds ++ l.binds, p.arg :: l.args, l.next⟩

theorem projectParams_reads (ps : List (String × Typ)) (n : Nat) :
    ReadingBinds n (projectParams ps n).next (projectParams ps n).binds := by
  induction ps generalizing n with
  | nil => exact ReadingBinds.nil n
  | cons p ps ih =>
      obtain ⟨x, f⟩ := p
      rw [projectParams]
      split
      · exact ih n
      · exact (projected_reads f (valueLocal x) n).append (ih _)

theorem projectParams_locals (ps : List (String × Typ)) (n : Nat) :
    ∀ e ∈ (projectParams ps n).args, ∀ l ∈ e.locals,
      l ∈ (projectParams ps n).binds.map fun b => b.1 := by
  induction ps generalizing n with
  | nil => simp [projectParams]
  | cons p ps ih =>
      obtain ⟨x, f⟩ := p
      rw [projectParams]
      split
      · exact ih n
      · intro e he l hl
        rw [List.map_append, List.mem_append]
        rcases List.mem_cons.mp he with rfl | he
        · exact .inl (projected_arg_locals f (valueLocal x) n l hl)
        · exact .inr (ih _ e he l hl)

/-- The lets of a projection read the parameter or what they have bound. -/
theorem projected_bind_locals (f : Typ) (x : CExp) (n : Nat) :
    ∀ b ∈ (projected f x n).binds, ∀ l ∈ b.2.locals,
      l ∈ x.locals ∨ l ∈ (projected f x n).binds.map fun b => b.1 := by
  rw [projected]
  cases f.core with
  | struct tag spec fields =>
      simp [Projected.ofCore, ofFatptr, CEff.locals, CExp.locals]
      tauto
  | union utag uspec ufields =>
      simp [Projected.ofCore, ofFatptr, CEff.locals, CExp.locals]
      tauto
  | ocaml o =>
      cases o <;> simp [Projected.ofCore, ocamlToPtr, stringToPtr, bytesToPtr,
        floatArrayToPtr, CEff.locals] <;> tauto
  | _ =>
      simp [Projected.ofCore, ofFatptr, CEff.locals]
      tauto

theorem projectParams_bind_locals (ps : List (String × Typ)) (n : Nat) :
    ∀ b ∈ (projectParams ps n).binds, ∀ l ∈ b.2.locals,
      (∃ p ∈ ps, p.2.core ≠ .void ∧ l = (p.1, .ty value)) ∨
        l ∈ (projectParams ps n).binds.map fun b => b.1 := by
  induction ps generalizing n with
  | nil => simp [projectParams]
  | cons p ps ih =>
      obtain ⟨x, f⟩ := p
      rw [projectParams]
      split
      · intro b hb l hl
        rcases ih n b hb l hl with ⟨p, hp, h⟩ | h
        · exact .inl ⟨p, by simp [hp], h⟩
        · exact .inr h
      · rename_i hv
        intro b hb l hl
        rw [List.map_append, List.mem_append]
        rcases List.mem_append.mp hb with hb | hb
        · rcases projected_bind_locals f (valueLocal x) n b hb l hl with h | h
          · exact .inl ⟨(x, f), by simp, hv, List.mem_singleton.mp h⟩
          · exact .inr (.inl h)
        · rcases ih _ b hb l hl with ⟨p, hp, h⟩ | h
          · exact .inl ⟨p, by simp [hp], h⟩
          · exact .inr (.inr h)

/-- Every parameter with something to project is projected. -/
theorem projectParams_mem {ps : List (String × Typ)} {x : String} {t : Typ}
    (h : (x, t) ∈ ps) (ht : t.core ≠ .void) (n : Nat) :
    ∃ m, ∀ b ∈ (projected t (valueLocal x) m).binds, b ∈ (projectParams ps n).binds := by
  induction ps generalizing n with
  | nil => cases h
  | cons p ps ih =>
      obtain ⟨y, f⟩ := p
      rw [projectParams]
      rcases List.mem_cons.mp h with hp | hp
      · cases hp
        rw [if_neg ht]
        exact ⟨n, fun b hb => List.mem_append_left _ hb⟩
      · split
        · exact ih hp n
        · obtain ⟨m, hm⟩ := ih hp (projected f (valueLocal y) n).next
          exact ⟨m, fun b hb => List.mem_append_right _ (hm b hb)⟩

/-- The locals of a projection hold C values. -/
theorem projected_not_value {f : Typ} (hf : Passed f) (hv : f.core ≠ .void)
    (x : CExp) (n : Nat) : ∀ b ∈ (projected f x n).binds, b.1.2 ≠ .ty value := by
  have hvalue : f ≠ value := by
    rintro rfl
    rcases hf with h | h
    · exact hv h
    · exact h
  rw [projected]
  cases f.core <;> simp [Projected.ofCore, hvalue] <;> simp [value, ptr]

theorem projectParams_not_value {ps : List (String × Typ)}
    (h : ∀ p ∈ ps, Passed p.2) (n : Nat) :
    ∀ b ∈ (projectParams ps n).binds, b.1.2 ≠ .ty value := by
  induction ps generalizing n with
  | nil => simp [projectParams]
  | cons p ps ih =>
      obtain ⟨x, f⟩ := p
      have hps : ∀ p ∈ ps, Passed p.2 := fun p hp => h p (by simp [hp])
      rw [projectParams]
      split
      · exact ih hps n
      · rename_i hv
        intro b hb
        rcases List.mem_append.mp hb with hb | hb
        · exact projected_not_value (h (x, f) (by simp)) hv _ n b hb
        · exact ih hps _ b hb

end CtypesCbuf.Stubs
