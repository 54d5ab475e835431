import CtypesCbuf.Ctypes.Static

/-!
Coercions between C types, `Ctypes_coerce`. The values of a type are those of
the OCaml type it stands for, so a pointer carries its reference type along,
whatever the type it is used at.
-/

namespace CtypesCbuf.Ctypes

abbrev Obj := Nat

/-- `Ctypes_ptr.Fat.t`, with reference types in `R`. -/
structure FatPtr (R : Type) where
  reftyp : R
  raw : Int
  managed : Option Obj
  deriving DecidableEq, Repr

def FatPtr.coerce {R S : Type} (p : FatPtr R) (reftyp : S) : FatPtr S :=
  { reftyp, raw := p.raw, managed := p.managed }

/-- The OCaml types that coercions do not look into. -/
structure MlTypes where
  prim : MlPrim → Type
  view : ViewId → Type
  /-- Structures, unions, abstract types, arrays, bigarrays and OCaml values. -/
  other : Typ → Type

section Values

variable (M : MlTypes)

def Typ.Val : Typ → Type
  | .void => Unit
  | .primitive p => M.prim (mlPrim p)
  | .pointer _ => FatPtr Typ
  | .funptr _ => FatPtr Fn
  | .view v _ => M.view v
  | t => M.other t

/-- A value of every type, with the given values for what is not a pointer. -/
def Typ.sample {M : MlTypes} (prim : ∀ p, M.prim p) (view : ∀ v, M.view v)
    (other : ∀ t, M.other t) : (t : Typ) → t.Val M
  | .void => ()
  | .primitive p => prim (mlPrim p)
  | .pointer t => (⟨t, 0, none⟩ : FatPtr Typ)
  | .funptr f => (⟨f, 0, none⟩ : FatPtr Fn)
  | .view v _ => view v
  | .struct tag spec fields => other (.struct tag spec fields)
  | .union utag uspec ufields => other (.union utag uspec ufields)
  | .abstract a => other (.abstract a)
  | .array t n => other (.array t n)
  | .bigarray ba => other (.bigarray ba)
  | .ocaml ty => other (.ocaml ty)

def Fn.Val : Fn → Type
  | .returns t => t.Val M
  | .function f t => f.Val M → t.Val

structure ViewFns where
  read : ∀ (v : ViewId) (ty : Typ), ty.Val M → M.view v
  write : ∀ (v : ViewId) (ty : Typ), M.view v → ty.Val M

end Values

/-- `uncoercible_info`. -/
inductive Uncoercible
  | types (l r : Typ)
  | functions (l r : Fn)
  deriving DecidableEq, Repr

inductive Coercion (A B : Type) : Type
  | id (h : A = B)
  | coercion (f : A → B)

/-- The function of a coercion, as `coerce` and `coerce_fn` return it. -/
def Coercion.apply {A B : Type} : Coercion A B → A → B
  | .id h => cast h
  | .coercion f => f

/-- The coercion of functions, from one of the argument and one of the result. -/
def Coercion.function {A B C D : Type} : Coercion B A → Coercion C D → Coercion (A → C) (B → D)
  | .id hf, .id ht => .id (by rw [hf, ht])
  | .id hf, .coercion h => .coercion fun g x => h (g (cast hf x))
  | .coercion f, .id ht => .coercion fun g x => cast ht (g (f x))
  | .coercion f, .coercion h => .coercion fun g x => h (g (f x))

theorem Coercion.function_apply {A B C D : Type} (f : Coercion B A) (h : Coercion C D)
    (g : A → C) (x : B) : (f.function h).apply g x = h.apply (g (f.apply x)) := by
  cases f with
  | id hf =>
      cases h with
      | id ht =>
          cases hf
          cases ht
          rfl
      | coercion h => rfl
  | coercion f => cases h <;> rfl

section Coercion

variable {M : MlTypes}

def mlPrimCoercion : (l r : MlPrim) → Option (Coercion (M.prim l) (M.prim r))
  | .char, .char => some (.id rfl)
  | .complex, .complex => some (.id rfl)
  | .float, .float => some (.id rfl)
  | .int, .int => some (.id rfl)
  | .int32, .int32 => some (.id rfl)
  | .int64, .int64 => some (.id rfl)
  | .llong, .llong => some (.id rfl)
  | .long, .long => some (.id rfl)
  | .nativeint, .nativeint => some (.id rfl)
  | .sizeT, .sizeT => some (.id rfl)
  | .uchar, .uchar => some (.id rfl)
  | .bool, .bool => some (.id rfl)
  | .uint, .uint => some (.id rfl)
  | .uint16, .uint16 => some (.id rfl)
  | .uint32, .uint32 => some (.id rfl)
  | .uint64, .uint64 => some (.id rfl)
  | .uint8, .uint8 => some (.id rfl)
  | .ullong, .ullong => some (.id rfl)
  | .ulong, .ulong => some (.id rfl)
  | .ushort, .ushort => some (.id rfl)
  | _, _ => none

variable (F : ViewFns M)

mutual
def coercion : (atyp btyp : Typ) → Except Uncoercible (Coercion (atyp.Val M) (btyp.Val M))
  | _, .void => .ok (.coercion fun _ => ())
  | .primitive l, .primitive r =>
      match mlPrimCoercion (mlPrim l) (mlPrim r) with
      | some c => .ok c
      | none => .error (.types (.primitive l) (.primitive r))
  | .view v ty, b =>
      match coercion ty b with
      | .ok (.id h) => .ok (.coercion fun x => cast h (F.write v ty x))
      | .ok (.coercion coerce) => .ok (.coercion fun x => coerce (F.write v ty x))
      | .error e => .error e
  | a, .view v ty =>
      match coercion a ty with
      | .ok (.id h) => .ok (.coercion fun x => F.read v ty (cast h x))
      | .ok (.coercion coerce) => .ok (.coercion fun x => F.read v ty (coerce x))
      | .error e => .error e
  | .pointer a, .pointer b =>
      match coercion a b with
      | .ok (.id _) => .ok (.id rfl)
      | .ok (.coercion _) => .ok (.coercion fun p : FatPtr Typ => p.coerce b)
      -- the exception is caught
      | .error _ => .ok (.coercion fun p : FatPtr Typ => p.coerce b)
  | .pointer _, .funptr b => .ok (.coercion fun p : FatPtr Typ => p.coerce b)
  | .funptr _, .pointer b => .ok (.coercion fun p : FatPtr Fn => p.coerce b)
  | .funptr a, .funptr b =>
      match fnCoercion a b with
      | .ok (.id _) => .ok (.id rfl)
      | .ok (.coercion _) => .ok (.coercion fun p : FatPtr Fn => p.coerce b)
      | .error _ => .ok (.coercion fun p : FatPtr Fn => p.coerce b)
  | l, r => .error (.types l r)
termination_by a b => sizeOf a + sizeOf b
/-- The pair of coercions is built from the right. -/
def fnCoercion : (afn bfn : Fn) → Except Uncoercible (Coercion (afn.Val M) (bfn.Val M))
  | .function af at_, .function bf bt =>
      match fnCoercion at_ bt with
      | .error e => .error e
      | .ok h =>
          match coercion bf af with
          | .error e => .error e
          | .ok f => .ok (f.function h)
  | .returns at_, .returns bt => coercion at_ bt
  | l, r => .error (.functions l r)
termination_by afn bfn => sizeOf afn + sizeOf bfn
end

theorem fnCoercion_returns (a b : Typ) :
    fnCoercion F (.returns a) (.returns b) = coercion F a b := by
  rw [fnCoercion.eq_def]

theorem fnCoercion_function (a b : Typ) (f g : Fn) :
    fnCoercion F (.function a f) (.function b g) = match fnCoercion F f g with
      | .error e => .error e
      | .ok h => match coercion F b a with
        | .error e => .error e
        | .ok f => .ok (f.function h) := by
  rw [fnCoercion.eq_def]

/-- Functions of different arities. -/
theorem fnCoercion_arities (a b : Typ) (f : Fn) :
    fnCoercion F (.function a f) (.returns b) =
        .error (.functions (.function a f) (.returns b)) ∧
      fnCoercion F (.returns b) (.function a f) =
        .error (.functions (.returns b) (.function a f)) := by
  constructor
  · rw [fnCoercion.eq_def]
  · rw [fnCoercion.eq_def]

def coerce (atyp btyp : Typ) : Except Uncoercible (atyp.Val M → btyp.Val M) :=
  (coercion F atyp btyp).map Coercion.apply

def coerceFn (afn bfn : Fn) : Except Uncoercible (afn.Val M → bfn.Val M) :=
  (fnCoercion F afn bfn).map Coercion.apply

end Coercion

/-! ### Primitives -/

/-- The OCaml types with a pair of their own in the table. -/
def MlPrim.Paired : MlPrim → Prop
  | .sint | .ldouble | .complexld => False
  | _ => True

instance (p : MlPrim) : Decidable p.Paired := by
  unfold MlPrim.Paired
  split <;> infer_instance

section Coercion

variable {M : MlTypes}

theorem mlPrimCoercion_of_eq {l r : MlPrim} (heq : l = r) (h : l.Paired) :
    mlPrimCoercion (M := M) l r = some (.id (congrArg M.prim heq)) := by
  subst heq
  cases l <;> first | rfl | exact h.elim

/-- The table relates an OCaml type to itself only. -/
theorem mlPrimCoercion_eq_some {l r : MlPrim} {c : Coercion (M.prim l) (M.prim r)}
    (h : mlPrimCoercion l r = some c) : l = r ∧ l.Paired ∧ ∃ h, c = .id h := by
  unfold mlPrimCoercion at h
  split at h <;> first
    | exact ⟨rfl, trivial, rfl, (Option.some.inj h).symm⟩
    | cases h

/-! ### Definedness -/

variable (F : ViewFns M)

/-- `coercion` returns. -/
def Coercible (a b : Typ) : Prop := ∃ c, coercion F a b = .ok c

def FnCoercible (f g : Fn) : Prop := ∃ c, fnCoercion F f g = .ok c

theorem coercion_void (a : Typ) : coercion F a .void = .ok (.coercion fun _ => ()) := by
  rw [coercion]

theorem coercible_void (a : Typ) : Coercible F a .void := ⟨_, coercion_void F a⟩

/-- A view on the left stands for its type below. -/
theorem coercible_view_left (v : ViewId) (ty b : Typ) :
    Coercible F (.view v ty) b ↔ Coercible F ty b := by
  by_cases hb : b = .void
  · subst hb
    exact ⟨fun _ => coercible_void F ty, fun _ => coercible_void F _⟩
  · have heq : coercion F (.view v ty) b = match coercion F ty b with
        | .ok (.id h) => .ok (.coercion fun x => cast h (F.write v ty x))
        | .ok (.coercion coerce) => .ok (.coercion fun x => coerce (F.write v ty x))
        | .error e => .error e := by
      rw [coercion]
      exact hb
    rw [Coercible, Coercible, heq]
    cases coercion F ty b with
    | error e => simp
    | ok c => cases c <;> simp

/-- So does a view on the right. -/
theorem coercion_view_right {a : Typ} (v : ViewId) (ty : Typ)
    (ha : ∀ (w : ViewId) (u : Typ), a ≠ .view w u) :
    coercion F a (.view v ty) = match coercion F a ty with
      | .ok (.id h) => .ok (.coercion fun x => F.read v ty (cast h x))
      | .ok (.coercion coerce) => .ok (.coercion fun x => F.read v ty (coerce x))
      | .error e => .error e := by
  rw [coercion]
  exact ha

theorem coercible_view_right (a : Typ) (v : ViewId) (ty : Typ) :
    Coercible F a (.view v ty) ↔ Coercible F a ty := by
  induction a using Typ.core.induct with
  | case1 w u ih => rw [coercible_view_left, coercible_view_left, ih]
  | case2 a ha =>
      rw [Coercible, Coercible, coercion_view_right F v ty ha]
      cases coercion F a ty with
      | error e => simp
      | ok c => cases c <;> simp

def IsPointer : Typ → Prop
  | .pointer _ | .funptr _ => True
  | _ => False

theorem coercible_pointers {a b : Typ} (ha : IsPointer a) (hb : IsPointer b) :
    Coercible F a b := by
  cases a with
  | pointer a =>
      cases b with
      | pointer b =>
          rw [Coercible, coercion]
          split <;> exact ⟨_, rfl⟩
      | funptr g =>
          rw [Coercible, coercion]
          exact ⟨_, rfl⟩
      | _ => exact hb.elim
  | funptr f =>
      cases b with
      | pointer b =>
          rw [Coercible, coercion]
          exact ⟨_, rfl⟩
      | funptr g =>
          rw [Coercible, coercion]
          split <;> exact ⟨_, rfl⟩
      | _ => exact hb.elim
  | _ => exact ha.elim

theorem coercible_primitive (l r : Prim) :
    Coercible F (.primitive l) (.primitive r) ↔
      mlPrim l = mlPrim r ∧ (mlPrim l).Paired := by
  rw [Coercible, coercion]
  constructor
  · rintro ⟨c, hc⟩
    split at hc
    · rename_i c' hc'
      obtain ⟨heq, hpaired, -⟩ := mlPrimCoercion_eq_some hc'
      exact ⟨heq, hpaired⟩
    · cases hc
  · rintro ⟨heq, hpaired⟩
    split
    · exact ⟨_, rfl⟩
    · rename_i hnone
      rw [mlPrimCoercion_of_eq heq hpaired] at hnone
      cases hnone

/-- When types that are no views are coercible. -/
inductive CoreCoercible : Typ → Typ → Prop
  | void (a : Typ) : CoreCoercible a .void
  | primitive {l r : Prim} (heq : mlPrim l = mlPrim r) (h : (mlPrim l).Paired) :
      CoreCoercible (.primitive l) (.primitive r)
  | pointers {a b : Typ} (ha : IsPointer a) (hb : IsPointer b) : CoreCoercible a b

theorem CoreCoercible.trans {a b c : Typ} (h : CoreCoercible a b) (h' : CoreCoercible b c) :
    CoreCoercible a c := by
  cases h' with
  | void => exact .void a
  | primitive heq' hp' =>
      cases h with
      | primitive heq hp => exact .primitive (heq.trans heq') hp
      | pointers ha hb => exact hb.elim
  | pointers hb hc =>
      cases h with
      | void => exact hb.elim
      | primitive => exact hb.elim
      | pointers ha _ => exact .pointers ha hc

theorem coercible_iff_of_no_views {a b : Typ} (ha : ∀ v ty, a ≠ .view v ty)
    (hb : ∀ v ty, b ≠ .view v ty) : Coercible F a b ↔ CoreCoercible a b := by
  constructor
  · rintro ⟨c, hc⟩
    have hcoercible : Coercible F a b := ⟨c, hc⟩
    rw [coercion.eq_def] at hc
    split at hc <;> first
      | exact absurd rfl (ha _ _)
      | exact absurd rfl (hb _ _)
      | exact .void _
      | exact .pointers trivial trivial
      | exact .primitive ((coercible_primitive F _ _).mp hcoercible).1
          ((coercible_primitive F _ _).mp hcoercible).2
      | cases hc
  · intro h
    cases h with
    | void => exact coercible_void F a
    | primitive heq hp => exact (coercible_primitive F _ _).mpr ⟨heq, hp⟩
    | pointers ha hb => exact coercible_pointers F ha hb

/-- Views are looked through on both sides. -/
theorem coercible_iff (a b : Typ) : Coercible F a b ↔ CoreCoercible a.core b.core := by
  induction a using Typ.core.induct with
  | case1 v ty ih => rw [coercible_view_left, ih, Typ.core_view]
  | case2 a ha =>
      induction b using Typ.core.induct with
      | case1 v ty ih => rw [coercible_view_right, ih, Typ.core_view]
      | case2 b hb =>
          rw [coercible_iff_of_no_views F ha hb, Typ.core, Typ.core]
          · exact hb
          · exact ha

/-- What the documentation says of coercible types: anything is coercible to
`void`, pointers of all kinds are coercible to each other, a view is coercible
as its type below is, and coercions compose. -/
theorem coercible_rules :
    (∀ t, Coercible F t .void) ∧
    (∀ a b, IsPointer a → IsPointer b → Coercible F a b) ∧
    (∀ v ty t, Coercible F (.view v ty) t ↔ Coercible F ty t) ∧
    (∀ v ty t, Coercible F t (.view v ty) ↔ Coercible F t ty) ∧
    ∀ t1 t2 t3, Coercible F t1 t2 → Coercible F t2 t3 → Coercible F t1 t3 := by
  refine ⟨coercible_void F, fun a b => coercible_pointers F,
    fun v ty t => coercible_view_left F v ty t, fun v ty t => coercible_view_right F t v ty, ?_⟩
  intro t1 t2 t3 h12 h23
  rw [coercible_iff] at h12 h23 ⊢
  exact h12.trans h23

end Coercion

def unitTypes : MlTypes := ⟨fun _ => Unit, fun _ => Unit, fun _ => Unit⟩

def unitViews : ViewFns unitTypes where
  read _ _ _ := ()
  write _ ty _ := ty.sample (fun _ => ()) (fun _ => ()) (fun _ => ())

/-- From a view of pointers to function pointers. -/
theorem coercible_rules_view :
    Coercible unitViews (ptr int) (.funptr (.returns .void)) ∧
      Coercible unitViews (.view 0 (.view 1 (ptr int))) (.funptr (.returns .void)) := by
  have hptr := (coercible_rules unitViews).2.1 (ptr int) (.funptr (.returns .void)) trivial trivial
  have hview : Coercible unitViews (.view 0 (.view 1 (ptr int))) (ptr int) := by
    rw [coercible_view_left, coercible_view_left]
    exact coercible_pointers unitViews trivial trivial
  exact ⟨hptr, (coercible_rules unitViews).2.2.2.2 _ _ _ hview hptr⟩

end CtypesCbuf.Ctypes
