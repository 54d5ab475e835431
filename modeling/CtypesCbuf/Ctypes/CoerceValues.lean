import CtypesCbuf.Ctypes.Coerce

/-!
What coercions do to values. A coercion of pointers makes a new pointer with
the new reference type, unless the reference types have the same OCaml type
for the table: then it is the identity, and the old reference type stays.
-/

namespace CtypesCbuf.Ctypes

section Pointers

variable {M : MlTypes} (F : ViewFns M)

mutual
/-- The types between which the coercion is the identity. -/
inductive Identified : Typ → Typ → Prop
  | primitive {l r : Prim} (heq : mlPrim l = mlPrim r) (h : (mlPrim l).Paired) :
      Identified (.primitive l) (.primitive r)
  | pointer {a b : Typ} (h : Identified a b) : Identified (.pointer a) (.pointer b)
  | funptr {f g : Fn} (h : FnIdentified f g) : Identified (.funptr f) (.funptr g)
inductive FnIdentified : Fn → Fn → Prop
  | returns {a b : Typ} (h : Identified a b) : FnIdentified (.returns a) (.returns b)
  | function {a b : Typ} {f g : Fn} (h : Identified b a) (h' : FnIdentified f g) :
      FnIdentified (.function a f) (.function b g)
end

def IsId {A B : Type} : Except Uncoercible (Coercion A B) → Prop
  | .ok (.id _) => True
  | _ => False

theorem isId_primitive (l r : Prim) :
    IsId (coercion F (.primitive l) (.primitive r)) ↔
      mlPrim l = mlPrim r ∧ (mlPrim l).Paired := by
  rw [coercion]
  constructor
  · intro h
    split at h
    · rename_i c hc
      obtain ⟨heq, hpaired, -⟩ := mlPrimCoercion_eq_some hc
      exact ⟨heq, hpaired⟩
    · exact h.elim
  · rintro ⟨heq, hpaired⟩
    split
    · rename_i c hc
      obtain ⟨-, -, hid, rfl⟩ := mlPrimCoercion_eq_some hc
      trivial
    · rename_i hnone
      rw [mlPrimCoercion_of_eq heq hpaired] at hnone
      cases hnone

theorem not_isId_view_left (v : ViewId) (ty b : Typ) :
    ¬ IsId (coercion F (.view v ty) b) := by
  by_cases hb : b = .void
  · subst hb
    rw [coercion_void]
    exact id
  · rw [coercion]
    · split <;> exact id
    · exact hb

theorem not_isId_view_right {a : Typ} (ha : ∀ v ty, a ≠ .view v ty) (v : ViewId) (ty : Typ) :
    ¬ IsId (coercion F a (.view v ty)) := by
  rw [coercion]
  · split <;> exact id
  · exact ha

theorem isId_pointer (a b : Typ) :
    IsId (coercion F (.pointer a) (.pointer b)) ↔ IsId (coercion F a b) := by
  rw [coercion]
  cases coercion F a b with
  | error e => exact Iff.rfl
  | ok c => cases c <;> exact Iff.rfl

theorem isId_funptr (f g : Fn) :
    IsId (coercion F (.funptr f) (.funptr g)) ↔ IsId (fnCoercion F f g) := by
  rw [coercion]
  cases fnCoercion F f g with
  | error e => exact Iff.rfl
  | ok c => cases c <;> exact Iff.rfl

theorem isId_returns (a b : Typ) :
    IsId (fnCoercion F (.returns a) (.returns b)) ↔ IsId (coercion F a b) := by
  rw [fnCoercion_returns]
  exact Iff.rfl

theorem isId_function (a b : Typ) (f g : Fn) :
    IsId (fnCoercion F (.function a f) (.function b g)) ↔
      IsId (coercion F b a) ∧ IsId (fnCoercion F f g) := by
  rw [fnCoercion_function]
  cases fnCoercion F f g with
  | error e => exact ⟨False.elim, fun h => h.2⟩
  | ok h =>
      cases coercion F b a with
      | error e => exact ⟨False.elim, fun h => h.1⟩
      | ok c =>
          cases c <;> cases h
          · exact ⟨fun _ => ⟨trivial, trivial⟩, fun _ => trivial⟩
          · exact ⟨False.elim, fun h => h.2⟩
          · exact ⟨False.elim, fun h => h.1⟩
          · exact ⟨False.elim, fun h => h.1⟩

/-- No other types have the identity as their coercion. -/
theorem shape_of_isId {a b : Typ} (h : IsId (coercion F a b)) :
    (∃ l r, a = .primitive l ∧ b = .primitive r) ∨
    (∃ a' b', a = .pointer a' ∧ b = .pointer b') ∨
    ∃ f g, a = .funptr f ∧ b = .funptr g := by
  by_cases hview : ∃ v ty, a = .view v ty
  · obtain ⟨v, ty, rfl⟩ := hview
    exact absurd h (not_isId_view_left F v ty b)
  · by_cases hview' : ∃ v ty, b = .view v ty
    · obtain ⟨v, ty, rfl⟩ := hview'
      exact absurd h (not_isId_view_right F (fun v ty h => hview ⟨v, ty, h⟩) v ty)
    · rw [coercion.eq_def] at h
      split at h <;> first
        | exact .inl ⟨_, _, rfl, rfl⟩
        | exact .inr (.inl ⟨_, _, rfl, rfl⟩)
        | exact .inr (.inr ⟨_, _, rfl, rfl⟩)
        | exact absurd ⟨_, _, rfl⟩ hview
        | exact absurd ⟨_, _, rfl⟩ hview'
        | exact h.elim

mutual
theorem isId_iff (a b : Typ) : IsId (coercion F a b) ↔ Identified a b := by
  constructor
  · intro h
    rcases shape_of_isId F h with ⟨l, r, rfl, rfl⟩ | ⟨a', b', rfl, rfl⟩ | ⟨f, g, rfl, rfl⟩
    · obtain ⟨heq, hpaired⟩ := (isId_primitive F l r).mp h
      exact .primitive heq hpaired
    · exact .pointer ((isId_iff a' b').mp ((isId_pointer F a' b').mp h))
    · exact .funptr ((fnIsId_iff f g).mp ((isId_funptr F f g).mp h))
  · intro h
    cases h with
    | primitive heq hpaired => exact (isId_primitive F _ _).mpr ⟨heq, hpaired⟩
    | pointer h => exact (isId_pointer F _ _).mpr ((isId_iff _ _).mpr h)
    | funptr h => exact (isId_funptr F _ _).mpr ((fnIsId_iff _ _).mpr h)
termination_by sizeOf a + sizeOf b
theorem fnIsId_iff (f g : Fn) : IsId (fnCoercion F f g) ↔ FnIdentified f g := by
  cases f with
  | returns a =>
      cases g with
      | returns b =>
          rw [isId_returns, isId_iff a b]
          exact ⟨.returns, fun h => by cases h; assumption⟩
      | function b g =>
          rw [(fnCoercion_arities F b a g).2]
          exact iff_of_false id nofun
  | function a f =>
      cases g with
      | returns b =>
          rw [(fnCoercion_arities F a b f).1]
          exact iff_of_false id nofun
      | function b g =>
          rw [isId_function, isId_iff b a, fnIsId_iff f g]
          exact ⟨fun h => .function h.1 h.2, fun h => by cases h; exact ⟨‹_›, ‹_›⟩⟩
termination_by sizeOf f + sizeOf g
end

/-- Coercions of pointers are always defined: the identity, or a change of the
reference type. -/
theorem coerce_pointer (a b : Typ) :
    (Identified a b ∧ coerce F (.pointer a) (.pointer b) = .ok fun p : FatPtr Typ => p) ∨
    (¬ Identified a b ∧
      coerce F (.pointer a) (.pointer b) = .ok fun p : FatPtr Typ => p.coerce b) := by
  rw [← isId_iff F, coerce, coercion]
  cases coercion F a b with
  | error e => exact .inr ⟨id, rfl⟩
  | ok c =>
      cases c with
      | id h => exact .inl ⟨trivial, rfl⟩
      | coercion f => exact .inr ⟨id, rfl⟩

/-- What a coercion to a pointer to `b` should make of `p`. -/
structure PointsTo (b : Typ) (p q : FatPtr Typ) : Prop where
  raw : q.raw = p.raw
  managed : q.managed = p.managed
  reftyp : q.reftyp = b

/-- Coercing a pointer keeps its address and its owner. It gives the pointer
its new reference type unless the types are identified. -/
theorem coerce_pointsTo_iff (a b : Typ) (p : FatPtr Typ) :
    ∃ c : FatPtr Typ → FatPtr Typ, coerce F (.pointer a) (.pointer b) = .ok c ∧
      (PointsTo b p (c p) ↔ p.reftyp = b ∨ ¬ Identified a b) := by
  rcases coerce_pointer F a b with ⟨hid, hc⟩ | ⟨hid, hc⟩
  · refine ⟨_, hc, fun h => .inl h.reftyp, fun h => ?_⟩
    exact ⟨rfl, rfl, h.resolve_right fun hn => hn hid⟩
  · exact ⟨_, hc, fun _ => .inr hid, fun _ => ⟨rfl, rfl, rfl⟩⟩

end Pointers

/-- A pointer to `int` that is coerced to a pointer to `short` still refers to an
`int`, of another size. -/
theorem coerce_int_short :
    ∃ c : FatPtr Typ → FatPtr Typ,
      coerce unitViews (.pointer int) (.pointer (.primitive .short)) = .ok c ∧
      ¬ PointsTo (.primitive .short) ⟨int, 4096, none⟩ (c ⟨int, 4096, none⟩) ∧
      sizeof (c ⟨int, 4096, none⟩).reftyp = .ok 4 ∧ sizeof (.primitive .short) = .ok 2 := by
  have hid : Identified int (.primitive .short) := .primitive rfl trivial
  rcases coerce_pointer unitViews int (.primitive .short) with ⟨-, hc⟩ | ⟨hn, -⟩
  · exact ⟨_, hc, fun h => (nomatch h.reftyp), rfl, rfl⟩
  · exact absurd hid hn

/-! ### Coercions to the same type -/

section Reflexive

variable {M : MlTypes} (F : ViewFns M)

/-- Primitives, `void`, object and function pointers. -/
def Typ.Plain : Typ → Prop
  | .void | .primitive _ | .pointer _ | .funptr _ => True
  | _ => False

def Fn.Plain : Fn → Prop
  | .returns t => t.Plain
  | .function f t => f.Plain ∧ t.Plain

/-- The type is no primitive that the table leaves out. -/
def Typ.Covered : Typ → Prop
  | .primitive p => (mlPrim p).Paired
  | _ => True

def Fn.Covered : Fn → Prop
  | .returns t => t.Covered
  | .function f t => f.Covered ∧ t.Covered

/-- Equal values: of pointers, the address and the owner. -/
def Typ.SameValue : (t : Typ) → t.Val M → t.Val M → Prop
  | .pointer _, (p : FatPtr Typ), (q : FatPtr Typ) => p.raw = q.raw ∧ p.managed = q.managed
  | .funptr _, (p : FatPtr Fn), (q : FatPtr Fn) => p.raw = q.raw ∧ p.managed = q.managed
  | _, x, y => x = y

/-- The value carries the type as its reference type, when it is a pointer. -/
def Typ.Carries : (t : Typ) → t.Val M → Prop
  | .pointer a, (p : FatPtr Typ) => p.reftyp = a
  | .funptr f, (p : FatPtr Fn) => p.reftyp = f
  | _, _ => True

/-- Functions with equal results on the values of their parameter types. -/
def Fn.SameResults : (f : Fn) → f.Val M → f.Val M → Prop
  | .returns t, x, y => t.SameValue x y
  | .function f t, g, h => ∀ x : f.Val M, f.Carries x → t.SameResults (g x) (h x)

/-- A pointer that carries another reference type may be given that of the
parameter before the function is applied to it. -/
def Fn.RetagsResults : (f : Fn) → f.Val M → f.Val M → Prop
  | .returns t, x, y => t.SameValue x y
  | .function f t, g, h => ∀ x : f.Val M, ∃ x' : f.Val M,
      f.SameValue x' x ∧ (f.Carries x' ∨ x' = x) ∧ t.RetagsResults (g x) (h x')

theorem FatPtr.ext_of_carries {R : Type} {p q : FatPtr R} {r : R}
    (h : p.raw = q.raw ∧ p.managed = q.managed) (hp : p.reftyp = r) (hq : q.reftyp = r) :
    p = q := by
  obtain ⟨reftyp, raw, managed⟩ := p
  obtain ⟨rfl, rfl⟩ := h
  obtain rfl : reftyp = q.reftyp := hp.trans hq.symm
  rfl

/-- What carries the type is left alone. -/
theorem Typ.eq_of_carries {t : Typ} {x x' : t.Val M} (hsame : t.SameValue x' x)
    (hx' : t.Carries x' ∨ x' = x) (hx : t.Carries x) : x' = x := by
  refine hx'.elim (fun hx' => ?_) id
  cases t with
  | pointer a => exact FatPtr.ext_of_carries hsame hx' hx
  | funptr f => exact FatPtr.ext_of_carries hsame hx' hx
  | _ => exact hsame

theorem Fn.RetagsResults.sameResults {f : Fn} {g h : f.Val M} (hgh : f.RetagsResults g h) :
    f.SameResults g h := by
  induction f using Fn.Val.induct with
  | case1 t => exact hgh
  | case2 a t ih =>
      intro (x : a.Val M) hx
      obtain ⟨x', hsame, hx', hresult⟩ := hgh x
      obtain rfl := Typ.eq_of_carries hsame hx' hx
      exact ih hresult

/-- A coercion of covered plain types to themselves gives the same value back,
with the type as its reference type or the one it had. -/
theorem coercion_self {t : Typ} (ht : t.Plain) (hcov : t.Covered) :
    ∃ c, coercion F t t = .ok c ∧
      ∀ x, t.SameValue (c.apply x) x ∧ (t.Carries (c.apply x) ∨ c.apply x = x) := by
  cases t with
  | void => exact ⟨_, coercion_void F _, fun x => ⟨rfl, .inr rfl⟩⟩
  | primitive p =>
      refine ⟨.id rfl, ?_, fun x => ⟨rfl, .inr rfl⟩⟩
      have hid := (isId_primitive F p p).mpr ⟨rfl, hcov⟩
      cases hc : coercion F (.primitive p) (.primitive p) with
      | error e =>
          rw [hc] at hid
          exact hid.elim
      | ok c =>
          rw [hc] at hid
          cases c with
          | id h => rfl
          | coercion f => exact hid.elim
  | pointer a =>
      rw [coercion]
      split
      · exact ⟨.id rfl, rfl, fun x => ⟨⟨rfl, rfl⟩, .inr rfl⟩⟩
      · exact ⟨_, rfl, fun x => ⟨⟨rfl, rfl⟩, .inl rfl⟩⟩
      · exact ⟨_, rfl, fun x => ⟨⟨rfl, rfl⟩, .inl rfl⟩⟩
  | funptr g =>
      rw [coercion]
      split
      · exact ⟨.id rfl, rfl, fun x => ⟨⟨rfl, rfl⟩, .inr rfl⟩⟩
      · exact ⟨_, rfl, fun x => ⟨⟨rfl, rfl⟩, .inl rfl⟩⟩
      · exact ⟨_, rfl, fun x => ⟨⟨rfl, rfl⟩, .inl rfl⟩⟩
  | _ => exact ht.elim

/-- The table is asked for the primitive itself. -/
theorem covered_of_coercible {t : Typ} (h : Coercible F t t) : t.Covered := by
  cases t with
  | primitive p => exact ((coercible_primitive F p p).mp h).2
  | _ => trivial

/-- The arguments reach the function with their address and owner, and the results
come back with theirs. -/
theorem fnCoercion_self {f : Fn} (hf : f.Plain) (hcov : f.Covered) :
    ∃ c, fnCoercion F f f = .ok c ∧ ∀ g, f.RetagsResults (c.apply g) g := by
  induction f using Fn.Val.induct with
  | case1 t =>
      obtain ⟨c, hc, hsame⟩ := coercion_self F hf hcov
      exact ⟨c, (fnCoercion_returns F t t).trans hc, fun x => (hsame x).1⟩
  | case2 a t ih =>
      obtain ⟨c, hc, hsame⟩ := coercion_self F hf.1 hcov.1
      obtain ⟨k, hk, hretags⟩ := ih hf.2 hcov.2
      refine ⟨c.function k, ?_, ?_⟩
      · rw [fnCoercion_function, hk, hc]
      · intro (g : a.Val M → t.Val M) (x : a.Val M)
        refine ⟨c.apply x, (hsame x).1, (hsame x).2, ?_⟩
        have happly := Coercion.function_apply c k g x
        exact happly ▸ hretags (g (c.apply x))

/-- A function is coerced to its own type through its parameters and result. -/
theorem fnCovered_of_coercible {f : Fn} (h : FnCoercible F f f) : f.Covered := by
  induction f using Fn.Val.induct with
  | case1 t =>
      obtain ⟨c, hc⟩ := h
      exact covered_of_coercible F ⟨c, (fnCoercion_returns F t t).symm.trans hc⟩
  | case2 a t ih =>
      obtain ⟨c, hc⟩ := h
      rw [fnCoercion_function] at hc
      cases ht : fnCoercion F t t with
      | error e => simp [ht] at hc
      | ok k =>
          cases ha : coercion F a a with
          | error e => simp [ht, ha] at hc
          | ok k' => exact ⟨covered_of_coercible F ⟨k', ha⟩, ih ⟨k, ht⟩⟩

/-- `coerce t t` is defined and returns its argument. -/
def CoercesToItself (t : Typ) : Prop :=
  ∃ c, coerce F t t = .ok c ∧ ∀ x, t.SameValue (c x) x

/-- `coerce_fn f f` is defined and returns a function with the same results, also
on pointers that carry other reference types if these do not matter to it. -/
def FnCoercesToItself (f : Fn) : Prop :=
  ∃ c, coerceFn F f f = .ok c ∧ ∀ g, f.SameResults (c g) g ∧ f.RetagsResults (c g) g

theorem coercible_of_map {A B : Type} {r : Except Uncoercible (Coercion A B)} {c : A → B}
    (h : r.map Coercion.apply = .ok c) : ∃ k, r = .ok k := by
  cases r with
  | error e => cases h
  | ok k => exact ⟨k, rfl⟩

/-- Coercion is reflexive at exactly the covered types and functions. -/
theorem coercesToItself_iff :
    (∀ t : Typ, t.Plain → (CoercesToItself F t ↔ t.Covered)) ∧
    ∀ f : Fn, f.Plain → (FnCoercesToItself F f ↔ f.Covered) := by
  refine ⟨fun t ht => ⟨?_, fun hcov => ?_⟩, fun f hf => ⟨?_, fun hcov => ?_⟩⟩
  · rintro ⟨c, hc, -⟩
    exact covered_of_coercible F (coercible_of_map hc)
  · obtain ⟨c, hc, hsame⟩ := coercion_self F ht hcov
    exact ⟨c.apply, by rw [coerce, hc]; rfl, fun x => (hsame x).1⟩
  · rintro ⟨c, hc, -⟩
    exact fnCovered_of_coercible F (coercible_of_map hc)
  · obtain ⟨c, hc, hretags⟩ := fnCoercion_self F hf hcov
    exact ⟨c.apply, by rw [coerceFn, hc]; rfl, fun g => ⟨(hretags g).sameResults, hretags g⟩⟩

theorem coercesToItself_strcmp :
    (CoercesToItself unitViews (ptr (.primitive .sint)) ↔
      (ptr (.primitive .sint)).Covered) ∧
    (FnCoercesToItself unitViews
        (.function (ptr (.primitive .char)) (.function (ptr (.primitive .char)) (.returns int))) ↔
      (Fn.function (ptr (.primitive .char)) (.function (ptr (.primitive .char))
        (.returns int))).Covered) :=
  ⟨(coercesToItself_iff unitViews).1 _ trivial,
    (coercesToItself_iff unitViews).2 _ ⟨trivial, trivial, trivial⟩⟩

/-- The table has no entry for `sint`. -/
theorem sint_not_coercesToItself :
    coerce unitViews (.primitive .sint) (.primitive .sint) =
        .error (.types (.primitive .sint) (.primitive .sint)) ∧
      ¬ CoercesToItself unitViews (.primitive .sint) := by
  have herror : coerce unitViews (.primitive .sint) (.primitive .sint) =
      .error (.types (.primitive .sint) (.primitive .sint)) := by
    rw [coerce, coercion]
    rfl
  refine ⟨herror, ?_⟩
  rintro ⟨c, hc, -⟩
  rw [herror] at hc
  cases hc

end Reflexive

end CtypesCbuf.Ctypes
