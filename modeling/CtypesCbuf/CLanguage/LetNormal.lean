import CtypesCbuf.Lib.NameSupply
import CtypesCbuf.CLanguage.Syntax

/-!
Code in let-normal form: the operation `>>=` of the generators, which binds
the result of a computation in the code that follows it. The generators call
it with continuations that draw names themselves, so it is a function into
the supply of names.
-/

namespace CtypesCbuf.CLanguage

open NameSupply Supply
open Ctypes hiding Fn
open Cbuf

abbrev Gen := Supply Exn

/-- `sprintf "%s%d" prefix counter`, with the default prefix. -/
def freshName (n : Nat) : String := "x" ++ Nat.repr n

theorem freshName_inj {m n : Nat} : freshName m = freshName n ↔ m = n := by
  rw [freshName, freshName, String.append_right_inj, repr_inj]

theorem ne_freshName {x : String} (hx : x.toList.head? ≠ some 'x') (j : Nat) :
    x ≠ freshName j := by
  rintro rfl
  simp [freshName] at hx

def freshVar : Gen String := fresh freshName

@[simp] theorem freshVar_apply (n : Nat) :
    freshVar n = .ok (freshName (n + 1), n + 1) := rfl

@[simp] theorem freshVar_bind {α : Type} (f : String → Gen α) (n : Nat) :
    (freshVar >>= f) n = f (freshName (n + 1)) (n + 1) := rfl

/-- A list of distinct names drawn between two counts. -/
structure FreshNames (lo hi : Nat) (xs : List String) : Prop where
  drawn : ∀ x ∈ xs, Drawn freshName lo hi x
  nodup : xs.Nodup
  le : lo ≤ hi

theorem FreshNames.nil (n : Nat) : FreshNames n n [] :=
  ⟨by simp, List.nodup_nil, Nat.le_refl n⟩

theorem FreshNames.single {lo hi : Nat} (i : Nat) (hlo : lo < i) (hhi : i ≤ hi) :
    FreshNames lo hi [freshName i] := by
  refine ⟨?_, by simp, by omega⟩
  intro x hx
  rw [List.mem_singleton] at hx
  exact hx ▸ drawn_of_lt hlo hhi

theorem FreshNames.append {lo mid hi : Nat} {xs ys : List String}
    (hx : FreshNames lo mid xs) (hy : FreshNames mid hi ys) :
    FreshNames lo hi (xs ++ ys) := by
  have hlo := hx.le
  have hhi := hy.le
  refine ⟨?_, ?_, by omega⟩
  · intro x hxy
    rcases List.mem_append.mp hxy with h | h
    · exact (hx.drawn x h).mono (Nat.le_refl lo) hhi
    · exact (hy.drawn x h).mono hlo (Nat.le_refl hi)
  · refine List.nodup_append.mpr ⟨hx.nodup, hy.nodup, ?_⟩
    intro x h y h'
    exact (hx.drawn x h).ne freshName_inj (hy.drawn y h')

theorem FreshNames.perm {lo hi : Nat} {xs ys : List String} (h : FreshNames lo hi xs)
    (hperm : xs.Perm ys) : FreshNames lo hi ys :=
  ⟨fun x hx => h.drawn x (hperm.mem_iff.mpr hx), hperm.nodup_iff.mp h.nodup, h.le⟩

theorem FreshNames.mono {lo lo' hi hi' : Nat} {xs : List String} (h : FreshNames lo hi xs)
    (hlo : lo' ≤ lo) (hhi : hi ≤ hi') : FreshNames lo' hi' xs :=
  ⟨fun x hx => (h.drawn x hx).mono hlo hhi, h.nodup, Nat.le_trans hlo (Nat.le_trans h.le hhi)⟩

theorem FreshNames.left {lo hi : Nat} {xs ys : List String}
    (h : FreshNames lo hi (xs ++ ys)) : FreshNames lo hi xs :=
  ⟨fun x hx => h.drawn x (List.mem_append_left _ hx), (List.nodup_append.mp h.nodup).1, h.le⟩

/-- The names drawn later may also stand in front. -/
theorem FreshNames.append' {lo mid hi : Nat} {xs ys : List String}
    (hx : FreshNames mid hi xs) (hy : FreshNames lo mid ys) :
    FreshNames lo hi (xs ++ ys) := by
  exact (hy.append hx).perm List.perm_append_comm

/-- `let (Ty t) = Type_C.ccomp c`. -/
def typedComp (c : CComp) : Gen Typ :=
  lift <| match typeComp c with
    | .ok (.ty t) => .ok t
    | .ok (.bufTy _) => .error .matchFailure
    | .error e => .error e

theorem typedComp_of_ok {c : CComp} {t : Typ} (h : typeComp c = .ok (.ty t)) :
    typedComp c = lift (.ok t) := by
  rw [typedComp, h]

/-- `(c, ty) >>= fun e -> return e`, the form `>>=` takes on code that ends
in a return. When `c` itself ends in one, the calls of `>>=` never end. -/
def returnBind (mk : Ty → CExp → CComp) : CComp → Typ → Gen CComp
  | .eff (.exp v), _ => do
      let _ ← freshVar
      return mk (typeExp v) v
  | .eff e, ty => do
      let x ← freshVar
      return .letIn ((x, .ty ty), e) (mk (.ty ty) (.clocal (x, .ty ty)))
  | .camlParam xs c, _ => do
      let _ ← freshVar
      return .camlParam xs (← returnBind mk c (← typedComp c))
  | .letConst y i c, _ => do
      let _ ← freshVar
      return .letConst y i (← returnBind mk c (← typedComp c))
  | .camlReturnT (.ty _) _, _ => fail .diverges
  | .ret (.ty _) _, _ => fail .diverges
  | .letIn ye c, _ => do
      let _ ← freshVar
      return .letIn ye (← returnBind mk c (← typedComp c))
  | .letAssign lv v c, _ => do
      let _ ← freshVar
      return .letAssign lv v (← returnBind mk c (← typedComp c))
  | .camlReturnT (.bufTy _) _, _ => fail (.unsupported "not implemented!(Cbuf_generate_c.(>>=))")
  | .ret (.bufTy _) _, _ => fail (.unsupported "not implemented!(Cbuf_generate_c.(>>=))")

/-- `(c, ty) >>= k`. -/
def letBind : CComp → Typ → (CExp → Gen CComp) → Gen CComp
  | .eff (.exp v), _, k => do
      let _ ← freshVar
      k v
  | .eff e, ty, k => do
      let x ← freshVar
      return .letIn ((x, .ty ty), e) (← k (.clocal (x, .ty ty)))
  | .camlParam xs c, _, k => do
      let _ ← freshVar
      return .camlParam xs (← letBind c (← typedComp c) k)
  | .letConst y i c, _, k => do
      -- let x = (let const y = i in c) in e ~> let const y = i in (let x = c in e)
      let _ ← freshVar
      return .letConst y i (← letBind c (← typedComp c) k)
  | .camlReturnT (.ty ty) v, _, k => do
      let _ ← freshVar
      returnBind .camlReturnT (← k v) ty
  | .ret (.ty ty) v, _, k => do
      let _ ← freshVar
      returnBind .ret (← k v) ty
  | .letIn ye c, _, k => do
      -- let x = (let y = e1 in e2) in e3 ~> let y = e1 in (let x = e2 in e3)
      let _ ← freshVar
      return .letIn ye (← letBind c (← typedComp c) k)
  | .letAssign lv v c, _, k => do
      -- let x = (y := e1; e2) in e3 ~> y := e1; let x = e2 in e3
      let _ ← freshVar
      return .letAssign lv v (← letBind c (← typedComp c) k)
  | .camlReturnT (.bufTy _) _, _, _ =>
      fail (.unsupported "not implemented!(Cbuf_generate_c.(>>=))")
  | .ret (.bufTy _) _, _, _ =>
      fail (.unsupported "not implemented!(Cbuf_generate_c.(>>=))")

/-- `c1 >> c2`. -/
def andThen (c1 c2 : CComp) : Gen CComp := letBind c1 .void fun _ => pure c2

def CComp.lets (bs : List CBind) (c : CComp) : CComp := bs.foldr .letIn c

@[simp] theorem CComp.lets_nil (c : CComp) : CComp.lets [] c = c := rfl

@[simp] theorem CComp.lets_cons (b : CBind) (bs : List CBind) (c : CComp) :
    CComp.lets (b :: bs) c = .letIn b (CComp.lets bs c) := rfl

theorem CComp.lets_append (bs bs' : List CBind) (c : CComp) :
    CComp.lets (bs ++ bs') c = CComp.lets bs (CComp.lets bs' c) :=
  List.foldr_append ..

/-- The result of a generator with `bs` bound around it. -/
def letsAround (bs : List CBind) (g : Gen CComp) : Gen CComp := do
  return CComp.lets bs (← g)

@[simp] theorem letsAround_nil (g : Gen CComp) : letsAround [] g = g := by
  funext n
  rw [letsAround, bind_apply]
  cases g n <;> rfl

/-- Chains of lets that follow each other make one chain. -/
theorem letsAround_of_eq {bs bs' : List CBind} {g g' : Gen CComp} {m n : Nat}
    (h : g m = letsAround bs' g' n) :
    letsAround bs g m = letsAround (bs ++ bs') g' n := by
  simp only [letsAround, bind_apply] at h ⊢
  rw [h]
  cases g' n with
  | error e => rfl
  | ok r => simp [CComp.lets_append]

theorem letsAround_of_error {bs : List CBind} {g : Gen CComp} {n : Nat} {e : Exn}
    (h : g n = .error e) : letsAround bs g n = .error e :=
  bind_of_error h _

theorem letsAround_eq_ok {bs : List CBind} {g : Gen CComp} {n n' : Nat} {c : CComp} :
    letsAround bs g n = .ok (c, n') ↔ ∃ d, g n = .ok (d, n') ∧ c = CComp.lets bs d := by
  rw [letsAround, bind_eq_ok]
  constructor
  · rintro ⟨d, m, hd, hc⟩
    simp only [pure_apply, Except.ok.injEq, Prod.mk.injEq] at hc
    exact ⟨d, by rw [hd, hc.2], hc.1.symm⟩
  · rintro ⟨d, hd, rfl⟩
    exact ⟨d, n', hd, rfl⟩

/-! ### Binding the forms of code that generators build -/

@[simp] theorem letBind_exp (v : CExp) (ty : Typ) (k : CExp → Gen CComp) (n : Nat) :
    letBind (.eff (.exp v)) ty k n = k v (n + 1) := rfl

/-- An effect is bound by one let. -/
theorem letBind_eff {e : CEff} (he : ∀ v, e ≠ .exp v) (ty : Typ)
    (k : CExp → Gen CComp) (n : Nat) :
    letBind (.eff e) ty k n =
      letsAround [((freshName (n + 1), .ty ty), e)]
        (k (.clocal (freshName (n + 1), .ty ty))) (n + 1) := by
  cases e with
  | exp v => exact absurd rfl (he v)
  | _ => rfl

/-- A let stays outside, and what it returns is bound inside it. -/
theorem letBind_letIn {b : CBind} {c : CComp} {t : Typ}
    (ht : typeComp c = .ok (.ty t)) (ty : Typ) (k : CExp → Gen CComp) (n : Nat) :
    letBind (.letIn b c) ty k n = letsAround [b] (letBind c t k) (n + 1) := by
  rw [letBind, freshVar_bind, typedComp_of_ok ht]
  rfl

theorem andThen_eff {e : CEff} (he : ∀ v, e ≠ .exp v) (c : CComp) (n : Nat) :
    andThen (.eff e) c n =
      .ok (.letIn ((freshName (n + 1), .ty .void), e) c, n + 1) := by
  rw [andThen, letBind_eff he, letsAround_eq_ok]
  exact ⟨c, rfl, rfl⟩

end CtypesCbuf.CLanguage
