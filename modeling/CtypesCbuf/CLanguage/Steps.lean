import CtypesCbuf.Lib.StraightLine
import CtypesCbuf.CLanguage.LetNormal

/-!
Generated code is in let-normal form, so it runs straight through. `steps`
lists what it does, in order; the rest says which functions a step applies
and which locals it reads.
-/

namespace CtypesCbuf.CLanguage

open NameSupply
open Ctypes hiding Fn

inductive Step
  | bind (b : CBind)
  | const (x : CLocal) (i : Int)
  | assign (lv : CLvalue) (e : CEff)
  | camlParam (xs : List String)
  | result (e : CEff)
  | camlReturnT (ty : Ty) (e : CExp)
  | ret (ty : Ty) (e : CExp)
  deriving DecidableEq, Repr

/-- The steps of a computation. Each constructor contributes one. -/
def CComp.steps : CComp → List Step
  | .eff e => [.result e]
  | .camlParam xs c => .camlParam xs :: c.steps
  | .letConst x i c => .const x i :: c.steps
  | .letAssign lv e c => .assign lv e :: c.steps
  | .camlReturnT ty e => [.camlReturnT ty e]
  | .ret ty e => [.ret ty e]
  | .letIn b c => .bind b :: c.steps

@[simp] theorem CComp.steps_lets (bs : List CBind) (c : CComp) :
    (CComp.lets bs c).steps = bs.map .bind ++ c.steps := by
  induction bs with
  | nil => rfl
  | cons b bs ih =>
      rw [CComp.lets_cons, CComp.steps, ih]
      rfl

def CVar.locals : CVar → List CLocal
  | .clocal x => [x]
  | .global _ => []

def CExp.locals : CExp → List CLocal
  | .int _ => []
  | .clocal x => [x]
  | .cast _ e => e.locals
  | .addr v => v.locals

def CamlOp.locals : CamlOp → List CLocal
  | .camlLocalN e c => e.locals ++ c.locals
  | _ => []

def CEff.locals : CEff → List CLocal
  | .exp e => e.locals
  | .camlop o => o.locals
  | .global _ => []
  | .app _ es => es.flatMap CExp.locals
  | .index e i => e.locals ++ i.locals
  | .deref e => e.locals
  | .derefField e _ => e.locals

def CLvalue.locals : CLvalue → List CLocal
  | .var v => v.locals
  | .index lv i => lv.locals ++ i.locals
  | .field lv _ => lv.locals
  | .pointerField lv _ => lv.locals

/-- The locals that a step mentions, the one it binds left out. -/
def Step.locals : Step → List CLocal
  | .bind b => b.2.locals
  | .const _ _ => []
  | .assign lv e => lv.locals ++ e.locals
  | .camlParam _ => []
  | .result e => e.locals
  | .camlReturnT _ e => e.locals
  | .ret _ e => e.locals

def Step.bound : Step → List CLocal
  | .bind b => [b.1]
  | .const x _ => [x]
  | _ => []

def CEff.functions : CEff → List CFunction
  | .app f _ => [f]
  | .index e _ => e.functions
  | _ => []

def Step.functions : Step → List CFunction
  | .bind b => b.2.functions
  | .assign _ e => e.functions
  | .result e => e.functions
  | _ => []

def Step.Reads (xs : List CLocal) (s : Step) : Prop := ∃ x ∈ s.locals, x ∈ xs

/-- The step applies a function that may allocate on the OCaml heap. -/
def Step.Allocates (s : Step) : Prop := ∃ f ∈ s.functions, f.allocates = true

def Step.Calls (f : CFunction) (s : Step) : Prop := f ∈ s.functions

instance (xs : List CLocal) (s : Step) : Decidable (s.Reads xs) := by
  unfold Step.Reads
  infer_instance

instance (s : Step) : Decidable s.Allocates := by
  unfold Step.Allocates
  infer_instance

instance (f : CFunction) (s : Step) : Decidable (s.Calls f) := by
  unfold Step.Calls
  infer_instance

/-- A step that mentions only names drawn later reads no local drawn before. -/
theorem not_reads_of_drawn {xs : List CLocal} {lo mid hi : Nat} {s : Step}
    (hxs : ∀ x ∈ xs, Drawn freshName lo mid x.1)
    (hs : ∀ l ∈ s.locals, Drawn freshName mid hi l.1) : ¬ s.Reads xs := by
  rintro ⟨l, hl, hlx⟩
  exact (hxs l hlx).ne freshName_inj (hs l hl) rfl

end CtypesCbuf.CLanguage
