import Mathlib.Logic.Relation
import CtypesCbuf.Ctypes.Coerce

/-!
Dynamic function pointers, as `ctypes_ffi.ml` and `Foreign.dynamic_funptr` make
and free them, and the programs and collections that work on them. An
operation is one step. The function that leaks are reported to returns.
-/

namespace CtypesCbuf.CtypesForeign.Funptrs

open Ctypes

abbrev Root := Nat

/-- A value of the type `'a funptr`, by the order of creation. -/
abbrev Handle := Nat

/-- `'a funptr`. There is no root when the pointer to it is null. -/
structure Funptr where
  gcRoot : Option Root
  fn : FatPtr Fn
  deriving DecidableEq, Repr

/-- What a root keeps alive: a closure with what C has of it, or nothing. How
often it has been released is counted. -/
structure RootCell where
  content : Option Obj
  releases : Nat
  deriving DecidableEq, Repr

structure World where
  funptrs : List Funptr
  roots : List RootCell
  /-- `retain_funptr_root_to_avoid_segfaults_when_not_freed_correctly`. -/
  retained : List Root
  /-- What has been reported, by the finaliser of which value. -/
  reports : List (Handle × String)
  deriving DecidableEq, Repr

/-- An exception: `Failure`, or one of the program's own. -/
inductive Raised (E : Type)
  | failure (msg : String)
  | other (e : E)
  deriving DecidableEq, Repr

abbrev FunptrM (E : Type) := EStateM (Raised E) World

/-- A null function pointer with no root stands for a value that there is not. -/
def World.funptr (w : World) (t : Handle) : Funptr :=
  w.funptrs.getD t ⟨none, .returns .void, 0, none⟩

def World.releases (w : World) (r : Root) : Nat := (w.roots.getD r ⟨none, 0⟩).releases

def World.setGcRoot (w : World) (t : Handle) (root : Option Root) : World :=
  { w with funptrs := w.funptrs.modify t fun v => { v with gcRoot := root } }

def World.release (w : World) (r : Root) : World :=
  { w with roots := w.roots.modify r fun c => { c with releases := c.releases + 1 } }

section Operations

variable {E : Type}

def getFunptr (t : Handle) : FunptrM E Funptr := do return (← get).funptr t

def setGcRoot (t : Handle) (root : Option Root) : FunptrM E Unit :=
  modify fun w => w.setGcRoot t root

def createRoot (content : Option Obj) : FunptrM E Root := do
  let r := (← get).roots.length
  modify fun w => { w with roots := w.roots ++ [⟨content, 0⟩] }
  return r

def releaseRoot (r : Root) : FunptrM E Unit := modify fun w => w.release r

def previouslyFreed : Raised E := .failure "This funptr was previously freed"

def freeFunptr (t : Handle) : FunptrM E Unit := do
  match (← getFunptr t).gcRoot with
  | none => throw previouslyFreed
  | some root => do
      releaseRoot root
      setGcRoot t none

def leakMessage : String :=
  "WARN: a ctypes function pointer was not explicitly released.\n" ++
  "Releasing a function pointer or the associated OCaml closure while \n" ++
  "the function pointer is still in use from C will cause segmentation faults.\n" ++
  "Please call [Foreign.Funptr.free] explicitly when the funptr is no longer needed.\n" ++
  "To avoid a segmentation fault we are preventing this funptr from\n" ++
  "being garbage collected. Please use [Foreign.Funptr.free].\n%!"

/-- The finaliser of `create_funptr`. -/
def finalise (t : Handle) : FunptrM E Unit := do
  match (← getFunptr t).gcRoot with
  | none => pure ()
  | some root => do
      modify fun w => { w with retained := root :: w.retained }
      setGcRoot t none
      modify fun w => { w with reports := (t, leakMessage) :: w.reports }

def createFunptr (content : Option Obj) (fn : FatPtr Fn) : FunptrM E Handle := do
  let root ← createRoot content
  let t := (← get).funptrs.length
  modify fun w => { w with funptrs := w.funptrs ++ [⟨some root, fn⟩] }
  return t

-- the function pointer that libffi makes for a closure
variable (makeFunptr : Obj → Except (Raised E) (FatPtr Fn))

def funptrOfFun (f : Obj) : FunptrM E Handle := do
  match makeFunptr f with
  | .error e => throw e
  | .ok fn => createFunptr (some f) fn

def funptrOfStaticFunptr (fp : FatPtr Fn) : FunptrM E Handle := createFunptr none fp

def funptrToStaticFunptr (t : Handle) : FunptrM E (FatPtr Fn) := do
  let v ← getFunptr t
  match v.gcRoot with
  | none => throw previouslyFreed
  | some _ => return v.fn

/-- The end of `with_fun`, after `do_it` has returned or raised. -/
def withFunEnd {C : Type} (f : Handle) : Except (Raised E) C → FunptrM E C
  | .ok res => do
      freeFunptr f
      return res
  | .error exn => do
      freeFunptr f
      throw exn

def withFun {C : Type} (f : Obj) (doIt : Handle → FunptrM E C) : FunptrM E C := do
  let f ← funptrOfFun makeFunptr f
  let outcome ← fun w => match doIt f w with
    | .ok res w' => .ok (.ok res) w'
    | .error exn w' => .ok (.error exn) w'
  withFunEnd f outcome

end Operations

/-! ### Programs and collections -/

/-- The values that a program holds, the calls of `with_fun` whose bodies run,
the values that collections have found unreachable, and the finalisers that
have been called. Of which values the root has been freed is kept for
reference. -/
structure State where
  world : World
  held : List Handle
  active : List Handle
  collected : List Handle
  finalised : List Handle
  freed : List Handle
  deriving DecidableEq, Repr

def State.init : State := ⟨⟨[], [], [], []⟩, [], [], [], [], []⟩

/-- A value can be reached while the program or a call of `with_fun` has it. -/
def State.Reaches (s : State) (t : Handle) : Prop := t ∈ s.held ∨ t ∈ s.active

instance (s : State) (t : Handle) : Decidable (s.Reaches t) := inferInstanceAs (Decidable (_ ∨ _))

inductive Action (E C : Type)
  | ofFun (f : Obj)
  | read (fp : FatPtr Fn)
  | write (t : Handle)
  | free (t : Handle)
  /-- `with_fun` calls its body, which ends at any later time. -/
  | enter (f : Obj)
  | exit (t : Handle) (outcome : Except (Raised E) C)
  /-- The program's last reference to the value is gone. -/
  | drop (t : Handle)
  /-- A collection finds that the value cannot be reached. -/
  | collect (t : Handle)
  /-- A finaliser of the program's own still has the value, and stores it. -/
  | revive (t : Handle)
  /-- The value's finaliser is called, at any time after the collection. -/
  | finalise (t : Handle)

inductive Answer (C : Type)
  | unit
  | handle (t : Handle)
  | static (fn : FatPtr Fn)
  | result (c : C)
  deriving DecidableEq, Repr

abbrev Outcome (E C : Type) := Except (Raised E) (Answer C)

def run {E C α : Type} (x : FunptrM E α) (answer : α → Answer C) (w : World) :
    Outcome E C × World :=
  match x w with
  | .ok a w' => (.ok (answer a), w')
  | .error e w' => (.error e, w')

def State.created {E C : Type} (s : State) (inBody : Bool) :
    Outcome E C × World → Outcome E C × State
  | (.ok (.handle t), w) =>
      (.ok (.handle t), { s with world := w, held := t :: s.held,
                                 active := if inBody then t :: s.active else s.active })
  | (o, w) => (o, { s with world := w })

def State.afterFree (s : State) (t : Handle) (w : World) : State :=
  { s with world := w
           freed := if (s.world.funptr t).gcRoot.isSome then t :: s.freed else s.freed }

section Step

variable {E C : Type} (makeFunptr : Obj → Except (Raised E) (FatPtr Fn))

def step : Action E C → State → Option (Outcome E C × State)
  | .ofFun f, s => some (s.created false (run (funptrOfFun makeFunptr f) .handle s.world))
  | .read fp, s => some (s.created false (run (funptrOfStaticFunptr fp) .handle s.world))
  | .write t, s =>
      if s.Reaches t then
        let (o, w) := run (funptrToStaticFunptr t) .static s.world
        some (o, { s with world := w })
      else none
  | .free t, s =>
      if s.Reaches t then
        let (o, w) := run (freeFunptr t) (fun _ => .unit) s.world
        some (o, s.afterFree t w)
      else none
  | .enter f, s => some (s.created true (run (funptrOfFun makeFunptr f) .handle s.world))
  | .exit t outcome, s =>
      if t ∈ s.active then
        let (o, w) := run (withFunEnd t outcome) .result s.world
        some (o, { s.afterFree t w with active := s.active.erase t })
      else none
  | .drop t, s => some (.ok .unit, { s with held := s.held.filter (· ≠ t) })
  | .collect t, s =>
      if t < s.world.funptrs.length ∧ ¬ s.Reaches t then
        some (.ok .unit, { s with collected := t :: s.collected })
      else none
  | .revive t, s =>
      if t ∈ s.collected then some (.ok .unit, { s with held := t :: s.held }) else none
  | .finalise t, s =>
      if t ∈ s.collected ∧ t ∉ s.finalised then
        let (o, w) := run (finalise t) (fun _ => .unit) s.world
        some (o, { s with world := w, finalised := t :: s.finalised })
      else none

def Steps (s s' : State) : Prop :=
  ∃ (a : Action E C) (o : Outcome E C), step makeFunptr a s = some (o, s')

def Runs : State → State → Prop := Relation.ReflTransGen (Steps (C := C) makeFunptr)

def Reachable (s : State) : Prop := Runs (C := C) makeFunptr State.init s

end Step

end CtypesCbuf.CtypesForeign.Funptrs
