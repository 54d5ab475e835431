import CtypesCbuf.Lib.ThreadStacks
import Mathlib.Data.List.Basic

/-!
The table that keeps what C callbacks need alive, `ctypes_closure_properties.ml`.
Threads record closures and retrieve what was recorded; finalisers of closures
run on any thread, between any two of its steps. Each step here is one
operation on the tables or on the lock.
-/

namespace CtypesCbuf.CtypesForeign.ClosureProperties

open ThreadStacks

variable {Obj Val Tid : Type} [DecidableEq Obj] [DecidableEq Tid]

/-- A call of `record` that has returned. -/
structure Recording (Obj Val : Type) where
  closure : Obj
  value : Val
  id : Nat

/-- A call of `retrieve` that has ended, without a result when it raised
`Not_found`. Those of `known` had returned when it was made. -/
structure Answer (Obj Val : Type) where
  id : Nat
  known : List (Recording Obj Val)
  result : Option Val

/-- The next step of an operation or a finaliser. -/
inductive Frame (Obj Val : Type)
  /-- `record`. -/
  | fresh (closure : Obj) (boxed : Val)
  | tryFinalise (closure : Obj) (boxed : Val) (key : Nat)
  | lock (closure : Obj) (boxed : Val) (key : Nat) (finalised : Bool)
  | findId (fn : Obj) (boxed : Val) (id : Nat)
  | addId (fn : Obj) (boxed : Val) (id : Nat)
  | add (closure : Obj) (boxed : Val) (key : Nat)
  | unlock (closure : Obj) (boxed : Val) (id : Nat)
  /-- `retrieve`. -/
  | retrieveLock (id : Nat) (known : List (Recording Obj Val))
  | retrieveFind (id : Nat) (known : List (Recording Obj Val))
  | retrieveUnlock (id : Nat) (known : List (Recording Obj Val)) (f : Option Val)
  /-- `cleanup`, the function that `finalise` returns. -/
  | cleanup (fn : Obj) (key : Nat)
  | remove (fn : Obj) (key : Nat)
  | cleanupUnlock
  | reinstall (fn : Obj) (key : Nat)

def Frame.critical : Frame Obj Val → Bool
  | .findId _ _ _ | .addId _ _ _ | .add _ _ _ | .unlock _ _ _ => true
  | .retrieveFind _ _ | .retrieveUnlock _ _ _ => true
  | .remove _ _ | .cleanupUnlock => true
  | _ => false

/-- What the threads share. Bindings of a hash table are listed from the most
recent one. -/
structure Shared (Obj Val : Type) where
  functionById : List (Nat × Val)
  idByFunction : List (Obj × Nat)
  /-- Whether `tables_lock` is taken. -/
  locked : Bool
  /-- The identifier of the next object. -/
  nextId : Nat
  /-- The closures with finalisers, and their keys. -/
  finalisers : List (Obj × Nat)
  /-- The closures found unreachable. -/
  dead : List Obj
  /-- The calls of `record`, the keys that they drew and their results. -/
  calls : List (Obj × Val)
  issued : List (Nat × Obj × Val)
  recorded : List (Recording Obj Val)
  answers : List (Answer Obj Val)

/-- A frame runs. There is no step while it waits for the lock. -/
def Frame.run (heap : Obj → Bool) :
    Frame Obj Val → Shared Obj Val → Option (Shared Obj Val × Option (Frame Obj Val))
  | .fresh c v, s =>
      some ({ s with nextId := s.nextId + 1, issued := (s.nextId, c, v) :: s.issued },
        some (.tryFinalise c v s.nextId))
  | .tryFinalise c v key, s =>
      -- `Gc.finalise` does not accept a static function
      if heap c then
        some ({ s with finalisers := (c, key) :: s.finalisers }, some (.lock c v key true))
      else some (s, some (.lock c v key false))
  | .lock c v key finalised, s =>
      if s.locked then none
      else some ({ s with locked := true },
        some (if finalised then .add c v key else .findId c v key))
  | .findId c v key, s =>
      match s.idByFunction.lookup c with
      | some id => some (s, some (.unlock c v id))
      | none => some (s, some (.addId c v key))
  | .addId c v key, s =>
      some ({ s with idByFunction := (c, key) :: s.idByFunction }, some (.add c v key))
  | .add c v key, s =>
      some ({ s with functionById := (key, v) :: s.functionById }, some (.unlock c v key))
  | .unlock c v id, s =>
      some ({ s with locked := false, recorded := ⟨c, v, id⟩ :: s.recorded }, none)
  | .retrieveLock id known, s =>
      if s.locked then none
      else some ({ s with locked := true }, some (.retrieveFind id known))
  | .retrieveFind id known, s =>
      some (s, some (.retrieveUnlock id known (s.functionById.lookup id)))
  | .retrieveUnlock id known f, s =>
      some ({ s with locked := false, answers := ⟨id, known, f⟩ :: s.answers }, none)
  | .cleanup fn key, s =>
      -- while the lock is held the attempt is abandoned
      if s.locked then some (s, some (.reinstall fn key))
      else some ({ s with locked := true }, some (.remove fn key))
  | .remove _ key, s =>
      some ({ s with functionById := s.functionById.eraseP (·.1 = key) }, some .cleanupUnlock)
  | .cleanupUnlock, s => some ({ s with locked := false }, none)
  | .reinstall fn key, s => some ({ s with finalisers := (fn, key) :: s.finalisers }, none)

structure State (Obj Val Tid : Type) where
  shared : Shared Obj Val
  threads : Tid → List (Frame Obj Val)

inductive Action (Obj Val Tid : Type)
  | record (t : Tid) (closure : Obj) (boxed : Val)
  | retrieve (t : Tid) (id : Nat)
  /-- The garbage collector finds a closure unreachable. -/
  | unreachable (closure : Obj)
  /-- A finaliser starts on a thread, whatever that is doing. -/
  | finalise (t : Tid) (closure : Obj) (key : Nat)
  /-- Another object draws an identifier. -/
  | otherObject
  | run (t : Tid)

def State.push (s : State Obj Val Tid) (t : Tid) (f : Frame Obj Val) : State Obj Val Tid :=
  { s with threads := set s.threads t (f :: s.threads t) }

def step (heap : Obj → Bool) : Action Obj Val Tid → State Obj Val Tid → Option (State Obj Val Tid)
  | .record t c v, s =>
      if c ∈ s.shared.dead then none
      else some ({ s with shared.calls := (c, v) :: s.shared.calls }.push t (.fresh c v))
  | .retrieve t id, s => some (s.push t (.retrieveLock id s.shared.recorded))
  | .unreachable c, s =>
      if heap c then some { s with shared.dead := c :: s.shared.dead } else none
  | .finalise t c key, s =>
      if c ∈ s.shared.dead ∧ (c, key) ∈ s.shared.finalisers then
        some ({ s with shared.finalisers := s.shared.finalisers.erase (c, key) }.push t
          (.cleanup c key))
      else none
  | .otherObject, s => some { s with shared.nextId := s.shared.nextId + 1 }
  | .run t, s =>
      match s.threads t with
      | [] => none
      | f :: fs => do
          let (shared, new) ← f.run heap s.shared
          return ⟨shared, set s.threads t (new.toList ++ fs)⟩

def init : State Obj Val Tid where
  shared :=
    { functionById := [], idByFunction := [], locked := false, nextId := 0, finalisers := []
      dead := [], calls := [], issued := [], recorded := [], answers := [] }
  threads _ := []

/-- No static function is recorded again with a different value. -/
def Meets (heap : Obj → Bool) (a : Action Obj Val Tid) (s : State Obj Val Tid) : Prop :=
  match a with
  | .record _ c v => heap c = false → ∀ v', (c, v') ∈ s.shared.calls → v' = v
  | _ => True

/-- What users of the table rely on. -/
structure Guaranteed (s : State Obj Val Tid) : Prop where
  retrieves : ∀ r ∈ s.shared.recorded, r.closure ∉ s.shared.dead →
    s.shared.functionById.lookup r.id = some r.value
  answered : ∀ a ∈ s.shared.answers, ∀ r ∈ a.known, r.id = a.id →
    r.closure ∉ s.shared.dead → a.result = some r.value
  removes : ∀ t fn key, .remove fn key ∈ s.threads t → fn ∈ s.shared.dead ∧
    (∀ c v, (key, c, v) ∈ s.shared.issued → c = fn) ∧
    ∀ r ∈ s.shared.recorded, r.id = key → r.closure = fn
  distinct : ∀ r ∈ s.shared.recorded, ∀ r' ∈ s.shared.recorded, r.closure ∉ s.shared.dead →
    r'.closure ∉ s.shared.dead → r.value ≠ r'.value → r.id ≠ r'.id
  free : (∀ t, s.threads t = []) → s.shared.locked = false

end CtypesCbuf.CtypesForeign.ClosureProperties
