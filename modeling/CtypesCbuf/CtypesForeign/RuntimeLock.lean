import CtypesCbuf.Lib.ThreadStacks

/-!
The runtime lock and the registration of threads, in `ffi_call_stubs.c` and
`foreign_threaded_stubs.c`. A thread is a stack of calls: OCaml code calls C
functions by `ctypes_call`, and C code calls OCaml functions by
`callback_handler`. Stubs that are generated for `Unlocked` and inverted stubs
with `runtime_lock` take the same steps.

The functions of the OCaml runtime and of POSIX threads are modelled as they
are documented. What is undefined there sets `fault`.
-/

namespace CtypesCbuf.CtypesForeign.RuntimeLock

open ThreadStacks

/-- `struct call_context`, as far as callbacks read it. -/
structure Context where
  runtimeLock : Bool
  threadRegistration : Bool
  deriving DecidableEq, Repr

/-- The next statement of `ctypes_call`. -/
inductive CallPc
  | release | ffiCall | acquire | read
  deriving DecidableEq, Repr

/-- The next statement of `callback_handler`, with the two statements of
`ctypes_thread_actually_register` that follow a registration. -/
inductive HandlerPc
  | register | createKey | setKey | acquire | call | release
  deriving DecidableEq, Repr

/-- The next statement of `ctypes_thread_unregister`. -/
inductive UnregisterPc
  | unregister | setNull
  deriving DecidableEq, Repr

inductive Frame
  | ocaml
  /-- A system call or a switch of threads within OCaml code. -/
  | blocking
  | call (runtimeLock : Bool) (pc : CallPc)
  | cfunction
  | handler (context : Context) (pc : HandlerPc)
  /-- The thread runs the destructors of its keys. -/
  | exiting
  | unregister (pc : UnregisterPc)
  | exited
  deriving DecidableEq, Repr

inductive Action
  /-- The next statement of the topmost function of ctypes. -/
  | advance
  | enterBlocking
  | leaveBlocking
  | foreignCall (runtimeLock : Bool)
  | callback (context : Context)
  | return_
  /-- An exception leaves the OCaml code that runs. -/
  | raise_
  | startOcaml
  | startC
  | finish
  | destructor (key : Nat)
  | exited
  deriving DecidableEq, Repr

/-- What a statement does apart from the control of its thread. -/
inductive Effect
  | silent
  | acquire
  | release
  /-- Control is handed to OCaml code. -/
  | runOcaml
  /-- `caml_c_thread_register`, of a thread that is not registered. -/
  | register
  | createKey
  | setKey
  | destructor (key : Nat)
  | unregister
  | setNull
  | startThread
  | finishThread
  | exited
  | crash
  deriving DecidableEq, Repr

/-- An exception goes to the OCaml code below. The frames of C functions and of
their callbacks are dropped. -/
def unwind (fs : List Frame) : List Frame × Effect :=
  match fs.dropWhile fun f => f ≠ .ocaml with
  | [] => ([], .crash)
  | f :: fs => (f :: fs, .runOcaml)

/-- `hook` says that `ctypes_setup_thread_registration` has been called. -/
def threadStep (hook registered : Bool) : Action → List Frame → Option (List Frame × Effect)
  -- OCaml code
  | .startOcaml, [] => some ([.blocking, .ocaml], .startThread)
  | .foreignCall lock, .ocaml :: fs => some (.call lock .release :: .ocaml :: fs, .silent)
  | .enterBlocking, .ocaml :: fs => some (.blocking :: .ocaml :: fs, .release)
  | .leaveBlocking, .blocking :: fs => some (fs, .acquire)
  | .return_, .ocaml :: .handler c .release :: fs => some (.handler c .release :: fs, .silent)
  | .raise_, .ocaml :: fs => some (unwind fs)
  | .finish, [.ocaml] => some ([.exited], .finishThread)
  -- `ctypes_call`
  | .advance, .call lock .release :: fs =>
      some (.call lock .ffiCall :: fs, if lock then .release else .silent)
  | .advance, .call lock .ffiCall :: fs => some (.cfunction :: .call lock .acquire :: fs, .silent)
  | .advance, .call lock .acquire :: fs =>
      some (.call lock .read :: fs, if lock then .acquire else .silent)
  | .advance, .call _ .read :: fs => some (fs, .runOcaml)
  -- from the functions that write the arguments or read the result, or `unix_error`
  | .raise_, .call _ .release :: fs => some (unwind fs)
  | .raise_, .call _ .read :: fs => some (unwind fs)
  -- C code
  | .startC, [] => some ([.cfunction], .silent)
  | .startC, [.exiting] => some ([.cfunction, .exiting], .silent)
  | .callback c, .cfunction :: fs => some (.handler c .register :: .cfunction :: fs, .silent)
  | .return_, [.cfunction] => some ([.exiting], .silent)
  | .return_, .cfunction :: fs => some (fs, .silent)
  -- `callback_handler`
  | .advance, .handler c .register :: fs =>
      if c.threadRegistration then
        if hook then
          if registered then some (.handler c .acquire :: fs, .silent)
          else some (.handler c .createKey :: fs, .register)
        else some (unwind fs)
      else some (.handler c .acquire :: fs, .silent)
  | .advance, .handler c .createKey :: fs => some (.handler c .setKey :: fs, .createKey)
  | .advance, .handler c .setKey :: fs => some (.handler c .acquire :: fs, .setKey)
  | .advance, .handler c .acquire :: fs =>
      some (.handler c .call :: fs, if c.runtimeLock then .acquire else .silent)
  | .advance, .handler c .call :: fs => some (.ocaml :: .handler c .release :: fs, .runOcaml)
  | .advance, .handler c .release :: fs =>
      some (fs, if c.runtimeLock then .release else .silent)
  -- the end of a thread
  | .destructor key, [.exiting] => some ([.unregister .unregister, .exiting], .destructor key)
  | .advance, .unregister .unregister :: fs => some (.unregister .setNull :: fs, .unregister)
  | .advance, .unregister .setNull :: fs => some (fs, .setNull)
  | .exited, [.exiting] => some ([.exited], .exited)
  | _, _ => none

/-- `lock` is the thread that holds the runtime lock, and `tls` has the keys of
ctypes whose value is not `NULL`. -/
structure State (Tid : Type) where
  stackOf : Tid → List Frame
  lock : Option Tid
  registered : Tid → Bool
  tls : Tid → List Nat
  cleanupKey : Option Nat
  keys : Nat
  fault : Bool

variable {Tid : Type} [DecidableEq Tid]

/-- The program starts with the thread `t`, in OCaml code. -/
def State.initial (t : Tid) : State Tid where
  stackOf := ThreadStacks.set (fun _ => []) t [.ocaml]
  lock := some t
  registered := Function.update (fun _ => false) t true
  tls _ := []
  cleanupKey := none
  keys := 0
  fault := false

/-- `none` is an effect that waits. Of the keys at most `keysMax` are free when
the program starts. -/
def State.apply (keysMax : Nat) (t : Tid) (s : State Tid) : Effect → Option (State Tid)
  | .silent => some s
  | .acquire =>
      if s.lock = none then
        -- the runtime reads the descriptor of the thread
        some { s with lock := some t, fault := s.fault || !s.registered t }
      else none
  | .release => some { s with lock := none, fault := s.fault || decide (s.lock ≠ some t) }
  | .runOcaml =>
      some { s with fault := s.fault || decide (s.lock ≠ some t) || !s.registered t }
  | .register =>
      -- the lock is taken to change the list of threads, and released
      if s.lock = none then
        some { s with registered := Function.update s.registered t true }
      else none
  | .createKey =>
      -- the result of `pthread_key_create` is not checked
      if s.keys < keysMax then
        some { s with cleanupKey := some s.keys, keys := s.keys + 1 }
      else some s
  | .setKey =>
      match s.cleanupKey with
      | some k => some { s with tls := Function.update s.tls t ((s.tls t).insert k) }
      | none => some s
  | .destructor k =>
      if k ∈ s.tls t then
        some { s with tls := Function.update s.tls t ((s.tls t).filter fun k' => k' ≠ k) }
      else none
  | .unregister =>
      if s.registered t then
        if s.lock = none then
          some { s with registered := Function.update s.registered t false }
        else none
      else some s
  | .setNull =>
      match s.cleanupKey with
      | some k =>
          some { s with tls := Function.update s.tls t ((s.tls t).filter fun k' => k' ≠ k) }
      | none => some s
  | .startThread => some { s with registered := Function.update s.registered t true }
  | .finishThread =>
      some { s with lock := none
                    registered := Function.update s.registered t false
                    fault := s.fault || decide (s.lock ≠ some t) }
  | .exited => if s.tls t = [] then some s else none
  | .crash => some { s with fault := true }

/-- A step of the thread `t`. -/
def step (hook : Bool) (keysMax : Nat) (a : Action × Tid) (s : State Tid) :
    Option (State Tid) := do
  let (fs, e) ← threadStep hook (s.registered a.2) a.1 (s.stackOf a.2)
  let s' ← s.apply keysMax a.2 e
  return { s' with stackOf := ThreadStacks.set s'.stackOf a.2 fs }

end CtypesCbuf.CtypesForeign.RuntimeLock
