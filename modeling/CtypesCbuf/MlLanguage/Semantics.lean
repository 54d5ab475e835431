import CtypesCbuf.MlLanguage.Patterns

/-!
Running generated ML code. Functions that the code gets from elsewhere are
parameters: those of the views, the external, and what `Ctypes`, `Bytes` and
`Lwt` do to values. A run keeps a log of the calls among these that matter.
-/

namespace CtypesCbuf.MlLanguage

open Ctypes hiding Fn
open CLanguage Stubs Cbuf Cbuf.GenerateML

/-- Values `V`, and what functions do to them and to a world `W`. -/
structure Interp (V W : Type) where
  unit : V
  tuple : List V → V
  /-- The components of a pair. -/
  fst : V → V
  snd : V → V
  /-- What the constructors `CPointer` and `Static_funptr` are applied to. -/
  cpointer : V → V
  staticFunptr : V → V
  addr : V → V
  ocamlBytesStart : V → V
  makePtr : Typ → V → V
  makeFunPtr : Ctypes.Fn → V → V
  makeStructured : Typ → V → V
  write : ViewId → V → W → V × W
  read : ViewId → V → W → V × W
  bytesCreate : Nat → W → V × W
  external : List V → W → V × W
  runJob : V → V
  /-- The value of a promise, once it has one, and a promise that has it. -/
  await : V → V
  resolved : V → V
  boxLwt : V → V

inductive Event (V : Type)
  | write (p : Place) (v : ViewId) (x : V)
  | read (p : Place) (v : ViewId) (x : V)
  | create (i : Nat)
  | call (args : List V)

/-- The log so far and the world. -/
structure Store (V W : Type) where
  log : List (Event V)
  world : W

/-- The library functions that generated code refers to. -/
inductive Library
  | addr | ocamlBytesStart | bytesCreate | makePtr | makeFunPtr | makeStructured
  | useValue | mapResult | boxLwt | lwtReturn | lwtBind | runJob | detach
  deriving DecidableEq, Repr

def libraryTable : List (Path × Library) :=
  [(["Ctypes", "addr"], .addr),
    (["Ctypes", "ocaml_bytes_start"], .ocamlBytesStart),
    (["Bytes", "create"], .bytesCreate),
    (["CI", "make_ptr"], .makePtr),
    (["CI", "make_fun_ptr"], .makeFunPtr),
    (["CI", "make_structured"], .makeStructured),
    (["CI", "use_value"], .useValue),
    (["map_result"], .mapResult),
    (["box_lwt"], .boxLwt),
    (["Lwt", "return"], .lwtReturn),
    (["Lwt", "bind"], .lwtBind),
    (["Lwt_unix", "run_job"], .runJob),
    (["Lwt_preemptive", "detach"], .detach)]

/-- What an expression stands for: a value, a part of a description, the
external or a library function applied to some arguments, or a function. -/
inductive Sem (V W : Type)
  | val (v : V)
  | data (d : Data)
  | external (args : List V)
  | library (f : Library) (args : List (Sem V W))
  | fn (f : V → Store V W → Option (Sem V W × Store V W))

abbrev Env (V W : Type) := List (String × Sem V W)

/-- What the generated file around a case decides. -/
structure File where
  concurrency : ConcurrencyPolicy
  errno_ : ErrnoPolicy
  external : Path
  arity : Nat

variable {V W : Type}

def lookupLocal (env : Env V W) : Path → Option (Sem V W)
  | [x] => env.lookup x
  | _ => none

/-- The value of a name: a local one, the external, or one of the library. -/
def evalIdent (F : File) (env : Env V W) (p : Path) : Option (Sem V W) :=
  match lookupLocal env p with
  | some d => some d
  | none =>
      if p = F.external then some (.external [])
      else (libraryTable.lookup p).map fun f => .library f []

variable (I : Interp V W) (F : File)

def applyVal : Sem V W → V → Store V W → Option (Sem V W × Store V W)
  | .data (.write p v), x, s =>
      let (y, w) := I.write v x s.world
      some (.val y, { log := s.log ++ [.write p v x], world := w })
  | .data (.read p v), x, s =>
      let (y, w) := I.read v x s.world
      some (.val y, { log := s.log ++ [.read p v x], world := w })
  | .external args, x, s =>
      let args := args ++ [x]
      if args.length < F.arity then some (.external args, s)
      else
        let (y, w) := I.external args s.world
        some (.val y, { log := s.log ++ [.call args], world := w })
  | .fn f, x, s => f x s
  | .library .addr [], x, s => some (.val (I.addr x), s)
  | .library .ocamlBytesStart [], x, s => some (.val (I.ocamlBytesStart x), s)
  | .library .makePtr [.data (.typ _ t)], x, s => some (.val (I.makePtr t x), s)
  | .library .makeFunPtr [.data (.ctypesFn fn)], x, s => some (.val (I.makeFunPtr fn x), s)
  | .library .makeStructured [.data (.typ _ t)], x, s =>
      some (.val (I.makeStructured t x), s)
  | .library .useValue [], _, s => some (.val I.unit, s)
  | .library .boxLwt [], x, s => some (.val (I.boxLwt x), s)
  | .library .lwtReturn [], x, s => some (.val (I.resolved x), s)
  | .library .lwtBind [], x, s => some (.library .lwtBind [.val x], s)
  | .library .runJob [], x, s => some (.val (I.runJob x), s)
  | _, _, _ => none

/-- `g` is applied to a value and `k` to what it returns. -/
def applyThen (g : Sem V W) (x : V) (k : V → V) (s : Store V W) :
    Option (Sem V W × Store V W) :=
  match applyVal I F g x s with
  | some (.val y, s) => some (.val (k y), s)
  | _ => none

/-- `map_result`, as `write_map_result` defines it. -/
def applyMapResult (g : Sem V W) (x : V) (s : Store V W) : Option (Sem V W × Store V W) :=
  match F.concurrency, F.errno_ with
  | .sequential, .ignoreErrno | .unlocked, .ignoreErrno => applyVal I F g x s
  | .sequential, .returnErrno | .unlocked, .returnErrno =>
      applyThen I F g (I.fst x) (fun y => I.tuple [y, I.snd x]) s
  | .lwtJobs, .ignoreErrno | .lwtPreemptive, .ignoreErrno =>
      applyThen I F g (I.await x) I.resolved s
  | .lwtJobs, .returnErrno | .lwtPreemptive, .returnErrno =>
      let v := I.await x
      applyThen I F g (I.fst v) (fun y => I.resolved (I.tuple [y, I.snd v])) s

def apply : Sem V W → Sem V W → Store V W → Option (Sem V W × Store V W)
  | .library .mapResult [g], .val x, s => applyMapResult I F g x s
  -- the function runs in a thread of its own, once
  | .library .detach [g], .val x, s => applyThen I F g x I.resolved s
  | f, .val x, s => applyVal I F f x s
  | .library .bytesCreate [], .data (.int i), s =>
      let (y, w) := I.bytesCreate i s.world
      some (.val y, { log := s.log ++ [.create i], world := w })
  | .library .lwtBind [.val x], g, s => applyVal I F g (I.await x) s
  | .library f [], d, s => some (.library f [d], s)
  | _, _, _ => none

/-- What `let p = d` binds. -/
def bindPat : MlPat → Sem V W → Env V W → Option (Env V W)
  | .var x, d, env => some ((x, d) :: env)
  | .con c (.cons (.var x) .nil), .val v, env =>
      if c = ["CI", "CPointer"] then some ((x, .val (I.cpointer v)) :: env)
      else if c = ["CI", "Static_funptr"] then some ((x, .val (I.staticFunptr v)) :: env)
      else none
  | _, _, _ => none

/-- `fun xs -> ...`. -/
def close (body : Env V W → Store V W → Option (Sem V W × Store V W)) :
    List String → Env V W → Store V W → Option (Sem V W × Store V W)
  | [], env, s => body env s
  | x :: xs, env, s => some (.fn fun v s => close body xs ((x, .val v) :: env) s, s)

/-- `CI.make_ptr t e`, and the like: the value comes first. -/
def evalMake (f : Library) (r : Option (Sem V W × Store V W))
    (t : Store V W → Option (Sem V W × Store V W)) : Option (Sem V W × Store V W) :=
  r.bind fun (d, s) => (t s).bind fun (g, s) => apply I F (.library f [g]) d s

mutual
/-- Arguments are evaluated before functions, and from right to left. -/
def eval : MlExp → Env V W → Store V W → Option (Sem V W × Store V W)
  | .ident p, env, s => (evalIdent F env p).map fun d => (d, s)
  | .project e l, env, s =>
      match eval e env s with
      | some (.data d, s) => (d.field l).map fun d => (.data d, s)
      | _ => none
  | .makePtr t e, env, s => evalMake I F .makePtr (eval e env s) (eval t env)
  | .makeFunPtr t e, env, s => evalMake I F .makeFunPtr (eval e env s) (eval t env)
  | .makeStructured t e, env, s => evalMake I F .makeStructured (eval e env s) (eval t env)
  | .appl f p, env, s =>
      (eval p env s).bind fun (d, s) => (eval f env s).bind fun (g, s) => apply I F g d s
  | .tuple es, env, s => (evalTuple es env s).map fun (vs, s) => (.val (I.tuple vs), s)
  | .seq e1 e2, env, s => (eval e1 env s).bind fun (_, s) => eval e2 env s
  | .letIn p e1 e2, env, s =>
      (eval e1 env s).bind fun (d, s) => (bindPat I p d env).bind fun env => eval e2 env s
  | .unit, _, s => some (.val I.unit, s)
  | .fn xs e, env, s => close (fun env s => eval e env s) xs env s
  | .const c, _, s => (literal c).map fun i => (.data (.int i), s)
def evalTuple : MlExps → Env V W → Store V W → Option (List V × Store V W)
  | .nil, _, s => some ([], s)
  | .cons e es, env, s =>
      (evalTuple es env s).bind fun (vs, s) =>
        match eval e env s with
        | some (.val v, s) => some (v :: vs, s)
        | _ => none
end
def applyAll : Sem V W → List V → Store V W → Option (Sem V W × Store V W)
  | f, [], s => some (f, s)
  | f, v :: vs, s => (applyVal I F f v s).bind fun (g, s) => applyAll g vs s

/-- The call of what `foreign name t` returns, where `c` is the case taken. -/
def callWrapper (c : Case) (t : Cbuf.Fn) (args : List V) (w : W) :
    Option (Sem V W × Store V W) :=
  (matchPat c.pat (.fn 0 t)).bind fun b =>
    (eval I F c.exp (b.map fun q => (q.1, .data q.2)) { log := [], world := w }).bind
      fun (f, s) => applyAll I F f args s

end CtypesCbuf.MlLanguage
