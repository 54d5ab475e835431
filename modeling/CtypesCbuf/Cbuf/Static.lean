import CtypesCbuf.Ctypes.Static

/-! Function specifications with output buffers, `Cbuf_static`. -/

namespace CtypesCbuf.Cbuf

open Ctypes

/-- Where the buffers stand in the call of the C function. -/
inductive CPosition
  | first | last
  deriving DecidableEq, Repr

inductive CBuffers
  | lastBuf (i : Nat) (t : Typ)
  | conBuf (l r : CBuffers)
  deriving DecidableEq, Repr

inductive Fn
  | returns (t : Typ)
  | function (f : Typ) (t : Fn)
  | buffers (cpos : CPosition) (buf : CBuffers) (return_ : Fn)
  deriving DecidableEq, Repr

/-- `buffer i ty`. -/
def buffer (i : Nat) (ty : Typ) : CBuffers := .lastBuf i ty

/-- `retbuf ?cposition buf return`. -/
def retbuf (buf : CBuffers) (return_ : Fn) (cposition : CPosition := .last) : Fn :=
  .buffers cposition buf return_

/-- `f @-> t`. -/
def arrow (f : Typ) (t : Fn) : Except Exn Fn := do
  if !(← passable f) then throw (.unsupported "Unsupported argument type")
  else return .function f t

def returning (v : Typ) : Except Exn Fn := do
  if !(← passable v) then throw (.unsupported "Unsupported return type")
  else return .returns v

/-- A specification without buffers, as the `Cstubs` generators take it. -/
def Fn.ofCtypes : Ctypes.Fn → Fn
  | .returns t => .returns t
  | .function f t => .function f (ofCtypes t)

/-- `a1 @-> ... @-> an @-> tail`. -/
def arrows (args : List Typ) (tail : Fn) : Fn := args.foldr .function tail

@[simp] theorem arrows_nil (tail : Fn) : arrows [] tail = tail := rfl

@[simp] theorem arrows_cons (a : Typ) (args : List Typ) (tail : Fn) :
    arrows (a :: args) tail = .function a (arrows args tail) := rfl

def Fn.arguments : Fn → List Typ
  | .returns _ => []
  | .function f t => f :: t.arguments
  | .buffers _ _ _ => []

def CBuffers.types : CBuffers → List Typ
  | .lastBuf _ t => [t]
  | .conBuf l r => l.types ++ r.types

/-- The types of the arguments, the buffers and the result. -/
def Fn.types : Fn → List Typ
  | .returns t => [t]
  | .function f t => f :: t.types
  | .buffers _ b r => b.types ++ r.types

def Fn.tail : Fn → Fn
  | .returns t => .returns t
  | .function _ t => t.tail
  | .buffers cpos b r => .buffers cpos b r

theorem arrows_arguments (f : Fn) : arrows f.arguments f.tail = f := by
  induction f with
  | returns t => rfl
  | function f t ih => rw [Fn.arguments, Fn.tail, arrows_cons, ih]
  | buffers cpos b r _ => rfl

/-- `buffer s1 t1 @* ... @* buffer sm tm`, with the first buffer apart. -/
def bufferList (s : Nat) (t : Typ) : List (Nat × Typ) → CBuffers
  | [] => buffer s t
  | (s', t') :: rest => .conBuf (buffer s t) (bufferList s' t' rest)

end CtypesCbuf.Cbuf
