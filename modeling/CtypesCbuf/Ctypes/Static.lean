import Mathlib.Logic.Basic

/-!
C types as `Ctypes_static` describes them. A description is first order
here: a view is known by the index of its functions, which the runtime looks
up, and a structure or union type is a snapshot of the mutable record, as the
generator finds it. Sizes, offsets and lengths are natural numbers, and those of
the code as long as they are OCaml integers.
-/

namespace CtypesCbuf.Ctypes

inductive Prim
  | char | schar | uchar | bool | short | int | long | llong | ushort | sint
  | uint | ulong | ullong | sizeT | int8T | int16T | int32T | int64T | uint8T
  | uint16T | uint32T | uint64T | camlint | nativeint | float | double
  | ldouble | complex32 | complex64 | complexld
  deriving DecidableEq, Repr

def Prim.all : List Prim :=
  [.char, .schar, .uchar, .bool, .short, .int, .long, .llong, .ushort, .sint, .uint, .ulong,
    .ullong, .sizeT, .int8T, .int16T, .int32T, .int64T, .uint8T, .uint16T, .uint32T,
    .uint64T, .camlint, .nativeint, .float, .double, .ldouble, .complex32, .complex64,
    .complexld]

theorem Prim.mem_all (p : Prim) : p ∈ Prim.all := by
  cases p <;> decide

/-- The OCaml types that primitives are read at. -/
inductive MlPrim
  | char | complex | complexld | float | ldouble | int | int32 | int64 | llong
  | long | sint | nativeint | sizeT | uchar | bool | uint | uint16 | uint32
  | uint64 | uint8 | ullong | ulong | ushort
  deriving DecidableEq, Repr

def mlPrim : Prim → MlPrim
  | .char => .char
  | .schar => .int
  | .uchar => .uchar
  | .bool => .bool
  | .short => .int
  | .int => .int
  | .long => .long
  | .llong => .llong
  | .ushort => .ushort
  | .sint => .sint
  | .uint => .uint
  | .ulong => .ulong
  | .ullong => .ullong
  | .sizeT => .sizeT
  | .int8T => .int
  | .int16T => .int
  | .int32T => .int32
  | .int64T => .int64
  | .uint8T => .uint8
  | .uint16T => .uint16
  | .uint32T => .uint32
  | .uint64T => .uint64
  | .camlint => .int
  | .nativeint => .nativeint
  | .float => .float
  | .double => .float
  | .ldouble => .ldouble
  | .complex32 => .complex
  | .complex64 => .complex
  | .complexld => .complexld

inductive StructSpec
  | incomplete (isize : Nat)
  | complete (size align : Nat)
  deriving DecidableEq, Repr

structure StructuredSpec where
  size : Nat
  align : Nat
  deriving DecidableEq, Repr

structure AbstractType where
  aname : String
  asize : Nat
  aalignment : Nat
  deriving DecidableEq, Repr

/-- What is read of a bigarray type: its element type and its dimensions. -/
structure Bigarray where
  elementType : Prim
  dimensions : List Nat
  deriving DecidableEq, Repr

inductive OcamlType
  | string | bytes | floatArray
  deriving DecidableEq, Repr

/-- The index of a view's `read` and `write` functions. -/
abbrev ViewId := Nat

mutual
inductive Typ
  | void
  | primitive (p : Prim)
  | pointer (t : Typ)
  | funptr (fn : Fn)
  | struct (tag : String) (spec : StructSpec) (fields : Fields)
  | union (utag : String) (uspec : Option StructuredSpec) (ufields : Fields)
  | abstract (a : AbstractType)
  | view (v : ViewId) (ty : Typ)
  | array (t : Typ) (n : Nat)
  | bigarray (ba : Bigarray)
  | ocaml (ty : OcamlType)
  deriving DecidableEq, Repr
inductive Fields
  | nil
  | cons (ftype : Typ) (foffset : Nat) (fname : String) (rest : Fields)
  deriving DecidableEq, Repr
inductive Fn
  | returns (t : Typ)
  | function (f : Typ) (t : Fn)
  deriving DecidableEq, Repr
end

/-- Exceptions a generator can raise. A message built with `string_of_typ`
keeps its format, the names put into it and the type apart. -/
inductive Exn
  | unsupported (msg : String)
  | unsupportedTyp (fmt : String) (typ : Typ)
  | internalError (fmt : String) (names : List String) (typ : Typ)
  | incompleteType
  | modifyingSealedType (tag : String)
  | invalidArg (msg : String)
  | divisionByZero
  | failure (msg : String)
  | matchFailure
  | assertFailure
  | diverges
  deriving DecidableEq, Repr

/-- What a generator is asked to do with `errno`. -/
inductive ErrnoPolicy
  | ignoreErrno | returnErrno
  deriving DecidableEq, Repr

inductive ConcurrencyPolicy
  | sequential | unlocked | lwtJobs | lwtPreemptive
  deriving DecidableEq, Repr

/-- The policies that leave the call to the calling thread. -/
inductive NonLwt
  | sequential | unlocked
  deriving DecidableEq, Repr

/-- The number of arguments up to which the bytecode interpreter calls the
native function. Every generator has its own copy. -/
def maxByteArgs : Nat := 5

/-- `sprintf "%s_byte%d" name nargs`. -/
def byteName (name : String) (nargs : Nat) : String :=
  name ++ "_byte" ++ Nat.repr nargs

/-- The size of a primitive on a 64-bit platform, as the configuration step
measures it. -/
def Prim.size : Prim → Nat
  | .char | .schar | .uchar | .bool | .int8T | .uint8T => 1
  | .short | .ushort | .int16T | .uint16T => 2
  | .int | .sint | .uint | .int32T | .uint32T | .float => 4
  | .long | .llong | .ulong | .ullong | .sizeT | .int64T | .uint64T | .camlint
  | .nativeint | .double | .complex32 => 8
  | .ldouble | .complex64 => 16
  | .complexld => 32

def pointerSize : Nat := 8

def sizeof : Typ → Except Exn Nat
  | .void => .error .incompleteType
  | .primitive p => .ok p.size
  | .struct _ (.incomplete _) _ => .error .incompleteType
  | .struct _ (.complete size _) _ => .ok size
  | .union _ none _ => .error .incompleteType
  | .union _ (some ⟨size, _⟩) _ => .ok size
  | .array t i => (sizeof t).map fun s => i * s
  | .bigarray ba => .ok (ba.dimensions.foldl (· * ·) 1 * ba.elementType.size)
  | .abstract a => .ok a.asize
  | .pointer _ => .ok pointerSize
  | .funptr _ => .ok pointerSize
  | .ocaml _ => .error .incompleteType
  | .view _ ty => sizeof ty

def Prim.alignment : Prim → Nat
  | .complex32 => 4
  | .complex64 => 8
  | .complexld => 16
  | p => p.size

def pointerAlignment : Nat := 8

def alignment : Typ → Except Exn Nat
  | .void => .error .incompleteType
  | .primitive p => .ok p.alignment
  | .struct _ (.incomplete _) _ => .error .incompleteType
  | .struct _ (.complete _ align) _ => .ok align
  | .union _ none _ => .error .incompleteType
  | .union _ (some ⟨_, align⟩) _ => .ok align
  | .array t _ => alignment t
  | .bigarray ba => .ok ba.elementType.alignment
  | .abstract a => .ok a.aalignment
  | .pointer _ => .ok pointerAlignment
  | .funptr _ => .ok pointerAlignment
  | .ocaml _ => .error .incompleteType
  | .view _ ty => alignment ty

def passable : Typ → Except Exn Bool
  | .void => .ok true
  | .primitive _ => .ok true
  | .struct _ (.incomplete _) _ => .error .incompleteType
  | .struct _ (.complete _ _) _ => .ok true
  | .union _ none _ => .error .incompleteType
  | .union _ (some _) _ => .ok true
  | .array _ _ => .ok false
  | .bigarray _ => .ok false
  | .pointer _ => .ok true
  | .funptr _ => .ok true
  | .abstract _ => .ok false
  | .ocaml _ => .ok true
  | .view _ ty => passable ty

def ocamlValue : Typ → Bool
  | .ocaml _ => true
  | .view _ ty => ocamlValue ty
  | _ => false

def hasOcamlArgument : Fn → Bool
  | .returns _ => false
  | .function f t => if ocamlValue f then true else hasOcamlArgument t

def ptr (t : Typ) : Typ := .pointer t

def int : Typ := .primitive .int

def sint : Typ := .primitive .sint

/-- The type a chain of views represents its values at. -/
def Typ.core : Typ → Typ
  | .view _ ty => ty.core
  | t => t

@[simp] theorem Typ.core_view (v : ViewId) (ty : Typ) :
    (Typ.view v ty).core = ty.core := by
  rw [Typ.core]

theorem Typ.core_ne_view (t : Typ) (v : ViewId) (ty : Typ) : t.core ≠ .view v ty := by
  induction t using Typ.core.induct with
  | case1 w u ih => simpa using ih
  | case2 t h =>
      intro ht
      rw [Typ.core] at ht
      · exact h v ty ht
      · exact h

end CtypesCbuf.Ctypes
