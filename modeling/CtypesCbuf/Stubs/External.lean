import CtypesCbuf.CLanguage.LetNormal

/-!
The types of the ML externals, the part of `Cbuf_generate_ml` and
`Cstubs_generate_ml` that the two share, with the analyses of
`Cbuf_analysis` behind the attributes of an external.
-/

namespace CtypesCbuf.Stubs

open NameSupply Supply
open Ctypes hiding Fn
open CLanguage

abbrev Path := List String

/-- `ml_type`. Every application that is built has one argument. -/
inductive MlType
  | ident (p : Path)
  | appl (p : Path) (t : MlType)
  | pair (t u : MlType)
  deriving DecidableEq, Repr

structure MlExternalType where
  args : List MlType
  result : MlType
  deriving DecidableEq, Repr

structure Attributes where
  float : Bool
  noalloc : Bool
  deriving DecidableEq, Repr

structure Extern where
  ident : String
  typ : MlExternalType
  primname : String
  primnameByte : Option String
  attributes : Attributes
  deriving DecidableEq, Repr

def arity (t : MlExternalType) : Nat := t.args.length

def byteStubName (name : String) (t : MlExternalType) : Option String :=
  if arity t > maxByteArgs then some (byteName name (arity t)) else none

def identOfMlPrim : MlPrim → Path
  | .char => ["char"]
  | .bool => ["bool"]
  | .complex => ["Complex", "t"]
  | .float => ["float"]
  | .int => ["int"]
  | .int32 => ["int32"]
  | .int64 => ["int64"]
  | .llong => ["Signed", "llong"]
  | .long => ["Signed", "long"]
  | .sint => ["Signed", "sint"]
  | .nativeint => ["nativeint"]
  | .sizeT => ["Unsigned", "size_t"]
  | .uchar => ["Unsigned", "uchar"]
  | .uint => ["Unsigned", "uint"]
  | .uint16 => ["Unsigned", "uint16"]
  | .uint32 => ["Unsigned", "uint32"]
  | .uint64 => ["Unsigned", "uint64"]
  | .uint8 => ["Unsigned", "uint8"]
  | .ullong => ["Unsigned", "ullong"]
  | .ulong => ["Unsigned", "ulong"]
  | .ushort => ["Unsigned", "ushort"]
  | .ldouble => ["LDouble", "t"]
  | .complexld => ["ComplexL", "t"]

def managedBuffer : MlType := .ident ["CI", "managed_buffer"]

def voidp : MlType := .ident ["CI", "voidp"]

def fatptr : MlType := .appl ["CI", "fatptr"] (.ident ["_"])

def fatfunptr : MlType := .appl ["CI", "fatfunptr"] (.ident ["_"])

def mlTypOfReturnTyp : Typ → Except Exn MlType
  | .void => .ok (.ident ["unit"])
  | .primitive p => .ok (.ident (identOfMlPrim (mlPrim p)))
  | .struct _ _ _ => .ok managedBuffer
  | .union _ _ _ => .ok managedBuffer
  | .abstract _ => .ok managedBuffer
  | .pointer _ => .ok voidp
  | .funptr _ => .ok voidp
  | .view _ ty => mlTypOfReturnTyp ty
  | .array t n => .error (.internalError
      "Unexpected array type in the return type: %s" [] (.array t n))
  | .bigarray ba => .error (.internalError
      "Unexpected bigarray type in the return type: %s" [] (.bigarray ba))
  | .ocaml .string =>
      .error (.unsupported "cstubs does not support OCaml strings as return values")
  | .ocaml .bytes => .error (.unsupported
      "cstubs does not support OCaml bytes values as return values")
  | .ocaml .floatArray => .error (.unsupported
      "cstubs does not support OCaml float arrays as return values")

def mlTypOfArgTyp : Typ → Except Exn MlType
  | .void => .ok (.ident ["unit"])
  | .primitive p => .ok (.ident (identOfMlPrim (mlPrim p)))
  | .pointer _ => .ok fatptr
  | .funptr _ => .ok fatfunptr
  | .struct _ _ _ => .ok fatptr
  | .union _ _ _ => .ok fatptr
  | .abstract _ => .ok fatptr
  | .view _ ty => mlTypOfArgTyp ty
  | .array t n => .error (.internalError
      "Unexpected array in an argument type: %s" [] (.array t n))
  | .bigarray ba => .error (.internalError
      "Unexpected bigarray in an argument type: %s" [] (.bigarray ba))
  | .ocaml .string => .ok (.appl ["CI", "ocaml"] (.ident ["string"]))
  | .ocaml .bytes => .ok (.appl ["CI", "ocaml"] (.ident ["bytes"]))
  | .ocaml .floatArray =>
      .ok (.appl ["CI", "ocaml"] (.appl ["array"] (.ident ["float"])))

/-- `In` for arguments and `Out` for results. -/
inductive Polarity
  | arg | result
  deriving DecidableEq, Repr

def flip : Polarity → Polarity
  | .arg => .result
  | .result => .arg

def mlTypOfTyp : Polarity → Typ → Except Exn MlType
  | .arg => mlTypOfArgTyp
  | .result => mlTypOfReturnTyp

def lwtJobType : Path := ["Lwt_unix", "job"]

def intType : MlType := .ident ["Signed", "sint"]

/-! ### Analyses -/

def isFloatPrimitive : Typ → Bool
  | .primitive .float => true
  | .primitive .double => true
  | _ => false

/-- Whether reading a value of a type may allocate on the OCaml heap. -/
inductive Allocation
  | noalloc | alloc
  deriving DecidableEq, Repr

def primitiveAllocation : Prim → Allocation
  | .char | .bool | .schar | .short | .int | .int8T | .int16T | .uint8T | .uint16T
  | .camlint => .noalloc
  | .long | .llong | .ushort | .uchar | .sint | .uint | .ulong | .ullong | .sizeT
  | .int32T | .int64T | .uint32T | .uint64T | .nativeint | .float | .double | .ldouble
  | .complex32 | .complex64 | .complexld => .alloc

def allocation : Typ → Allocation
  | .void => .noalloc
  | .primitive p => primitiveAllocation p
  | .view _ ty => allocation ty
  | .pointer _ | .funptr _ | .struct _ _ _ | .union _ _ _ | .abstract _ | .array _ _
  | .bigarray _ | .ocaml _ => .alloc

/-! ### Types with an external type -/

/-- Arrays and bigarrays have no ML type of their own in an external. -/
def HasArgTyp : Typ → Prop
  | .array _ _ | .bigarray _ => False
  | _ => True

theorem mlTypOfArgTyp_core (t : Typ) : mlTypOfArgTyp t.core = mlTypOfArgTyp t := by
  induction t using Typ.core.induct with
  | case1 v ty ih => simpa only [Typ.core_view, mlTypOfArgTyp] using ih
  | case2 t h =>
      rw [Typ.core]
      exact h

theorem mlTypOfReturnTyp_core (t : Typ) :
    mlTypOfReturnTyp t.core = mlTypOfReturnTyp t := by
  induction t using Typ.core.induct with
  | case1 v ty ih => simpa only [Typ.core_view, mlTypOfReturnTyp] using ih
  | case2 t h =>
      rw [Typ.core]
      exact h

end CtypesCbuf.Stubs
