import CtypesCbuf.Cbuf.Static

/-!
The C code that the stub generators build, `Cbuf_c_language`. The module
`Cstubs_c_language` is the same without `BufTy`, so both generators build
their code here.
-/

namespace CtypesCbuf.CLanguage

open Ctypes hiding Fn
open Cbuf

inductive Ty
  | ty (t : Typ)
  | bufTy (b : CBuffers)
  deriving DecidableEq, Repr

structure CFunction where
  fname : String
  allocates : Bool
  readsOcamlHeap : Bool
  fn : Fn
  deriving DecidableEq, Repr

structure CGlobal where
  name : String
  referencesOcamlHeap : Bool
  typ : Ty
  deriving DecidableEq, Repr

abbrev CLocal := String × Ty

instance : LawfulBEq CLocal := inferInstance

inductive CVar
  | clocal (x : CLocal)
  | global (g : CGlobal)
  deriving DecidableEq, Repr

inductive StorageClass
  | static | external
  deriving DecidableEq, Repr

inductive CExp
  | int (i : Int)
  | clocal (x : CLocal)
  | cast (ty : Ty) (e : CExp)
  | addr (v : CVar)
  deriving DecidableEq, Repr

inductive CLvalue
  | var (v : CVar)
  | index (lv : CLvalue) (i : CExp)
  | field (lv : CLvalue) (f : String)
  | pointerField (lv : CLvalue) (f : String)
  deriving DecidableEq, Repr

inductive CamlOp
  | camlParam0
  | camlLocalN (e c : CExp)
  | camlDrop
  deriving DecidableEq, Repr

inductive CEff
  | exp (e : CExp)
  | camlop (o : CamlOp)
  | global (g : CGlobal)
  | app (f : CFunction) (es : List CExp)
  | index (e : CEff) (i : CExp)
  | deref (e : CExp)
  | derefField (e : CExp) (f : String)
  deriving DecidableEq, Repr

abbrev CBind := CLocal × CEff

inductive CComp
  | eff (e : CEff)
  | camlParam (xs : List String) (c : CComp)
  | letConst (x : CLocal) (i : Int) (c : CComp)
  | letAssign (lv : CLvalue) (e : CEff) (c : CComp)
  | camlReturnT (ty : Ty) (e : CExp)
  | ret (ty : Ty) (e : CExp)
  | letIn (b : CBind) (c : CComp)
  deriving DecidableEq, Repr

instance : Coe CExp CEff := ⟨.exp⟩
instance : Coe CEff CComp := ⟨.eff⟩

structure CFundec where
  name : String
  params : List (String × Ty)
  ret : Ty
  deriving DecidableEq, Repr

structure CFundef where
  dec : CFundec
  body : CComp
  storage : StorageClass
  deriving DecidableEq, Repr

def returnType : Fn → Ty
  | .function _ f => returnType f
  | .returns t => .ty t
  | .buffers _ b _ => .bufTy b

/-! ### Types of C code, `Type_C` -/

def typeExp : CExp → Ty
  | .int _ => .ty sint
  | .clocal (_, ty) => ty
  | .cast ty _ => ty
  | .addr (.global { typ := .ty t, .. }) => .ty (.pointer t)
  | .addr (.global { typ := .bufTy b, .. }) => .bufTy b
  | .addr (.clocal (_, .ty t)) => .ty (.pointer t)
  | .addr (.clocal (_, .bufTy b)) => .bufTy b

def typeCamlOp : CamlOp → Ty
  | _ => .ty .void

def referenceOf : Ty → Except Exn Ty
  | .ty (.pointer t) => .ok (.ty t)
  | .ty (.array t _) => .ok (.ty t)
  | .ty t => .error (.internalError
      "dereferencing expression of non-pointer type %s" [] t)
  | .bufTy _ => .error .matchFailure

def lookupField (f : String) (ty : Typ) : Fields → Except Exn Ty
  | .nil => .error (.internalError "field %s not found in struct %s" [f] ty)
  | .cons ftype _ fname rest =>
      if fname = f then .ok (.ty ftype) else lookupField f ty rest

def fieldOf (f : String) : Ty → Except Exn Ty
  | .ty (.pointer (.struct tag spec fields)) =>
      lookupField f (.struct tag spec fields) fields
  | .ty t => .error (.internalError ("accessing a field %s in an expression of " ++
      "type %s, which is not a pointer-to-struct type") [f] t)
  | .bufTy _ => .error .matchFailure

def typeEff : CEff → Except Exn Ty
  | .exp e => .ok (typeExp e)
  | .camlop o => .ok (typeCamlOp o)
  | .global g => .ok g.typ
  | .app f _ => .ok (returnType f.fn)
  | .index e _ => do referenceOf (← typeEff e)
  | .deref e => referenceOf (typeExp e)
  | .derefField e f => fieldOf f (typeExp e)

def typeComp : CComp → Except Exn Ty
  | .eff e => typeEff e
  | .camlParam _ c => typeComp c
  | .letIn _ c => typeComp c
  | .letConst _ _ c => typeComp c
  | .letAssign _ _ c => typeComp c
  | .camlReturnT ty _ => .ok ty
  | .ret ty _ => .ok ty

/-! ### Functions of the runtime -/

def value : Typ := .abstract ⟨"value", 0, 0⟩

def reader (fname : String) (fn : Fn) : CFunction :=
  { fname, allocates := false, readsOcamlHeap := true, fn }

def conser (fname : String) (fn : Fn) : CFunction :=
  { fname, allocates := true, readsOcamlHeap := false, fn }

def immediater (fname : String) (fn : Fn) : CFunction :=
  { fname, allocates := false, readsOcamlHeap := false, fn }

/-- `value @-> returning t` and `t @-> returning value`, built without the
checks of the smart constructors. -/
def valueTo (t : Typ) : Fn := .function value (.returns t)

def toValue (t : Typ) : Fn := .function t (.returns value)

def primPrj : Prim → CFunction
  | .char => reader "Int_val" (valueTo int)
  | .schar => reader "Int_val" (valueTo int)
  | .uchar => reader "Uint8_val" (valueTo (.primitive .uint8T))
  | .bool => reader "Bool_val" (valueTo (.primitive .bool))
  | .short => reader "Int_val" (valueTo int)
  | .int => reader "Long_val" (valueTo int)
  | .long => reader "ctypes_long_val" (valueTo (.primitive .long))
  | .llong => reader "ctypes_llong_val" (valueTo (.primitive .llong))
  | .ushort => reader "ctypes_ushort_val" (valueTo (.primitive .ushort))
  | .sint => reader "ctypes_sint_val" (valueTo sint)
  | .uint => reader "ctypes_uint_val" (valueTo (.primitive .uint))
  | .ulong => reader "ctypes_ulong_val" (valueTo (.primitive .ulong))
  | .ullong => reader "ctypes_ullong_val" (valueTo (.primitive .ullong))
  | .sizeT => reader "ctypes_size_t_val" (valueTo (.primitive .sizeT))
  | .int8T => reader "Int_val" (valueTo int)
  | .int16T => reader "Int_val" (valueTo int)
  | .int32T => reader "Int32_val" (valueTo (.primitive .int32T))
  | .int64T => reader "Int64_val" (valueTo (.primitive .int64T))
  | .uint8T => reader "Uint8_val" (valueTo (.primitive .uint8T))
  | .uint16T => reader "Uint16_val" (valueTo (.primitive .uint16T))
  | .uint32T => reader "Uint32_val" (valueTo (.primitive .uint32T))
  | .uint64T => reader "Uint64_val" (valueTo (.primitive .uint64T))
  | .camlint => reader "Long_val" (valueTo int)
  | .nativeint => reader "Nativeint_val" (valueTo (.primitive .nativeint))
  | .float => reader "Double_val" (valueTo (.primitive .double))
  | .double => reader "Double_val" (valueTo (.primitive .double))
  | .ldouble => reader "ctypes_ldouble_val" (valueTo (.primitive .ldouble))
  | .complex32 =>
      reader "ctypes_float_complex_val" (valueTo (.primitive .complex32))
  | .complex64 =>
      reader "ctypes_double_complex_val" (valueTo (.primitive .complex64))
  | .complexld =>
      reader "ctypes_ldouble_complex_val" (valueTo (.primitive .complexld))

def primInj : Prim → CFunction
  | .char => immediater "Ctypes_val_char" (toValue int)
  | .schar => immediater "Val_int" (toValue int)
  | .uchar => immediater "Integers_val_uint8" (toValue (.primitive .uint8T))
  | .bool => immediater "Val_bool" (toValue (.primitive .bool))
  | .short => immediater "Val_int" (toValue int)
  | .int => immediater "Val_long" (toValue int)
  | .long => conser "ctypes_copy_long" (toValue (.primitive .long))
  | .llong => conser "ctypes_copy_llong" (toValue (.primitive .llong))
  | .ushort => conser "ctypes_copy_ushort" (toValue (.primitive .ushort))
  | .sint => conser "ctypes_copy_sint" (toValue sint)
  | .uint => conser "ctypes_copy_uint" (toValue (.primitive .uint))
  | .ulong => conser "ctypes_copy_ulong" (toValue (.primitive .ulong))
  | .ullong => conser "ctypes_copy_ullong" (toValue (.primitive .ullong))
  | .sizeT => conser "ctypes_copy_size_t" (toValue (.primitive .sizeT))
  | .int8T => immediater "Val_int" (toValue int)
  | .int16T => immediater "Val_int" (toValue int)
  | .int32T => conser "caml_copy_int32" (toValue (.primitive .int32T))
  | .int64T => conser "caml_copy_int64" (toValue (.primitive .int64T))
  | .uint8T => immediater "Integers_val_uint8" (toValue (.primitive .uint8T))
  | .uint16T => immediater "Integers_val_uint16" (toValue (.primitive .uint16T))
  | .uint32T => conser "integers_copy_uint32" (toValue (.primitive .uint32T))
  | .uint64T => conser "integers_copy_uint64" (toValue (.primitive .uint64T))
  | .camlint => immediater "Val_long" (toValue int)
  | .nativeint => conser "caml_copy_nativeint" (toValue (.primitive .nativeint))
  | .float => conser "caml_copy_double" (toValue (.primitive .double))
  | .double => conser "caml_copy_double" (toValue (.primitive .double))
  | .ldouble => conser "ctypes_copy_ldouble" (toValue (.primitive .ldouble))
  | .complex32 =>
      conser "ctypes_copy_float_complex" (toValue (.primitive .complex32))
  | .complex64 =>
      conser "ctypes_copy_double_complex" (toValue (.primitive .complex64))
  | .complexld =>
      conser "ctypes_copy_ldouble_complex" (toValue (.primitive .complexld))

/-- Every projection of a primitive reads the heap and allocates nothing. -/
@[simp] theorem primPrj_allocates (p : Prim) : (primPrj p).allocates = false := by
  cases p <;> rfl

@[simp] theorem primPrj_readsOcamlHeap (p : Prim) :
    (primPrj p).readsOcamlHeap = true := by
  cases p <;> rfl

@[simp] theorem primInj_readsOcamlHeap (p : Prim) :
    (primInj p).readsOcamlHeap = false := by
  cases p <;> rfl

/-- The primitive type that a projection's C result has. -/
def primPrjResult : Prim → Prim
  | .char | .schar | .short | .int | .int8T | .int16T | .camlint => .int
  | .uchar => .uint8T
  | .float => .double
  | p => p

@[simp] theorem returnType_primPrj (p : Prim) :
    returnType (primPrj p).fn = .ty (.primitive (primPrjResult p)) := by
  cases p <;> rfl

@[simp] theorem returnType_primInj (p : Prim) :
    returnType (primInj p).fn = .ty value := by
  cases p <;> rfl

end CtypesCbuf.CLanguage
