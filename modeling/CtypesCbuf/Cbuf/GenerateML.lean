import CtypesCbuf.Cbuf.Path

/-! Generation of ML code, `Cbuf_generate_ml`. -/

namespace CtypesCbuf.Cbuf.GenerateML

open NameSupply Supply
open Ctypes hiding Fn
open CLanguage Stubs

/-! ### ML code -/

mutual
inductive MlPat
  | var (x : String)
  | record (fs : MlPatFields) (closed : Bool)
  | as (p : MlPat) (x : String)
  | underscore
  | con (c : Path) (ps : MlPats)
  deriving DecidableEq, Repr
inductive MlPats
  | nil
  | cons (p : MlPat) (ps : MlPats)
  deriving DecidableEq, Repr
inductive MlPatFields
  | nil
  | cons (l : Path) (p : MlPat) (fs : MlPatFields)
  deriving DecidableEq, Repr
end

mutual
inductive MlExp
  | ident (p : Path)
  | project (e : MlExp) (l : Path)
  | makePtr (t e : MlExp)
  | makeFunPtr (t e : MlExp)
  | makeStructured (t e : MlExp)
  | appl (f p : MlExp)
  | tuple (es : MlExps)
  | seq (e1 e2 : MlExp)
  | letIn (p : MlPat) (e1 e2 : MlExp)
  | unit
  | fn (xs : List String) (e : MlExp)
  | const (s : String)
  deriving DecidableEq, Repr
inductive MlExps
  | nil
  | cons (e : MlExp) (es : MlExps)
  deriving DecidableEq, Repr
end

abbrev MlBind := MlPat × MlExp

def MlPats.ofList (ps : List MlPat) : MlPats := ps.foldr .cons .nil

def MlExps.ofList (es : List MlExp) : MlExps := es.foldr .cons .nil

/-! ### Types of externals -/

def mlExternalTypeOfCbuffers : CBuffers → Fn → Polarity → Except Exn MlExternalType
  | .lastBuf _ t, .returns rt, polarity => do
      -- the type of the result is computed before those of the arguments
      let r ← mlTypOfArgTyp rt
      let a ← mlTypOfTyp (flip polarity) t
      return { args := [a], result := r }
  | .lastBuf _ _, _, _ => .error (.unsupported "retbuf should specify return type")
  | .conBuf (.lastBuf _ t1) b2, return_, polarity => do
      let e ← mlExternalTypeOfCbuffers b2 return_ polarity
      let a ← mlTypOfTyp (flip polarity) t1
      return { args := a :: e.args, result := e.result }
  | .conBuf (.conBuf _ _) _, _, _ => .error (.unsupported "left arg shouldn't be ConBuf")

def mlExternalTypeOfFn (errno_ : ErrnoPolicy) (polarity : Polarity) :
    Fn → Except Exn MlExternalType
  | .returns t => do
      let r ← mlTypOfTyp polarity t
      return { args := []
               result := match errno_ with
                 | .ignoreErrno => r
                 | .returnErrno => .pair r intType }
  | .function f t => do
      let e ← mlExternalTypeOfFn errno_ polarity t
      let a ← mlTypOfTyp (flip polarity) f
      return { args := a :: e.args, result := e.result }
  | .buffers _ b r => mlExternalTypeOfCbuffers b r polarity

/-- `Cbuf_analysis.float`. -/
def float : Fn → Except Exn Bool
  | .returns t => .ok (isFloatPrimitive t)
  | .function f t => if isFloatPrimitive f then float t else .ok false
  | .buffers _ _ _ => .error (.unsupported "not implemented!(Cbuf_analysis.float)")

/-- `Cbuf_analysis.may_allocate`. -/
def mayAllocate : Fn → Bool
  | .returns t => allocation t = .alloc
  | .function _ t => mayAllocate t
  | .buffers _ _ _ => false

def attributes (f : Fn) : Except Exn Attributes := do
  return { float := ← float f, noalloc := !mayAllocate f }

def extern_ (errno_ : ErrnoPolicy) (stubName externalName : String) (f : Fn) :
    Except Exn Extern := do
  let typ ← mlExternalTypeOfFn errno_ .result f
  return { ident := externalName, typ, primname := stubName
           primnameByte := byteStubName stubName typ
           attributes := ← attributes f }

/-! ### Wrappers -/

def staticCon (c : String) (args : List MlPat) : MlPat := .con ["CI", c] (.ofList args)

def localCon (c : String) (args : List MlPat) : MlPat := .con [c] (.ofList args)

/-- `constructor_cident_of_prim ~module_name:"CI"`. -/
def constructorCidentOfPrim : Prim → Path
  | .char => ["CI", "Char"]
  | .schar => ["CI", "Schar"]
  | .uchar => ["CI", "Uchar"]
  | .bool => ["CI", "Bool"]
  | .short => ["CI", "Short"]
  | .int => ["CI", "Int"]
  | .long => ["CI", "Long"]
  | .llong => ["CI", "Llong"]
  | .ushort => ["CI", "Ushort"]
  | .sint => ["CI", "Sint"]
  | .uint => ["CI", "Uint"]
  | .ulong => ["CI", "Ulong"]
  | .ullong => ["CI", "Ullong"]
  | .sizeT => ["CI", "Size_t"]
  | .int8T => ["CI", "Int8_t"]
  | .int16T => ["CI", "Int16_t"]
  | .int32T => ["CI", "Int32_t"]
  | .int64T => ["CI", "Int64_t"]
  | .uint8T => ["CI", "Uint8_t"]
  | .uint16T => ["CI", "Uint16_t"]
  | .uint32T => ["CI", "Uint32_t"]
  | .uint64T => ["CI", "Uint64_t"]
  | .camlint => ["CI", "Camlint"]
  | .nativeint => ["CI", "Nativeint"]
  | .float => ["CI", "Float"]
  | .double => ["CI", "Double"]
  | .ldouble => ["CI", "LDouble"]
  | .complex32 => ["CI", "Complex32"]
  | .complex64 => ["CI", "Complex64"]
  | .complexld => ["CI", "Complexld"]

def mapResultId : Path := ["map_result"]

/-- What is done to the result of the external. -/
inductive ResultMap
  | makePtr (x : String)
  | makeFunPtr (x : String)
  | makeStructured (x : String)
  | appl (x : String)
  deriving DecidableEq, Repr

/-- `` `Ident (path_of_string x) ``. -/
def ident (x : String) : Gen MlExp := do
  return .ident (← lift (pathOfString x))

def mapResult (concurrency : ConcurrencyPolicy) (errno_ : ErrnoPolicy) (f : ResultMap)
    (e : MlExp) : Gen MlExp :=
  let mapResult f x := MlExp.appl (.appl (.ident mapResultId) f) x
  match concurrency, errno_, f with
  | .sequential, .ignoreErrno, .makePtr x | .unlocked, .ignoreErrno, .makePtr x => do
      return .makePtr (← ident x) e
  | .sequential, .ignoreErrno, .makeFunPtr x
  | .unlocked, .ignoreErrno, .makeFunPtr x => do
      return .makeFunPtr (← ident x) e
  | .sequential, .ignoreErrno, .makeStructured x
  | .unlocked, .ignoreErrno, .makeStructured x => do
      return .makeStructured (← ident x) e
  | .sequential, .ignoreErrno, .appl x | .unlocked, .ignoreErrno, .appl x => do
      return .appl (← ident x) e
  | _, _, .makePtr x => do
      return mapResult (.appl (.ident ["CI", "make_ptr"]) (← ident x)) e
  | _, _, .makeFunPtr x => do
      return mapResult (.appl (.ident ["CI", "make_fun_ptr"]) (← ident x)) e
  | _, _, .makeStructured x => do
      return mapResult (.appl (.ident ["CI", "make_structured"]) (← ident x)) e
  | _, _, .appl x => do
      return mapResult (← ident x) e

/-- `pattern_exp_return`: a pattern for the type, the expression for the
value when it is not the one given, and the bindings collected. -/
structure PatternExp where
  pat : MlPat
  exp : Option MlExp
  binds : List MlBind
  deriving DecidableEq, Repr

def patternAndExpOfTyp (concurrency : ConcurrencyPolicy) (errno_ : ErrnoPolicy) :
    Typ → MlExp → Polarity → List MlBind → Gen PatternExp
  | .void, _, _, binds => return ⟨staticCon "Void" [], none, binds⟩
  | .primitive p, _, _, binds =>
      return ⟨staticCon "Primitive" [.con (constructorCidentOfPrim p) .nil], none, binds⟩
  | .pointer _, e, .arg, binds => do
      let x ← freshVar
      return ⟨staticCon "Pointer" [.underscore], some (← ident x),
        binds ++ [(staticCon "CPointer" [.var x], e)]⟩
  | .pointer _, e, .result, binds => do
      let x ← freshVar
      return ⟨staticCon "Pointer" [.var x],
        some (← mapResult concurrency errno_ (.makePtr x) e), binds⟩
  | .funptr _, e, .arg, binds => do
      let x ← freshVar
      return ⟨staticCon "Funptr" [.underscore], some (← ident x),
        binds ++ [(staticCon "Static_funptr" [.var x], e)]⟩
  | .funptr _, e, .result, binds => do
      let x ← freshVar
      return ⟨staticCon "Funptr" [.var x],
        some (← mapResult concurrency errno_ (.makeFunPtr x) e), binds⟩
  | .struct _ _ _, e, .arg, binds => do
      let x ← freshVar
      return ⟨staticCon "Struct" [.underscore], some (← ident x),
        binds ++ [(staticCon "CPointer" [.var x],
          .appl (.ident ["Ctypes", "addr"]) e)]⟩
  | .struct _ _ _, e, .result, binds => do
      let x ← freshVar
      return ⟨.as (staticCon "Struct" [.underscore]) x,
        some (← mapResult concurrency errno_ (.makeStructured x) e), binds⟩
  | .union _ _ _, e, .arg, binds => do
      let x ← freshVar
      return ⟨staticCon "Union" [.underscore], some (← ident x),
        binds ++ [(staticCon "CPointer" [.var x],
          .appl (.ident ["Ctypes", "addr"]) e)]⟩
  | .union _ _ _, e, .result, binds => do
      let x ← freshVar
      return ⟨.as (staticCon "Union" [.underscore]) x,
        some (← mapResult concurrency errno_ (.makeStructured x) e), binds⟩
  | .view _ ty, e, .arg, binds => do
      let x ← freshVar
      let y ← freshVar
      let e := .appl (← ident x) e
      let r ← patternAndExpOfTyp concurrency errno_ ty e .arg binds
      let pat := staticCon "View"
        [.record (.cons ["CI", "ty"] r.pat (.cons ["write"] (.var x) .nil)) false]
      return ⟨pat, some (← ident y), (.var y, r.exp.getD e) :: r.binds⟩
  | .view _ ty, e, .result, binds => do
      let r ← patternAndExpOfTyp concurrency errno_ ty e .result binds
      let x ← freshVar
      let pat := staticCon "View"
        [.record (.cons ["CI", "ty"] r.pat (.cons ["read"] (.var x) .nil)) false]
      return ⟨pat, some (← mapResult concurrency errno_ (.appl x) (r.exp.getD e)), r.binds⟩
  | .ocaml .string, _, .arg, binds =>
      return ⟨staticCon "OCaml" [staticCon "String" []], none, binds⟩
  | .ocaml .bytes, _, .arg, binds =>
      return ⟨staticCon "OCaml" [staticCon "Bytes" []], none, binds⟩
  | .ocaml .floatArray, _, .arg, binds =>
      return ⟨staticCon "OCaml" [staticCon "FloatArray" []], none, binds⟩
  | .ocaml .string, _, .result, _ =>
      fail (.unsupported "cstubs does not support OCaml strings as return values")
  | .ocaml .bytes, _, .result, _ =>
      fail (.unsupported "cstubs does not support OCaml bytes values as return values")
  | .ocaml .floatArray, _, .result, _ =>
      fail (.unsupported "cstubs does not support OCaml float arrays as return values")
  | .abstract a, _, _, _ => fail (.internalError
      "Unexpected abstract type encountered during ML code generation: %s" [] (.abstract a))
  | .array t n, _, _, _ => fail (.internalError
      "Unexpected array type encountered during ML code generation: %s" [] (.array t n))
  | .bigarray ba, _, _, _ => fail (.internalError
      "Unexpected bigarray type encountered during ML code generation: %s" []
      (.bigarray ba))

/-- A pattern without variables, for the type of a C variable. -/
def patternOfTyp : Typ → Except Exn MlPat
  | .void => .ok (staticCon "Void" [])
  | .primitive p =>
      .ok (staticCon "Primitive" [.con (constructorCidentOfPrim p) .nil])
  | .pointer _ => .ok (staticCon "Pointer" [.underscore])
  | .funptr _ => .ok (staticCon "Funptr" [.underscore])
  | .struct _ _ _ => .ok (staticCon "Struct" [.underscore])
  | .union _ _ _ => .ok (staticCon "Union" [.underscore])
  | .view _ ty => do
      return staticCon "View"
        [.record (.cons ["CI", "ty"] (← patternOfTyp ty) .nil) false]
  | .array _ _ => .ok (staticCon "Array" [.underscore, .underscore])
  | .bigarray _ => .ok (staticCon "Bigarray" [.underscore])
  | .ocaml .string =>
      .error (.unsupported "cstubs does not support OCaml strings as global values")
  | .ocaml .bytes =>
      .error (.unsupported "cstubs does not support OCaml bytes values as global values")
  | .ocaml .floatArray =>
      .error (.unsupported "cstubs does not support OCaml float arrays as global values")
  | .abstract a => .error (.internalError
      "Unexpected abstract type encountered during ML code generation: %s" [] (.abstract a))

/-- What is built for output buffers: their pattern, the call applied to
them, the expression that returns them and the bindings that create them. -/
structure BufferExp where
  pat : MlPat
  exp : MlExp
  bufExp : MlExp
  binds : List MlBind
  deriving DecidableEq, Repr

def bytesCreate (i : Nat) : MlExp :=
  .appl (.ident ["Bytes", "create"]) (.const (Nat.repr i))

def ocamlBytesStart (b : MlExp) : MlExp :=
  .appl (.ident ["Ctypes", "ocaml_bytes_start"]) b

def patternAndExpOfCbuffers2 : CBuffers → MlExp → List MlBind → Gen BufferExp
  | .lastBuf i t, e, binds => do
      let r ← patternAndExpOfTyp .sequential .ignoreErrno t e .arg []
      let bufVar ← freshVar
      return { pat := localCon "LastBuf" [.var (Nat.repr i), r.pat]
               exp := .appl e (ocamlBytesStart (← ident bufVar))
               bufExp := ← ident bufVar
               binds := binds ++ [(.var bufVar, bytesCreate i)] }
  | .conBuf (.lastBuf i t) b, e, binds => do
      let r ← patternAndExpOfTyp .sequential .ignoreErrno t e .arg []
      let bufVar ← freshVar
      let e1 := .appl e (ocamlBytesStart (← ident bufVar))
      let r2 ← patternAndExpOfCbuffers2 b e1 binds
      return { pat := localCon "ConBuf"
                 [localCon "LastBuf" [.var (Nat.repr i), r.pat], r2.pat]
               exp := r2.exp
               bufExp := .tuple (.ofList [← ident bufVar, r2.bufExp])
               -- `binds` is in `r2.binds` already
               binds := binds ++ (.var bufVar, bytesCreate i) :: r2.binds }
  | .conBuf (.conBuf _ _) _, _, _ =>
      fail (.unsupported "left arg should be LastBuf")

def patternAndExpOfCbuffers (buf : CBuffers) (e : MlExp) (binds : List MlBind) :
    Gen (MlPat × MlExp × List MlBind) := do
  let r ← patternAndExpOfCbuffers2 buf e binds
  let retVar ← freshVar
  return (r.pat,
    .letIn (.var retVar) r.exp (.tuple (.ofList [r.bufExp, ← ident retVar])), r.binds)

structure WrapperState where
  pat : MlPat
  exp : MlExp
  args : List String
  trivial : Bool
  binds : List MlBind
  deriving DecidableEq, Repr

def runExp (concurrency : ConcurrencyPolicy) (exp : MlExp) : MlExp :=
  match concurrency with
  | .sequential | .unlocked => exp
  | .lwtJobs => .appl (.ident ["Lwt_unix", "run_job"]) exp
  | .lwtPreemptive =>
      .appl (.appl (.ident ["Lwt_preemptive", "detach"]) (.fn ["_"] exp)) .unit

def letBind (binds : List MlBind) (e : MlExp) : MlExp :=
  binds.foldl (fun e' b => .letIn b.1 b.2 e') e

def wrapperBody (concurrency : ConcurrencyPolicy) (errno_ : ErrnoPolicy)
    (pol : Polarity) : Fn → MlExp → List MlBind → Gen WrapperState
  | .returns t, exp, binds => do
      let exp := runExp concurrency exp
      let r ← patternAndExpOfTyp concurrency errno_ t exp (flip pol) binds
      return { pat := localCon "Returns" [r.pat], exp := r.exp.getD exp, args := []
               trivial := r.exp.isNone, binds := r.binds }
  | .function f t, exp, binds => do
      let x ← freshVar
      let r ← patternAndExpOfTyp concurrency errno_ f (← ident x) pol binds
      match r.exp with
      | none =>
          let s ← wrapperBody concurrency errno_ pol t (.appl exp (← ident x)) r.binds
          return { s with args := x :: s.args
                          pat := localCon "Function" [r.pat, s.pat] }
      | some exp' =>
          let s ← wrapperBody concurrency errno_ pol t (.appl exp exp') r.binds
          return { s with args := x :: s.args, trivial := false
                          pat := localCon "Function" [r.pat, s.pat] }
  | .buffers _ buf ret, exp, binds => do
      let retTy ← match ret with
        | .returns t => pure t
        | _ => fail (.unsupported "retbuf shold include return type")
      let r ← patternAndExpOfTyp .sequential .ignoreErrno retTy exp .arg []
      let (pat, exp, binds) ← patternAndExpOfCbuffers buf exp binds
      return { pat := localCon "Buffers" [.underscore, pat, localCon "Returns" [r.pat]]
               exp, args := [], trivial := false, binds }

/-- `fun v -> CI.use_value (x1, x2, ... xn); Lwt.return v`. -/
def returnResult (args : List String) : Gen MlExp := do
  let x ← freshVar
  let args' ← args.mapM ident
  return .fn [x] (.seq
    (.appl (.ident ["CI", "use_value"]) (.tuple (.ofList args')))
    (.appl (.ident ["Lwt", "return"]) (← ident x)))

mutual
/-- The variables bound in a pattern, in no particular order. -/
def patBoundVars : MlPat → List String
  | .var x => [x]
  | .record fs _ => patFieldsBoundVars fs []
  | .as p x => x :: patBoundVars p
  | .underscore => []
  | .con _ ps => patsBoundVars ps []
def patsBoundVars : MlPats → List String → List String
  | .nil, xs => xs
  | .cons p ps, xs => patsBoundVars ps (patBoundVars p ++ xs)
def patFieldsBoundVars : MlPatFields → List String → List String
  | .nil, xs => xs
  | .cons _ p fs, xs => patFieldsBoundVars fs (patBoundVars p ++ xs)
end

def wrapper (concurrency : ConcurrencyPolicy) (errno_ : ErrnoPolicy) (id : Path)
    (f : Fn) (name : String) (pol : Polarity) : Gen (MlPat × MlExp) := do
  let p ← wrapperBody concurrency errno_ pol f (← ident name) []
  let boundVars := patsBoundVars (.ofList (p.binds.map fun b => b.1)) []
  let lwtBind (exp : MlExp) : Gen (MlPat × MlExp) := do
    let return_ ← returnResult (p.args ++ boundVars)
    return (p.pat, .fn p.args (letBind p.binds (.appl (.ident ["box_lwt"])
      (.appl (.appl (.ident ["Lwt", "bind"]) exp) return_))))
  match concurrency with
  | .sequential | .unlocked =>
      if p.trivial then return (p.pat, letBind p.binds (runExp concurrency (.ident id)))
      else return (p.pat, .fn p.args (letBind p.binds p.exp))
  | .lwtJobs | .lwtPreemptive =>
      if p.trivial then
        let args ← p.args.mapM ident
        lwtBind (runExp concurrency (args.foldl .appl (.ident id)))
      else lwtBind p.exp

/-- A case of the generated function `foreign` or `foreign_value`. -/
structure Case where
  pat : MlPat
  name : String
  exp : MlExp
  deriving DecidableEq, Repr

def case (concurrency : ConcurrencyPolicy) (errno_ : ErrnoPolicy)
    (stubName externalName : String) (f : Fn) : Gen Case := do
  let id ← lift (pathOfString externalName)
  let (pat, exp) ← wrapper concurrency errno_ id f externalName .arg
  return { pat, name := stubName, exp }

def valCase (stubName externalName : String) (typ : Typ) : Gen Case := do
  let x ← freshVar
  let p ← lift (patternOfTyp typ)
  let app := .appl (← ident externalName) .unit
  return { pat := .as p x, name := stubName, exp := .makePtr (← ident x) app }

end CtypesCbuf.Cbuf.GenerateML
