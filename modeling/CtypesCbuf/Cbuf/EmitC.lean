import CtypesCbuf.CLanguage.Syntax
import CtypesCbuf.Ctypes.TypePrinting

/-! Printing of C code, `Cbuf_emit_c`. -/

namespace CtypesCbuf.Cbuf.EmitC

open Ctypes hiding Fn
open CLanguage
open Ctypes.TypePrinting (Piece ViewFormats formatTyp formatTyp' definitions)

/-- What a printer writes. A type of buffers has no pattern that prints it. -/
abbrev Emit := Except Exn (List Piece)

def formatSeq (lbr : String) (items : List (List Piece)) (sep rbr : String) : List Piece :=
  [Piece.text lbr, .box, .box] ++ List.intercalate [Piece.text sep, .brk, .box] items ++
    [Piece.text rbr]

def cvarName : CVar → String
  | .clocal (name, _) => name
  | .global g => g.name

def cvar (v : CVar) : List Piece := [.text (cvarName v)]

def macroCall (macroName : String) (xs : List String) : List Piece :=
  [Piece.box, .text macroName, .brk, .text "("] ++
    List.intercalate [Piece.text ",", .brk] (xs.map fun x => [Piece.text x]) ++ [Piece.text ");"]

def camlxParam : List String → List Piece
  | [] => []
  | x1 :: x2 :: x3 :: x4 :: x5 :: rest =>
      macroCall "CAMLxparam5" [x1, x2, x3, x4, x5] ++ camlxParam rest
  | xs => macroCall ("CAMLxparam" ++ Nat.repr xs.length) xs

def camlParam : List String → List Piece
  | x1 :: x2 :: x3 :: x4 :: x5 :: rest =>
      macroCall "CAMLparam5" [x1, x2, x3, x4, x5] ++ [Piece.brk] ++ camlxParam rest
  | xs => macroCall ("CAMLparam" ++ Nat.repr xs.length) xs

/-- `harmless`, which looks through the views on both sides. -/
def harmless (l r : Typ) : Bool :=
  match l.core, r.core with
  | .pointer .void, .pointer _ => true
  | .primitive p, .primitive q => p = q
  | _, _ => false

/-- Whether the C expression `(ty)e` is equivalent to `e`. -/
def castUnnecessary (ty : Ty) (e : CExp) : Bool :=
  match ty, typeExp e with
  | .ty l, .ty r => harmless l r
  | _, _ => false

section Emit

variable (views : ViewFormats)

def formatTy : Ty → Emit
  | .ty ty => .ok (formatTyp views none ty)
  | .bufTy _ => .error .matchFailure

def cexp : CExp → Emit
  | .int i => return [.text (toString i)]
  | .clocal x => return cvar (.clocal x)
  | .cast ty e =>
      if castUnnecessary ty e then cexp e
      else do
        let t ← formatTy views ty
        let s ← cexp e
        return [Piece.box, .box, .text "("] ++ t ++ [Piece.text ")"] ++ s
  | .addr v => return [Piece.box, .text "&", .box] ++ cvar v

def clvalue : CLvalue → Emit
  | .var v => return cvar v
  | .index lv i => do
      let l ← clvalue lv
      let s ← cexp views i
      return [Piece.box, .box] ++ l ++ [Piece.box, .text "["] ++ s ++ [Piece.text "]"]
  | .field lv f => do
      let l ← clvalue lv
      return [Piece.box, .box] ++ l ++ [Piece.box, .text ("." ++ f)]
  | .pointerField lv f => do
      let l ← clvalue lv
      return [Piece.box, .box] ++ l ++ [Piece.box, .text ("->" ++ f)]

def camlop : CamlOp → Emit
  | .camlParam0 => return [.text "CAMLparam0()"]
  | .camlLocalN e c => do
      let s ← cexp views e
      let t ← cexp views c
      return [Piece.text "CAMLlocalN(", .box] ++ s ++ [Piece.text ",", .brk, .box] ++ t ++
        [Piece.text ")"]
  | .camlDrop => return [Piece.text "CAMLdrop"]

def ceff : CEff → Emit
  | .exp e => cexp views e
  | .camlop o => camlop views o
  | .global g => return cvar (.global g)
  | .app f es => do
      let args ← es.mapM (cexp views)
      return [Piece.box, .text (f.fname ++ "("), .box] ++
        List.intercalate [Piece.text ",", .brk] (args.map fun arg => Piece.box :: arg) ++
        [Piece.text ")"]
  | .index e i => do
      let s ← ceff e
      let t ← cexp views i
      return [Piece.box, .box] ++ s ++ [Piece.box, .text "["] ++ t ++ [Piece.text "]"]
  | .deref e => do
      let s ← cexp views e
      return [Piece.box, .text "*", .box] ++ s
  | .derefField e f => do
      let s ← cexp views e
      return [Piece.box, .box] ++ s ++ [Piece.text ("->" ++ f)]

def returnStatement (ps : List Piece) : List Piece :=
  [Piece.box, .text "return", .brk, .box] ++ ps ++ [Piece.text ";"]

/-- `ccomp` of an effect. -/
def returnEff : CEff → Emit
  | .exp e =>
      if typeExp e = .ty .void then return [.box, .text "return", .text ";"]
      else returnStatement <$> cexp views e
  | e => returnStatement <$> ceff views e

/-- The casts around a result that are left out when a local is in front. -/
def dropCasts : CExp → CExp
  | .cast ty e => if castUnnecessary ty e then dropCasts e else .cast ty e
  | e => e

/-- `e` as the value of a declared local. -/
def declaration (declared : List Piece) (e : List Piece) : List Piece :=
  Piece.box :: declared ++ [Piece.brk, .text "=", .brk, .box] ++ e ++ [Piece.text ";", .brk]

/-- The declaration of a local, in front of the rest. -/
def letBinding (b : CBind) : Emit := do
  let (name, ty) := b.1
  let e ← ceff views b.2
  match ty with
  | .ty .void => return Piece.box :: e ++ [Piece.text ";", .brk]
  | .ty (.struct tag _ _) =>
      return declaration [.text "struct", .brk, .text tag, .brk, .text name] e
  | .ty (.union utag _ _) =>
      return declaration [.text "union", .brk, .text utag, .brk, .text name] e
  | .ty ty => return declaration (.box :: formatTyp views (some name) ty) e
  | .bufTy _ => throw .matchFailure

def ccomp : CComp → Emit
  | .eff e => returnEff views e
  | .camlParam xs c => do
      let s ← ccomp c
      return Piece.box :: camlParam xs ++ [Piece.text ";", .brk] ++ s
  | .ret (.ty .void) _ => return [Piece.box, .text "return", .text ";"]
  | .ret (.ty _) e => returnStatement <$> cexp views e
  | .camlReturnT (.ty .void) _ => return [.box, .text "CAMLreturn0", .text ";"]
  | .camlReturnT (.ty ty) e => do
      let s ← cexp views e
      return [Piece.box, .text "CAMLreturnT(", .box] ++ formatTyp views none ty ++
        [Piece.text ",", .brk, .box] ++ s ++ [Piece.text ")", .text ";"]
  | .letIn b (.eff (.exp v)) =>
      -- a local that is only returned is not declared
      match dropCasts v with
      | .clocal (y, ty) =>
          if b.1.1 = y then returnEff views b.2
          else do return (← letBinding views b) ++ (← returnEff views (.exp (.clocal (y, ty))))
      | v => do return (← letBinding views b) ++ (← returnEff views (.exp v))
  | .letIn b c => do return (← letBinding views b) ++ (← ccomp c)
  | .letConst (x, _) i c => do
      let s ← ccomp c
      return [Piece.box, .text "enum", .brk, .text "\x7b", .box, .brk, .text x, .brk,
        .text "=", .brk, .text (toString i), .brk, .text "\x7d;", .brk] ++ s
  | .letAssign lv e c => do
      let l ← clvalue views lv
      let s ← ceff views e
      let t ← ccomp c
      return [Piece.box, .box] ++ l ++ [Piece.brk, .text "=", .brk, .box] ++ s ++
        [Piece.text ";", .brk] ++ t
  | .ret (.bufTy _) _ => throw .matchFailure
  | .camlReturnT (.bufTy _) _ => throw .matchFailure

def formatArg : String × Ty → Emit
  | (name, .ty t) => .ok (formatTyp views (some name) t)
  | (_, .bufTy _) => .error .matchFailure

def formatParameterList (parameters : List (String × Ty)) (k : List Piece) : Emit :=
  match parameters with
  | [] => return k ++ [Piece.text "(void)"]
  | [(_, .ty .void)] => return Piece.box :: k ++ [Piece.box, .text "(void)"]
  | _ => do
      let args ← parameters.mapM (formatArg views)
      return Piece.box :: k ++ Piece.box :: formatSeq "(" args "," ")"

def cfundec (d : CFundec) : Emit := do
  match d.ret with
  | .ty ret =>
      let ps ← formatParameterList views d.params (TypePrinting.formatName (some d.name))
      return formatTyp' views ret (fun _ => ps) .nonarray
  | .bufTy _ => throw .matchFailure

def storageClass : StorageClass → List Piece
  | .static => [.text "static\n"]
  | .external => []

def cfundef (d : CFundef) : Emit := do
  let dec ← cfundec views d.dec
  let body ← ccomp views d.body
  return storageClass d.storage ++ dec ++ [Piece.text "\n\x7b", .box, .text "\n"] ++ body ++
    [Piece.text "\n\x7d\n"]

end Emit

end CtypesCbuf.Cbuf.EmitC
