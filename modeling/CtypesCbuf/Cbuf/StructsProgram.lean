import CtypesCbuf.Cbuf.GenerateML
import CtypesCbuf.Cbuf.LongIdentifiers
import CtypesCbuf.Cbuf.Structs
import CtypesCbuf.Ctypes.TypePrinting
import CtypesCbuf.Lib.CStrings

/-!
The C program that `Cbuf_structs.write_c` writes. It prints the ML module of
the emitted functions by calls of `puts` and `printf`, one after another.
-/

namespace CtypesCbuf.Cbuf.StructsProgram

open CStrings NameSupply
open Ctypes CLanguage Stubs
open Cbuf.Structs (Structured FieldSpec)

/-! ### Strings -/

/-- `Str.global_replace` of a character. The templates have no reference to a
group, and a backslash before any other character stands for itself. -/
def globalReplace (c : Char) (template s : String) : String :=
  String.ofList (s.toList.flatMap fun d => if d = c then template.toList else [d])

def mappings : List (Char × String) := [('"', "\\\""), ('\n', "\\n")]

def cstring (s : String) : String :=
  let escaped := mappings.foldl (fun s r => globalReplace r.1 r.2 s) s
  "\"" ++ escaped ++ "\""

def decimalDigit (n : Nat) : Char := Char.ofNat ('0'.toNat + n)

def charEscaped (c : Char) : List Char :=
  if c = '"' then ['\\', '"']
  else if c = '\\' then ['\\', '\\']
  else if c = '\n' then ['\\', 'n']
  else if c = '\t' then ['\\', 't']
  else if c = '\r' then ['\\', 'r']
  else if c = '\x08' then ['\\', 'b']
  else if ' ' ≤ c ∧ c ≤ '~' then [c]
  else ['\\', decimalDigit (c.toNat / 100), decimalDigit (c.toNat / 10 % 10),
    decimalDigit (c.toNat % 10)]

/-- `%S`: the string as an OCaml literal. -/
def quoted (s : String) : String :=
  "\"" ++ String.ofList (s.toList.flatMap charEscaped) ++ "\""

/-! ### The program -/

/-- The C expressions that the program prints the values of. -/
inductive CArg
  | offsetof (typedef fname : String)
  | sizeof (typedef : String)
  | alignmentof (typedef : String)
  /-- The variable `v` that holds a constant, and the conversion it is printed by. -/
  | constant (name conversion : String)
  /-- `ctypes_arithmetic_type_name(CTYPES_CLASSIFY_ARITHMETIC_TYPE(t))`. -/
  | arithmeticTypeName (t : String)
  deriving DecidableEq, Repr

def CArg.conversion : CArg → String
  | .offsetof _ _ | .sizeof _ | .alignmentof _ => "zu"
  | .constant _ conversion => conversion
  | .arithmeticTypeName _ => "s"

/-- A piece of a format: text, or a conversion for an argument. -/
inductive Chunk
  | text (s : String)
  | arg (a : CArg)
  deriving DecidableEq, Repr

/-- What the generator writes with `puts`, `printf1` and `printf2`, before the
strings are made C literals, and the declarations for a constant. -/
inductive Line
  | puts (s : String)
  | printf (format : List Chunk)
  | declare (name : String) (ty : Typ)
  deriving DecidableEq, Repr

inductive Statement
  | puts (literal : String)
  | printf (literal : String) (args : List CArg)
  | declare (name : String) (ty : Typ)
  deriving DecidableEq, Repr

def Chunk.format : Chunk → List Char
  | .text s => s.toList
  | .arg a => '%' :: a.conversion.toList

def Chunk.arg? : Chunk → Option CArg
  | .text _ => none
  | .arg a => some a

def Line.statement : Line → Statement
  | .puts s => .puts (cstring s)
  | .printf format =>
      .printf (cstring (String.ofList (format.flatMap Chunk.format))) (format.filterMap Chunk.arg?)
  | .declare name ty => .declare name ty

/-! ### The generator -/

def cases {α : Type} (list : List α) (prologue epilogue : List String) (case : α → List Line) :
    List Line :=
  prologue.map .puts ++ list.flatMap case ++ epilogue.map .puts

def fieldCase : FieldSpec → List Line
  | (.struct tag typedef, fname) =>
      [.puts ("  | Struct (\x7b tag = " ++ quoted tag ++ "; _\x7d as s'), " ++ quoted fname ++
          " ->"),
        .printf [.text "    let f = \x7bftype; fname; foffset = ", .arg (.offsetof typedef fname),
          .text "\x7d in \n"],
        .puts "    (s'.fields <- BoxedField f :: s'.fields; f)"]
  | (.union tag typedef, fname) =>
      [.puts ("  | Union (\x7b utag = " ++ quoted tag ++ "; _\x7d as s'), " ++ quoted fname ++
          " ->"),
        .printf [.text "    let f = \x7bftype; fname; foffset = ", .arg (.offsetof typedef fname),
          .text "\x7d in \n"],
        .puts "    (s'.ufields <- BoxedField f :: s'.ufields; f)"]

def writeField (specs : List FieldSpec) : List Line :=
  cases specs
    ["",
      "let rec field : type t a. t typ -> string -> a typ -> (a, t) field =",
      "  fun s fname ftype -> match s, fname with"]
    ["  | View \x7b ty; _ \x7d, _ ->",
      "    let \x7b ftype; foffset; fname \x7d = field ty fname ftype in",
      "    \x7b ftype; foffset; fname \x7d",
      "  | _ -> failwith (\"Unexpected field \"^ fname)"]
    fieldCase

def sealCase : Structured → List Line
  | .struct tag typedef =>
      [.puts ("  | Struct (\x7b tag = " ++ quoted tag ++ "; spec = Incomplete _; _ \x7d as s') ->"),
        .printf [.text "    s'.spec <- Complete \x7b size = ", .arg (.sizeof typedef),
          .text "; align = ", .arg (.alignmentof typedef), .text " \x7d\n"]]
  | .union tag typedef =>
      [.puts ("  | Union (\x7b utag = " ++ quoted tag ++ "; uspec = None; _ \x7d as s') ->"),
        .printf [.text "    s'.uspec <- Some \x7b size = ", .arg (.sizeof typedef),
          .text "; align = ", .arg (.alignmentof typedef), .text " \x7d\n"]]

def writeSeal (specs : List Structured) : List Line :=
  cases specs
    ["", "let rec seal : type a. a typ -> unit = function"]
    ["  | Struct \x7b tag; spec = Complete _; _ \x7d ->",
      "    raise (ModifyingSealedType tag)",
      "  | Union \x7b utag; uspec = Some _; _ \x7d ->",
      "    raise (ModifyingSealedType utag)",
      "  | View \x7b ty; _ \x7d -> seal ty",
      "  | _ ->",
      "    raise (Unsupported \"Sealing a non-structured type\")",
      ""]
    sealCase

/-- An ML expression for a constant, around the conversion that prints it. -/
structure ConstExp where
  before : String
  conversion : String
  after : String
  deriving DecidableEq, Repr

section Constants

variable (definedFormat : Prim → String)

/-- `Ctypes_primitives.format_string`, without the percent sign. Some formats
are macros of the C library. -/
def formatString : Prim → Option String
  | .char | .schar | .uchar | .bool | .int | .sint => some "d"
  | .short => some "hd"
  | .long => some "ld"
  | .llong => some "lld"
  | .ushort => some "hu"
  | .uint => some "u"
  | .ulong => some "lu"
  | .ullong => some "llu"
  | .sizeT => some "zu"
  | .float | .double => some ".12g"
  | .ldouble => some ".12Lg"
  | .complex32 | .complex64 | .complexld => none
  | p => some (definedFormat p)

def primitiveFormatString (p : Prim) : Except Exn ConstExp :=
  let fail : Except Exn ConstExp :=
    .error (.failure ("Cannot retrieve constants of type " ++ TypePrinting.primName p))
  let ofString (path fmt : String) : ConstExp := ⟨path ++ ".of_string \"", fmt, "\""⟩
  match p, formatString definedFormat p with
  | _, none => fail
  | .char, some fmt => .ok ⟨"Char.chr (((", fmt, ") + 256) mod 256)"⟩
  | .schar, some fmt => .ok ⟨"", fmt, ""⟩
  | .uchar, some fmt => .ok (ofString "Unsigned.UChar" fmt)
  | .bool, some fmt => .ok ⟨"((", fmt, ") <> 0)"⟩
  | .short, some fmt | .int, some fmt => .ok ⟨"", fmt, ""⟩
  | .long, some fmt => .ok (ofString "Signed.Long" fmt)
  | .llong, some fmt => .ok (ofString "Signed.LLong" fmt)
  | .ushort, some fmt => .ok (ofString "Unsigned.UShort" fmt)
  | .sint, some fmt => .ok (ofString "Signed.SInt" fmt)
  | .uint, some fmt => .ok (ofString "Unsigned.UInt" fmt)
  | .ulong, some fmt => .ok (ofString "Unsigned.ULong" fmt)
  | .ullong, some fmt => .ok (ofString "Unsigned.ULLong" fmt)
  | .sizeT, some fmt => .ok (ofString "Unsigned.Size_t" fmt)
  | .int8T, some fmt | .int16T, some fmt => .ok ⟨"", fmt, ""⟩
  | .int32T, some fmt => .ok ⟨"", fmt, "l"⟩
  | .int64T, some fmt => .ok ⟨"", fmt, "L"⟩
  | .uint8T, some fmt => .ok (ofString "Unsigned.UInt8" fmt)
  | .uint16T, some fmt => .ok (ofString "Unsigned.UInt16" fmt)
  | .uint32T, some fmt => .ok (ofString "Unsigned.UInt32" fmt)
  | .uint64T, some fmt => .ok (ofString "Unsigned.UInt64" fmt)
  | .camlint, some fmt => .ok ⟨"", fmt, ""⟩
  | .nativeint, some fmt => .ok ⟨"", fmt, "n"⟩
  -- integer constant expressions cannot have non-integer type
  | .complex32, some _ | .complex64, some _ | .complexld, some _ => fail
  | .float, some _ | .double, some _ | .ldouble, some _ => fail

/-- `constructor_cident_of_prim`, in its default module. -/
def constructorPath (p : Prim) : Path :=
  "Cbuf_internals" :: (GenerateML.constructorCidentOfPrim p).tail

def mlPatAndExpOfTyp : Typ → Gen (String × ConstExp)
  | .view _ ty => do
      let (p, e) ← mlPatAndExpOfTyp ty
      let x ← Supply.fresh fun n => "read" ++ Nat.repr n
      return ("Ctypes_static.View \x7b Ctypes_static.read = " ++ x ++ "; ty = " ++ p ++ " \x7d",
        ⟨"(" ++ x ++ " (" ++ e.before, e.conversion, e.after ++ "))"⟩)
  | .primitive p => do
      let e ← Supply.lift (primitiveFormatString definedFormat p)
      return ("Ctypes_static.Primitive " ++ formatPath (constructorPath p), e)
  | _ => Supply.fail (.failure "constant of non-primitive")

def constCase : String × Typ → Gen (List Line)
  | (name, ty) => do
      let (p, e) ← mlPatAndExpOfTyp definedFormat ty
      return [.declare name ty,
        .printf [.text ("  | " ++ p ++ ", " ++ quoted name ++ " ->\n    " ++ e.before),
          .arg (.constant name e.conversion), .text (e.after ++ "\n")]]

def writeConsts (consts : List (String × Typ)) : Gen (List Line) := do
  let lines ← consts.mapM (constCase definedFormat)
  return cases lines
    ["type 'a const = 'a",
      "let constant (type t) name (t : t typ) : t = match t, name with"]
    ["  | _, s -> failwith (\"unmatched constant: \"^ s)"]
    id

end Constants

/-- An enumeration: its name and whether this is the name of a type. -/
def enumCase : String × Bool → List Line
  | (name, typedef) =>
      [.printf [.text ("  | " ++ quoted name ++ " -> \n    Cbuf_internals.build_enum_type " ++
            quoted name ++ " Ctypes_static."),
          .arg (.arithmeticTypeName ((if typedef then "" else "enum ") ++ name)),
          .text " ?typedef ?unexpected alist\n"]]

def writeEnums (enums : List (String × Bool)) : List Line :=
  cases enums
    ["",
      "let enum (type a) name ?typedef ?unexpected (alist : (a * int64) list) =",
      "  match name with"]
    ["  | s ->", "    failwith (\"unmatched enum: \"^ s)"]
    enumCase

def mlprologue : List String := ["include Ctypes", "let lift x = x", "open Ctypes_static"]

/-- What the functor has been asked for. -/
structure Requests where
  fields : List FieldSpec
  structures : List Structured
  consts : List (String × Typ)
  enums : List (String × Bool)
  deriving DecidableEq, Repr

def writeMl (definedFormat : Prim → String) (r : Requests) : Gen (List Line) := do
  let consts ← writeConsts definedFormat r.consts
  return mlprologue.map .puts ++ writeField r.fields ++ writeSeal r.structures ++ consts ++
    writeEnums r.enums

/-! ### Execution -/

/-- The C platform on which the program runs: its formats, and what `printf`
makes of the value of an expression. -/
structure Platform where
  definedFormat : Prim → String
  isConversion : ∀ p, IsConversion (definedFormat p).toList
  print : CArg → CStrings.Arg
  text : CArg → List Char
  /-- A value is printed by the conversion for its type. -/
  prints : ∀ a, print a a.conversion.toList = some (text a)

variable (P : Platform)

/-- What a statement prints, if it compiles and its behaviour is defined. -/
def Statement.run : Statement → Option (List Char)
  | .puts literal => (decode literal.toList).map fun s => cText s ++ ['\n']
  | .printf literal args =>
      (decode literal.toList).bind fun format => CStrings.printf format (args.map P.print)
  | .declare _ _ => some []

def run (program : List Statement) : Option (List Char) :=
  (program.mapM (Statement.run P)).map List.flatten

/-- The text that is meant. -/
def Line.intended : Line → List Char
  | .puts s => s.toList ++ ['\n']
  | .printf format => format.flatMap fun
      | .text s => s.toList
      | .arg a => P.text a
  | .declare _ _ => []

/-! ### The cases that are printed -/

section Cases

open Structs (CCompiler TagPattern FieldCase SealCase)

/-- The platform has the offsets and sizes of the compiler. -/
structure Platform.Measures (P : Platform) (cc : CCompiler) : Prop where
  offsetof : ∀ t f, P.text (.offsetof t f) = (Nat.repr (cc.offsetof t f)).toList
  sizeof : ∀ t, P.text (.sizeof t) = (Nat.repr (cc.sizeof t)).toList
  alignmentof : ∀ t, P.text (.alignmentof t) = (Nat.repr (cc.alignmentof t)).toList

def mlLines (lines : List String) : List Char := lines.flatMap fun s => s.toList ++ ['\n']

def fieldText (cc : CCompiler) (c : FieldCase) : List Char :=
  let foffset := (Nat.repr (cc.offsetof c.typedef c.fname)).toList
  match c.tag with
  | .struct tag =>
      mlLines ["  | Struct (\x7b tag = " ++ quoted tag ++ "; _\x7d as s'), " ++ quoted c.fname ++
          " ->"] ++
        ("    let f = \x7bftype; fname; foffset = ".toList ++ foffset ++ "\x7d in \n".toList) ++
        mlLines ["    (s'.fields <- BoxedField f :: s'.fields; f)"]
  | .union utag =>
      mlLines ["  | Union (\x7b utag = " ++ quoted utag ++ "; _\x7d as s'), " ++ quoted c.fname ++
          " ->"] ++
        ("    let f = \x7bftype; fname; foffset = ".toList ++ foffset ++ "\x7d in \n".toList) ++
        mlLines ["    (s'.ufields <- BoxedField f :: s'.ufields; f)"]

def sealText (cc : CCompiler) (c : SealCase) : List Char :=
  let size := (Nat.repr (cc.sizeof c.typedef)).toList
  let align := (Nat.repr (cc.alignmentof c.typedef)).toList
  match c.tag with
  | .struct tag =>
      mlLines ["  | Struct (\x7b tag = " ++ quoted tag ++
          "; spec = Incomplete _; _ \x7d as s') ->"] ++
        ("    s'.spec <- Complete \x7b size = ".toList ++ size ++ "; align = ".toList ++ align ++
          " \x7d\n".toList)
  | .union utag =>
      mlLines ["  | Union (\x7b utag = " ++ quoted utag ++ "; uspec = None; _ \x7d as s') ->"] ++
        ("    s'.uspec <- Some \x7b size = ".toList ++ size ++ "; align = ".toList ++ align ++
          " \x7d\n".toList)

variable {P : Platform} {cc : CCompiler}

theorem intended_puts (s : String) : (Line.puts s).intended P = mlLines [s] :=
  (List.flatMap_singleton (fun s : String => s.toList ++ ['\n']) s).symm

theorem intended_printf (before after : String) (a : CArg) :
    (Line.printf [.text before, .arg a, .text after]).intended P =
      before.toList ++ P.text a ++ after.toList := by
  rw [Line.intended]
  simp only [List.flatMap_cons, List.flatMap_nil, List.append_nil, List.append_assoc]

theorem intended_printf₂ (before between after : String) (a b : CArg) :
    (Line.printf [.text before, .arg a, .text between, .arg b, .text after]).intended P =
      before.toList ++ P.text a ++ between.toList ++ P.text b ++ after.toList := by
  rw [Line.intended]
  simp only [List.flatMap_cons, List.flatMap_nil, List.append_nil, List.append_assoc]

theorem flatMap_puts_printf_puts (first before after last : String) (a : CArg) :
    [Line.puts first, .printf [.text before, .arg a, .text after], .puts last].flatMap
        (Line.intended P) =
      mlLines [first] ++ (before.toList ++ P.text a ++ after.toList) ++ mlLines [last] := by
  rw [List.flatMap_cons, List.flatMap_cons, List.flatMap_singleton, intended_puts, intended_puts,
    intended_printf]
  simp only [List.append_assoc]

theorem intended_fieldCase (h : P.Measures cc) (spec : FieldSpec) :
    (fieldCase spec).flatMap (Line.intended P) =
      (Structs.writeField [spec]).flatMap (fieldText cc) := by
  obtain ⟨t, fname⟩ := spec
  cases t <;>
  · refine (flatMap_puts_printf_puts _ _ _ _ _).trans ?_
    rw [h.offsetof]
    exact (List.append_nil _).symm

theorem intended_sealCase (h : P.Measures cc) (spec : Structured) :
    (sealCase spec).flatMap (Line.intended P) =
      (Structs.writeSeal [spec]).flatMap (sealText cc) := by
  cases spec <;>
  · rw [sealCase, List.flatMap_cons, List.flatMap_singleton, intended_puts, intended_printf₂,
      h.sizeof, h.alignmentof]
    exact (List.append_nil _).symm

/-- The cases are written in the order of the requests, between texts that do
not depend on them. -/
theorem intended_cases {α β : Type} (prologue epilogue : List String) {case : α → List Line}
    {write : List α → List β} {text : β → List Char} (hnil : write [] = [])
    (hcons : ∀ a list, write (a :: list) = write [a] ++ write list)
    (h : ∀ a, (case a).flatMap (Line.intended P) = (write [a]).flatMap text) (list : List α) :
    (cases list prologue epilogue case).flatMap (Line.intended P) =
      mlLines prologue ++ (write list).flatMap text ++ mlLines epilogue := by
  have hputs : ∀ lines : List String,
      (lines.map Line.puts).flatMap (Line.intended P) = mlLines lines := fun lines =>
    List.flatMap_map _ _ lines
  have hcases : (list.flatMap case).flatMap (Line.intended P) = (write list).flatMap text := by
    induction list with
    | nil => rw [hnil, List.flatMap_nil, List.flatMap_nil, List.flatMap_nil]
    | cons a list ih =>
        rw [hcons, List.flatMap_cons, List.flatMap_append, List.flatMap_append, ih, h]
  rw [cases, List.flatMap_append, List.flatMap_append, hputs, hputs, hcases]

/-- What is printed for `field` has the cases of the emitted function, with the
offsets of the compiler. -/
theorem intended_writeField (h : P.Measures cc) : ∃ before after, ∀ specs,
    (writeField specs).flatMap (Line.intended P) =
      before ++ (Structs.writeField specs).flatMap (fieldText cc) ++ after :=
  ⟨_, _, intended_cases _ _ rfl (fun _ _ => rfl) (intended_fieldCase h)⟩

theorem intended_writeSeal (h : P.Measures cc) : ∃ before after, ∀ specs,
    (writeSeal specs).flatMap (Line.intended P) =
      before ++ (Structs.writeSeal specs).flatMap (sealText cc) ++ after :=
  ⟨_, _, intended_cases _ _ rfl (fun _ _ => rfl) (intended_sealCase h)⟩

end Cases
end CtypesCbuf.Cbuf.StructsProgram
