import CtypesCbuf.Ctypes.Static

/-!
Printing C types, `Ctypes_type_printing`. What is printed is a list of
pieces: text, places where a line may be broken, and the heads of the
definitions of structures and unions, which are kept apart from other text.
How the lines are broken is left open.
-/

namespace CtypesCbuf.Ctypes.TypePrinting

/-- What a formatter is given. The ends of boxes print nothing. -/
inductive Piece
  | text (s : String)
  /-- A break hint, printed as blanks or as a line break. -/
  | brk
  /-- The start of a box, which breaks the line when it is too far indented. -/
  | box
  /-- `struct tag {` or `union tag {`. -/
  | definition (keyword tag : String)
  deriving DecidableEq, Repr

def Piece.chars : Piece → List Char
  | .text s => s.toList
  | .brk => [' ']
  | .box => []
  | .definition keyword tag => keyword.toList ++ ' ' :: tag.toList ++ [' ', '{']

def render (ps : List Piece) : List Char := ps.flatMap Piece.chars

def IsBlank (cs : List Char) : Prop := ∀ c ∈ cs, c = ' ' ∨ c = '\n'

/-- What the pieces are printed as for some margin: a line is broken at some
of the breaks and of the starts of boxes. -/
inductive LaidOut : List Piece → List Char → Prop
  | nil : LaidOut [] []
  | text {s ps cs} : LaidOut ps cs → LaidOut (Piece.text s :: ps) (s.toList ++ cs)
  | brk {bs ps cs} : IsBlank bs → bs ≠ [] → LaidOut ps cs → LaidOut (Piece.brk :: ps) (bs ++ cs)
  | box {bs ps cs} : IsBlank bs → LaidOut ps cs → LaidOut (Piece.box :: ps) (bs ++ cs)
  | definition {keyword tag ps cs} : LaidOut ps cs →
      LaidOut (.definition keyword tag :: ps) ((Piece.definition keyword tag).chars ++ cs)

theorem laidOut_render (ps : List Piece) : LaidOut ps (render ps) := by
  induction ps with
  | nil => exact .nil
  | cons p ps ih =>
      cases p with
      | text s => exact .text ih
      | brk => exact .brk (by simp [IsBlank, Piece.chars]) (List.cons_ne_nil ' ' []) ih
      | box => exact @LaidOut.box [] ps _ (by simp [IsBlank]) ih
      | definition keyword tag => exact .definition ih

def definitions (ps : List Piece) : List Piece :=
  ps.filter fun | .definition _ _ => true | _ => false

@[simp] theorem definitions_nil : definitions [] = [] := rfl

@[simp] theorem definitions_append (ps qs : List Piece) :
    definitions (ps ++ qs) = definitions ps ++ definitions qs := List.filter_append ..

@[simp] theorem definitions_text (s : String) (ps : List Piece) :
    definitions (.text s :: ps) = definitions ps := rfl

@[simp] theorem definitions_brk (ps : List Piece) :
    definitions (.brk :: ps) = definitions ps := rfl

@[simp] theorem definitions_box (ps : List Piece) :
    definitions (.box :: ps) = definitions ps := rfl

@[simp] theorem definitions_definition (keyword tag : String) (ps : List Piece) :
    definitions (.definition keyword tag :: ps) = .definition keyword tag :: definitions ps := rfl

/-- `Ctypes_primitives.name`, the C type of each primitive in the table of
`gen_c_primitives.ml`; the preprocessor has replaced `bool`. -/
def primName : Prim → String
  | .char => "char"
  | .schar => "signed char"
  | .uchar => "unsigned char"
  | .bool => "_Bool"
  | .short => "short"
  | .int => "int"
  | .long => "long"
  | .llong => "long long"
  | .ushort => "unsigned short"
  | .sint => "int"
  | .uint => "unsigned int"
  | .ulong => "unsigned long"
  | .ullong => "unsigned long long"
  | .sizeT => "size_t"
  | .int8T => "int8_t"
  | .int16T => "int16_t"
  | .int32T => "int32_t"
  | .int64T => "int64_t"
  | .uint8T => "uint8_t"
  | .uint16T => "uint16_t"
  | .uint32T => "uint32_t"
  | .uint64T => "uint64_t"
  | .camlint => "intnat"
  | .nativeint => "intnat"
  | .float => "float"
  | .double => "double"
  | .ldouble => "long double"
  | .complex32 => "float _Complex"
  | .complex64 => "double _Complex"
  | .complexld => "long double _Complex"

inductive FormatContext
  | toplevel | array | nonarray
  deriving DecidableEq, Repr

abbrev Inner := FormatContext → List Piece

/-- The formats of views, `format_typ`. -/
abbrev ViewFormats := ViewId → Option (List Piece → List Piece)

def pointerTo (k : Inner) : Inner
  | .array => Piece.text "(*" :: k .nonarray ++ [Piece.text ")"]
  | _ => Piece.text "*" :: k .nonarray

def dimension (n : Nat) : Piece := .text ("[" ++ Nat.repr n ++ "]")

/-- The parameter types, with `k` in front. -/
def formatParameterList (params : List (List Piece)) (k : List Piece) : List Piece :=
  k ++ [Piece.text "(", .box, .box] ++
    (if params = [] then [Piece.text "void"]
      else List.intercalate [Piece.text ", ", .box] params) ++
    [Piece.text ")"]

section Format

variable (views : ViewFormats)

mutual
def formatTyp' : Typ → Inner → FormatContext → List Piece
  | .void, k, _ => .text "void" :: k .nonarray
  | .primitive p, k, _ => .text (primName p) :: k .nonarray
  | .view v ty, k, context =>
      match views v with
      | some format => format (k .nonarray)
      | none => formatTyp' ty k context
  | .abstract a, k, _ => .text a.aname :: k .nonarray
  | .struct tag spec fields, k, context =>
      if tag = "" then
        [Piece.text "struct \x7b", .brk, .box] ++ formatFields fields ++
          [Piece.brk, .text "\x7d"] ++ k .nonarray
      else
        match spec, context with
        | .complete _ _, .toplevel =>
            [Piece.definition "struct" tag, .brk, .box] ++ formatFields fields ++
              [Piece.brk, .text "\x7d"] ++ k .nonarray
        | _, _ => Piece.text ("struct " ++ tag) :: k .nonarray
  | .union utag uspec ufields, k, context =>
      if utag = "" then
        [Piece.text "union \x7b", .brk, .box] ++ formatFields ufields ++
          [Piece.brk, .text "\x7d"] ++ k .nonarray
      else
        match uspec, context with
        | some _, .toplevel =>
            [Piece.definition "union" utag, .brk, .box] ++ formatFields ufields ++
              [Piece.brk, .text "\x7d"] ++ k .nonarray
        | _, _ => Piece.text ("union " ++ utag) :: k .nonarray
  | .pointer ty, k, _ => formatTyp' ty (pointerTo k) .nonarray
  | .funptr fn, k, _ =>
      formatResult fn fun _ =>
        formatParameterList (formatParams fn) (Piece.text "(*" :: k .nonarray ++ [Piece.text ")"])
  | .array ty n, k, _ => formatTyp' ty (fun _ => k .array ++ [dimension n]) .nonarray
  | .bigarray ba, k, _ =>
      Piece.text (primName ba.elementType) :: k .array ++ ba.dimensions.map dimension
  -- printed as pointers to `char`, `uchar` and `double`
  | .ocaml .string, k, _ => .text (primName .char) :: pointerTo k .nonarray
  | .ocaml .bytes, k, _ => .text (primName .uchar) :: pointerTo k .nonarray
  | .ocaml .floatArray, k, _ => .text (primName .double) :: pointerTo k .nonarray
def formatFields : Fields → List Piece
  | .nil => []
  | .cons ftype _ fname rest =>
      Piece.box :: formatTyp' ftype (fun _ => [Piece.text (" " ++ fname)]) .nonarray ++
        [Piece.text ";", .brk] ++ formatFields rest
/-- The parameters that `gather` keeps, printed. -/
def formatParams : Fn → List (List Piece)
  | .returns _ => []
  | .function .void fn => formatParams fn
  | .function p fn => formatTyp' p (fun _ => []) .nonarray :: formatParams fn
/-- The result type, around `k`. -/
def formatResult : Fn → Inner → List Piece
  | .returns ty, k => formatTyp' ty k .nonarray
  | .function _ fn, k => formatResult fn k
end

/-- The parameters of a function, without those of type `void`, and its result. -/
def gather : Fn → List Typ × Typ
  | .returns ty => ([], ty)
  | .function .void fn => gather fn
  | .function p fn => (p :: (gather fn).1, (gather fn).2)

def formatFn' (fn : Fn) (k : List Piece) : List Piece :=
  formatResult views fn fun _ => formatParameterList (formatParams views fn) k

def formatName : Option String → List Piece
  | some name => [Piece.text (" " ++ name)]
  | none => []

def formatTyp (name : Option String) (typ : Typ) : List Piece :=
  .box :: formatTyp' views typ (fun _ => formatName name) .toplevel

def formatFn (name : Option String) (fn : Fn) : List Piece :=
  .box :: formatFn' views fn (formatName name)

/-- `string_of_typ`: some string that is printed. -/
def StringOfTyp (name : Option String) (ty : Typ) (s : String) : Prop :=
  LaidOut (formatTyp views name ty) s.toList

/-! ### The definitions that are printed -/

/-- The definition that a type in the top-level context is printed as. -/
def heading : Typ → List Piece
  | .struct tag (.complete _ _) _ => if tag = "" then [] else [.definition "struct" tag]
  | .union utag (some _) _ => if utag = "" then [] else [.definition "union" utag]
  | .view v ty => if (views v).isSome then [] else heading ty
  | _ => []

/-- The formats of views print what they are given and no definition. -/
def PlainFormats : Prop :=
  ∀ v format, views v = some format → ∀ ps, definitions (format ps) = definitions ps

theorem definitions_intercalate {sep : List Piece} (hsep : definitions sep = [])
    (pss : List (List Piece)) :
    definitions (List.intercalate sep pss) = pss.flatMap definitions := by
  induction pss with
  | nil => rfl
  | cons ps pss ih =>
      cases pss with
      | nil => simp
      | cons qs pss =>
          rw [List.intercalate_cons_cons, definitions_append, definitions_append, hsep, ih]
          simp

theorem definitions_formatParameterList {params : List (List Piece)}
    (hparams : ∀ ps ∈ params, definitions ps = []) (k : List Piece) :
    definitions (formatParameterList params k) = definitions k := by
  have hbetween : definitions (if params = [] then [.text "void"]
      else List.intercalate [.text ", ", .box] params) = [] := by
    split
    · rfl
    · rw [definitions_intercalate rfl]
      simpa using hparams
  simp [formatParameterList, hbetween]

theorem definitions_dimensions (dims : List Nat) : definitions (dims.map dimension) = [] := by
  induction dims with
  | nil => rfl
  | cons n dims ih => exact ih

variable {views}

mutual
/-- Only in the top-level context is a definition printed, in front of what
the continuation prints. -/
theorem definitions_formatTyp' (hviews : PlainFormats views) (t : Typ) {k : Inner}
    {ds : List Piece} (hk : ∀ c, definitions (k c) = ds) (context : FormatContext) :
    definitions (formatTyp' views t k context) =
      (if context = .toplevel then heading views t else []) ++ ds := by
  match t with
  | .void => simp [formatTyp', heading, hk]
  | .primitive p => simp [formatTyp', heading, hk]
  | .abstract a => simp [formatTyp', heading, hk]
  | .pointer ty =>
      have hinner : ∀ c, definitions (pointerTo k c) = ds := by
        intro c
        cases c <;> simp [pointerTo, hk]
      rw [formatTyp', definitions_formatTyp' hviews ty hinner]
      simp [heading]
  | .array ty n =>
      have hinner : ∀ _ : FormatContext, definitions (k .array ++ [dimension n]) = ds := by
        simp [hk, dimension]
      rw [formatTyp', definitions_formatTyp' hviews ty hinner]
      simp [heading]
  | .funptr fn =>
      obtain ⟨hresult, hparams⟩ := definitions_formatFn' hviews fn
      have hinner : definitions (Piece.text "(*" :: k .nonarray ++ [Piece.text ")"]) = ds := by
        simp [hk]
      rw [formatTyp', hresult fun _ => (definitions_formatParameterList hparams _).trans hinner]
      simp [heading]
  | .view v ty =>
      rw [formatTyp', heading]
      cases hv : views v with
      | none => simpa [hv] using definitions_formatTyp' hviews ty hk context
      | some format => simp [hviews v format hv, hk]
  | .struct tag spec fields =>
      have hfields := definitions_formatFields hviews fields
      unfold formatTyp' heading
      by_cases htag : tag = "" <;> cases spec <;> cases context <;>
        simp [htag, hk, hfields]
  | .union utag uspec ufields =>
      have hfields := definitions_formatFields hviews ufields
      unfold formatTyp' heading
      by_cases hutag : utag = "" <;> cases uspec <;> cases context <;>
        simp [hutag, hk, hfields]
  | .bigarray ba => simp [formatTyp', heading, hk, definitions_dimensions]
  | .ocaml ty => cases ty <;> simp [formatTyp', heading, pointerTo, hk]
theorem definitions_formatFields (hviews : PlainFormats views) (fields : Fields) :
    definitions (formatFields views fields) = [] := by
  match fields with
  | .nil => rfl
  | .cons ftype foffset fname rest =>
      have hname : ∀ _ : FormatContext, definitions [Piece.text (" " ++ fname)] = [] := fun _ => rfl
      simp [formatFields, definitions_formatTyp' hviews ftype hname,
        definitions_formatFields hviews rest]
theorem definitions_formatFn' (hviews : PlainFormats views) (fn : Fn) :
    (∀ {k : Inner} {ds : List Piece}, (∀ c, definitions (k c) = ds) →
      definitions (formatResult views fn k) = ds) ∧
    ∀ ps ∈ formatParams views fn, definitions ps = [] := by
  match fn with
  | .returns ty =>
      refine ⟨fun hk => ?_, by simp [formatParams]⟩
      simp [formatResult, definitions_formatTyp' hviews ty hk]
  | .function p fn =>
      obtain ⟨hresult, hparams⟩ := definitions_formatFn' hviews fn
      have hnone : ∀ _ : FormatContext, definitions [] = [] := fun _ => rfl
      have hp : definitions (formatTyp' views p (fun _ => []) .nonarray) = [] := by
        simp [definitions_formatTyp' hviews p hnone]
      refine ⟨hresult, ?_⟩
      cases p with
      | void => exact hparams
      | _ => exact List.forall_mem_cons.mpr ⟨hp, hparams⟩
end

theorem definitions_formatTyp (hviews : PlainFormats views) (name : Option String) (t : Typ) :
    definitions (formatTyp views name t) = heading views t := by
  have hname : ∀ _ : FormatContext, definitions (formatName name) = [] := by
    intro _
    cases name <;> rfl
  rw [formatTyp, definitions_box, definitions_formatTyp' hviews t hname, if_pos rfl,
    List.append_nil]

end Format

end CtypesCbuf.Ctypes.TypePrinting
