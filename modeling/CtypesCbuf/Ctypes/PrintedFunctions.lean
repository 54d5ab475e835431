import CtypesCbuf.Ctypes.PrintedTypes

/-!
What the text of a function type says in C, whatever types its parameters and
its result have. A view may have a format of its own; all that is known of a
format is that it prints some C type around what it is given. A structure or
a union that is printed with its members is a type of its own, and the text
then contains a brace.
-/

namespace CtypesCbuf.Ctypes.TypePrinting

open CDeclaration

/-! ### The types that are declared -/

section Declared

variable (views : ViewFormats) (viewType : ViewId → CType)

mutual
/-- The C type of a type's text, where the format of a view `v` prints the type
`viewType v`. -/
def declaredType : Typ → CType
  | .void => cType .void
  | .primitive p => cType (.primitive p)
  | .pointer ty => .pointer (declaredType ty)
  | .funptr fn =>
      .pointer (.function (declaredResult fn) (.parameters (declaredParams fn).unnamed))
  | .struct tag spec fields => cType (.struct tag spec fields)
  | .union utag uspec ufields => cType (.union utag uspec ufields)
  | .abstract a => cType (.abstract a)
  | .view v ty => if (views v).isSome then viewType v else declaredType ty
  | .array ty n => .array (declaredType ty) n
  | .bigarray ba => cType (.bigarray ba)
  | .ocaml ty => cType (.ocaml ty)
/-- The parameters, without those of type `void`. -/
def declaredParams : Fn → CTypes
  | .returns _ => .nil
  | .function .void fn => declaredParams fn
  | .function p fn => .cons (declaredType p) (declaredParams fn)
def declaredResult : Fn → CType
  | .returns ty => declaredType ty
  | .function _ fn => declaredResult fn
end

/-- The types whose text is `void`. -/
def PrintsVoid : Typ → Prop
  | .void => True
  | .view v ty => if (views v).isSome then viewType v = .words ["void"] else PrintsVoid ty
  | _ => False

/-- A list of parameters is `void` alone, or none of them is printed as `void`. -/
def VoidAlone (ps : List Typ) : Prop := ps.length = 1 ∨ ∀ p ∈ ps, ¬ PrintsVoid views viewType p

mutual
/-- The types whose text is a type that C has. What the parameters of a function
pointer are printed as depends on all of them, those of type `void` left out. -/
def PrintsType : Typ → Prop
  | .pointer ty => PrintsType ty
  | .funptr fn => VoidAlone views viewType (gather fn).1 ∧ PrintsParams fn ∧ PrintsResult fn
  | .view v ty => if (views v).isSome then (viewType v).WellFormed else PrintsType ty
  | .array ty _ => PrintsType ty ∧ (declaredType views viewType ty).IsElement
  | _ => True
def PrintsParams : Fn → Prop
  | .returns _ => True
  | .function p fn => PrintsType p ∧ PrintsParams fn
def PrintsResult : Fn → Prop
  | .returns ty => PrintsType ty ∧ (declaredType views viewType ty).IsReturned
  | .function _ fn => PrintsResult fn
end

mutual
/-- The types whose text has the members of a structure or a union in it. -/
def Defines : Typ → FormatContext → Prop
  | .pointer ty, _ => Defines ty .nonarray
  | .array ty _, _ => Defines ty .nonarray
  | .funptr fn, _ => DefinesParams fn ∨ DefinesResult fn
  | .view v ty, context => if (views v).isSome then False else Defines ty context
  | .struct tag spec _, context =>
      tag = "" ∨ context = .toplevel ∧ ∃ size align, spec = .complete size align
  | .union utag uspec _, context => utag = "" ∨ context = .toplevel ∧ ∃ spec, uspec = some spec
  | _, _ => False
def DefinesParams : Fn → Prop
  | .returns _ => False
  | .function p fn => Defines p .nonarray ∨ DefinesParams fn
def DefinesResult : Fn → Prop
  | .returns ty => Defines ty .nonarray
  | .function _ fn => DefinesResult fn
end

end Declared

/-! ### Braces -/

def HasBrace (ps : List Piece) : Prop := '{' ∈ render ps

@[simp] theorem not_hasBrace_nil : ¬ HasBrace [] := List.not_mem_nil

@[simp] theorem hasBrace_append (ps qs : List Piece) :
    HasBrace (ps ++ qs) ↔ HasBrace ps ∨ HasBrace qs := by
  simp [HasBrace, render]

@[simp] theorem hasBrace_text (s : String) (ps : List Piece) :
    HasBrace (.text s :: ps) ↔ '{' ∈ s.toList ∨ HasBrace ps := by
  simp [HasBrace, render, Piece.chars]

@[simp] theorem hasBrace_brk (ps : List Piece) : HasBrace (.brk :: ps) ↔ HasBrace ps := by
  simp [HasBrace, render, Piece.chars]

@[simp] theorem hasBrace_box (ps : List Piece) : HasBrace (.box :: ps) ↔ HasBrace ps := by
  simp [HasBrace, render, Piece.chars]

@[simp] theorem hasBrace_definition (keyword tag : String) (ps : List Piece) :
    HasBrace (.definition keyword tag :: ps) := by
  simp [HasBrace, render, Piece.chars]

theorem IsBlank.no_brace {bs : List Char} (h : IsBlank bs) : '{' ∉ bs := by
  intro hmem
  rcases h _ hmem with h | h <;> cases h

theorem LaidOut.brace_iff {ps : List Piece} {cs : List Char} (h : LaidOut ps cs) :
    '{' ∈ cs ↔ HasBrace ps := by
  induction h with
  | nil => simp
  | text _ ih => simp [ih]
  | brk hblank _ _ ih => simp [ih, hblank.no_brace]
  | box hblank _ ih => simp [ih, hblank.no_brace]
  | definition _ _ => simp [Piece.chars]

theorem hasBrace_intercalate {sep : List Piece} (hsep : ¬ HasBrace sep)
    (pss : List (List Piece)) :
    HasBrace (List.intercalate sep pss) ↔ ∃ ps ∈ pss, HasBrace ps := by
  induction pss with
  | nil => simp
  | cons ps pss ih =>
      cases pss with
      | nil => simp
      | cons qs pss =>
          rw [List.intercalate_cons_cons, hasBrace_append, hasBrace_append, ih]
          simp [hsep]

theorem hasBrace_formatParameterList (params : List (List Piece)) (k : List Piece) :
    HasBrace (formatParameterList params k) ↔ HasBrace k ∨ ∃ ps ∈ params, HasBrace ps := by
  have hsep : ¬ HasBrace [.text ", ", .box] := by simp
  have hbetween : HasBrace (if params = [] then [.text "void"]
      else List.intercalate [.text ", ", .box] params) ↔ ∃ ps ∈ params, HasBrace ps := by
    split
    · rename_i hnil
      simp [hnil]
    · exact hasBrace_intercalate hsep params
  simp [formatParameterList, hbetween]

theorem IsName.no_brace {w : String} (h : IsName w) : '{' ∉ w.toList :=
  fun hmem => absurd (h.chars _ hmem) (by decide)

theorem dimension_no_brace (n : Nat) : '{' ∉ ("[" ++ Nat.repr n ++ "]").toList := by
  have hdigits : '{' ∉ Nat.toDigits 10 n := fun hmem =>
    absurd (Nat.isDigit_of_mem_toDigits (by decide) (by decide) hmem) (by decide)
  simpa using hdigits

theorem hasBrace_dimensions (dims : List Nat) : ¬ HasBrace (dims.map dimension) := by
  induction dims with
  | nil => exact not_hasBrace_nil
  | cons n dims ih =>
      rw [List.map_cons, dimension, hasBrace_text]
      exact not_or.mpr ⟨dimension_no_brace n, ih⟩

theorem primName_no_brace (p : Prim) : '{' ∉ (primName p).toList := by
  have h : ∀ p ∈ Prim.all, '{' ∉ (primName p).toList := by decide +kernel
  exact h p p.mem_all

/-! ### Types at the start of a text -/

section Reading

variable {isTypedef : String → Bool}

def NamesType (isTypedef : String → Bool) (s : String) : Prop :=
  startsParams isTypedef (lex s.toList) = true

instance (isTypedef : String → Bool) (s : String) : Decidable (NamesType isTypedef s) :=
  inferInstanceAs (Decidable (_ = true))

def PrintsTyped (isTypedef : String → Bool) (ps : List Piece) (p : Option String × CType) : Prop :=
  ∃ D, Lexes ps D ∧ Declaration isTypedef D p ∧ startsParams isTypedef D = true

theorem PrintsTyped.declaration {ps : List Piece} {p : Option String × CType}
    (h : PrintsTyped isTypedef ps p) : PrintsDeclaration isTypedef ps p :=
  let ⟨D, hlex, hD, _⟩ := h
  ⟨D, hlex, hD⟩

theorem PrintsTyped.box {ps : List Piece} {p : Option String × CType}
    (h : PrintsTyped isTypedef ps p) : PrintsTyped isTypedef (.box :: ps) p :=
  let ⟨D, hlex, hD⟩ := h
  ⟨D, hlex.box, hD⟩

theorem PrintsDeclarator.typed {ps : List Piece} {d : Inside}
    (h : PrintsDeclarator isTypedef ps d) {s : String} {c : CType}
    (hs : Specifies isTypedef (lex s.toList) c) (hname : NamesType isTypedef s) :
    PrintsTyped isTypedef (.text s :: ps) (d c) :=
  let ⟨hsep, K, hlex, hK⟩ := h
  ⟨lex s.toList ++ K, hlex.word hsep s, hs.declaration hK, startsParams_append hname K⟩

/-- A built-in type is always in scope. -/
theorem namesType_word {s w : String} {ts : List Token} (hs : lex s.toList = .word w :: ts)
    (hw : w ∈ typeWords) : NamesType isTypedef s := by
  rw [NamesType, hs]
  simp [startsParams, hw]

theorem printsTyped_void : PrintsTyped isTypedef [.text "void"] (none, .words ["void"]) :=
  printsDirect_nil.declarator.typed specifies_void
    (@namesType_word _ "void" "void" [] rfl (by decide))

theorem namesType_struct {tag : String} (htag : IsName tag) :
    NamesType isTypedef ("struct " ++ tag) := by
  have hchars : ("struct " ++ tag).toList = "struct".toList ++ ' ' :: tag.toList := by simp
  rw [NamesType, hchars, lex_tag isIdentifier_struct htag.toIsIdentifier]
  simp [startsParams, tagged]

theorem namesType_union {utag : String} (hutag : IsName utag) :
    NamesType isTypedef ("union " ++ utag) := by
  have hchars : ("union " ++ utag).toList = "union".toList ++ ' ' :: utag.toList := by simp
  rw [NamesType, hchars, lex_tag isIdentifier_union hutag.toIsIdentifier]
  simp [startsParams, tagged]

theorem PrintsDirect.dimensions {ps : List Piece} {d : Inside} (h : PrintsDirect isTypedef ps d)
    (dims : List Nat) : PrintsDirect isTypedef (ps ++ dims.map dimension)
      fun t => d (dims.foldr (fun n c => .array c n) t) := by
  induction dims generalizing ps d with
  | nil => simpa using h
  | cons n dims ih => simpa using ih (h.array n)

inductive TypedParams (isTypedef : String → Bool) : List (List Piece) → CTypes → Prop
  | nil : TypedParams isTypedef [] .nil
  | cons {ps c pss cs} : PrintsTyped isTypedef ps (none, c) →
      TypedParams isTypedef pss cs → TypedParams isTypedef (ps :: pss) (.cons c cs)

theorem TypedParams.printParams {pss : List (List Piece)} {cs : CTypes}
    (h : TypedParams isTypedef pss cs) : PrintParams isTypedef pss cs.unnamed := by
  induction h with
  | nil => exact .nil
  | cons hps _ ih => exact .cons hps.declaration ih

/-- The text between the parentheses, which starts with the name of a type. -/
theorem TypedParams.lexes {pss : List (List Piece)} {cs : CTypes}
    (h : TypedParams isTypedef pss cs) :
    ∃ P ps, Lexes (if pss = [] then [.text "void"] else List.intercalate [.text ", ", .box] pss) P ∧
      Params isTypedef P ps ∧ CTypes.parameters ps = CTypes.parameters cs.unnamed ∧
      startsParams isTypedef P = true := by
  cases h with
  | nil =>
      obtain ⟨D, hlex, hD, hstarts⟩ := @printsTyped_void isTypedef
      exact ⟨D, _, hlex, hD.last, rfl, hstarts⟩
  | cons hps hpss =>
      obtain ⟨D, hlexD, hD, hstarts⟩ := hps
      obtain ⟨P, hlex, hP⟩ := hpss.printParams.intercalate comma_box hlexD hD
      exact ⟨D ++ P, _, hlex, hP, rfl, startsParams_append hstarts P⟩

/-- Parameters with nothing in front of them. -/
theorem TypedParams.direct {pss : List (List Piece)} {cs : CTypes}
    (h : TypedParams isTypedef pss cs) :
    PrintsDirect isTypedef (formatParameterList pss [])
      fun t => (none, .function t (.parameters cs.unnamed)) := by
  obtain ⟨P, ps, hlexP, hP, hps, hstarts⟩ := h.lexes
  refine ⟨@separate_text "(" '(' [] rfl (by decide) _, _, ?_, hps ▸ hP.direct hstarts⟩
  simpa [formatParameterList] using hlexP.parameters

/-- A format prints the type `c` around a declarator, and no members of its own. -/
structure FormatReads (isTypedef : String → Bool) (format : List Piece → List Piece)
    (c : CType) : Prop where
  typed : ∀ {ps : List Piece} {d : Inside}, PrintsDeclarator isTypedef ps d →
    PrintsTyped isTypedef (format ps) (d c)
  hasBrace_iff : ∀ ps, HasBrace (format ps) ↔ HasBrace ps

/-- The format of a `typedef`. -/
theorem formatReads_name {name : String} (hname : IsName name)
    (hscope : NamesType isTypedef name) :
    FormatReads isTypedef (fun ps => .text name :: ps) (.words [name]) where
  typed h := h.typed (specifies_aname hname) hscope
  hasBrace_iff ps := by rw [hasBrace_text, or_iff_right hname.no_brace]

/-! ### Types -/

variable (isTypedef) (views : ViewFormats) (viewType : ViewId → CType)

mutual
/-- The names and the formats in the text are those of C types in scope. -/
def Spelled : Typ → Prop
  | .void => True
  | .primitive p => NamesType isTypedef (primName p)
  | .pointer ty => Spelled ty
  | .funptr fn => SpelledFn fn
  | .struct tag _ _ => tag = "" ∨ IsName tag
  | .union utag _ _ => utag = "" ∨ IsName utag
  | .abstract a => IsName a.aname ∧ NamesType isTypedef a.aname
  | .view v ty =>
      match views v with
      | some format => FormatReads isTypedef format (viewType v)
      | none => Spelled ty
  | .array ty _ => Spelled ty
  | .bigarray ba => NamesType isTypedef (primName ba.elementType)
  | .ocaml _ => True
def SpelledFn : Fn → Prop
  | .returns ty => Spelled ty
  | .function p fn => Spelled p ∧ SpelledFn fn
end

variable {isTypedef views viewType}

theorem pointerTo_hasBrace {k : Inner} {B : Prop} (hk : ∀ c, HasBrace (k c) ↔ B)
    (c : FormatContext) : HasBrace (pointerTo k c) ↔ B := by
  cases c <;> simp [pointerTo, hk]

mutual
/-- A text has a brace iff it defines a structure or a union. -/
theorem hasBrace_formatTyp' (t : Typ) (ht : Spelled isTypedef views viewType t) {k : Inner}
    {B : Prop} (hk : ∀ c, HasBrace (k c) ↔ B) (context : FormatContext) :
    HasBrace (formatTyp' views t k context) ↔ Defines views t context ∨ B := by
  match t with
  | .void => simp [formatTyp', Defines, hk]
  | .primitive p => simp [formatTyp', Defines, hk, primName_no_brace]
  | .abstract a => simp [formatTyp', Defines, hk, IsName.no_brace ht.1]
  | .bigarray ba =>
      simp [formatTyp', Defines, hk, primName_no_brace, hasBrace_dimensions]
  | .ocaml ty =>
      cases ty <;>
        simp [formatTyp', Defines, pointerTo_hasBrace hk, primName_no_brace]
  | .pointer ty =>
      rw [formatTyp', Defines]
      exact hasBrace_formatTyp' ty ht (pointerTo_hasBrace hk) .nonarray
  | .array ty n =>
      have hinner : ∀ _ : FormatContext, HasBrace (k .array ++ [dimension n]) ↔ B := by
        intro _
        have hdim : ¬ HasBrace [dimension n] := hasBrace_dimensions [n]
        rw [hasBrace_append, hk, or_iff_left hdim]
      rw [formatTyp', Defines]
      exact hasBrace_formatTyp' ty ht hinner .nonarray
  | .funptr fn =>
      obtain ⟨hresult, hparams⟩ := hasBrace_formatFn' fn ht
      rw [formatTyp', Defines, hresult fun _ => hasBrace_formatParameterList _ _, hparams]
      simp only [List.cons_append, hasBrace_text, hasBrace_append, hk]
      simp
      tauto
  | .view v ty =>
      rw [Spelled] at ht
      rw [formatTyp', Defines]
      cases hv : views v with
      | none =>
          rw [hv] at ht
          simpa using hasBrace_formatTyp' ty ht hk context
      | some format =>
          rw [hv] at ht
          simp [ht.hasBrace_iff, hk]
  | .struct tag spec fields =>
      unfold formatTyp' Defines
      by_cases htag : tag = ""
      · simp [htag]
      · have hname : '{' ∉ tag.toList := (Or.resolve_left ht htag).no_brace
        cases spec <;> cases context <;> simp [htag, hk, hname]
  | .union utag uspec ufields =>
      unfold formatTyp' Defines
      by_cases hutag : utag = ""
      · simp [hutag]
      · have hname : '{' ∉ utag.toList := (Or.resolve_left ht hutag).no_brace
        cases uspec <;> cases context <;> simp [hutag, hk, hname]
theorem hasBrace_formatFn' (fn : Fn) (h : SpelledFn isTypedef views viewType fn) :
    (∀ {k : Inner} {B : Prop}, (∀ c, HasBrace (k c) ↔ B) →
      (HasBrace (formatResult views fn k) ↔ DefinesResult views fn ∨ B)) ∧
    ((∃ ps ∈ formatParams views fn, HasBrace ps) ↔ DefinesParams views fn) := by
  match fn with
  | .returns ty =>
      exact ⟨fun hk => hasBrace_formatTyp' ty h hk .nonarray, by simp [formatParams, DefinesParams]⟩
  | .function p fn =>
      obtain ⟨hresult, hparams⟩ := hasBrace_formatFn' fn h.2
      refine ⟨hresult, ?_⟩
      have hp :=
        hasBrace_formatTyp' p h.1 (fun _ => iff_of_false not_hasBrace_nil not_false) .nonarray
      rw [or_false] at hp
      cases p with
      | void => simpa [formatParams, DefinesParams, Defines] using hparams
      | _ => simp [formatParams, DefinesParams, hparams, hp]
end

mutual
/-- A text without a brace declares the type of its name. -/
theorem formatTyp'_typed (t : Typ) (ht : Spelled isTypedef views viewType t)
    {context : FormatContext} (hdef : ¬ Defines views t context) {k : Inner} {d : Inside}
    (hk : PrintsInner isTypedef k d) :
    PrintsTyped isTypedef (formatTyp' views t k context) (d (declaredType views viewType t)) := by
  match t with
  | .void =>
      exact hk.nonarray.typed specifies_void (@namesType_word _ "void" "void" [] rfl (by decide))
  | .primitive p => exact hk.nonarray.typed (specifies_primName p) ht
  | .abstract a => exact hk.nonarray.typed (specifies_aname ht.1) ht.2
  | .pointer ty => exact formatTyp'_typed ty ht hdef hk.nonarray.pointerTo
  | .array ty n => exact formatTyp'_typed ty ht hdef (hk.array.array n).inner
  | .funptr fn =>
      obtain ⟨hresult, hparams⟩ := formatFn'_typed fn ht
      obtain ⟨hdefp, hdefr⟩ := not_or.mp hdef
      exact hresult hdefr (hk.nonarray.function (hparams hdefp).printParams).inner
  | .bigarray ba =>
      exact (hk.array.dimensions ba.dimensions).declarator.typed
        (specifies_primName ba.elementType) ht
  | .ocaml ty =>
      have hptr := hk.nonarray.pointerTo.nonarray
      cases ty with
      | string =>
          exact hptr.typed (specifies_primName .char) (namesType_word (lex_primName _) (by decide))
      | bytes =>
          exact hptr.typed (specifies_primName .uchar) (namesType_word (lex_primName _) (by decide))
      | floatArray =>
          exact hptr.typed (specifies_primName .double)
            (namesType_word (lex_primName _) (by decide))
  | .view v ty =>
      rw [Spelled] at ht
      rw [Defines] at hdef
      rw [formatTyp', declaredType]
      cases hv : views v with
      | none =>
          rw [hv] at ht hdef
          exact formatTyp'_typed ty ht hdef hk
      | some format =>
          rw [hv] at ht
          exact ht.typed hk.nonarray
  | .struct tag spec fields =>
      obtain ⟨htag, hmembers⟩ := not_or.mp hdef
      have hname : IsName tag := Or.resolve_left ht htag
      have htext := hk.nonarray.typed (specifies_struct hname) (namesType_struct hname)
      unfold formatTyp'
      rw [if_neg htag]
      split
      · exact absurd ⟨rfl, _, _, rfl⟩ hmembers
      · exact htext
  | .union utag uspec ufields =>
      obtain ⟨hutag, hmembers⟩ := not_or.mp hdef
      have hname : IsName utag := Or.resolve_left ht hutag
      have htext := hk.nonarray.typed (specifies_union hname) (namesType_union hname)
      unfold formatTyp'
      rw [if_neg hutag]
      split
      · exact absurd ⟨rfl, _, rfl⟩ hmembers
      · exact htext
theorem formatFn'_typed (fn : Fn) (h : SpelledFn isTypedef views viewType fn) :
    (¬ DefinesResult views fn → ∀ {k : Inner} {d : Inside}, PrintsInner isTypedef k d →
      PrintsTyped isTypedef (formatResult views fn k) (d (declaredResult views viewType fn))) ∧
    (¬ DefinesParams views fn →
      TypedParams isTypedef (formatParams views fn) (declaredParams views viewType fn)) := by
  match fn with
  | .returns ty => exact ⟨fun hdef => formatTyp'_typed ty h hdef, fun _ => .nil⟩
  | .function p fn =>
      obtain ⟨hresult, hparams⟩ := formatFn'_typed fn h.2
      refine ⟨hresult, fun hdef => ?_⟩
      obtain ⟨hdefp, hdefps⟩ := not_or.mp hdef
      have hp := formatTyp'_typed p h.1 hdefp printsDirect_nil.inner
      cases p with
      | void => exact hparams hdefps
      | _ => exact .cons hp (hparams hdefps)
end

/-- Only `void` and its views are printed as `void`. -/
theorem declaredType_eq_void_iff (t : Typ) (ht : Spelled isTypedef views viewType t) :
    declaredType views viewType t = .words ["void"] ↔ PrintsVoid views viewType t := by
  match t with
  | .void => exact iff_of_true rfl trivial
  | .view v ty =>
      rw [Spelled] at ht
      rw [declaredType, PrintsVoid]
      cases hv : views v with
      | none =>
          rw [hv] at ht
          exact declaredType_eq_void_iff ty ht
      | some format => exact Iff.rfl
  | .primitive p =>
      exact iff_of_false (@cType_ne_void (.primitive p) trivial (fun h => by cases h)) id
  | .abstract a => exact iff_of_false (@cType_ne_void (.abstract a) ht.1 (fun h => by cases h)) id
  | .bigarray ba =>
      refine iff_of_false (fun h => ?_) id
      rw [declaredType, cType] at h
      cases hdims : ba.dimensions with
      | nil =>
          rw [hdims] at h
          exact @cType_ne_void (.primitive ba.elementType) trivial (fun h => by cases h) h
      | cons n dims =>
          rw [hdims] at h
          cases h
  | .ocaml ty => cases ty <;> exact iff_of_false (fun h => by cases h) id
  | .pointer ty | .funptr fn | .array ty n | .struct tag spec fields | .union utag uspec ufields =>
      exact iff_of_false (fun h => by cases h) id

theorem declaredParams_eq (fn : Fn) : declaredParams views viewType fn =
    .ofList ((gather fn).1.map (declaredType views viewType)) := by
  induction fn using gather.induct with
  | case1 ty => rfl
  | case2 fn ih => exact ih
  | case3 p fn hp ih =>
      have hcons : declaredParams views viewType (.function p fn) =
          .cons (declaredType views viewType p) (declaredParams views viewType fn) := by
        rw [declaredParams]
        exact hp
      rw [hcons, gather, ih]
      · rfl
      · exact hp

theorem spelled_gather {fn : Fn} (h : SpelledFn isTypedef views viewType fn) :
    ∀ p ∈ (gather fn).1, Spelled isTypedef views viewType p := by
  induction fn using gather.induct with
  | case1 ty => exact List.forall_mem_nil _
  | case2 fn ih => exact ih h.2
  | case3 p fn hp ih =>
      rw [gather]
      · exact List.forall_mem_cons.mpr ⟨h.1, ih h.2⟩
      · exact hp

theorem printsParams_iff (fn : Fn) : PrintsParams views viewType fn ↔
    ∀ p ∈ (gather fn).1, PrintsType views viewType p := by
  induction fn using gather.induct with
  | case1 ty => exact iff_of_true trivial (List.forall_mem_nil _)
  | case2 fn ih => exact (and_iff_right trivial).trans ih
  | case3 p fn hp ih =>
      rw [PrintsParams, ih, gather]
      · exact List.forall_mem_cons.symm
      · exact hp

theorem PrintsVoid.printsType {t : Typ} (h : PrintsVoid views viewType t) :
    PrintsType views viewType t := by
  match t with
  | .void => trivial
  | .view v ty =>
      rw [PrintsVoid] at h
      rw [PrintsType]
      split at h
      · rename_i hv
        rw [if_pos hv, h]
        trivial
      · rename_i hv
        rw [if_neg hv]
        exact PrintsVoid.printsType h

/-- The parameters of a function pointer, when those it has are of types that C
has: a single `void` stands for no parameters. -/
theorem wellFormed_parameters {ps : List Typ} {params : CTypes}
    (hparams : params =
      .parameters (CTypes.ofList (ps.map (declaredType views viewType))).unnamed)
    (hvoid : ∀ p ∈ ps,
      declaredType views viewType p = .words ["void"] ↔ PrintsVoid views viewType p)
    (hps : ∀ p ∈ ps,
      (declaredType views viewType p).WellFormed ↔ PrintsType views viewType p) :
    params.NoVoid ∧ params.WellFormed ↔
      VoidAlone views viewType ps ∧ ∀ p ∈ ps, PrintsType views viewType p := by
  by_cases halone : ∃ p, ps = [p] ∧ PrintsVoid views viewType p
  · obtain ⟨p, rfl, hp⟩ := halone
    have hnil : params = .nil := by
      have hdeclared := (hvoid p (List.mem_singleton_self p)).mpr hp
      simp [hparams, hdeclared, CTypes.ofList, CTypes.unnamed, CTypes.parameters]
    rw [hnil]
    exact iff_of_true ⟨trivial, trivial⟩ ⟨.inl rfl, by simpa using hp.printsType⟩
  · have hlist : params = .ofList (ps.map (declaredType views viewType)) := by
      rw [hparams]
      refine CTypes.parameters_unnamed fun hsingle => halone ?_
      cases ps with
      | nil => cases hsingle
      | cons p ps =>
          obtain ⟨hp, hnil⟩ := CTypes.cons.inj hsingle
          obtain rfl : ps = [] := by
            cases ps with
            | nil => rfl
            | cons q ps => cases hnil
          exact ⟨p, rfl, (hvoid p (List.mem_singleton_self p)).mp hp⟩
    rw [hlist, CTypes.noVoid_ofList, CTypes.wellFormed_ofList, List.forall_mem_map,
      List.forall_mem_map]
    refine and_congr ?_ (forall₂_congr hps)
    rw [forall₂_congr fun p hp => not_congr (hvoid p hp)]
    refine ⟨.inr, fun h => h.elim (fun hone p hp hprints => halone ?_) id⟩
    obtain ⟨q, rfl⟩ := List.length_eq_one_iff.mp hone
    exact ⟨q, rfl, List.mem_singleton.mp hp ▸ hprints⟩

mutual
/-- What the text of a type says is a type of C. -/
theorem wellFormed_declaredType (t : Typ) (ht : Spelled isTypedef views viewType t) :
    (declaredType views viewType t).WellFormed ↔ PrintsType views viewType t := by
  match t with
  | .void | .primitive p | .struct tag spec fields | .union utag uspec ufields | .abstract a =>
      exact iff_of_true trivial trivial
  | .ocaml ty => cases ty <;> exact iff_of_true trivial trivial
  | .bigarray ba =>
      have helement : (cType (.primitive ba.elementType)).IsElement := fun h =>
        @cType_ne_void (.primitive ba.elementType) trivial (fun hp => by cases hp)
          (congrArg CType.words h)
      have hformed : (cType (.primitive ba.elementType)).WellFormed := trivial
      exact iff_of_true (hformed.dimensions helement ba.dimensions).1 trivial
  | .pointer ty => exact wellFormed_declaredType ty ht
  | .array ty n => exact and_congr_left' (wellFormed_declaredType ty ht)
  | .view v ty =>
      rw [Spelled] at ht
      rw [declaredType, PrintsType]
      cases hv : views v with
      | none =>
          rw [hv] at ht
          exact wellFormed_declaredType ty ht
      | some format => exact Iff.rfl
  | .funptr fn =>
      obtain ⟨hparams, hresult⟩ := wellFormed_declaredFn fn ht
      have hlist := wellFormed_parameters rfl
        (fun p hp => declaredType_eq_void_iff p (spelled_gather ht p hp)) hparams
      rw [PrintsType, printsParams_iff, ← and_assoc, ← hlist, ← hresult, and_comm,
        ← declaredParams_eq]
      exact Iff.rfl
theorem wellFormed_declaredFn (fn : Fn) (h : SpelledFn isTypedef views viewType fn) :
    (∀ p ∈ (gather fn).1,
      (declaredType views viewType p).WellFormed ↔ PrintsType views viewType p) ∧
    ((declaredResult views viewType fn).WellFormed ∧ (declaredResult views viewType fn).IsReturned ↔
      PrintsResult views viewType fn) := by
  match fn with
  | .returns ty => exact ⟨List.forall_mem_nil _, and_congr_left' (wellFormed_declaredType ty h)⟩
  | .function p fn =>
      obtain ⟨hparams, hresult⟩ := wellFormed_declaredFn fn h.2
      have hp := wellFormed_declaredType p h.1
      refine ⟨?_, hresult⟩
      cases p with
      | void => exact hparams
      | _ => exact List.forall_mem_cons.mpr ⟨hp, hparams⟩
end

/-- What defines a type inside a declaration also does so on its own. -/
theorem Defines.toplevel {t : Typ} (h : Defines views t .nonarray) :
    Defines views t .toplevel := by
  match t with
  | .view v ty =>
      rw [Defines] at h ⊢
      split at h
      · exact h.elim
      · rename_i hv
        rw [if_neg hv]
        exact Defines.toplevel h
  | .struct tag spec fields => exact Or.inl (h.resolve_right fun h => nomatch h.1)
  | .union utag uspec ufields => exact Or.inl (h.resolve_right fun h => nomatch h.1)
  | .pointer ty | .funptr fn | .array ty n => exact h

/-! ### Function types -/

theorem hasBrace_formatFn {fn : Fn} (h : SpelledFn isTypedef views viewType fn) :
    HasBrace (formatFn views none fn) ↔ DefinesResult views fn ∨ DefinesParams views fn := by
  obtain ⟨hresult, hparams⟩ := hasBrace_formatFn' fn h
  have hnone : ¬ HasBrace (formatName none) := not_hasBrace_nil
  rw [formatFn, hasBrace_box, formatFn', hresult fun _ => hasBrace_formatParameterList _ _, hparams,
    or_iff_right hnone]

/-- `string_of_fn` prints the result around the parameters. -/
theorem formatFn_declaration {fn : Fn} (h : SpelledFn isTypedef views viewType fn)
    (hdef : ¬ (DefinesResult views fn ∨ DefinesParams views fn)) :
    PrintsDeclaration isTypedef (formatFn views none fn)
      (none, .function (declaredResult views viewType fn)
        (.parameters (declaredParams views viewType fn).unnamed)) := by
  obtain ⟨hresult, hparams⟩ := formatFn'_typed fn h
  obtain ⟨hdefr, hdefp⟩ := not_or.mp hdef
  exact (hresult hdefr (hparams hdefp).direct.inner).box.declaration

variable (isTypedef) in
/-- The text declares a function of a type that C has, however its lines are
broken. A text with members in it declares a type of its own besides. -/
structure DenotesFunction (ps : List Piece) (name : Option String) (r : CType)
    (cs : CTypes) : Prop where
  wellFormed : (CType.function r cs).WellFormed
  parse_eq : ∀ text, LaidOut ps text → parse isTypedef text = some (name, .function r cs)
  noMembers : ∀ text, LaidOut ps text → '{' ∉ text

theorem DenotesFunction.not_hasBrace {ps : List Piece} {name : Option String} {r : CType}
    {cs : CTypes} (h : DenotesFunction isTypedef ps name r cs) : ¬ HasBrace ps :=
  h.noMembers (render ps) (laidOut_render ps)

/-- What is read as a function denotes that function and no other. -/
theorem PrintsDeclaration.denotes_iff {ps : List Piece} {name : Option String} {r : CType}
    {cs : CTypes} (h : PrintsDeclaration isTypedef ps (name, .function r cs))
    (hbrace : ¬ HasBrace ps) (r' : CType) (cs' : CTypes) :
    DenotesFunction isTypedef ps name r' cs' ↔
      r' = r ∧ cs' = cs ∧ (CType.function r cs).WellFormed := by
  obtain ⟨D, hlex, hD⟩ := h
  have hparse : ∀ text, LaidOut ps text → parse isTypedef text = some (name, .function r cs) :=
    fun text htext => hD.parse (hlex text htext)
  constructor
  · intro hdenotes
    have hsame :=
      (hparse _ (laidOut_render ps)).symm.trans (hdenotes.parse_eq _ (laidOut_render ps))
    simp only [Option.some.injEq, Prod.mk.injEq, CType.function.injEq, true_and] at hsame
    obtain ⟨rfl, rfl⟩ := hsame
    exact ⟨rfl, rfl, hdenotes.wellFormed⟩
  · rintro ⟨rfl, rfl, hformed⟩
    exact ⟨hformed, hparse, fun text htext => htext.brace_iff.not.mpr hbrace⟩

end Reading

end CtypesCbuf.Ctypes.TypePrinting
