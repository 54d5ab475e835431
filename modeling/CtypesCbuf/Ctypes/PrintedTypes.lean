import CtypesCbuf.Ctypes.TypePrinting
import CtypesCbuf.Lib.CDeclaration

/-!
What a printed type says in C. The parser of C declarations reads a printed
type back as the name and the type that were printed, however its lines are
broken: the pieces are turned into tokens, and a continuation of the printer
is the declarator that its tokens are read as.
-/

namespace CtypesCbuf.Ctypes.TypePrinting

open CDeclaration

/-! ### The types of C -/

def wordsOf (s : String) : List String :=
  (lex s.toList).filterMap fun
    | .word w => some w
    | _ => none

mutual
/-- The C type of a type. A primitive and an abstract type are what their C
name says, a structure and a union are their tags. -/
def cType : Typ → CType
  | .void => .words ["void"]
  | .primitive p => .words (wordsOf (primName p))
  | .pointer ty => .pointer (cType ty)
  | .funptr fn => .pointer (.function (cResult fn) (cParams fn))
  | .struct tag _ _ => .struct tag
  | .union utag _ _ => .union utag
  | .abstract a => .words [a.aname]
  | .view _ ty => cType ty
  | .array ty n => .array (cType ty) n
  | .bigarray ba =>
      ba.dimensions.foldr (fun n c => .array c n) (.words (wordsOf (primName ba.elementType)))
  | .ocaml .string => .pointer (.words (wordsOf (primName .char)))
  | .ocaml .bytes => .pointer (.words (wordsOf (primName .uchar)))
  | .ocaml .floatArray => .pointer (.words (wordsOf (primName .double)))
/-- The parameters, without those of type `void`. -/
def cParams : Fn → CTypes
  | .returns _ => .nil
  | .function .void fn => cParams fn
  | .function p fn => .cons (cType p) (cParams fn)
def cResult : Fn → CType
  | .returns ty => cType ty
  | .function _ fn => cResult fn
end

/-- The names a declaration can give. -/
structure IsName (w : String) : Prop extends IsIdentifier w where
  not_keyword : w ∉ keywords

instance (w : String) : Decidable (IsName w) :=
  decidable_of_iff (IsIdentifier w ∧ w ∉ keywords) ⟨fun h => ⟨h.1, h.2⟩, fun h => ⟨h.1, h.2⟩⟩

theorem isIdentifier_numbered {w : String} (hw : IsIdentifier w) (n : Nat) :
    IsIdentifier (w ++ Nat.repr n) := by
  have hchars : (w ++ Nat.repr n).toList = w.toList ++ Nat.toDigits 10 n := by simp
  have hword : ∀ c ∈ Nat.toDigits 10 n, isWordChar c = true := fun c hc => by
    simp [isWordChar, Char.isAlphanum, Nat.isDigit_of_mem_toDigits (by decide) (by decide) hc]
  refine ⟨?_, ?_, ?_⟩
  · rw [hchars]
    exact List.append_ne_nil_of_left_ne_nil hw.ne_nil _
  · rw [hchars]
    exact List.forall_mem_append.mpr ⟨hw.chars, hword⟩
  · rw [hchars, List.head?_append_of_ne_nil _ hw.ne_nil]
    exact hw.not_digit

/-- No keyword starts with an `x`. -/
theorem isName_numbered (n : Nat) : IsName ("x" ++ Nat.repr n) where
  toIsIdentifier := isIdentifier_numbered (by decide) n
  not_keyword hmem := by
    have hkeywords : ∀ w ∈ keywords, w.toList.head? ≠ some 'x' := by decide
    exact hkeywords _ hmem (by simp)

mutual
/-- The types built without views, bigarrays and OCaml types, whose tags and
names are names of C. -/
def Plain : Typ → Prop
  | .void => True
  | .primitive _ => True
  | .pointer ty => Plain ty
  | .funptr fn => PlainFn fn
  | .struct tag _ fields => IsName tag ∧ PlainFields fields
  | .union utag _ ufields => IsName utag ∧ PlainFields ufields
  | .abstract a => IsName a.aname
  | .array ty _ => Plain ty
  | .view _ _ => False
  | .bigarray _ => False
  | .ocaml _ => False
def PlainFields : Fields → Prop
  | .nil => True
  | .cons ftype _ fname rest => Plain ftype ∧ IsName fname ∧ PlainFields rest
def PlainFn : Fn → Prop
  | .returns ty => Plain ty
  | .function p fn => Plain p ∧ PlainFn fn
end

/-! ### The tokens of what is printed -/

def Lexes (ps : List Piece) (ts : List Token) : Prop := ∀ cs, LaidOut ps cs → lex cs = ts

def Separate (ps : List Piece) : Prop := ∀ cs, LaidOut ps cs → Delimited cs

theorem LaidOut.of_append {ps qs : List Piece} {cs : List Char} (h : LaidOut (ps ++ qs) cs) :
    ∃ as bs, cs = as ++ bs ∧ LaidOut ps as ∧ LaidOut qs bs := by
  induction ps generalizing cs with
  | nil => exact ⟨[], cs, rfl, .nil, h⟩
  | cons p ps ih =>
      cases h with
      | text h =>
          obtain ⟨as, bs, rfl, has, hbs⟩ := ih h
          exact ⟨_, bs, (List.append_assoc ..).symm, .text has, hbs⟩
      | brk hblank hne h =>
          obtain ⟨as, bs, rfl, has, hbs⟩ := ih h
          exact ⟨_, bs, (List.append_assoc ..).symm, .brk hblank hne has, hbs⟩
      | box hblank h =>
          obtain ⟨as, bs, rfl, has, hbs⟩ := ih h
          exact ⟨_, bs, (List.append_assoc ..).symm, .box hblank has, hbs⟩
      | definition h =>
          obtain ⟨as, bs, rfl, has, hbs⟩ := ih h
          exact ⟨_, bs, (List.append_assoc ..).symm, .definition has, hbs⟩

theorem IsBlank.isBlank {bs : List Char} (h : IsBlank bs) :
    ∀ b ∈ bs, CDeclaration.isBlank b = true := by
  intro b hb
  rcases h b hb with rfl | rfl <;> decide

theorem delimited_append {as bs : List Char} (has : Delimited as) (hbs : Delimited bs) :
    Delimited (as ++ bs) := by
  cases as with
  | nil => exact hbs
  | cons a as => exact has

theorem separate_nil : Separate [] := by
  rintro cs ⟨⟩
  trivial

theorem Separate.append {ps qs : List Piece} (hps : Separate ps) (hqs : Separate qs) :
    Separate (ps ++ qs) := by
  intro cs h
  obtain ⟨as, bs, rfl, has, hbs⟩ := h.of_append
  exact delimited_append (hps as has) (hqs bs hbs)

theorem separate_text {s : String} {c : Char} {cs : List Char} (hs : s.toList = c :: cs)
    (hc : isWordChar c = false) (ps : List Piece) : Separate (.text s :: ps) := by
  intro as h
  cases h with
  | text h =>
      rw [hs]
      exact hc

theorem separate_brk (ps : List Piece) : Separate (.brk :: ps) := by
  intro as h
  cases h with
  | @brk bs _ _ hblank hne h =>
      cases bs with
      | nil => exact absurd rfl hne
      | cons b bs => rcases hblank b (List.mem_cons_self ..) with rfl | rfl <;> rfl

theorem Separate.box {ps : List Piece} (h : Separate ps) : Separate (.box :: ps) := by
  intro as has
  cases has with
  | @box bs _ _ hblank hcs =>
      cases bs with
      | nil => exact h _ hcs
      | cons b bs => rcases hblank b (List.mem_cons_self ..) with rfl | rfl <;> rfl

theorem lexes_nil : Lexes [] [] := by
  rintro cs ⟨⟩
  rfl

theorem Lexes.append {ps qs : List Piece} {ts us : List Token} (hps : Lexes ps ts)
    (hqs : Lexes qs us) (h : Separate qs) : Lexes (ps ++ qs) (ts ++ us) := by
  intro cs hcs
  obtain ⟨as, bs, rfl, has, hbs⟩ := hcs.of_append
  rw [lex_append (h bs hbs), hps as has, hqs bs hbs]

theorem Lexes.word {ps : List Piece} {ts : List Token} (hps : Lexes ps ts) (h : Separate ps)
    (s : String) : Lexes (Piece.text s :: ps) (lex s.toList ++ ts) := by
  intro as has
  cases has with
  | text hcs => rw [lex_append (h _ hcs), hps _ hcs]

/-- A text that ends with a symbol or a blank. -/
theorem Lexes.symbol {ps : List Piece} {ts : List Token} (hps : Lexes ps ts) {s : String}
    {ws : List Char} {c : Char} (hs : s.toList = ws ++ [c]) (hc : isWordChar c = false) :
    Lexes (Piece.text s :: ps) (lex s.toList ++ ts) := by
  intro as has
  cases has with
  | text hcs =>
      rw [hs, List.append_assoc, List.singleton_append, lex_append_cons hc, hps _ hcs]

theorem Lexes.brk {ps : List Piece} {ts : List Token} (hps : Lexes ps ts) :
    Lexes (.brk :: ps) ts := by
  intro as has
  cases has with
  | brk hblank hne hcs => rw [lex_blank hblank.isBlank, hps _ hcs]

theorem Lexes.box {ps : List Piece} {ts : List Token} (hps : Lexes ps ts) :
    Lexes (.box :: ps) ts := by
  intro as has
  cases has with
  | box hblank hcs => rw [lex_blank hblank.isBlank, hps _ hcs]

theorem lex_tag {keyword tag : String} (hkeyword : IsIdentifier keyword) (htag : IsIdentifier tag) :
    lex (keyword.toList ++ ' ' :: tag.toList) = [Token.word keyword, .word tag] := by
  have hdelimited : Delimited (' ' :: tag.toList) := by rfl
  rw [lex_append hdelimited, lex_word hkeyword, lex_cons (by decide), lex_word htag]
  rfl

theorem Lexes.definition {ps : List Piece} {ts : List Token} (hps : Lexes ps ts)
    {keyword tag : String} (hkeyword : IsIdentifier keyword) (htag : IsIdentifier tag) :
    Lexes (.definition keyword tag :: ps)
      ([Token.word keyword, .word tag, .symbol '{'] ++ ts) := by
  intro as has
  cases has with
  | @definition _ _ _ cs hcs =>
      have hdelimited : Delimited (' ' :: '{' :: cs) := by rfl
      have hchars : (Piece.definition keyword tag).chars ++ cs =
          (keyword.toList ++ ' ' :: tag.toList) ++ ' ' :: '{' :: cs := by
        simp [Piece.chars]
      rw [hchars, lex_append hdelimited, lex_tag hkeyword htag, lex_cons (by decide),
        lex_cons (by decide), hps cs hcs]
      rfl

/-! ### Declarators and declarations that are printed -/

section Reading

variable {isTypedef : String → Bool}

/-- Printed as the declarator `d`, whatever dimensions and parameters follow. -/
def PrintsDirect (isTypedef : String → Bool) (ps : List Piece) (d : Inside) : Prop :=
  Separate ps ∧ ∃ K, Lexes ps K ∧ Direct isTypedef K d

def PrintsDeclarator (isTypedef : String → Bool) (ps : List Piece) (d : Inside) : Prop :=
  Separate ps ∧ ∃ K, Lexes ps K ∧ Declares isTypedef K d

def PrintsDeclaration (isTypedef : String → Bool) (ps : List Piece)
    (p : Option String × CType) : Prop :=
  ∃ D, Lexes ps D ∧ Declaration isTypedef D p

/-- What the continuation prints is read as the declarator `d`. -/
structure PrintsInner (isTypedef : String → Bool) (k : Inner) (d : Inside) : Prop where
  array : PrintsDirect isTypedef (k .array) d
  nonarray : PrintsDeclarator isTypedef (k .nonarray) d

theorem PrintsDirect.declarator {ps : List Piece} {d : Inside} (h : PrintsDirect isTypedef ps d) :
    PrintsDeclarator isTypedef ps d :=
  let ⟨hsep, K, hlex, hK⟩ := h
  ⟨hsep, K, hlex, hK.declares⟩

theorem PrintsDirect.box {ps : List Piece} {d : Inside} (h : PrintsDirect isTypedef ps d) :
    PrintsDirect isTypedef (.box :: ps) d :=
  let ⟨hsep, K, hlex, hK⟩ := h
  ⟨hsep.box, K, hlex.box, hK⟩

theorem PrintsDirect.inner {ps : List Piece} {d : Inside} (h : PrintsDirect isTypedef ps d) :
    PrintsInner isTypedef (fun _ => ps) d :=
  ⟨h, h.declarator⟩

theorem printsDirect_nil : PrintsDirect isTypedef [] fun t => (none, t) :=
  ⟨separate_nil, [], lexes_nil, direct_nil⟩

theorem lexes_name {name : String} (hname : IsName name) {ps : List Piece} {ts : List Token}
    (h : Lexes ps ts) (hsep : Separate ps) :
    Lexes (Piece.text (" " ++ name) :: ps) (Token.word name :: ts) := by
  have hchars : (" " ++ name).toList = ' ' :: name.toList := by simp
  have hlex : lex (" " ++ name).toList = [Token.word name] := by
    rw [hchars, lex_cons (by decide), lex_word hname.toIsIdentifier]
    rfl
  have hword := h.word hsep (" " ++ name)
  rwa [hlex] at hword

theorem separate_name (name : String) (ps : List Piece) :
    Separate (Piece.text (" " ++ name) :: ps) :=
  have hchars : (" " ++ name).toList = ' ' :: name.toList := by simp
  separate_text hchars (by decide) ps

theorem printsDirect_name {name : String} (hname : IsName name) :
    PrintsDirect isTypedef [Piece.text (" " ++ name)] fun t => (some name, t) :=
  ⟨separate_name name [], [Token.word name], lexes_name hname lexes_nil separate_nil,
    direct_word hname.not_keyword⟩

theorem separate_close (ps : List Piece) : Separate (.text ")" :: ps) :=
  @separate_text ")" ')' [] rfl (by decide) ps

theorem lexes_close {ps : List Piece} {ts : List Token} (hps : Lexes ps ts) :
    Lexes (.text ")" :: ps) (.symbol ')' :: ts) :=
  @Lexes.symbol ps ts hps ")" [] ')' rfl (by decide)

theorem PrintsDeclarator.pointer {ps : List Piece} {d : Inside}
    (h : PrintsDeclarator isTypedef ps d) :
    PrintsDeclarator isTypedef (.text "*" :: ps) fun t => d (.pointer t) := by
  obtain ⟨-, K, hlex, hK⟩ := h
  refine ⟨@separate_text "*" '*' [] rfl (by decide) ps, .symbol '*' :: K, ?_, hK.pointer⟩
  exact @Lexes.symbol ps K hlex "*" [] '*' rfl (by decide)

theorem Lexes.pointerParens {ps : List Piece} {K : List Token} (h : Lexes ps K) :
    Lexes (Piece.text "(*" :: ps ++ [Piece.text ")"])
      (Token.symbol '(' :: Token.symbol '*' :: K ++ [Token.symbol ')']) := by
  have hparens : Lexes (ps ++ [Piece.text ")"]) (K ++ [Token.symbol ')']) :=
    h.append (lexes_close lexes_nil) (separate_close [])
  exact @Lexes.symbol _ _ hparens "(*" ['('] '*' rfl (by decide)

/-- A pointer in parentheses. -/
theorem PrintsDeclarator.pointerParens {ps : List Piece} {d : Inside}
    (h : PrintsDeclarator isTypedef ps d) :
    PrintsDirect isTypedef (Piece.text "(*" :: ps ++ [Piece.text ")"]) fun t => d (.pointer t) := by
  obtain ⟨-, K, hlex, hK⟩ := h
  exact ⟨@separate_text "(*" '(' ['*'] rfl (by decide) _, _, hlex.pointerParens,
    hK.pointer.parens⟩

theorem PrintsDeclarator.pointerTo {k : Inner} {d : Inside}
    (h : PrintsDeclarator isTypedef (k .nonarray) d) :
    PrintsInner isTypedef (pointerTo k) fun t => d (.pointer t) :=
  ⟨h.pointerParens, h.pointer⟩

theorem lex_dimension (n : Nat) :
    lex ("[" ++ Nat.repr n ++ "]").toList = [Token.symbol '[', .number n, .symbol ']'] := by
  have hdelimited : Delimited [']'] := by rfl
  have hchars : ("[" ++ Nat.repr n ++ "]").toList = '[' :: ((Nat.repr n).toList ++ [']']) := by simp
  rw [hchars, lex_cons (by decide), lex_append hdelimited, lex_number]
  rfl

theorem PrintsDirect.array {ps : List Piece} {d : Inside} (h : PrintsDirect isTypedef ps d)
    (n : Nat) : PrintsDirect isTypedef (ps ++ [dimension n]) fun t => d (.array t n) := by
  obtain ⟨hsep, K, hlex, hK⟩ := h
  have hchars : ("[" ++ Nat.repr n ++ "]").toList = '[' :: ((Nat.repr n).toList ++ [']']) := by simp
  have hdim : Separate [dimension n] := separate_text hchars (by decide) []
  have hlexdim := lexes_nil.word separate_nil ("[" ++ Nat.repr n ++ "]")
  rw [lex_dimension, List.append_nil] at hlexdim
  exact ⟨hsep.append hdim, _, hlex.append hlexdim hdim, hK.array n⟩

/-- A type that is printed as text, in front of a declarator. -/
theorem PrintsDeclarator.declaration {ps : List Piece} {d : Inside}
    (h : PrintsDeclarator isTypedef ps d) {s : String} {c : CType}
    (hs : Specifies isTypedef (lex s.toList) c) :
    PrintsDeclaration isTypedef (.text s :: ps) (d c) :=
  let ⟨hsep, K, hlex, hK⟩ := h
  ⟨lex s.toList ++ K, hlex.word hsep s, hs.declaration hK⟩

theorem specifies_void : Specifies isTypedef (lex "void".toList) (.words ["void"]) :=
  @specifies_words isTypedef "void" [] (by decide) (by simp)

theorem specifies_wordsOf {ws : List String}
    (hws : (ws ≠ [] ∧ ∀ w ∈ ws, w ∈ typeWords) ∨ ∃ w ∈ ws, w ∉ keywords ∧ ws = [w]) :
    Specifies isTypedef (ws.map .word) (.words ws) := by
  rcases hws with ⟨hne, hws⟩ | ⟨w, -, hw, rfl⟩
  · cases ws with
    | nil => exact absurd rfl hne
    | cons w ws =>
        exact specifies_words (hws w (List.mem_cons_self ..))
          fun w hw => hws w (List.mem_cons_of_mem _ hw)
  · exact specifies_name hw

theorem lex_primName (p : Prim) :
    lex (primName p).toList = (wordsOf (primName p)).map .word := by
  have h : ∀ p ∈ Prim.all, lex (primName p).toList = (wordsOf (primName p)).map .word := by
    decide +kernel
  exact h p p.mem_all

theorem wordsOf_primName (p : Prim) :
    (wordsOf (primName p) ≠ [] ∧ ∀ w ∈ wordsOf (primName p), w ∈ typeWords) ∨
      ∃ w ∈ wordsOf (primName p), w ∉ keywords ∧ wordsOf (primName p) = [w] := by
  have h : ∀ p ∈ Prim.all,
      (wordsOf (primName p) ≠ [] ∧ ∀ w ∈ wordsOf (primName p), w ∈ typeWords) ∨
        ∃ w ∈ wordsOf (primName p), w ∉ keywords ∧ wordsOf (primName p) = [w] := by
    decide +kernel
  exact h p p.mem_all

theorem specifies_primName (p : Prim) :
    Specifies isTypedef (lex (primName p).toList) (.words (wordsOf (primName p))) := by
  rw [lex_primName]
  exact specifies_wordsOf (wordsOf_primName p)

theorem specifies_aname {a : String} (ha : IsName a) :
    Specifies isTypedef (lex a.toList) (.words [a]) := by
  rw [lex_word ha.toIsIdentifier]
  exact specifies_name ha.not_keyword

theorem specifies_tagged {keyword : String} (hkeyword : IsIdentifier keyword)
    {mk : String → CType} (hmk : tagged keyword = some mk) {tag : String} (htag : IsName tag) :
    Specifies isTypedef (lex (keyword ++ " " ++ tag).toList) (mk tag) := by
  have hchars : (keyword ++ " " ++ tag).toList = keyword.toList ++ ' ' :: tag.toList := by simp
  rw [hchars, lex_tag hkeyword htag.toIsIdentifier]
  exact specifies_tag hmk tag

theorem isIdentifier_struct : IsIdentifier "struct" := by decide

theorem isIdentifier_union : IsIdentifier "union" := by decide

theorem specifies_struct {tag : String} (htag : IsName tag) :
    Specifies isTypedef (lex ("struct " ++ tag).toList) (.struct tag) := by
  have h := @specifies_tagged isTypedef "struct" isIdentifier_struct _ rfl tag htag
  simpa using h

theorem specifies_union {utag : String} (hutag : IsName utag) :
    Specifies isTypedef (lex ("union " ++ utag).toList) (.union utag) := by
  have h := @specifies_tagged isTypedef "union" isIdentifier_union _ rfl utag hutag
  simpa using h

/-! Members. -/

def PrintsMembers (isTypedef : String → Bool) (ps : List Piece) : Prop :=
  ∃ F, Lexes ps F ∧ Members isTypedef F

theorem printsMembers_nil : PrintsMembers isTypedef [] := ⟨[], lexes_nil, members_nil⟩

theorem PrintsDeclaration.members {ps qs : List Piece} {p : Option String × CType}
    (hps : PrintsDeclaration isTypedef ps p) (hqs : PrintsMembers isTypedef qs) :
    PrintsMembers isTypedef (Piece.box :: ps ++ [Piece.text ";", .brk] ++ qs) := by
  obtain ⟨D, hlexD, hD⟩ := hps
  obtain ⟨F, hlexF, hF⟩ := hqs
  have hend : Lexes (.text ";" :: .brk :: qs) (.symbol ';' :: F) :=
    @Lexes.symbol _ _ hlexF.brk ";" [] ';' rfl (by decide)
  have hlex := (hlexD.append hend (@separate_text ";" ';' [] rfl (by decide) _)).box
  exact ⟨D ++ Token.symbol ';' :: F, by simpa using hlex, hD.members hF⟩

/-- A structure or a union that is printed with its members. -/
theorem PrintsDeclarator.definition {ps qs : List Piece} {d : Inside}
    (h : PrintsDeclarator isTypedef ps d) {keyword : String} (hkeyword : IsIdentifier keyword)
    {mk : String → CType} (hmk : tagged keyword = some mk) {tag : String} (htag : IsName tag)
    (hqs : PrintsMembers isTypedef qs) :
    PrintsDeclaration isTypedef
      ([Piece.definition keyword tag, .brk, .box] ++ qs ++ [Piece.brk, .text "\x7d"] ++ ps)
      (d (mk tag)) := by
  obtain ⟨hsep, K, hlexK, hK⟩ := h
  obtain ⟨F, hlexF, hF⟩ := hqs
  have hclose : Lexes (.brk :: .text "\x7d" :: ps) (.symbol '}' :: K) :=
    (@Lexes.symbol _ _ hlexK "\x7d" [] '}' rfl (by decide)).brk
  have hlex := (hlexF.append hclose (separate_brk _)).box.brk.definition hkeyword
    htag.toIsIdentifier
  exact ⟨_, by simpa using hlex, (specifies_definition hmk tag hF).declaration hK⟩

/-! Parameters. -/

inductive PrintParams (isTypedef : String → Bool) :
    List (List Piece) → List (Option String × CType) → Prop
  | nil : PrintParams isTypedef [] []
  | cons {ps p pss qs} : PrintsDeclaration isTypedef ps p →
      PrintParams isTypedef pss qs → PrintParams isTypedef (ps :: pss) (p :: qs)

def Comma (sep : List Piece) : Prop :=
  ∀ {ps : List Piece} {ts : List Token}, Lexes ps ts →
    Lexes (sep ++ ps) (Token.symbol ',' :: ts) ∧ Separate (sep ++ ps)

/-- The parameters after the first, whose tokens are kept in view. -/
theorem PrintParams.intercalate {sep : List Piece} (hsep : Comma sep) {ps : List Piece}
    {D : List Token} {p : Option String × CType} (hlex : Lexes ps D)
    (hD : Declaration isTypedef D p) {pss : List (List Piece)}
    {qs : List (Option String × CType)} (hpss : PrintParams isTypedef pss qs) :
    ∃ P, Lexes (List.intercalate sep (ps :: pss)) (D ++ P) ∧
      Params isTypedef (D ++ P) (p :: qs) := by
  induction hpss generalizing ps D p with
  | nil =>
      refine ⟨[], ?_, ?_⟩
      · simpa using hlex
      · simpa using hD.last
  | @cons ps' p' pss qs hps' _ ih =>
      obtain ⟨D', hlex', hD'⟩ := hps'
      obtain ⟨P, hlexP, hP⟩ := ih hlex' hD'
      obtain ⟨hcomma, hseparate⟩ := hsep hlexP
      refine ⟨Token.symbol ',' :: (D' ++ P), ?_, hD.params hP⟩
      rw [List.intercalate_cons_cons, List.append_assoc]
      exact hlex.append hcomma hseparate

theorem comma_box : Comma [.text ", ", .box] := fun h =>
  ⟨@Lexes.symbol _ _ h.box ", " [','] ' ' rfl (by decide),
    @separate_text ", " ',' [' '] rfl (by decide) _⟩

theorem printsDeclaration_void : PrintsDeclaration isTypedef [.text "void"]
    (none, .words ["void"]) :=
  printsDirect_nil.declarator.declaration specifies_void

/-- The text between the parentheses of a parameter list. -/
theorem PrintParams.lexes {pss : List (List Piece)} {qs : List (Option String × CType)}
    (h : PrintParams isTypedef pss qs) :
    ∃ P ps, Lexes (if pss = [] then [.text "void"] else List.intercalate [.text ", ", .box] pss) P ∧
      Params isTypedef P ps ∧ CTypes.parameters ps = CTypes.parameters qs := by
  cases h with
  | nil =>
      obtain ⟨D, hlex, hD⟩ := @printsDeclaration_void isTypedef
      exact ⟨D, _, hlex, hD.last, rfl⟩
  | cons hps hpss =>
      obtain ⟨D, hlexD, hD⟩ := hps
      obtain ⟨P, hlex, hP⟩ := hpss.intercalate comma_box hlexD hD
      exact ⟨D ++ P, _, hlex, hP, rfl⟩

/-- A list of parameters in its parentheses. -/
theorem Lexes.parameters {ps : List Piece} {P : List Token} (h : Lexes ps P) :
    Lexes (Piece.text "(" :: Piece.box :: Piece.box :: (ps ++ [Piece.text ")"]))
      (Token.symbol '(' :: (P ++ [Token.symbol ')'])) :=
  have hclose : Lexes (Piece.box :: Piece.box :: (ps ++ [Piece.text ")"]))
      (P ++ [Token.symbol ')']) :=
    (h.append (lexes_close lexes_nil) (separate_close [])).box.box
  @Lexes.symbol _ _ hclose "(" [] '(' rfl (by decide)

/-- A pointer to a function, with its parameters. -/
theorem PrintsDeclarator.function {ps : List Piece} {d : Inside}
    (h : PrintsDeclarator isTypedef ps d) {pss : List (List Piece)}
    {qs : List (Option String × CType)} (hpss : PrintParams isTypedef pss qs) :
    PrintsDirect isTypedef (formatParameterList pss (Piece.text "(*" :: ps ++ [Piece.text ")"]))
      fun t => d (.pointer (.function t (.parameters qs))) := by
  obtain ⟨-, K, hlex, hK⟩ := h
  obtain ⟨P, qs', hlexP, hP, hqs⟩ := hpss.lexes
  refine ⟨@separate_text "(*" '(' ['*'] rfl (by decide) _, _, ?_,
    hqs ▸ hK.pointer.parens.function (List.cons_ne_nil _ _) hP⟩
  have hlex := hlex.pointerParens.append hlexP.parameters
    (@separate_text "(" '(' [] rfl (by decide) _)
  simpa [formatParameterList] using hlex

/-! ### Types -/

theorem IsName.ne_empty {w : String} (h : IsName w) : w ≠ "" := by
  rintro rfl
  exact h.ne_nil rfl

/-- No parameter but `void` is printed as `void`. -/
theorem cType_ne_void {p : Typ} (hplain : Plain p) (hp : p ≠ .void) :
    cType p ≠ .words ["void"] := by
  cases p with
  | void => exact absurd rfl hp
  | primitive p =>
      have h : ∀ p ∈ Prim.all, wordsOf (primName p) ≠ ["void"] := by decide +kernel
      simpa only [cType, ne_eq, CType.words.injEq] using h p p.mem_all
  | abstract a =>
      intro h
      simp only [cType, CType.words.injEq, List.cons.injEq, and_true] at h
      exact hplain.not_keyword (h ▸ by decide)
  | view v ty => exact hplain.elim
  | bigarray ba => exact hplain.elim
  | ocaml ty => exact hplain.elim
  | _ => simp [cType]

theorem cParams_noVoid {fn : Fn} (h : PlainFn fn) : (cParams fn).NoVoid := by
  induction fn using gather.induct with
  | case1 ty => trivial
  | case2 fn ih => exact ih h.2
  | case3 p fn hp ih =>
      have hcons : cParams (.function p fn) = .cons (cType p) (cParams fn) := by
        rw [cParams]
        exact hp
      rw [hcons]
      exact ⟨cType_ne_void h.1 hp, ih h.2⟩

variable (isTypedef) (views : ViewFormats)

mutual
theorem formatTyp'_declaration (t : Typ) (ht : Plain t) {k : Inner} {d : Inside}
    (hk : PrintsInner isTypedef k d) (context : FormatContext) :
    PrintsDeclaration isTypedef (formatTyp' views t k context) (d (cType t)) := by
  match t with
  | .void => exact hk.nonarray.declaration specifies_void
  | .primitive p => exact hk.nonarray.declaration (specifies_primName p)
  | .abstract a => exact hk.nonarray.declaration (specifies_aname ht)
  | .pointer ty =>
      exact formatTyp'_declaration ty ht hk.nonarray.pointerTo .nonarray
  | .funptr fn =>
      obtain ⟨hresult, hparams⟩ := formatFn'_declaration fn ht
      have hinner := (hk.nonarray.function hparams).inner
      rw [(cParams_noVoid ht).parameters_unnamed] at hinner
      exact hresult hinner
  | .array ty n =>
      exact formatTyp'_declaration ty ht (hk.array.array n).inner .nonarray
  | .struct tag spec fields =>
      have htag : tag ≠ "" := ht.1.ne_empty
      unfold formatTyp'
      rw [if_neg htag]
      split
      · exact hk.nonarray.definition isIdentifier_struct rfl ht.1
          (formatFields_members fields ht.2)
      · exact hk.nonarray.declaration (specifies_struct ht.1)
  | .union utag uspec ufields =>
      have hutag : utag ≠ "" := ht.1.ne_empty
      unfold formatTyp'
      rw [if_neg hutag]
      split
      · exact hk.nonarray.definition isIdentifier_union rfl ht.1
          (formatFields_members ufields ht.2)
      · exact hk.nonarray.declaration (specifies_union ht.1)
  | .view v ty => exact ht.elim
  | .bigarray ba => exact ht.elim
  | .ocaml ty => exact ht.elim
theorem formatFields_members (fields : Fields) (h : PlainFields fields) :
    PrintsMembers isTypedef (formatFields views fields) := by
  match fields with
  | .nil => exact printsMembers_nil
  | .cons ftype foffset fname rest =>
      have hname : PrintsDeclaration isTypedef
          (formatTyp' views ftype (fun _ => [Piece.text (" " ++ fname)]) .nonarray) _ :=
        formatTyp'_declaration ftype h.1 (printsDirect_name h.2.1).inner .nonarray
      exact hname.members (formatFields_members rest h.2.2)
theorem formatFn'_declaration (fn : Fn) (h : PlainFn fn) :
    (∀ {k : Inner} {d : Inside}, PrintsInner isTypedef k d →
      PrintsDeclaration isTypedef (formatResult views fn k) (d (cResult fn))) ∧
    PrintParams isTypedef (formatParams views fn) (cParams fn).unnamed := by
  match fn with
  | .returns ty =>
      exact ⟨fun hk => formatTyp'_declaration ty h hk .nonarray, .nil⟩
  | .function p fn =>
      obtain ⟨hresult, hparams⟩ := formatFn'_declaration fn h.2
      refine ⟨hresult, ?_⟩
      have hp := formatTyp'_declaration p h.1 printsDirect_nil.inner .nonarray
      cases p with
      | void => exact hparams
      | _ => exact .cons hp hparams
end

/-- A printed type declares its name with its type. -/
theorem stringOfTyp_parse {t : Typ} (ht : Plain t) {name : String} (hname : IsName name)
    {s : String} (hs : StringOfTyp views (some name) t s) :
    parse isTypedef s.toList = some (some name, cType t) := by
  obtain ⟨D, hlex, hD⟩ := formatTyp'_declaration isTypedef views t ht
    (printsDirect_name hname).inner .toplevel
  exact hD.parse (hlex.box _ hs)

end Reading

/-- A pointer to an array of pointers to functions that return a pointer to an
array; a parameter of type `void` is dropped. -/
theorem stringOfTyp_parse_nested :
    parse (fun _ => false) "double(*(*(* table)[3])(struct point*))[8]".toList =
      some (some "table", .pointer (.array (.pointer (.function
        (.pointer (.array (.words ["double"]) 8))
        (.cons (.pointer (.struct "point")) .nil))) 3)) := by
  have hname : IsName "table" := by decide
  have htag : IsName "point" := by decide
  exact stringOfTyp_parse (fun _ => false) (fun _ => none)
    (t := .pointer (.array (.funptr (.function (.pointer (.struct "point" (.incomplete 0) .nil))
      (.function .void (.returns (.pointer (.array (.primitive .double) 8)))))) 3))
    ⟨⟨htag, trivial⟩, trivial, trivial⟩ hname (laidOut_render _)

end CtypesCbuf.Ctypes.TypePrinting
