import Mathlib.Data.List.Basic

/-!
C declarations: their tokens, and a parser by the rules of the language. A
declarator is read inside out: it is a function from the type in front of it
to the declared name and its type. The rules at the end say when characters
are read as given tokens, and when tokens are read as a given declarator,
whatever follows them.
-/

namespace CDeclaration

inductive Token
  | word (w : String)
  | number (n : Nat)
  | symbol (c : Char)
  deriving DecidableEq, Repr

/-! ### Tokens -/

def isWordChar (c : Char) : Bool := c.isAlphanum || c == '_'

def isBlank (c : Char) : Bool := c == ' ' || c == '\n' || c == '\t'

def flush : List Char → List Token
  | [] => []
  | c :: cs =>
      if c.isDigit then [.number (Nat.ofDigitChars 10 (c :: cs) 0)]
      else [.word (String.ofList (c :: cs))]

/-- The tokens, when the characters `acc` of a word have been read. -/
def lexFrom : List Char → List Char → List Token
  | acc, [] => flush acc
  | acc, c :: cs =>
      if isWordChar c then lexFrom (acc ++ [c]) cs
      else flush acc ++ (if isBlank c then [] else [Token.symbol c]) ++ lexFrom [] cs

def lex (cs : List Char) : List Token := lexFrom [] cs

/-- Whether no word is continued by these characters. -/
def Delimited : List Char → Prop
  | [] => True
  | c :: _ => isWordChar c = false

theorem lexFrom_append {cs : List Char} (hcs : Delimited cs) (acc ws : List Char) :
    lexFrom acc (ws ++ cs) = lexFrom acc ws ++ lex cs := by
  induction ws generalizing acc with
  | nil =>
      cases cs with
      | nil => simp [lex, lexFrom, flush]
      | cons c cs => simp_all [lex, lexFrom, flush, Delimited]
  | cons w ws ih =>
      by_cases hw : isWordChar w = true
      · simp [lexFrom, hw, ih]
      · simp [lexFrom, hw, ih]

theorem lex_append {ws cs : List Char} (hcs : Delimited cs) : lex (ws ++ cs) = lex ws ++ lex cs :=
  lexFrom_append hcs [] ws

theorem lex_cons {c : Char} (hc : isWordChar c = false) (cs : List Char) :
    lex (c :: cs) = (if isBlank c then [] else [Token.symbol c]) ++ lex cs := by
  simp [lex, lexFrom, flush, hc]

/-- What ends with a symbol or a blank is not continued either. -/
theorem lex_append_cons {c : Char} (hc : isWordChar c = false) (ws cs : List Char) :
    lex (ws ++ c :: cs) = lex (ws ++ [c]) ++ lex cs := by
  rw [@lex_append ws (c :: cs) hc, @lex_append ws [c] hc, List.append_assoc, lex_cons hc,
    lex_cons hc []]
  simp [lex, lexFrom, flush]

theorem lex_blank {bs : List Char} (hbs : ∀ b ∈ bs, isBlank b = true) (cs : List Char) :
    lex (bs ++ cs) = lex cs := by
  induction bs with
  | nil => rfl
  | cons b bs ih =>
      have hb : isBlank b = true := hbs b (List.mem_cons_self ..)
      have hword : isWordChar b = false := by
        simp only [isBlank, Bool.or_eq_true, beq_iff_eq] at hb
        rcases hb with (rfl | rfl) | rfl <;> decide
      rw [List.cons_append, lex_cons hword, if_pos hb, List.nil_append]
      exact ih fun b hb => hbs b (List.mem_cons_of_mem _ hb)

theorem lexFrom_word {ws : List Char} (hws : ∀ w ∈ ws, isWordChar w = true) (acc : List Char) :
    lexFrom acc ws = flush (acc ++ ws) := by
  induction ws generalizing acc with
  | nil => simp [lexFrom]
  | cons w ws ih =>
      rw [lexFrom, if_pos (hws w (List.mem_cons_self ..)),
        ih fun w hw => hws w (List.mem_cons_of_mem _ hw)]
      simp

/-- The names the language allows. -/
structure IsIdentifier (w : String) : Prop where
  ne_nil : w.toList ≠ []
  chars : ∀ c ∈ w.toList, isWordChar c = true
  not_digit : ∀ c ∈ w.toList.head?, c.isDigit = false

theorem isIdentifier_iff {w : String} :
    IsIdentifier w ↔ w.toList ≠ [] ∧ w.toList.all isWordChar = true ∧
      w.toList.head?.all (fun c => !c.isDigit) = true := by
  constructor
  · rintro ⟨hne, hchars, hdigit⟩
    refine ⟨hne, List.all_eq_true.mpr hchars, ?_⟩
    simpa [Option.all_eq_true] using hdigit
  · rintro ⟨hne, hchars, hdigit⟩
    refine ⟨hne, List.all_eq_true.mp hchars, ?_⟩
    simpa [Option.all_eq_true] using hdigit

instance (w : String) : Decidable (IsIdentifier w) := decidable_of_iff _ isIdentifier_iff.symm

theorem lex_word {w : String} (hw : IsIdentifier w) : lex w.toList = [.word w] := by
  rw [lex, lexFrom_word hw.chars, List.nil_append]
  cases h : w.toList with
  | nil => exact absurd h hw.ne_nil
  | cons c cs =>
      have hc : c.isDigit = false := hw.not_digit c (by simp [h])
      simp [flush, hc, ← h]

theorem lex_number (n : Nat) : lex (Nat.repr n).toList = [.number n] := by
  have hdigit : ∀ c ∈ Nat.toDigits 10 n, c.isDigit = true := fun c hc =>
    Nat.isDigit_of_mem_toDigits (by decide) (by decide) hc
  have hword : ∀ c ∈ Nat.toDigits 10 n, isWordChar c = true := fun c hc => by
    simp [isWordChar, Char.isAlphanum, hdigit c hc]
  rw [Nat.toList_repr, lex, lexFrom_word hword, List.nil_append]
  cases h : Nat.toDigits 10 n with
  | nil => exact absurd h Nat.toDigits_ne_nil
  | cons c cs =>
      have hc : c.isDigit = true := hdigit c (by simp [h])
      simp [flush, hc, ← h, Nat.ofDigitChars_ten_toDigits]

/-! ### Types and declarators -/

mutual
inductive CType
  /-- A type given by its words. -/
  | words (ws : List String)
  | struct (tag : String)
  | union (tag : String)
  | pointer (t : CType)
  | array (t : CType) (n : Nat)
  | function (result : CType) (params : CTypes)
inductive CTypes
  | nil
  | cons (t : CType) (ts : CTypes)
end

/-- From the type in front of a declarator to the declared name and type. -/
abbrev Inside := CType → Option String × CType

def typeWords : List String :=
  ["void", "char", "short", "int", "long", "float", "double", "signed", "unsigned", "_Bool",
    "_Complex"]

def keywords : List String :=
  typeWords ++ ["auto", "break", "case", "const", "continue", "default", "do", "else", "enum",
    "extern", "for", "goto", "if", "inline", "register", "restrict", "return", "sizeof",
    "static", "struct", "switch", "typedef", "union", "volatile", "while", "_Alignas",
    "_Alignof", "_Atomic", "_Generic", "_Imaginary", "_Noreturn", "_Static_assert",
    "_Thread_local"]

def tagged (w : String) : Option (String → CType) :=
  if w = "struct" then some .struct
  else if w = "union" then some .union
  else if w = "enum" then some fun tag => .words ["enum", tag]
  else none

def moreWords : List Token → List String × List Token
  | .word w :: ts =>
      if w ∈ typeWords then (w :: (moreWords ts).1, (moreWords ts).2) else ([], .word w :: ts)
  | ts => ([], ts)

def CTypes.ofList : List CType → CTypes
  | [] => .nil
  | t :: ts => .cons t (ofList ts)

/-- The types of declared parameters. A single parameter `void` without a name
stands for no parameters. -/
def CTypes.parameters : List (Option String × CType) → CTypes
  | [(none, .words ["void"])] => .nil
  | ps => .ofList (ps.map Prod.snd)

def CTypes.unnamed : CTypes → List (Option String × CType)
  | .nil => []
  | .cons t ts => (none, t) :: unnamed ts

def CTypes.NoVoid : CTypes → Prop
  | .nil => True
  | .cons t ts => t ≠ .words ["void"] ∧ NoVoid ts

/-- What an array can be made of. -/
def CType.IsElement : CType → Prop
  | .words ws => ws ≠ ["void"]
  | .function _ _ => False
  | _ => True

def CType.IsReturned : CType → Prop
  | .array _ _ | .function _ _ => False
  | _ => True

mutual
/-- The types that the language has: at any depth an array has such elements, a
function such a result, and no parameter is of type `void`. -/
def CType.WellFormed : CType → Prop
  | .pointer t => t.WellFormed
  | .array t _ => t.WellFormed ∧ t.IsElement
  | .function result params =>
      (result.WellFormed ∧ result.IsReturned) ∧ params.NoVoid ∧ params.WellFormed
  | _ => True
def CTypes.WellFormed : CTypes → Prop
  | .nil => True
  | .cons t ts => t.WellFormed ∧ ts.WellFormed
end

theorem CTypes.wellFormed_ofList (ts : List CType) :
    (CTypes.ofList ts).WellFormed ↔ ∀ t ∈ ts, t.WellFormed := by
  induction ts with
  | nil => simp [CTypes.ofList, CTypes.WellFormed]
  | cons t ts ih => simp [CTypes.ofList, CTypes.WellFormed, ih]

/-- Dimensions around a type. -/
theorem CType.WellFormed.dimensions {t : CType} (ht : t.WellFormed) (helement : t.IsElement)
    (dims : List Nat) :
    (dims.foldr (fun n c => CType.array c n) t).WellFormed ∧
      (dims.foldr (fun n c => CType.array c n) t).IsElement := by
  induction dims with
  | nil => exact ⟨ht, helement⟩
  | cons n dims ih => exact ⟨ih, trivial⟩

theorem CTypes.ofList_unnamed (ts : CTypes) : CTypes.ofList (ts.unnamed.map Prod.snd) = ts := by
  induction ts using CTypes.unnamed.induct with
  | case1 => rfl
  | case2 t ts ih => rw [CTypes.unnamed, List.map_cons, CTypes.ofList, ih]

theorem CTypes.parameters_of_ne {ps : List (Option String × CType)}
    (h : ps ≠ [(none, .words ["void"])]) :
    CTypes.parameters ps = .ofList (ps.map Prod.snd) := by
  unfold CTypes.parameters
  split
  · exact absurd rfl h
  · rfl

theorem CTypes.noVoid_ofList (ts : List CType) :
    (CTypes.ofList ts).NoVoid ↔ ∀ t ∈ ts, t ≠ .words ["void"] := by
  induction ts with
  | nil => simp [CTypes.ofList, CTypes.NoVoid]
  | cons t ts ih => simp [CTypes.ofList, CTypes.NoVoid, ih]

theorem CTypes.parameters_unnamed {ts : CTypes} (h : ts ≠ .cons (.words ["void"]) .nil) :
    CTypes.parameters ts.unnamed = ts := by
  rw [CTypes.parameters_of_ne, CTypes.ofList_unnamed]
  intro hsingle
  have hlist := CTypes.ofList_unnamed ts
  rw [hsingle] at hlist
  exact h hlist.symm

theorem CTypes.NoVoid.parameters_unnamed {ts : CTypes} (h : ts.NoVoid) :
    CTypes.parameters ts.unnamed = ts := by
  refine CTypes.parameters_unnamed ?_
  rintro rfl
  exact h.1 rfl

section Parser

-- The names of types in scope, which tell parameters from a parenthesis.
variable (isTypedef : String → Bool)

def startsParams : List Token → Bool
  | .word w :: _ => w ∈ typeWords || (tagged w).isSome || isTypedef w
  | .symbol ')' :: _ => true
  | _ => false

mutual
def parseDeclaration : Nat → List Token → Option ((Option String × CType) × List Token)
  | fuel + 1, ts => do
      let (s, ts) ← parseSpec fuel ts
      let (d, ts) ← parseDeclarator fuel ts
      return (d s, ts)
  | 0, _ => none
def parseSpec : Nat → List Token → Option (CType × List Token)
  | fuel + 1, .word w :: ts =>
      match tagged w, ts with
      | some mk, .word tag :: .symbol '{' :: ts =>
          (parseFields fuel ts).map fun ts => (mk tag, ts)
      | some mk, .word tag :: ts => some (mk tag, ts)
      | some _, _ => none
      | none, ts =>
          if w ∈ typeWords then some (.words (w :: (moreWords ts).1), (moreWords ts).2)
          else if w ∈ keywords then none
          else some (.words [w], ts)
  | _, _ => none
/-- The members of a structure or union, which are only skipped. -/
def parseFields : Nat → List Token → Option (List Token)
  | _ + 1, .symbol '}' :: ts => some ts
  | fuel + 1, ts => do
      match ← parseDeclaration fuel ts with
      | (_, .symbol ';' :: ts) => parseFields fuel ts
      | _ => none
  | 0, _ => none
def parseDeclarator : Nat → List Token → Option (Inside × List Token)
  | fuel + 1, .symbol '*' :: ts => do
      let (d, ts) ← parseDeclarator fuel ts
      return (fun t => d (.pointer t), ts)
  | fuel + 1, .symbol '(' :: ts =>
      if startsParams isTypedef ts then
        parseSuffix fuel (fun t => (none, t)) (.symbol '(' :: ts)
      else do
        match ← parseDeclarator fuel ts with
        | (d, .symbol ')' :: ts) => parseSuffix fuel d ts
        | _ => none
  | fuel + 1, .word x :: ts =>
      if x ∈ keywords then none else parseSuffix fuel (fun t => (some x, t)) ts
  | fuel + 1, ts => parseSuffix fuel (fun t => (none, t)) ts
  | 0, _ => none
/-- The dimensions and the parameters after a declarator. -/
def parseSuffix : Nat → Inside → List Token → Option (Inside × List Token)
  | fuel + 1, d, .symbol '[' :: .number n :: .symbol ']' :: ts =>
      parseSuffix fuel (fun t => d (.array t n)) ts
  | fuel + 1, d, .symbol '(' :: ts => do
      let (ps, ts) ← parseParams fuel ts
      parseSuffix fuel (fun t => d (.function t (.parameters ps))) ts
  | _ + 1, d, ts => some (d, ts)
  | 0, _, _ => none
def parseParams : Nat → List Token → Option (List (Option String × CType) × List Token)
  | fuel + 1, ts => do
      match ← parseDeclaration fuel ts with
      | (p, .symbol ',' :: ts) =>
          let (ps, ts) ← parseParams fuel ts
          return (p :: ps, ts)
      | (p, .symbol ')' :: ts) => return ([p], ts)
      | _ => none
  | 0, _ => none
end

/-- The name and the type that are declared. -/
def parse (cs : List Char) : Option (Option String × CType) :=
  match parseDeclaration isTypedef (4 * (lex cs).length + 3) (lex cs) with
  | some (declared, []) => some declared
  | _ => none

/-! ### Reading back

The fuel a parser needs is four times the number of tokens, and some more for
the calls on the same tokens. -/

def Ends : List Token → Prop
  | [] => True
  | .symbol c :: _ => c = ')' ∨ c = ',' ∨ c = ';'
  | _ => False

/-- What may follow a declarator without a name. -/
def Follows : List Token → Prop
  | .symbol '[' :: _ => True
  | ts => Ends ts

/-- What does not continue the type in front of a declarator. -/
def Opens : List Token → Prop
  | .word w :: _ => w ∉ typeWords
  | ts => ∀ us, ts ≠ .symbol '{' :: us

/-- `K` is read as the declarator `d`, before dimensions and parameters. -/
def Direct (K : List Token) (d : Inside) : Prop :=
  ∀ rest fuel, (K = [] → Follows rest) → 4 * (K ++ rest).length + 1 < fuel →
    ∃ fuel', 4 * rest.length < fuel' ∧
      parseDeclarator isTypedef fuel (K ++ rest) = parseSuffix isTypedef fuel' d rest

/-- `K` is read as the whole declarator `d`. -/
def Declares (K : List Token) (d : Inside) : Prop :=
  ∀ rest fuel, Ends rest → 4 * (K ++ rest).length + 1 < fuel →
    parseDeclarator isTypedef fuel (K ++ rest) = some (d, rest)

/-- `S` is read as the type in front of a declarator. -/
def Specifies (S : List Token) (s : CType) : Prop :=
  ∀ rest fuel, Opens rest → 4 * (S ++ rest).length < fuel →
    parseSpec isTypedef fuel (S ++ rest) = some (s, rest)

/-- `D` is read as a declaration. -/
def Declaration (D : List Token) (p : Option String × CType) : Prop :=
  ∀ rest fuel, Ends rest → 4 * (D ++ rest).length + 2 < fuel →
    parseDeclaration isTypedef fuel (D ++ rest) = some (p, rest)

/-- `P` is read as a list of parameters. -/
def Params (P : List Token) (ps : List (Option String × CType)) : Prop :=
  ∀ rest fuel, 4 * (P ++ Token.symbol ')' :: rest).length + 3 < fuel →
    parseParams isTypedef fuel (P ++ Token.symbol ')' :: rest) = some (ps, rest)

/-- `F` is skipped as the members of a structure or union. -/
def Members (F : List Token) : Prop :=
  ∀ rest fuel, 4 * (F ++ Token.symbol '}' :: rest).length + 3 < fuel →
    parseFields isTypedef fuel (F ++ Token.symbol '}' :: rest) = some rest

-- Derive the equations of the parser once, before the proofs that use them.
section
attribute [local simp] parseDeclaration parseSpec parseFields parseDeclarator parseSuffix
  parseParams
end

section Rules

variable {isTypedef}

theorem Ends.follows {ts : List Token} (h : Ends ts) : Follows ts := by
  unfold Follows
  split
  · trivial
  · exact h

theorem parseSuffix_ends {ts : List Token} (h : Ends ts) (fuel : Nat) (d : Inside) :
    parseSuffix isTypedef (fuel + 1) d ts = some (d, ts) := by
  unfold parseSuffix
  split <;> simp_all [Ends]

theorem Follows.parseDeclarator {ts : List Token} (h : Follows ts) (fuel : Nat) :
    parseDeclarator isTypedef (fuel + 1) ts =
      parseSuffix isTypedef fuel (fun t => (none, t)) ts := by
  unfold CDeclaration.parseDeclarator
  split <;> simp_all [Follows, Ends]

theorem parseDeclarator_brace (fuel : Nat) (ts : List Token) :
    parseDeclarator isTypedef (fuel + 2) (.symbol '{' :: ts) =
      some (fun t => (none, t), .symbol '{' :: ts) := by
  simp [parseDeclarator, parseSuffix]

/-- What is read as a declarator does not continue the type in front of it. -/
theorem opens_of_parseDeclarator {fuel : Nat} {ts rest : List Token} {d : Inside}
    (h : parseDeclarator isTypedef (fuel + 2) ts = some (d, rest)) (hrest : Ends rest) :
    Opens ts := by
  cases ts with
  | nil => intro us hus; cases hus
  | cons t ts =>
      cases t with
      | word w =>
          intro hw
          have hkeyword : w ∈ keywords := List.mem_append_left _ hw
          simp [parseDeclarator, hkeyword] at h
      | number n => intro us hus; cases hus
      | symbol c =>
          rintro us hus
          cases hus
          rw [parseDeclarator_brace] at h
          cases h
          simp [Ends] at hrest

theorem Declares.opens {K : List Token} {d : Inside} (hK : Declares isTypedef K d)
    {rest : List Token} (hrest : Ends rest) : Opens (K ++ rest) :=
  opens_of_parseDeclarator (hK rest (4 * (K ++ rest).length + 2) hrest (by omega)) hrest

/-! A declarator, from the inside. -/

theorem direct_nil : Direct isTypedef [] fun t => (none, t) := by
  intro rest fuel hrest hfuel
  obtain ⟨fuel, rfl⟩ : ∃ n, fuel = n + 1 := ⟨fuel - 1, by omega⟩
  have hlen : 4 * rest.length < fuel := by simpa using hfuel
  exact ⟨fuel, hlen, (hrest rfl).parseDeclarator fuel⟩

theorem direct_word {x : String} (hx : x ∉ keywords) :
    Direct isTypedef [.word x] fun t => (some x, t) := by
  intro rest fuel _ hfuel
  obtain ⟨fuel, rfl⟩ : ∃ n, fuel = n + 1 := ⟨fuel - 1, by omega⟩
  have hlen : 4 * rest.length < fuel := by
    simp at hfuel
    omega
  exact ⟨fuel, hlen, by simp [parseDeclarator, hx]⟩

theorem Direct.declares {K : List Token} {d : Inside} (hK : Direct isTypedef K d) :
    Declares isTypedef K d := by
  intro rest fuel hrest hfuel
  obtain ⟨fuel', hfuel', h⟩ := hK rest fuel (fun _ => hrest.follows) hfuel
  obtain ⟨fuel', rfl⟩ : ∃ n, fuel' = n + 1 := ⟨fuel' - 1, by omega⟩
  rw [h, parseSuffix_ends hrest]

theorem Direct.array {K : List Token} {d : Inside} (hK : Direct isTypedef K d) (n : Nat) :
    Direct isTypedef (K ++ [Token.symbol '[', .number n, .symbol ']']) fun t => d (.array t n) := by
  intro rest fuel _ hfuel
  simp only [List.append_assoc, List.cons_append, List.nil_append] at hfuel ⊢
  obtain ⟨fuel', hfuel', h⟩ :=
    hK (.symbol '[' :: .number n :: .symbol ']' :: rest) fuel (fun _ => trivial) hfuel
  obtain ⟨fuel', rfl⟩ : ∃ n, fuel' = n + 1 := ⟨fuel' - 1, by omega⟩
  have hlen : 4 * rest.length < fuel' := by
    simp at hfuel'
    omega
  exact ⟨fuel', hlen, by rw [h]; simp [parseSuffix]⟩

theorem Direct.function {K P : List Token} {d : Inside} {ps : List (Option String × CType)}
    (hK : Direct isTypedef K d) (hne : K ≠ []) (hP : Params isTypedef P ps) :
    Direct isTypedef (K ++ Token.symbol '(' :: P ++ [Token.symbol ')'])
      fun t => d (.function t (.parameters ps)) := by
  intro rest fuel _ hfuel
  have hassoc : K ++ Token.symbol '(' :: P ++ [Token.symbol ')'] ++ rest =
      K ++ (Token.symbol '(' :: (P ++ Token.symbol ')' :: rest)) := by simp
  rw [hassoc] at hfuel ⊢
  obtain ⟨fuel', hfuel', h⟩ := hK _ fuel (fun hnil => absurd hnil hne) hfuel
  obtain ⟨fuel', rfl⟩ : ∃ n, fuel' = n + 1 := ⟨fuel' - 1, by omega⟩
  have hparams : parseParams isTypedef fuel' (P ++ Token.symbol ')' :: rest) = some (ps, rest) :=
    hP rest fuel' (by
      simp only [List.length_cons] at hfuel'
      omega)
  have hlen : 4 * rest.length < fuel' := by
    simp at hfuel'
    omega
  exact ⟨fuel', hlen, by rw [h]; simp [parseSuffix, hparams]⟩

theorem startsParams_append {ts : List Token} (h : startsParams isTypedef ts = true)
    (us : List Token) : startsParams isTypedef (ts ++ us) = true := by
  unfold startsParams at h
  split at h
  · exact h
  · rfl
  · cases h

/-- Parameters with nothing in front of them. -/
theorem Params.direct {P : List Token} {ps : List (Option String × CType)}
    (hP : Params isTypedef P ps) (hstarts : startsParams isTypedef P = true) :
    Direct isTypedef (Token.symbol '(' :: P ++ [Token.symbol ')'])
      fun t => (none, .function t (.parameters ps)) := by
  intro rest fuel _ hfuel
  have hassoc : Token.symbol '(' :: P ++ [Token.symbol ')'] ++ rest =
      Token.symbol '(' :: (P ++ Token.symbol ')' :: rest) := by simp
  rw [hassoc] at hfuel ⊢
  obtain ⟨fuel, rfl⟩ : ∃ n, fuel = n + 2 := ⟨fuel - 2, by simp at hfuel; omega⟩
  have hparams : parseParams isTypedef fuel (P ++ Token.symbol ')' :: rest) = some (ps, rest) :=
    hP rest fuel (by
      simp only [List.length_cons] at hfuel
      omega)
  have hlen : 4 * rest.length < fuel := by
    simp at hfuel
    omega
  refine ⟨fuel, hlen, ?_⟩
  rw [parseDeclarator, if_pos (startsParams_append hstarts _)]
  simp [parseSuffix, hparams]

theorem Declares.pointer {K : List Token} {d : Inside} (hK : Declares isTypedef K d) :
    Declares isTypedef (.symbol '*' :: K) fun t => d (.pointer t) := by
  intro rest fuel hrest hfuel
  obtain ⟨fuel, rfl⟩ : ∃ n, fuel = n + 1 := ⟨fuel - 1, by omega⟩
  have h : parseDeclarator isTypedef fuel (K ++ rest) = some (d, rest) :=
    hK rest fuel hrest (by
      simp only [List.cons_append, List.length_cons] at hfuel
      omega)
  simp [parseDeclarator, h]

/-- A declarator that starts with a star can be put in parentheses. -/
theorem Declares.parens {K : List Token} {d : Inside}
    (hK : Declares isTypedef (Token.symbol '*' :: K) d) :
    Direct isTypedef (Token.symbol '(' :: Token.symbol '*' :: K ++ [Token.symbol ')']) d := by
  intro rest fuel _ hfuel
  obtain ⟨fuel, rfl⟩ : ∃ n, fuel = n + 1 := ⟨fuel - 1, by omega⟩
  have h : parseDeclarator isTypedef fuel (Token.symbol '*' :: K ++ Token.symbol ')' :: rest) =
      some (d, Token.symbol ')' :: rest) :=
    hK _ fuel (Or.inl rfl) (by
      simp at hfuel ⊢
      omega)
  have hlen : 4 * rest.length < fuel := by
    simp at hfuel
    omega
  refine ⟨fuel, hlen, ?_⟩
  simp only [List.cons_append, List.append_assoc, List.nil_append] at h ⊢
  rw [parseDeclarator, if_neg (by simp [startsParams]), h]
  rfl

/-! The type in front of a declarator. -/

theorem moreWords_append {ws : List String} (hws : ∀ w ∈ ws, w ∈ typeWords) {rest : List Token}
    (hrest : Opens rest) : moreWords (ws.map .word ++ rest) = (ws, rest) := by
  induction ws with
  | nil =>
      unfold moreWords
      simp only [List.map_nil, List.nil_append]
      split <;> simp_all [Opens]
  | cons w ws ih =>
      simp [moreWords, hws w (List.mem_cons_self ..),
        ih fun w hw => hws w (List.mem_cons_of_mem _ hw)]

theorem tagged_eq_none {w : String} (h : w ∈ typeWords ∨ w ∉ keywords) : tagged w = none := by
  have hstruct : w ≠ "struct" := by
    rintro rfl
    revert h
    decide
  have hunion : w ≠ "union" := by
    rintro rfl
    revert h
    decide
  have henum : w ≠ "enum" := by
    rintro rfl
    revert h
    decide
  rw [tagged, if_neg hstruct, if_neg hunion, if_neg henum]

theorem specifies_words {w : String} {ws : List String} (hw : w ∈ typeWords)
    (hws : ∀ w ∈ ws, w ∈ typeWords) :
    Specifies isTypedef ((w :: ws).map .word) (.words (w :: ws)) := by
  intro rest fuel hrest hfuel
  obtain ⟨fuel, rfl⟩ : ∃ n, fuel = n + 1 := ⟨fuel - 1, by omega⟩
  have htag : tagged w = none := tagged_eq_none (Or.inl hw)
  simp [parseSpec, htag, hw, moreWords_append hws hrest]

theorem specifies_name {w : String} (hw : w ∉ keywords) :
    Specifies isTypedef [.word w] (.words [w]) := by
  intro rest fuel _ hfuel
  obtain ⟨fuel, rfl⟩ : ∃ n, fuel = n + 1 := ⟨fuel - 1, by omega⟩
  have htype : w ∉ typeWords := fun h => hw (List.mem_append_left _ h)
  have htag : tagged w = none := tagged_eq_none (Or.inr hw)
  simp [parseSpec, htag, htype, hw]

theorem specifies_tag {keyword : String} {mk : String → CType} (hmk : tagged keyword = some mk)
    (tag : String) : Specifies isTypedef [.word keyword, .word tag] (mk tag) := by
  intro rest fuel hrest hfuel
  obtain ⟨fuel, rfl⟩ : ∃ n, fuel = n + 1 := ⟨fuel - 1, by omega⟩
  have hbrace : ∀ us, rest = .symbol '{' :: us → False := by
    rintro us rfl
    exact hrest us rfl
  rw [List.cons_append, List.cons_append, List.nil_append, parseSpec]
  · exact hbrace
  · exact hmk

theorem specifies_definition {keyword : String} {mk : String → CType}
    (hmk : tagged keyword = some mk) (tag : String) {F : List Token} (hF : Members isTypedef F) :
    Specifies isTypedef
      ([Token.word keyword, .word tag, .symbol '{'] ++ F ++ [Token.symbol '}']) (mk tag) := by
  intro rest fuel hrest hfuel
  obtain ⟨fuel, rfl⟩ : ∃ n, fuel = n + 1 := ⟨fuel - 1, by omega⟩
  have h : parseFields isTypedef fuel (F ++ Token.symbol '}' :: rest) = some rest :=
    hF rest fuel (by
      simp at hfuel ⊢
      omega)
  simp [parseSpec, hmk, h]

/-! Declarations, parameters and members. -/

theorem Specifies.declaration {S K : List Token} {s : CType} {d : Inside}
    (hS : Specifies isTypedef S s) (hK : Declares isTypedef K d) :
    Declaration isTypedef (S ++ K) (d s) := by
  intro rest fuel hrest hfuel
  obtain ⟨fuel, rfl⟩ : ∃ n, fuel = n + 1 := ⟨fuel - 1, by omega⟩
  rw [List.append_assoc] at hfuel ⊢
  have hspec : parseSpec isTypedef fuel (S ++ (K ++ rest)) = some (s, K ++ rest) :=
    hS _ fuel (hK.opens hrest) (by omega)
  have hdecl : parseDeclarator isTypedef fuel (K ++ rest) = some (d, rest) :=
    hK rest fuel hrest (by
      simp only [List.length_append] at hfuel ⊢
      omega)
  simp [parseDeclaration, hspec, hdecl]

theorem Declaration.last {D : List Token} {p : Option String × CType}
    (hD : Declaration isTypedef D p) : Params isTypedef D [p] := by
  intro rest fuel hfuel
  obtain ⟨fuel, rfl⟩ : ∃ n, fuel = n + 1 := ⟨fuel - 1, by omega⟩
  have h : parseDeclaration isTypedef fuel (D ++ Token.symbol ')' :: rest) =
      some (p, Token.symbol ')' :: rest) := hD _ fuel (Or.inl rfl) (by omega)
  simp [parseParams, h]

theorem Declaration.params {D P : List Token} {p : Option String × CType}
    {ps : List (Option String × CType)} (hD : Declaration isTypedef D p)
    (hP : Params isTypedef P ps) : Params isTypedef (D ++ Token.symbol ',' :: P) (p :: ps) := by
  intro rest fuel hfuel
  obtain ⟨fuel, rfl⟩ : ∃ n, fuel = n + 1 := ⟨fuel - 1, by omega⟩
  simp only [List.append_assoc, List.cons_append] at hfuel ⊢
  have h : parseDeclaration isTypedef fuel
      (D ++ Token.symbol ',' :: (P ++ Token.symbol ')' :: rest)) =
      some (p, Token.symbol ',' :: (P ++ Token.symbol ')' :: rest)) :=
    hD _ fuel (Or.inr (Or.inl rfl)) (by omega)
  have hparams : parseParams isTypedef fuel (P ++ Token.symbol ')' :: rest) = some (ps, rest) :=
    hP rest fuel (by
      simp only [List.length_append, List.length_cons] at hfuel ⊢
      omega)
  simp [parseParams, h, hparams]

theorem members_nil : Members isTypedef [] := by
  intro rest fuel hfuel
  obtain ⟨fuel, rfl⟩ : ∃ n, fuel = n + 1 := ⟨fuel - 1, by omega⟩
  rfl

theorem Declaration.members {D F : List Token} {p : Option String × CType}
    (hD : Declaration isTypedef D p) (hF : Members isTypedef F) :
    Members isTypedef (D ++ Token.symbol ';' :: F) := by
  intro rest fuel hfuel
  obtain ⟨fuel, rfl⟩ : ∃ n, fuel = n + 1 := ⟨fuel - 1, by omega⟩
  simp only [List.append_assoc, List.cons_append] at hfuel ⊢
  have h : parseDeclaration isTypedef fuel
      (D ++ Token.symbol ';' :: (F ++ Token.symbol '}' :: rest)) =
      some (p, Token.symbol ';' :: (F ++ Token.symbol '}' :: rest)) :=
    hD _ fuel (Or.inr (Or.inr rfl)) (by omega)
  have hfields : parseFields isTypedef fuel (F ++ Token.symbol '}' :: rest) = some rest :=
    hF rest fuel (by
      simp only [List.length_append, List.length_cons] at hfuel ⊢
      omega)
  rw [parseFields, h]
  · exact hfields
  -- no declaration starts with the end of the members
  · intro ts hts
    rw [hts] at h
    cases fuel with
    | zero => simp [parseDeclaration] at h
    | succ fuel => cases fuel <;> simp [parseDeclaration, parseSpec] at h

theorem Declaration.parse {D : List Token} {p : Option String × CType}
    (hD : Declaration isTypedef D p) {cs : List Char} (hcs : lex cs = D) :
    parse isTypedef cs = some p := by
  have h := hD [] (4 * D.length + 3) trivial (by simp)
  rw [List.append_nil] at h
  rw [CDeclaration.parse, hcs, h]

end Rules

end Parser

end CDeclaration
