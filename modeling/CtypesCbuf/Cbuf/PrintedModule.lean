import CtypesCbuf.Cbuf.PrintedProgram

/-!
The ML module that the C program of `Cbuf_structs` prints is the one that is
meant when `%S` changes none of the names, and those that are part of a format
have no percent sign.
-/

namespace CtypesCbuf.Cbuf.StructsProgram

open CStrings NameSupply Supply
open Ctypes CLanguage Stubs
open Cbuf.Structs (Structured FieldSpec)

/-- Text of the generator's own, which neither the literal nor the format changes. -/
def SafeText (s : String) : Prop :=
  '\\' ∉ s.toList ∧ '%' ∉ s.toList ∧ '\x00' ∉ s.toList ∧ '\r' ∉ s.toList

/-- The text of a literal is read off its characters. -/
theorem safeText_ofList {l : List Char}
    (h : l.all fun c => c != '\\' && c != '%' && c != '\x00' && c != '\r') :
    SafeText (String.ofList l) := by
  rw [SafeText, String.toList_ofList]
  simp only [List.all_eq_true, Bool.and_eq_true, bne_iff_ne] at h
  exact ⟨fun hmem => (h _ hmem).1.1.1 rfl, fun hmem => (h _ hmem).1.1.2 rfl,
    fun hmem => (h _ hmem).1.2 rfl, fun hmem => (h _ hmem).2 rfl⟩

theorem safe_literal {l : List Char} {rest : List String}
    (h : l.all fun c => c != '\\' && c != '%' && c != '\x00' && c != '\r')
    (hrest : ∀ s ∈ rest, SafeText s) :
    ∀ s ∈ String.ofList l :: rest, SafeText s :=
  List.forall_mem_cons.mpr ⟨safeText_ofList h, hrest⟩

theorem SafeText.append {s t : String} (hs : SafeText s) (ht : SafeText t) : SafeText (s ++ t) := by
  simp only [SafeText, String.toList_append, List.mem_append, not_or]
  obtain ⟨hs1, hs2, hs3, hs4⟩ := hs
  obtain ⟨ht1, ht2, ht3, ht4⟩ := ht
  exact ⟨⟨hs1, ht1⟩, ⟨hs2, ht2⟩, ⟨hs3, ht3⟩, hs4, ht4⟩

theorem safeText_read (n : Nat) : SafeText ("read" ++ Nat.repr n) := by
  have hdigit : ∀ c ∈ (Nat.repr n).toList, c.isDigit = true := fun c hc => isDigit_of_mem_repr hc
  have hrepr : SafeText (Nat.repr n) :=
    ⟨fun h => absurd (hdigit _ h) (by decide), fun h => absurd (hdigit _ h) (by decide),
      fun h => absurd (hdigit _ h) (by decide), fun h => absurd (hdigit _ h) (by decide)⟩
  exact SafeText.append (safeText_ofList (by decide)) hrepr

/-! ### Expressions for constants -/

/-- The parts of an expression, around a conversion. -/
structure ConstExp.Safe (e : ConstExp) : Prop where
  before : SafeText e.before
  conversion : IsConversion e.conversion.toList
  after : SafeText e.after

theorem formatString_isConversion {definedFormat : Prim → String}
    (hformat : ∀ p, IsConversion (definedFormat p).toList) {p : Prim} {fmt : String}
    (h : formatString definedFormat p = some fmt) : IsConversion fmt.toList := by
  cases p <;> cases h <;> first | decide | exact hformat _

theorem primitiveFormatString_safe {definedFormat : Prim → String}
    (hformat : ∀ p, IsConversion (definedFormat p).toList) {p : Prim} {e : ConstExp}
    (h : primitiveFormatString definedFormat p = .ok e) : e.Safe := by
  have hconversion := @formatString_isConversion definedFormat hformat p
  have hplain {before fmt after : String} (hfmt : IsConversion fmt.toList)
      (hbefore : SafeText before) (hafter : SafeText after) :
      ConstExp.Safe ⟨before, fmt, after⟩ := ⟨hbefore, hfmt, hafter⟩
  have hofString {path fmt : String} (hfmt : IsConversion fmt.toList) (hpath : SafeText path) :
      ConstExp.Safe ⟨path ++ ".of_string \"", fmt, "\""⟩ :=
    hplain hfmt (hpath.append (safeText_ofList (by decide))) (safeText_ofList (by decide))
  cases p <;> cases h <;>
    first
    | with_reducible exact hofString (hconversion rfl) (safeText_ofList (by decide))
    | exact hplain (hconversion rfl) (safeText_ofList (by decide)) (safeText_ofList (by decide))

theorem formatPath_safe {a b : String} (ha : SafeText a) (hb : SafeText b) :
    SafeText (formatPath [a, b]) := by
  have hpath : formatPath [a, b] = a ++ "." ++ b := by simp [formatPath]
  exact hpath ▸ (ha.append (safeText_ofList (by decide))).append hb

theorem constructorPath_safe (p : Prim) : SafeText (formatPath (constructorPath p)) := by
  cases p <;> exact formatPath_safe (safeText_ofList (by decide)) (safeText_ofList (by decide))

theorem mlPatAndExpOfTyp_safe {definedFormat : Prim → String}
    (hformat : ∀ p, IsConversion (definedFormat p).toList) {ty : Typ} {p : String} {e : ConstExp}
    {n n' : Nat} (h : mlPatAndExpOfTyp definedFormat ty n = .ok ((p, e), n')) :
    SafeText p ∧ e.Safe := by
  induction ty using mlPatAndExpOfTyp.induct generalizing p e n' with
  | case1 v ty ih =>
      rw [mlPatAndExpOfTyp] at h
      obtain ⟨⟨p', e'⟩, n₁, hty, h⟩ := bind_eq_ok.mp h
      obtain ⟨hp, hbefore, hconversion, hafter⟩ := ih hty
      cases h
      have hx := safeText_read (n₁ + 1)
      have hopen : SafeText "Ctypes_static.View \x7b Ctypes_static.read = " :=
        safeText_ofList (by decide)
      have hty : SafeText "; ty = " := safeText_ofList (by decide)
      have hparen : SafeText "(" := safeText_ofList (by decide)
      have hparen' : SafeText " (" := safeText_ofList (by decide)
      refine ⟨(((hopen.append hx).append hty).append hp).append (safeText_ofList (by decide)),
        ?_, hconversion, ?_⟩
      · exact ((hparen.append hx).append hparen').append hbefore
      · exact hafter.append (safeText_ofList (by decide))
  | case2 q =>
      rw [mlPatAndExpOfTyp] at h
      obtain ⟨e', n₁, he, h⟩ := bind_eq_ok.mp h
      obtain ⟨hq, hn⟩ := lift_eq_ok.mp he
      cases h
      have hprimitive : SafeText "Ctypes_static.Primitive " := safeText_ofList (by decide)
      exact ⟨hprimitive.append (constructorPath_safe q), primitiveFormatString_safe hformat hq⟩
  | case3 ty h1 h2 =>
      rw [mlPatAndExpOfTyp] at h
      · cases h
      · exact h1
      · exact h2

/-! ### Quoted names -/

theorem percent_mem_quoted {s : String} : '%' ∉ (quoted s).toList ↔ '%' ∉ s.toList := by
  have hchar : ∀ c, '%' ∈ charEscaped c ↔ c = '%' := by
    intro c
    rcases charEscaped_cases c with ⟨h, -⟩ | ⟨-, h, hplain⟩
    · simp [h, eq_comm]
    · exact ⟨fun hmem => absurd rfl (h _ hmem).1, fun hc => absurd (hc ▸ by decide) hplain⟩
  rw [quoted_toList]
  simp [hchar]

/-- Neither a byte zero nor a carriage return is left in a quoted name. -/
theorem sound_quoted (s : String) : '\x00' ∉ (quoted s).toList ∧ '\r' ∉ (quoted s).toList := by
  have hchar : ∀ c, '\x00' ∉ charEscaped c ∧ '\r' ∉ charEscaped c := by
    intro c
    rcases charEscaped_cases c with ⟨h, hplain⟩ | ⟨-, h, -⟩
    · simp only [h, List.mem_singleton]
      constructor <;>
      · rintro rfl
        exact absurd hplain (by decide)
    · exact ⟨fun hmem => (h _ hmem).2.1 rfl, fun hmem => (h _ hmem).2.2 rfl⟩
  rw [quoted_toList]
  simp [hchar]

/-! ### The lines of the generator -/

variable (P : Platform)

theorem forall_cases {α : Type} {list : List α} {prologue epilogue : List String}
    {case : α → List Line} {Q : Line → Prop} :
    (∀ line ∈ cases list prologue epilogue case, Q line) ↔
      (∀ s ∈ prologue, Q (.puts s)) ∧ (∀ x ∈ list, ∀ line ∈ case x, Q line) ∧
        ∀ s ∈ epilogue, Q (.puts s) := by
  simp only [cases, List.forall_mem_append, List.forall_mem_map, List.forall_mem_flatMap, and_assoc]

theorem safe_puts {s : String} (hs : SafeText s) :
    (Line.puts s).Prints P ∧ (Line.puts s).Kept :=
  ⟨prints_puts P (.inl hs.1) hs.2.2.1 hs.2.2.2, hs.1⟩

theorem safe_lines {list : List String} (h : ∀ s ∈ list, SafeText s) :
    (∀ s ∈ list, (Line.puts s).Prints P) ∧ ∀ s ∈ list, (Line.puts s).Kept :=
  ⟨fun s hs => (safe_puts P (h s hs)).1, fun s hs => (safe_puts P (h s hs)).2⟩

/-- Cases between fixed lines. -/
theorem cases_spec {α : Type} {list : List α} {prologue epilogue : List String}
    {case : α → List Line} {ok : α → Prop} (hprologue : ∀ s ∈ prologue, SafeText s)
    (hepilogue : ∀ s ∈ epilogue, SafeText s)
    (hcase : ∀ x ∈ list, (∀ line ∈ case x, line.Prints P) ∧ ((∀ line ∈ case x, line.Kept) ↔ ok x)) :
    (∀ line ∈ cases list prologue epilogue case, line.Prints P) ∧
      ((∀ line ∈ cases list prologue epilogue case, line.Kept) ↔ ∀ x ∈ list, ok x) := by
  obtain ⟨hprints, hkept⟩ := safe_lines P hprologue
  obtain ⟨hprints', hkept'⟩ := safe_lines P hepilogue
  rw [forall_cases, forall_cases]
  refine ⟨⟨hprints, fun x hx => (hcase x hx).1, hprints'⟩, ?_⟩
  rw [and_iff_right hkept, and_iff_left hkept']
  exact forall₂_congr fun x hx => (hcase x hx).2

/-- Text of the generator's own with quoted names in it. -/
inductive Written : String → List String → Prop
  | safe {s} (h : SafeText s) : Written s []
  | name (n : String) : Written (quoted n) [n]
  | append {s t ns ms} (hs : Written s ns) (ht : Written t ms) : Written (s ++ t) (ns ++ ms)

namespace Written

variable {s : String} {ns : List String}

theorem noSplice (h : Written s ns) : NoSplice s.toList := by
  induction h with
  | safe h => exact .inl h.1
  | name n => exact noSplice_quoted n
  | append _ _ hs ht => exact String.toList_append ▸ hs.append ht

theorem sound (h : Written s ns) : '\x00' ∉ s.toList ∧ '\r' ∉ s.toList := by
  induction h with
  | safe h => exact h.2.2
  | name n => exact sound_quoted n
  | append _ _ hs ht => simp [String.toList_append, hs, ht]

theorem backslash (h : Written s ns) : '\\' ∉ s.toList ↔ ∀ n ∈ ns, Plain n := by
  induction h with
  | safe h => simp [h.1]
  | name n => simp [backslash_mem_quoted]
  | append _ _ hs ht =>
      rw [String.toList_append, List.mem_append, not_or, hs, ht, List.forall_mem_append]

theorem percent (h : Written s ns) : '%' ∉ s.toList ↔ ∀ n ∈ ns, '%' ∉ n.toList := by
  induction h with
  | safe h => simp [h.2.1]
  | name n => simp [percent_mem_quoted]
  | append _ _ hs ht =>
      rw [String.toList_append, List.mem_append, not_or, hs, ht, List.forall_mem_append]

theorem readsNoZero (h : Written s ns) (hns : ∀ n ∈ ns, IsCString n) :
    ReadsNoZero s.toList := by
  induction h with
  | safe h => exact readsNoZero_text h.1 h.2.2.1
  | name n => exact readsNoZero_quoted (hns n (by simp))
  | append _ _ hs ht =>
      obtain ⟨hn, hm⟩ := List.forall_mem_append.mp hns
      exact String.toList_append ▸ (hs hn).append (ht hm)

end Written

theorem written_puts {s : String} {ns : List String} (h : Written s ns) :
    (Line.puts s).Prints P ∧ ((Line.puts s).Kept ↔ ∀ n ∈ ns, Plain n) :=
  ⟨prints_puts P h.noSplice h.sound.1 h.sound.2, h.backslash⟩

/-- A format in which the last name stands before the conversion. -/
theorem written_printf {t b after n : String} {ns : List String} {a : CArg} (ht : Written t ns)
    (hb : SafeText b) (hafter : SafeText after) (ha : IsConversion a.conversion.toList)
    (hns : ∀ m ∈ ns ++ [n], IsCString m) :
    (Line.printf [.text (t ++ quoted n ++ b), .arg a, .text after]).Prints P ∧
      ((Line.printf [.text (t ++ quoted n ++ b), .arg a, .text after]).Kept ↔
        ∀ m ∈ ns ++ [n], Plain m ∧ '%' ∉ m.toList) := by
  have hbefore : Written (t ++ quoted n ++ b) (ns ++ [n] ++ []) :=
    (ht.append (.name n)).append (.safe hb)
  rw [List.append_nil] at hbefore
  have hsplit : (t ++ quoted n ++ b).toList =
      (t.toList ++ '"' :: n.toList.flatMap charEscaped) ++ '"' :: b.toList := by
    simp [String.toList_append, quoted_toList]
  have hsplice : NoSplice (t.toList ++ '"' :: n.toList.flatMap charEscaped) :=
    ht.noSplice.append (NoSplice.append (s := ['"']) (.inl (by decide)) (noSplice_escaped _))
  refine ⟨prints_named P hsplit hsplice ⟨hb.1, hb.2.1⟩ ⟨hafter.1, hafter.2.1⟩ ha hbefore.sound
    hafter.2.2 (hbefore.readsNoZero hns), ?_⟩
  simp only [Line.Kept, List.forall_mem_cons, Chunk.Kept, hbefore.backslash, hbefore.percent]
  rw [and_iff_left (show _ from ⟨trivial, ⟨hafter.1, hafter.2.1⟩, List.forall_mem_nil _⟩),
    ← forall₂_and]

/-! ### The cases -/

def tag : Structured → String
  | .struct tag _ => tag
  | .union tag _ => tag

/-- A line without names, whose conversions are all for sizes and offsets. -/
theorem safe_printf {format : List Chunk} (h : ∀ chunk ∈ format, chunk.Sound ∧ chunk.Kept) :
    (Line.printf format).Prints P ∧ (Line.printf format).Kept :=
  ⟨prints_printf P (fun chunk hc => (h chunk hc).1) (fun chunk hc => (h chunk hc).2),
    fun chunk hc => (h chunk hc).2⟩

theorem sound_kept_text {s : String} (h : SafeText s) :
    (Chunk.text s).Sound ∧ (Chunk.text s).Kept := ⟨h.2.2, h.1, h.2.1⟩

theorem sound_kept_arg {a : CArg} (h : IsConversion a.conversion.toList) :
    (Chunk.arg a).Sound ∧ (Chunk.arg a).Kept := ⟨h, trivial⟩

theorem isConversion_zu : IsConversion "zu".toList := by decide

/-- A line without names is as it is meant. -/
theorem fixed_line {first : Line} (h : first.Prints P ∧ first.Kept) {lines : List Line} {ok : Prop}
    (hlines : (∀ line ∈ lines, line.Prints P) ∧ ((∀ line ∈ lines, line.Kept) ↔ ok)) :
    (∀ line ∈ first :: lines, line.Prints P) ∧ ((∀ line ∈ first :: lines, line.Kept) ↔ ok) := by
  simp only [List.forall_mem_cons]
  exact ⟨⟨h.1, hlines.1⟩, (and_iff_right h.2).trans hlines.2⟩

theorem named_line {first : Line} {names : Prop} (h : first.Prints P ∧ (first.Kept ↔ names))
    {lines : List Line} {ok : Prop}
    (hlines : (∀ line ∈ lines, line.Prints P) ∧ ((∀ line ∈ lines, line.Kept) ↔ ok)) :
    (∀ line ∈ first :: lines, line.Prints P) ∧
      ((∀ line ∈ first :: lines, line.Kept) ↔ names ∧ ok) := by
  simp only [List.forall_mem_cons]
  exact ⟨⟨h.1, hlines.1⟩, and_congr h.2 hlines.2⟩

theorem no_lines : (∀ line ∈ ([] : List Line), line.Prints P) ∧
    ((∀ line ∈ ([] : List Line), line.Kept) ↔ True) := by
  simp

theorem fieldLines_spec {a b c d e f : String} (ha : SafeText a) (hb : SafeText b)
    (hc : SafeText c) (hd : SafeText d) (he : SafeText e) (hf : SafeText f)
    (t fname typedef : String) :
    let lines : List Line := [.puts (a ++ quoted t ++ b ++ quoted fname ++ c),
      .printf [.text d, .arg (.offsetof typedef fname), .text e], .puts f]
    (∀ line ∈ lines, line.Prints P) ∧
      ((∀ line ∈ lines, line.Kept) ↔ Plain t ∧ Plain fname) := by
  have hname : Written (a ++ quoted t ++ b ++ quoted fname ++ c) [t, fname] :=
    ((((Written.safe ha).append (.name t)).append (.safe hb)).append (.name fname)).append
      (.safe hc)
  have hformat : ∀ chunk ∈ [Chunk.text d, .arg (.offsetof typedef fname), .text e],
      chunk.Sound ∧ chunk.Kept := by
    simp only [List.forall_mem_cons]
    exact ⟨sound_kept_text hd, sound_kept_arg isConversion_zu, sound_kept_text he,
      List.forall_mem_nil _⟩
  have hlines := named_line P (written_puts P hname) (fixed_line P (safe_printf P hformat)
    (fixed_line P (safe_puts P hf) (no_lines P)))
  simpa [and_assoc] using hlines

theorem sealLines_spec {a b c d e : String} (ha : SafeText a) (hb : SafeText b)
    (hc : SafeText c) (hd : SafeText d) (he : SafeText e) (t typedef : String) :
    let lines : List Line := [.puts (a ++ quoted t ++ b),
      .printf [.text c, .arg (.sizeof typedef), .text d, .arg (.alignmentof typedef), .text e]]
    (∀ line ∈ lines, line.Prints P) ∧ ((∀ line ∈ lines, line.Kept) ↔ Plain t) := by
  have hname : Written (a ++ quoted t ++ b) [t] :=
    ((Written.safe ha).append (.name t)).append (.safe hb)
  have hformat : ∀ chunk ∈ [Chunk.text c, .arg (.sizeof typedef), .text d,
      .arg (.alignmentof typedef), .text e], chunk.Sound ∧ chunk.Kept := by
    simp only [List.forall_mem_cons]
    exact ⟨sound_kept_text hc, sound_kept_arg isConversion_zu, sound_kept_text hd,
      sound_kept_arg isConversion_zu, sound_kept_text he, List.forall_mem_nil _⟩
  have hlines := named_line P (written_puts P hname)
    (fixed_line P (safe_printf P hformat) (no_lines P))
  simpa using hlines

theorem fieldCase_spec (f : FieldSpec) :
    (∀ line ∈ fieldCase f, line.Prints P) ∧
      ((∀ line ∈ fieldCase f, line.Kept) ↔ Plain (tag f.1) ∧ Plain f.2) := by
  obtain ⟨typ, fname⟩ := f
  cases typ with
  | struct t typedef =>
      exact fieldLines_spec P (safeText_ofList (by decide)) (safeText_ofList (by decide))
        (safeText_ofList (by decide)) (safeText_ofList (by decide)) (safeText_ofList (by decide))
        (safeText_ofList (by decide)) t fname typedef
  | union t typedef =>
      exact fieldLines_spec P (safeText_ofList (by decide)) (safeText_ofList (by decide))
        (safeText_ofList (by decide)) (safeText_ofList (by decide)) (safeText_ofList (by decide))
        (safeText_ofList (by decide)) t fname typedef

theorem sealCase_spec (s : Structured) :
    (∀ line ∈ sealCase s, line.Prints P) ∧
      ((∀ line ∈ sealCase s, line.Kept) ↔ Plain (tag s)) := by
  cases s with
  | struct t typedef =>
      exact sealLines_spec P (safeText_ofList (by decide)) (safeText_ofList (by decide))
        (safeText_ofList (by decide)) (safeText_ofList (by decide)) (safeText_ofList (by decide))
        t typedef
  | union t typedef =>
      exact sealLines_spec P (safeText_ofList (by decide)) (safeText_ofList (by decide))
        (safeText_ofList (by decide)) (safeText_ofList (by decide)) (safeText_ofList (by decide))
        t typedef

theorem enumCase_spec (e : String × Bool) (h : IsCString e.1) :
    (∀ line ∈ enumCase e, line.Prints P) ∧
      ((∀ line ∈ enumCase e, line.Kept) ↔ Plain e.1 ∧ '%' ∉ e.1.toList) := by
  obtain ⟨name, typedef⟩ := e
  have hbefore : Written ("  | " ++ quoted name ++ " -> \n    Cbuf_internals.build_enum_type ")
      ([] ++ [name] ++ []) :=
    ((Written.safe (safeText_ofList (by decide))).append (.name name)).append
      (.safe (safeText_ofList (by decide)))
  have hline := @written_printf P _ " Ctypes_static." " ?typedef ?unexpected alist\n" name _
    (.arithmeticTypeName ((if typedef then "" else "enum ") ++ name)) hbefore
    (safeText_ofList (by decide)) (safeText_ofList (by decide))
    (show IsConversion "s".toList by decide) (by simpa using h)
  have hlines := named_line P hline (no_lines P)
  simpa [enumCase] using hlines

theorem constCase_spec {name : String} {ty : Typ} {n n' : Nat} {lines : List Line}
    (h : constCase P.definedFormat (name, ty) n = .ok (lines, n')) (hname : IsCString name) :
    (∀ line ∈ lines, line.Prints P) ∧
      ((∀ line ∈ lines, line.Kept) ↔ Plain name ∧ '%' ∉ name.toList) := by
  rw [constCase] at h
  obtain ⟨⟨p, e⟩, n₁, hty, h⟩ := bind_eq_ok.mp h
  obtain ⟨hp, he⟩ := mlPatAndExpOfTyp_safe P.isConversion hty
  cases h
  have hbefore : Written ("  | " ++ p ++ ", ") [] :=
    .safe ((SafeText.append (safeText_ofList (by decide)) hp).append (safeText_ofList (by decide)))
  have hb : SafeText (" ->\n    " ++ e.before) :=
    SafeText.append (safeText_ofList (by decide)) he.before
  have hafter : SafeText (e.after ++ "\n") := he.after.append (safeText_ofList (by decide))
  have hline := @written_printf P _ _ _ name _ (.constant name e.conversion) hbefore hb hafter
    he.conversion (by simpa using hname)
  have hlines := fixed_line P ⟨prints_declare P name ty, trivial⟩ (named_line P hline (no_lines P))
  simpa [String.append_assoc] using hlines

theorem constCases_spec {consts : List (String × Typ)} {groups : List (List Line)}
    (h : List.Forall₂ (fun c lines => ∃ n n', constCase P.definedFormat c n = .ok (lines, n'))
      consts groups) (hnames : ∀ c ∈ consts, IsCString c.1) :
    (∀ lines ∈ groups, ∀ line ∈ lines, line.Prints P) ∧
      ((∀ lines ∈ groups, ∀ line ∈ lines, line.Kept) ↔
        ∀ c ∈ consts, Plain c.1 ∧ '%' ∉ c.1.toList) := by
  induction h with
  | nil => simp
  | @cons c lines consts groups hcase _ ih =>
      obtain ⟨n, n', hcase⟩ := hcase
      obtain ⟨hname, hnames⟩ := List.forall_mem_cons.mp hnames
      obtain ⟨hprints, hkept⟩ := constCase_spec P hcase hname
      obtain ⟨hrest, hkepts⟩ := ih hnames
      simp only [List.forall_mem_cons]
      exact ⟨⟨hprints, hrest⟩, and_congr hkept hkepts⟩

theorem writeConsts_spec {consts : List (String × Typ)} {n n' : Nat} {lines : List Line}
    (h : writeConsts P.definedFormat consts n = .ok (lines, n'))
    (hnames : ∀ c ∈ consts, IsCString c.1) :
    (∀ line ∈ lines, line.Prints P) ∧
      ((∀ line ∈ lines, line.Kept) ↔ ∀ c ∈ consts, Plain c.1 ∧ '%' ∉ c.1.toList) := by
  rw [writeConsts] at h
  obtain ⟨groups, n₁, hgroups, h⟩ := bind_eq_ok.mp h
  cases h
  obtain ⟨hprints, hkept⟩ := constCases_spec P (mapM_eq_ok hgroups) hnames
  have hprologue : ∀ s ∈ ["type 'a const = 'a",
      "let constant (type t) name (t : t typ) : t = match t, name with"], SafeText s :=
    safe_literal (by decide) (safe_literal (by decide) (List.forall_mem_nil _))
  have hepilogue : ∀ s ∈ ["  | _, s -> failwith (\"unmatched constant: \"^ s)"], SafeText s :=
    safe_literal (by decide) (List.forall_mem_nil _)
  obtain ⟨hfirst, hfirst'⟩ := safe_lines P hprologue
  obtain ⟨hlast, hlast'⟩ := safe_lines P hepilogue
  rw [forall_cases, forall_cases]
  exact ⟨⟨hfirst, hprints, hlast⟩,
    (and_iff_right hfirst').trans ((and_iff_left hlast').trans hkept)⟩

theorem writeField_spec (specs : List FieldSpec) :
    (∀ line ∈ writeField specs, line.Prints P) ∧
      ((∀ line ∈ writeField specs, line.Kept) ↔ ∀ f ∈ specs, Plain (tag f.1) ∧ Plain f.2) :=
  cases_spec P
    (safe_literal (by decide) (safe_literal (by decide) (safe_literal (by decide)
      (List.forall_mem_nil _))))
    (safe_literal (by decide) (safe_literal (by decide) (safe_literal (by decide)
      (safe_literal (by decide) (List.forall_mem_nil _)))))
    fun f _ => fieldCase_spec P f

theorem writeSeal_spec (specs : List Structured) :
    (∀ line ∈ writeSeal specs, line.Prints P) ∧
      ((∀ line ∈ writeSeal specs, line.Kept) ↔ ∀ s ∈ specs, Plain (tag s)) :=
  cases_spec P (safe_literal (by decide) (safe_literal (by decide) (List.forall_mem_nil _)))
    (safe_literal (by decide) (safe_literal (by decide) (safe_literal (by decide)
      (safe_literal (by decide) (safe_literal (by decide) (safe_literal (by decide)
        (safe_literal (by decide) (safe_literal (by decide) (List.forall_mem_nil _)))))))))
    fun s _ => sealCase_spec P s

theorem writeEnums_spec {enums : List (String × Bool)} (h : ∀ e ∈ enums, IsCString e.1) :
    (∀ line ∈ writeEnums enums, line.Prints P) ∧
      ((∀ line ∈ writeEnums enums, line.Kept) ↔
        ∀ e ∈ enums, Plain e.1 ∧ '%' ∉ e.1.toList) :=
  cases_spec P
    (safe_literal (by decide) (safe_literal (by decide) (safe_literal (by decide)
      (List.forall_mem_nil _))))
    (safe_literal (by decide) (safe_literal (by decide) (List.forall_mem_nil _)))
    fun e he => enumCase_spec P e (h e he)

/-! ### The whole program -/

/-- The names that the printed module shows unchanged. -/
structure Requests.Plain (r : Requests) : Prop where
  fields : ∀ f ∈ r.fields, StructsProgram.Plain (tag f.1) ∧ StructsProgram.Plain f.2
  structures : ∀ s ∈ r.structures, StructsProgram.Plain (tag s)
  consts : ∀ c ∈ r.consts, StructsProgram.Plain c.1 ∧ '%' ∉ c.1.toList
  enums : ∀ e ∈ r.enums, StructsProgram.Plain e.1 ∧ '%' ∉ e.1.toList

theorem writeMl_spec {r : Requests} {n n' : Nat} {lines : List Line}
    (h : writeMl P.definedFormat r n = .ok (lines, n')) (hconsts : ∀ c ∈ r.consts, IsCString c.1)
    (henums : ∀ e ∈ r.enums, IsCString e.1) :
    (∀ line ∈ lines, line.Prints P) ∧ ((∀ line ∈ lines, line.Kept) ↔ r.Plain) := by
  rw [writeMl] at h
  obtain ⟨consts, n₁, hwrite, h⟩ := bind_eq_ok.mp h
  cases h
  obtain ⟨hprologue, hprologue'⟩ := @safe_lines P mlprologue
    (safe_literal (by decide) (safe_literal (by decide) (safe_literal (by decide)
      (List.forall_mem_nil _))))
  obtain ⟨hfields, hfields'⟩ := writeField_spec P r.fields
  obtain ⟨hseals, hseals'⟩ := writeSeal_spec P r.structures
  obtain ⟨hconst, hconst'⟩ := writeConsts_spec P hwrite hconsts
  obtain ⟨henum, henum'⟩ := writeEnums_spec P henums
  simp only [List.forall_mem_append, List.forall_mem_map, hfields', hseals', hconst', henum']
  refine ⟨⟨⟨⟨⟨hprologue, hfields⟩, hseals⟩, hconst⟩, henum⟩, ?_⟩
  constructor
  · rintro ⟨⟨⟨⟨-, hf⟩, hs⟩, hc⟩, he⟩
    exact ⟨hf, hs, hc, he⟩
  · rintro ⟨hf, hs, hc, he⟩
    exact ⟨⟨⟨⟨hprologue', hf⟩, hs⟩, hc⟩, he⟩

/-- A literal stands for its text if there is no backslash and no carriage
return in the text, and the C program prints the ML module that is meant if
there is nothing to escape in its names. -/
theorem printed_iff (P : Platform) (s : String) :
    ('\x00' ∉ s.toList →
      (decode (cstring s).toList = some s.toList ↔ '\\' ∉ s.toList ∧ '\r' ∉ s.toList)) ∧
    ∀ (r : Requests) (n n' : Nat) (lines : List Line),
      writeMl P.definedFormat r n = .ok (lines, n') →
      (∀ c ∈ r.consts, IsCString c.1) → (∀ e ∈ r.enums, IsCString e.1) →
      (run P (lines.map Line.statement) = some (lines.flatMap (Line.intended P)) ↔ r.Plain) := by
  refine ⟨fun _ => decode_cstring_iff s, fun r n n' lines h hconsts henums => ?_⟩
  obtain ⟨hprints, hkept⟩ := writeMl_spec P h hconsts henums
  exact (run_eq_some_iff P hprints).trans hkept

/-- A platform on which every value is printed as `1`. -/
def onesPlatform : Platform where
  definedFormat _ := "d"
  isConversion _ := by decide
  print a conversion := if conversion = a.conversion.toList then some ['1'] else none
  text _ := ['1']
  prints a := by simp

def pointRequests : Requests where
  fields := [(.struct "point" "struct point", "x")]
  structures := [.struct "point" "struct point"]
  consts := [("N", .primitive .int)]
  enums := [("colour", false)]

theorem pointRequests_plain : pointRequests.Plain := by
  constructor <;> decide

def pointLines : List Line :=
  ((writeMl onesPlatform.definedFormat pointRequests 0).toOption.getD ([], 0)).1

theorem printed_point :
    decode (cstring "a\"b\n").toList = some "a\"b\n".toList ∧
      run onesPlatform (pointLines.map Line.statement) =
        some (pointLines.flatMap (Line.intended onesPlatform)) :=
  ⟨((printed_iff onesPlatform "a\"b\n").1 (by decide)).mpr (by decide),
    ((printed_iff onesPlatform "").2 pointRequests 0 0 pointLines rfl (by decide)
      (by decide)).mpr pointRequests_plain⟩

/-- The two characters of `\n` come back as a newline. -/
theorem backslash_not_decoded :
    ¬ (∀ s : String, '\x00' ∉ s.toList → decode (cstring s).toList = some s.toList) := fun h =>
  absurd (h "\\n" (by decide)) (by decide)

end CtypesCbuf.Cbuf.StructsProgram
