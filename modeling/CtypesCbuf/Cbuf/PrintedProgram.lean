import Mathlib.Data.List.TakeWhile
import CtypesCbuf.Cbuf.PrintedText

/-!
Which ML text the whole C program prints. Every line either comes out as it is
meant or comes out shorter, so the program prints the text that is meant only
if each of its lines does.
-/

namespace CtypesCbuf.Cbuf.StructsProgram

open CStrings Transducer
open Ctypes

/-! ### Names in quotes -/

def PlainChar (c : Char) : Prop := (' ' ≤ c ∧ c ≤ '~') ∧ c ≠ '"' ∧ c ≠ '\\'

instance (c : Char) : Decidable (PlainChar c) := inferInstanceAs (Decidable (_ ∧ _))

/-- `%S` puts the name in quotes and changes nothing else. -/
def Plain (s : String) : Prop := ∀ c ∈ s.toList, PlainChar c

instance (s : String) : Decidable (Plain s) := List.decidableBAll PlainChar s.toList

/-- The first backslash, if there is one, is not in front of a newline. -/
def NoSplice (t : List Char) : Prop :=
  '\\' ∉ t ∨ ∃ u c v, t = u ++ '\\' :: c :: v ∧ '\\' ∉ u ∧ c ≠ '\n'

theorem NoSplice.append {s t : List Char} (hs : NoSplice s) (ht : NoSplice t) :
    NoSplice (s ++ t) := by
  rcases hs with hs | ⟨u, c, v, rfl, hu, hc⟩
  · rcases ht with ht | ⟨u, c, v, rfl, hu, hc⟩
    · exact .inl fun h => (List.mem_append.mp h).elim hs ht
    · exact .inr ⟨s ++ u, c, v, (List.append_assoc ..).symm,
        fun h => (List.mem_append.mp h).elim hs hu, hc⟩
  · exact .inr ⟨u, c, v ++ t, by simp, hu, hc⟩

theorem decimalDigit_toNat {n : Nat} (h : n < 55000) : (decimalDigit n).toNat = 48 + n := by
  have hvalid : (48 + n).isValidChar := .inl (by omega)
  rw [decimalDigit, show '0'.toNat = 48 from rfl, Char.ofNat, dif_pos hvalid]
  rfl

theorem decimalDigit_ne {n : Nat} {c : Char} (hn : n < 55000) (hc : c.toNat < 48) :
    decimalDigit n ≠ c := by
  rintro rfl
  rw [decimalDigit_toNat hn] at hc
  omega

/-- A character is left as it is, or an escape sequence stands for it. -/
theorem charEscaped_cases (c : Char) :
    (charEscaped c = [c] ∧ PlainChar c) ∨
      ((∃ d ds, charEscaped c = '\\' :: d :: ds ∧ d ≠ '\n') ∧
        (∀ d ∈ charEscaped c, d ≠ '%' ∧ d ≠ '\x00' ∧ d ≠ '\r') ∧ ¬ PlainChar c) := by
  have hlt : c.toNat < 1114112 := by
    have hvalid := c.valid
    simp only [UInt32.isValidChar, Nat.isValidChar] at hvalid
    simp only [Char.toNat]
    omega
  have hdigit : ∀ {n : Nat} {d : Char}, n < 55000 → d.toNat < 48 → decimalDigit n ≠ d :=
    decimalDigit_ne
  by_cases hletter : c ∈ ['"', '\\', '\n', '\t', '\r', '\x08']
  · simp only [List.mem_cons, List.not_mem_nil, or_false] at hletter
    rcases hletter with rfl | rfl | rfl | rfl | rfl | rfl <;>
      exact .inr ⟨⟨_, _, rfl, by decide⟩, by simp [charEscaped], by decide⟩
  · simp only [List.mem_cons, List.not_mem_nil, or_false, not_or] at hletter
    obtain ⟨h1, h2, h3, h4, h5, h6⟩ := hletter
    rw [charEscaped, if_neg h1, if_neg h2, if_neg h3, if_neg h4, if_neg h5, if_neg h6]
    by_cases h7 : ' ' ≤ c ∧ c ≤ '~'
    · rw [if_pos h7]
      exact .inl ⟨rfl, h7, h1, h2⟩
    · rw [if_neg h7]
      refine .inr ⟨⟨_, _, rfl, hdigit (by omega) (by decide)⟩, ?_, fun h => h7 h.1⟩
      have hchar : ∀ n < 55000, decimalDigit n ≠ '%' ∧ decimalDigit n ≠ '\x00' ∧
          decimalDigit n ≠ '\r' := fun n hn =>
        ⟨hdigit hn (by decide), hdigit hn (by decide), hdigit hn (by decide)⟩
      simp only [List.forall_mem_cons]
      exact ⟨by decide, hchar _ (by omega), hchar _ (by omega), hchar _ (by omega), nofun⟩

theorem noSplice_escaped (s : List Char) : NoSplice (s.flatMap charEscaped) := by
  induction s with
  | nil => exact .inl (by simp)
  | cons c s ih =>
      refine NoSplice.append ?_ ih
      rcases charEscaped_cases c with ⟨h, -, -, hc⟩ | ⟨⟨d, ds, h, hd⟩, -, -⟩
      · exact .inl (by simpa [h] using hc.symm)
      · exact .inr ⟨[], d, ds, h, by simp, hd⟩

theorem backslash_mem_escaped {s : List Char} :
    '\\' ∉ s.flatMap charEscaped ↔ ∀ c ∈ s, PlainChar c := by
  simp only [List.mem_flatMap, not_exists, not_and]
  refine forall₂_congr fun c _ => ?_
  rcases charEscaped_cases c with ⟨h, hc⟩ | ⟨⟨d, ds, h, -⟩, -, hc⟩
  · simp [h, hc, hc.2.2.symm]
  · simp [h, hc]

theorem quoted_toList (s : String) :
    (quoted s).toList = '"' :: (s.toList.flatMap charEscaped ++ ['"']) := by
  simp [quoted, String.toList_append, String.toList_ofList]

theorem noSplice_quoted (s : String) : NoSplice (quoted s).toList := by
  rw [quoted_toList]
  have hquote : NoSplice ['"'] := .inl (by decide)
  exact hquote.append ((noSplice_escaped _).append hquote)

theorem backslash_mem_quoted {s : String} : '\\' ∉ (quoted s).toList ↔ Plain s := by
  rw [quoted_toList, Plain, ← backslash_mem_escaped]
  simp

/-! ### Lines -/

/-- Neither the literal nor the format changes the text. -/
def Chunk.Kept : Chunk → Prop
  | .text s => '\\' ∉ s.toList ∧ '%' ∉ s.toList
  | .arg _ => True

def Line.Kept : Line → Prop
  | .puts s => '\\' ∉ s.toList
  | .printf format => ∀ chunk ∈ format, chunk.Kept
  | .declare _ _ => True

variable (P : Platform)

/-- The line comes out as it is meant if nothing changes it, and shorter if
something does. -/
structure Line.Prints (line : Line) : Prop where
  prints : line.Kept → line.statement.run P = some (line.intended P)
  shorter : ∀ o, line.statement.run P = some o → o.length ≤ (line.intended P).length ∧
    ((line.intended P).length ≤ o.length → line.Kept)

theorem cText_of_not_mem {cs : List Char} (h : '\x00' ∉ cs) : cText cs = cs := by
  refine List.takeWhile_eq_self_iff.mpr fun c hc => ?_
  have hne : c ≠ '\x00' := fun heq => h (heq ▸ hc)
  simpa using hne

theorem prints_puts {s : String} (hs : NoSplice s.toList) (hnul : '\x00' ∉ s.toList)
    (hreturn : '\r' ∉ s.toList) : (Line.puts s).Prints P := by
  refine ⟨fun hkept => ?_, fun o ho => ?_⟩
  · have hplain : decode (cstring s).toList = some s.toList := decode_plain hkept hreturn
    simp only [Line.statement, Statement.run, hplain, Option.map_some, cText_of_not_mem hnul,
      Line.intended]
  · rw [Line.statement, Statement.run] at ho
    obtain ⟨d, hd, rfl⟩ := Option.map_eq_some_iff.mp ho
    have hcut : (cText d).length ≤ d.length := (List.takeWhile_sublist _).length_le
    have hlen := decode_length hd
    simp only [Line.intended, List.length_append, List.length_singleton]
    refine ⟨by omega, fun hle => ?_⟩
    rcases hs with hs | ⟨u, c, v, hs, hu, hc⟩
    · exact hs
    · have hlt := decode_shorter hs hu hc hd
      omega

theorem prints_declare (name : String) (ty : Typ) : (Line.declare name ty).Prints P := by
  refine ⟨fun _ => rfl, fun o ho => ?_⟩
  cases ho
  exact ⟨Nat.le_refl _, fun _ => trivial⟩

/-! ### Formats -/

/-- No string of C ends early and no line of the source in a literal, and the
conversions are such. -/
def Chunk.Sound : Chunk → Prop
  | .text s => '\x00' ∉ s.toList ∧ '\r' ∉ s.toList
  | .arg a => IsConversion a.conversion.toList

theorem isConversion_chars {conversion : List Char} (h : IsConversion conversion) :
    '\\' ∉ conversion ∧ '\x00' ∉ conversion ∧ '\r' ∉ conversion := by
  obtain ⟨modifiers, c, rfl, hmodifiers, hc⟩ := h
  have hother : ∀ d, isSpecifier d = false → isModifier d = false → d ∉ modifiers ++ [c] := by
    intro d hspecifier hmodifier hmem
    rcases List.mem_append.mp hmem with hm | hm
    · rw [hmodifiers _ hm] at hmodifier
      cases hmodifier
    · rw [List.mem_singleton.mp hm, hc] at hspecifier
      cases hspecifier
  exact ⟨hother _ (by decide) (by decide), hother _ (by decide) (by decide),
    hother _ (by decide) (by decide)⟩

def formatArgs (format : List Chunk) : List CStrings.Arg :=
  (format.filterMap Chunk.arg?).map P.print

theorem scan_format {format : List Chunk} (hsound : ∀ chunk ∈ format, chunk.Sound)
    (hkept : ∀ chunk ∈ format, chunk.Kept) :
    scan formatStep (none, formatArgs P format) (format.flatMap Chunk.format) =
      some ((Line.printf format).intended P, none, []) := by
  induction format with
  | nil => rfl
  | cons chunk format ih =>
      obtain ⟨hs, hsounds⟩ := List.forall_mem_cons.mp hsound
      obtain ⟨hk, hkepts⟩ := List.forall_mem_cons.mp hkept
      have hrest := ih hsounds hkepts
      rw [List.flatMap_cons]
      cases chunk with
      | text s =>
          rw [Chunk.format, scan_append (scan_plain hk.2 _)]
          exact congrArg _ hrest
      | arg a =>
          have hconversion : scan formatStep (none, P.print a :: formatArgs P format)
              ('%' :: a.conversion.toList) = some (P.text a, none, formatArgs P format) := by
            rw [scan_conversion hs]
            simp [P.prints a]
          rw [Chunk.format]
          exact (scan_append hconversion _).trans (congrArg _ hrest)

theorem format_chars {format : List Chunk} (hsound : ∀ chunk ∈ format, chunk.Sound)
    (hkept : ∀ chunk ∈ format, chunk.Kept) :
    '\\' ∉ format.flatMap Chunk.format ∧ '\x00' ∉ format.flatMap Chunk.format ∧
      '\r' ∉ format.flatMap Chunk.format := by
  have hchunk : ∀ chunk ∈ format,
      '\\' ∉ chunk.format ∧ '\x00' ∉ chunk.format ∧ '\r' ∉ chunk.format := by
    intro chunk hmem
    have hs := hsound chunk hmem
    have hk := hkept chunk hmem
    cases chunk with
    | text s => exact ⟨hk.1, hs⟩
    | arg a =>
        obtain ⟨hbackslash, hnul, hreturn⟩ := isConversion_chars hs
        exact ⟨List.not_mem_cons_of_ne_of_not_mem (by decide) hbackslash,
          List.not_mem_cons_of_ne_of_not_mem (by decide) hnul,
          List.not_mem_cons_of_ne_of_not_mem (by decide) hreturn⟩
  simp only [List.mem_flatMap, not_exists, not_and]
  exact ⟨fun chunk hmem => (hchunk chunk hmem).1, fun chunk hmem => (hchunk chunk hmem).2.1,
    fun chunk hmem => (hchunk chunk hmem).2.2⟩

theorem run_printf_kept {format : List Chunk} (hsound : ∀ chunk ∈ format, chunk.Sound)
    (hkept : ∀ chunk ∈ format, chunk.Kept) :
    (Line.printf format).statement.run P = some ((Line.printf format).intended P) := by
  obtain ⟨hbackslash, hnul, hreturn⟩ := format_chars hsound hkept
  rw [← @String.toList_ofList (format.flatMap Chunk.format)] at hbackslash hreturn
  rw [Line.statement, Statement.run, decode_plain hbackslash hreturn, String.toList_ofList,
    Option.bind_some, printf_eq_some, cText_of_not_mem hnul]
  exact ⟨[], scan_format P hsound hkept⟩

/-- A line whose format has no names in it. -/
theorem prints_printf {format : List Chunk} (hsound : ∀ chunk ∈ format, chunk.Sound)
    (hkept : ∀ chunk ∈ format, chunk.Kept) : (Line.printf format).Prints P := by
  have hrun := run_printf_kept P hsound hkept
  refine ⟨fun _ => hrun, fun o ho => ?_⟩
  cases hrun.symm.trans ho
  exact ⟨Nat.le_refl _, fun _ => hkept⟩

/-! ### Formats with names -/

theorem scan_closed (c : Char) (cs : List Char) : scan readChar .closed (c :: cs) = none := by
  have hchar : readChar .closed c = none := by
    rw [readChar, literalChar]
    split
    · rfl
    · split <;> rfl
  rw [scan, hchar]

/-- The text up to a quote is read apart from the text after it. -/
theorem decode_at_quote {s : String} {x y d : List Char} (hs : s.toList = x ++ '"' :: y)
    (hy : '\\' ∉ y) (hne : y ≠ []) (h : decode (cstring s).toList = some d) :
    ∃ x', d = x' ++ '"' :: y ∧ x'.length ≤ x.length ∧
      ('\\' ∉ x → x' = x) ∧ (NoSplice x → '\\' ∈ x → x'.length < x.length) := by
  obtain ⟨_, _, o₃, hscan, hclose, rfl⟩ := decode_cstring.mp h
  rw [hs, scan_append_eq_some] at hscan
  obtain ⟨o₁, s₁, _, hx, hrest, rfl⟩ := hscan
  obtain ⟨o₂, s₂, o₄, hquote, hscan, rfl⟩ := scan_cons_eq_some.mp hrest
  rcases readChar_quote hquote with ⟨rfl, o', rfl, hlen⟩ | ⟨rfl, -, -⟩
  · obtain ⟨-, rfl, rfl⟩ := scan_text_eq_some hy hscan
    cases hclose
    have hle : o₁.length + s₁.pending ≤ x.length := scan_readChar_length hx
    refine ⟨o₁ ++ o', by simp, by rw [List.length_append]; omega, fun hplain => ?_,
      fun hsplice hmem => ?_⟩
    · obtain ⟨-, rfl, rfl⟩ := scan_text_eq_some hplain hx
      rw [List.length_eq_zero_iff.mp hlen, List.append_nil]
    · rcases hsplice with hn | ⟨u, c, v, rfl, hu, hc⟩
      · exact absurd hmem hn
      · have hlt := scan_readChar_shorter hu hc hx
        rw [List.length_append]
        omega
  · cases y with
    | nil => exact absurd rfl hne
    | cons c y => rw [scan_closed] at hscan; cases hscan

/-- A percent sign makes what is printed shorter, or takes an argument. -/
theorem scan_percent {cs o : List Char} {args args' : List CStrings.Arg}
    (h : scan formatStep (none, args) cs = some (o, none, args')) (hmem : '%' ∈ cs)
    (hargs : args'.length = args.length) : o.length < cs.length := by
  obtain ⟨u, v, rfl, hu⟩ := List.eq_append_cons_of_mem hmem
  rw [scan_append (scan_plain hu args)] at h
  obtain ⟨⟨o', t⟩, hscan, hpair⟩ := Option.map_eq_some_iff.mp h
  cases hpair
  obtain ⟨_, ⟨pending, args₁⟩, o₁, hpercent, hv, rfl⟩ := scan_cons_eq_some.mp hscan
  cases hpercent
  have hlen := (scan_args hv).2 hargs
  simp only [List.length_append, List.length_cons, List.length_nil]
  omega

/-- What is printed for a format with one conversion, after a quote. -/
theorem printf_at_quote {x y z o : List Char} {a : CArg} (hx : '\x00' ∉ x)
    (hy : '%' ∉ y ∧ '\x00' ∉ y) (ha : IsConversion a.conversion.toList)
    (hz : '%' ∉ z ∧ '\x00' ∉ z)
    (h : CStrings.printf (x ++ '"' :: (y ++ '%' :: a.conversion.toList ++ z)) [P.print a] =
      some o) :
    ∃ x', o = x' ++ '"' :: (y ++ P.text a ++ z) ∧ x'.length ≤ x.length ∧
      ('%' ∈ x → x'.length < x.length) := by
  have hconversion := (isConversion_chars ha).2.1
  have hnul : '\x00' ∉ x ++ '"' :: (y ++ '%' :: a.conversion.toList ++ z) := by
    simp [hx, hy.2, hz.2, hconversion]
  obtain ⟨args', hscan⟩ := printf_eq_some.mp h
  rw [cText_of_not_mem hnul, scan_append_eq_some] at hscan
  obtain ⟨o₁, ⟨pending, args₁⟩, _, hxs, hrest, rfl⟩ := hscan
  obtain ⟨o₂, ⟨pending₂, args₂⟩, o₃, hquote, hscan, rfl⟩ := scan_cons_eq_some.mp hrest
  cases pending with
  | some conversion => cases hquote
  | none =>
      cases hquote
      rw [List.append_assoc, scan_append (scan_plain hy.1 _)] at hscan
      obtain ⟨⟨o₄, t⟩, hafter, hpair⟩ := Option.map_eq_some_iff.mp hscan
      cases hpair
      obtain ⟨o₅, ⟨pending₃, args₃⟩, o₆, harg, hzs, rfl⟩ := scan_append_eq_some.mp hafter
      rw [scan_conversion ha] at harg
      obtain ⟨hsuffix, hlen⟩ := scan_args hxs
      cases args₁ with
      | nil => cases harg
      | cons arg args₁ =>
          have hone : arg :: args₁ = [P.print a] := hsuffix.eq_of_length_le (by simp)
          cases hone
          simp only [P.prints a, Option.map_some] at harg
          cases harg
          rw [scan_plain hz.1] at hzs
          cases hzs
          exact ⟨o₁, by simp, hlen rfl, fun hmem => scan_percent hxs hmem rfl⟩

/-! ### Zero bytes -/

def IsCString (s : String) : Prop := ∀ c ∈ s.toList, c ≠ '\x00' ∧ c.toNat < 256

instance (s : String) : Decidable (IsCString s) :=
  List.decidableBAll (fun c => c ≠ '\x00' ∧ c.toNat < 256) s.toList

/-- No escape sequence for the byte zero has been begun. -/
def NoZero : State → Prop
  | .octal value _ => value ≠ 0
  | .text | .closed => True
  | .escape | .hexStart | .hex _ => False

instance : (s : State) → Decidable (NoZero s)
  | .octal value _ => inferInstanceAs (Decidable (value ≠ 0))
  | .text | .closed => isTrue trivial
  | .escape | .hexStart | .hex _ => isFalse id

def ReadsNoZero (cs : List Char) : Prop :=
  ∀ s o s', NoZero s → scan readChar s cs = some (o, s') → '\x00' ∉ o ∧ NoZero s'

theorem ReadsNoZero.append {cs ds : List Char} (hc : ReadsNoZero cs) (hd : ReadsNoZero ds) :
    ReadsNoZero (cs ++ ds) := by
  intro s o s' hs h
  obtain ⟨o₁, s₁, o₂, h₁, h₂, rfl⟩ := scan_append_eq_some.mp h
  obtain ⟨ho₁, hs₁⟩ := hc s o₁ s₁ hs h₁
  obtain ⟨ho₂, hs'⟩ := hd s₁ o₂ s' hs₁ h₂
  exact ⟨fun hmem => (List.mem_append.mp hmem).elim ho₁ ho₂, hs'⟩

theorem ofNat_ne_zero {n : Nat} (hlt : n < 256) (h0 : n ≠ 0) : Char.ofNat n ≠ '\x00' := by
  intro heq
  have hvalid : n.isValidChar := .inl (by omega)
  have hn : (Char.ofNat n).toNat = n := by
    rw [Char.ofNat, dif_pos hvalid]
    rfl
  rw [heq] at hn
  exact h0 hn.symm

/-- The byte of a numeric escape that has been begun is put out. -/
theorem flush_noZero {value : Nat} {c : Char} {o : List Char} {s' : State} (hvalue : value ≠ 0)
    (h : flush value c = some (o, s')) :
    ∃ o', textStep c = some (o', s') ∧ ('\x00' ∉ o' → '\x00' ∉ o) := by
  obtain ⟨hlt, o', rfl, hstep⟩ := flush_eq_some h
  exact ⟨o', hstep, fun ho =>
    List.not_mem_cons_of_ne_of_not_mem (ofNat_ne_zero hlt hvalue).symm ho⟩

theorem step_noZero {s s' : State} {c : Char} {o : List Char} (hs : NoZero s)
    (h : step s c = some (o, s')) :
    (o = [] ∧ NoZero s') ∨ ∃ o', textStep c = some (o', s') ∧ ('\x00' ∉ o' → '\x00' ∉ o) := by
  cases s with
  | text => exact .inr ⟨o, h, id⟩
  | escape => exact hs.elim
  | octal value more =>
      cases more with
      | zero => exact .inr (flush_noZero hs h)
      | succ more =>
          rw [step] at h
          split at h
          · cases h
            have hvalue : value ≠ 0 := hs
            exact .inl ⟨rfl, show 8 * value + _ ≠ 0 by omega⟩
          · exact .inr (flush_noZero hs h)
  | hexStart => exact hs.elim
  | hex value => exact hs.elim
  | closed => cases h

/-- After a backslash an escape sequence has been begun. -/
theorem step_backslash_noZero {s s' : State} {o : List Char} (hs : NoZero s)
    (h : step s '\\' = some (o, s')) : s' = .escape ∧ '\x00' ∉ o := by
  rcases step_backslash h with ⟨rfl, -⟩ | ⟨rfl, -, -⟩
  · rcases step_noZero hs h with ⟨-, hno⟩ | ⟨o', hstep, ho⟩
    · exact hno.elim
    · cases hstep
      exact ⟨rfl, ho (by simp)⟩
  · exact hs.elim

theorem readChar_noZero {s s' : State} {c : Char} {o : List Char} (hs : NoZero s)
    (hc : c ≠ '\\' ∧ c ≠ '\x00') (h : readChar s c = some (o, s')) :
    '\x00' ∉ o ∧ NoZero s' := by
  have hescaped : ∀ d e, simpleEscape d = some e → e ≠ '\x00' →
      scan step s ['\\', d] = some (o, s') → '\x00' ∉ o ∧ NoZero s' := by
    intro d e hd he hscan
    obtain ⟨o₁, s₁, o₂, hbackslash, hrest, rfl⟩ := scan_cons_eq_some.mp hscan
    obtain ⟨rfl, ho₁⟩ := step_backslash_noZero hs hbackslash
    rw [scan_singleton, step, hd] at hrest
    cases hrest
    exact ⟨by simp [ho₁, he.symm], trivial⟩
  by_cases hquote : c = '"'
  · rw [readChar, literalChar, if_pos hquote] at h
    exact hescaped '"' '"' rfl (by decide) h
  · by_cases hnewline : c = '\n'
    · rw [readChar, literalChar, if_neg hquote, if_pos hnewline] at h
      exact hescaped 'n' '\n' rfl (by decide) h
    · rw [readChar_other hquote hnewline] at h
      rcases step_noZero hs h with ⟨rfl, hs'⟩ | ⟨o', hstep, ho⟩
      · exact ⟨List.not_mem_nil, hs'⟩
      · rw [textStep, if_neg hquote, if_neg hc.1] at hstep
        split at hstep
        · cases hstep
        · cases hstep
          exact ⟨ho (by simpa using hc.2.symm), trivial⟩

theorem readsNoZero_text {cs : List Char} (hbackslash : '\\' ∉ cs) (hnul : '\x00' ∉ cs) :
    ReadsNoZero cs := by
  intro s o s' hs h
  have hkeeps := @scan_keeps _ _ _ readChar s s' cs o NoZero (fun d => d ≠ '\x00')
    (fun c hc t o' t' ht hstep => by
      have hne : c ≠ '\\' ∧ c ≠ '\x00' :=
        ⟨fun heq => hbackslash (heq ▸ hc), fun heq => hnul (heq ▸ hc)⟩
      obtain ⟨ho, ht'⟩ := readChar_noZero ht hne hstep
      exact ⟨fun d hd heq => ho (heq ▸ hd), ht'⟩) hs h
  exact ⟨fun hmem => hkeeps.1 _ hmem rfl, hkeeps.2⟩

/-- The escapes that `%S` writes, all of them decimal or with a letter. -/
theorem escape_noZero : ∀ n < 256, n ≠ 0 → ¬ PlainChar (Char.ofNat n) →
    (scan readChar .escape (charEscaped (Char.ofNat n)).tail).all
      (fun r => '\x00' ∉ r.1 ∧ NoZero r.2) = true := by
  decide +kernel

theorem readsNoZero_escaped {cs : List Char} (h : ∀ c ∈ cs, c ≠ '\x00' ∧ c.toNat < 256) :
    ReadsNoZero (cs.flatMap charEscaped) := by
  induction cs with
  | nil => exact readsNoZero_text (by simp) (by simp)
  | cons c cs ih =>
      obtain ⟨⟨hnul, hlt⟩, hcs⟩ := List.forall_mem_cons.mp h
      refine ReadsNoZero.append ?_ (ih hcs)
      rcases charEscaped_cases c with ⟨hc, hplain⟩ | ⟨⟨d, ds, hc, -⟩, -, hplain⟩
      · rw [hc]
        exact readsNoZero_text (by simpa using hplain.2.2.symm) (by simpa using hnul.symm)
      · intro s o s' hs hscan
        have hzero : c.toNat ≠ 0 := fun h0 => hnul (Char.toNat_inj.mp h0)
        have hrest := escape_noZero c.toNat hlt hzero
        rw [Char.ofNat_toNat, hc] at hrest
        have hafter := hrest hplain
        rw [hc] at hscan
        obtain ⟨o₁, s₁, o₂, hbackslash, hscan, rfl⟩ := scan_cons_eq_some.mp hscan
        rw [readChar_other (by decide) (by decide)] at hbackslash
        obtain ⟨rfl, ho₁⟩ := step_backslash_noZero hs hbackslash
        rw [List.tail_cons, hscan] at hafter
        obtain ⟨ho₂, hs'⟩ : '\x00' ∉ o₂ ∧ NoZero s' := by simpa using hafter
        exact ⟨fun hmem => (List.mem_append.mp hmem).elim ho₁ ho₂, hs'⟩

theorem readsNoZero_quoted {name : String} (h : IsCString name) :
    ReadsNoZero (quoted name).toList := by
  rw [quoted_toList]
  have hquote : ReadsNoZero ['"'] := readsNoZero_text (by decide) (by decide)
  exact hquote.append ((readsNoZero_escaped h).append hquote)

theorem decode_noZero {s : String} {d : List Char} (hs : ReadsNoZero s.toList)
    (h : decode (cstring s).toList = some d) : '\x00' ∉ d := by
  obtain ⟨o₁, s₁, o₂, hscan, hclose, rfl⟩ := decode_cstring.mp h
  obtain ⟨ho₁, hs₁⟩ := hs .text o₁ s₁ trivial hscan
  rcases step_noZero hs₁ hclose with ⟨rfl, -⟩ | ⟨o', hstep, ho₂⟩
  · simpa using ho₁
  · cases hstep
    exact fun hmem => (List.mem_append.mp hmem).elim ho₁ (ho₂ List.not_mem_nil)

/-- A line with names before its conversion, up to the quote behind the last. -/
theorem prints_named {x y : List Char} {before after : String} {a : CArg}
    (hbefore : before.toList = x ++ '"' :: y) (hx : NoSplice x)
    (hy : '\\' ∉ y ∧ '%' ∉ y) (hafter : '\\' ∉ after.toList ∧ '%' ∉ after.toList)
    (ha : IsConversion a.conversion.toList) (hsafe : '\x00' ∉ before.toList ∧ '\r' ∉ before.toList)
    (hsafe' : '\x00' ∉ after.toList ∧ '\r' ∉ after.toList) (hzero : ReadsNoZero before.toList) :
    (Line.printf [.text before, .arg a, .text after]).Prints P := by
  obtain ⟨hbackslash, hnulConversion, -⟩ := isConversion_chars ha
  have hsound : ∀ chunk ∈ [Chunk.text before, .arg a, .text after], chunk.Sound := by
    simp [Chunk.Sound, hsafe, hsafe', ha]
  refine ⟨run_printf_kept P hsound, fun o ho => ?_⟩
  have hformat : [Chunk.text before, .arg a, .text after].flatMap Chunk.format =
      x ++ '"' :: (y ++ '%' :: a.conversion.toList ++ after.toList) := by
    simp [Chunk.format, hbefore]
  rw [Line.statement, hformat, Statement.run] at ho
  obtain ⟨d, hd, hprintf⟩ := Option.bind_eq_some_iff.mp ho
  have htext := @String.toList_ofList
    (x ++ '"' :: (y ++ '%' :: a.conversion.toList ++ after.toList))
  obtain ⟨x', rfl, hlen, hplain, hshort⟩ := decode_at_quote htext
    (by simp [hy.1, hafter.1, hbackslash]) (by simp) hd
  have hd0 : '\x00' ∉ x' := by
    have hreads : ReadsNoZero (x ++ '"' :: (y ++ '%' :: a.conversion.toList ++ after.toList)) := by
      have hrest : ReadsNoZero ('%' :: a.conversion.toList ++ after.toList) :=
        readsNoZero_text (by simp [hbackslash, hafter.1]) (by simp [hnulConversion, hsafe'.1])
      have happend := hzero.append hrest
      rw [hbefore] at happend
      simpa using happend
    rw [← htext] at hreads
    exact fun hmem => decode_noZero hreads hd (List.mem_append_left _ hmem)
  have hy0 : '\x00' ∉ y := fun hmem =>
    hsafe.1 (hbefore ▸ List.mem_append_right x (List.mem_cons_of_mem _ hmem))
  obtain ⟨x'', rfl, hlen', hshort'⟩ :=
    printf_at_quote P hd0 ⟨hy.2, hy0⟩ ha ⟨hafter.2, hsafe'.1⟩ hprintf
  have hintended : (Line.printf [.text before, .arg a, .text after]).intended P =
      x ++ '"' :: (y ++ P.text a ++ after.toList) := by
    simp [Line.intended, hbefore]
  rw [hintended]
  simp only [List.length_append, List.length_cons]
  refine ⟨by omega, fun hle => ?_⟩
  have hxkept : '\\' ∉ x := fun hmem => absurd (hshort hx hmem) (by omega)
  have hpercent : '%' ∉ x := fun hmem =>
    absurd (hshort' ((hplain hxkept).symm ▸ hmem)) (by omega)
  have hkept : (Chunk.text before).Kept := by
    simp [Chunk.Kept, hbefore, hxkept, hpercent, hy]
  simpa [Line.Kept, Chunk.Kept] using ⟨hkept, hafter⟩

/-! ### Programs -/

theorem run_cons_eq_some {s : Statement} {program : List Statement} {o : List Char} :
    run P (s :: program) = some o ↔
      ∃ o₁ o₂, s.run P = some o₁ ∧ run P program = some o₂ ∧ o = o₁ ++ o₂ := by
  rw [run, run, List.mapM_cons]
  cases s.run P with
  | none => simp
  | some o₁ =>
      cases program.mapM (Statement.run P) with
      | none => simp
      | some os => simp [eq_comm]

theorem run_kept {lines : List Line} (h : ∀ line ∈ lines, line.Prints P)
    (hkept : ∀ line ∈ lines, line.Kept) :
    run P (lines.map Line.statement) = some (lines.flatMap (Line.intended P)) := by
  induction lines with
  | nil => rfl
  | cons line lines ih =>
      obtain ⟨hline, hlines⟩ := List.forall_mem_cons.mp h
      obtain ⟨hk, hks⟩ := List.forall_mem_cons.mp hkept
      exact (run_cons_eq_some P).mpr ⟨_, _, hline.prints hk, ih hlines hks, rfl⟩

theorem run_length {lines : List Line} {o : List Char} (h : ∀ line ∈ lines, line.Prints P)
    (ho : run P (lines.map Line.statement) = some o) :
    o.length ≤ (lines.flatMap (Line.intended P)).length ∧
      ((lines.flatMap (Line.intended P)).length ≤ o.length → ∀ line ∈ lines, line.Kept) := by
  induction lines generalizing o with
  | nil =>
      cases ho
      exact ⟨Nat.le_refl _, nofun⟩
  | cons line lines ih =>
      obtain ⟨hline, hlines⟩ := List.forall_mem_cons.mp h
      obtain ⟨o₁, o₂, ho₁, ho₂, rfl⟩ := (run_cons_eq_some P).mp ho
      obtain ⟨hle₁, hkept₁⟩ := hline.shorter o₁ ho₁
      obtain ⟨hle₂, hkept₂⟩ := ih hlines ho₂
      rw [List.flatMap_cons, List.length_append, List.length_append]
      refine ⟨by omega, fun hle => List.forall_mem_cons.mpr ⟨hkept₁ ?_, hkept₂ ?_⟩⟩
      · omega
      · omega

/-- The program prints the text that is meant only line by line. -/
theorem run_eq_some_iff {lines : List Line} (h : ∀ line ∈ lines, line.Prints P) :
    run P (lines.map Line.statement) = some (lines.flatMap (Line.intended P)) ↔
      ∀ line ∈ lines, line.Kept :=
  ⟨fun ho => (run_length P h ho).2 (Nat.le_refl _), run_kept P h⟩

end CtypesCbuf.Cbuf.StructsProgram
