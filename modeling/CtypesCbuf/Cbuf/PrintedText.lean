import CtypesCbuf.Cbuf.StructsProgram

/-!
What the C program of `Cbuf_structs` prints. `cstring` escapes quotes and
newlines but no backslashes, so that a backslash in the text takes the
character after it along. Then something gets lost: no text is printed that is
as long as it should be. A carriage return, which it does not escape either,
ends the line in the middle of the literal.
-/

namespace CtypesCbuf.Cbuf.StructsProgram

open CStrings Transducer
open Ctypes

/-! ### Literals -/

/-- What `cstring` writes for a character. -/
def literalChar (c : Char) : List Char :=
  if c = '"' then ['\\', '"'] else if c = '\n' then ['\\', 'n'] else [c]

theorem cstring_toList (s : String) :
    (cstring s).toList = '"' :: (s.toList.flatMap literalChar ++ ['"']) := by
  have hchar : ∀ c : Char, (if c = '"' then "\\\"".toList else [c]).flatMap
      (fun d => if d = '\n' then "\\n".toList else [d]) = literalChar c := by
    intro c
    rw [literalChar]
    split
    · rfl
    · simp
  simp only [cstring, mappings, List.foldl_cons, List.foldl_nil, globalReplace,
    String.toList_append, String.toList_ofList, List.flatMap_assoc, hchar]
  rfl

def readChar (s : State) (c : Char) : Option (List Char × State) := scan step s (literalChar c)

theorem decode_cstring {s : String} {o : List Char} : decode (cstring s).toList = some o ↔
    ∃ o₁ s₁ o₂, scan readChar .text s.toList = some (o₁, s₁) ∧
      step s₁ '"' = some (o₂, .closed) ∧ o = o₁ ++ o₂ := by
  rw [cstring_toList, decode_eq_some, scan_append_eq_some, scan_flatMap]
  simp only [scan_singleton]
  rfl

theorem readChar_text {c : Char} (hc : c ≠ '\\') (hreturn : c ≠ '\r') :
    readChar .text c = some ([c], .text) := by
  rw [readChar, literalChar]
  split
  · rename_i h
    rw [h]
    rfl
  · split
    · rename_i h
      rw [h]
      rfl
    · simp [scan, step, textStep, *]

/-- Text without backslashes and carriage returns is read as it is. -/
theorem scan_text {cs : List Char} (h : '\\' ∉ cs) (hreturn : '\r' ∉ cs) :
    scan readChar .text cs = some (cs, .text) :=
  scan_verbatim fun _ hc => readChar_text (fun heq => h (heq ▸ hc)) fun heq => hreturn (heq ▸ hc)

/-- A carriage return is not read at all. -/
theorem scan_text_eq_some {cs o : List Char} {s : State} (h : '\\' ∉ cs)
    (hscan : scan readChar .text cs = some (o, s)) : '\r' ∉ cs ∧ o = cs ∧ s = .text := by
  have hreturn : '\r' ∉ cs := by
    intro hmem
    obtain ⟨u, v, rfl, hu⟩ := List.eq_append_cons_of_mem hmem
    have hplain : '\\' ∉ u := fun hu' => h (List.mem_append_left _ hu')
    rw [scan_append (scan_text hplain hu)] at hscan
    cases hscan
  rw [scan_text h hreturn] at hscan
  cases hscan
  exact ⟨hreturn, rfl, rfl⟩

/-- Whether the backslash is one of `cstring` depends on what came before. -/
theorem step_backslash {s s' : State} {o : List Char} (h : step s '\\' = some (o, s')) :
    (s' = .escape ∧ o.length = s.pending) ∨ (s = .escape ∧ s' = .text ∧ o = ['\\']) := by
  have hflush : ∀ value, flush value '\\' = some (o, s') → s' = .escape ∧ o.length = 1 := by
    intro value hf
    obtain ⟨-, o', rfl, hstep⟩ := flush_eq_some hf
    cases hstep
    exact ⟨rfl, rfl⟩
  cases s with
  | text =>
      cases h
      exact .inl ⟨rfl, rfl⟩
  | escape =>
      cases h
      exact .inr ⟨rfl, rfl, rfl⟩
  | octal value more =>
      cases more with
      | zero => exact .inl (hflush value h)
      | succ more => exact .inl (hflush value h)
  | hexStart => cases h
  | hex value => exact .inl (hflush value h)
  | closed => cases h

theorem readChar_newline {s s' : State} {o : List Char} (h : readChar s '\n' = some (o, s')) :
    s' = .text ∧ o.length = 1 + s.pending ∧ (s = .escape → o = ['\\', 'n']) := by
  obtain ⟨o₁, s₁, _, h₁, hn, rfl⟩ := scan_cons_eq_some.mp h
  rcases step_backslash h₁ with ⟨rfl, hlen⟩ | ⟨rfl, rfl, rfl⟩
  · cases hn
    refine ⟨rfl, by simp [hlen, Nat.add_comm], ?_⟩
    rintro rfl
    cases h₁
  · cases hn
    exact ⟨rfl, rfl, fun _ => rfl⟩

theorem readChar_quote {s s' : State} {o : List Char} (h : readChar s '"' = some (o, s')) :
    (s' = .text ∧ ∃ o', o = o' ++ ['"'] ∧ o'.length = s.pending) ∨
      (s' = .closed ∧ s = .escape ∧ o = ['\\']) := by
  obtain ⟨o₁, s₁, _, h₁, hn, rfl⟩ := scan_cons_eq_some.mp h
  rcases step_backslash h₁ with ⟨rfl, hlen⟩ | ⟨rfl, rfl, rfl⟩
  · cases hn
    exact .inl ⟨rfl, o₁, rfl, hlen⟩
  · cases hn
    exact .inr ⟨rfl, rfl, rfl⟩

theorem readChar_other {c : Char} (hquote : c ≠ '"') (hnewline : c ≠ '\n') (s : State) :
    readChar s c = step s c := by
  rw [readChar, literalChar, if_neg hquote, if_neg hnewline, scan_singleton]

/-- A character of the text is worth at most one byte, two-character escapes
included. -/
theorem readChar_length {s s' : State} {c : Char} {o : List Char}
    (h : readChar s c = some (o, s')) : o.length + s'.pending ≤ 1 + s.pending := by
  by_cases hquote : c = '"'
  · subst hquote
    rcases readChar_quote h with ⟨rfl, o', rfl, hlen⟩ | ⟨rfl, rfl, rfl⟩
    · simp [State.pending, hlen, Nat.add_comm]
    · simp [State.pending]
  · by_cases hnewline : c = '\n'
    · subst hnewline
      obtain ⟨rfl, hlen, -⟩ := readChar_newline h
      exact Nat.le_of_eq hlen
    · rw [readChar_other hquote hnewline] at h
      exact step_length h

/-- A backslash and the character that it takes along come to one byte. -/
theorem readChar_escape_length {s' : State} {c : Char} {o : List Char} (hc : c ≠ '\n')
    (h : readChar .escape c = some (o, s')) : o.length + s'.pending ≤ 1 := by
  by_cases hquote : c = '"'
  · subst hquote
    cases h
    simp [State.pending]
  · rw [readChar_other hquote hc] at h
    exact step_escape_length h

theorem scan_readChar_length {s s' : State} {cs o : List Char}
    (h : scan readChar s cs = some (o, s')) : o.length + s'.pending ≤ cs.length + s.pending :=
  scan_length_le (fun _ _ _ _ => readChar_length) h

/-- What comes after the first backslash is read as the rest of an escape. -/
theorem scan_backslash {s' : State} {u v o : List Char} (hu : '\\' ∉ u)
    (h : scan readChar .text (u ++ '\\' :: v) = some (o, s')) :
    ∃ o', o = u ++ o' ∧ scan readChar .escape v = some (o', s') := by
  obtain ⟨_, _, _, htext, hscan, rfl⟩ := scan_append_eq_some.mp h
  obtain ⟨-, rfl, rfl⟩ := scan_text_eq_some hu htext
  obtain ⟨_, _, o₁, hbackslash, hrest, rfl⟩ := scan_cons_eq_some.mp hscan
  cases hbackslash
  exact ⟨o₁, rfl, hrest⟩

/-- Text with a backslash: from the first one on, less is read than there was. -/
theorem scan_readChar_shorter {s' : State} {u v o : List Char} {c : Char} (hu : '\\' ∉ u)
    (hc : c ≠ '\n') (h : scan readChar .text (u ++ '\\' :: c :: v) = some (o, s')) :
    o.length + s'.pending < (u ++ '\\' :: c :: v).length := by
  obtain ⟨o', rfl, hrest⟩ := scan_backslash hu h
  obtain ⟨o₁, s₁, o₂, hchar, hv, rfl⟩ := scan_cons_eq_some.mp hrest
  have hlen₁ := readChar_escape_length hc hchar
  have hlen₂ := scan_readChar_length hv
  simp only [List.length_append, List.length_cons]
  omega

/-- The byte that is pending is put out before the quote at the end. -/
theorem step_close {s : State} {o : List Char} (h : step s '"' = some (o, .closed)) :
    o.length ≤ s.pending ∧ s ≠ .escape := by
  have hflush : ∀ value, flush value '"' = some (o, .closed) → o.length ≤ 1 := by
    intro value hf
    obtain ⟨-, o', rfl, hstep⟩ := flush_eq_some hf
    cases hstep
    simp
  cases s with
  | text =>
      cases h
      exact ⟨Nat.le_refl _, nofun⟩
  | escape => cases h
  | octal value more =>
      cases more with
      | zero => exact ⟨hflush value h, nofun⟩
      | succ more => exact ⟨hflush value h, nofun⟩
  | hexStart => cases h
  | hex value => exact ⟨hflush value h, nofun⟩
  | closed => cases h

theorem decode_plain {s : String} (h : '\\' ∉ s.toList) (hreturn : '\r' ∉ s.toList) :
    decode (cstring s).toList = some s.toList :=
  decode_cstring.mpr ⟨s.toList, .text, [], scan_text h hreturn, rfl, (List.append_nil _).symm⟩

theorem decode_length {s : String} {o : List Char} (h : decode (cstring s).toList = some o) :
    o.length ≤ s.toList.length := by
  obtain ⟨o₁, s₁, o₂, hscan, hclose, rfl⟩ := decode_cstring.mp h
  have hlen := scan_readChar_length hscan
  have hlast := (step_close hclose).1
  rw [List.length_append]
  exact Nat.le_trans (Nat.add_le_add_left hlast _) hlen

theorem decode_shorter {s : String} {u v o : List Char} {c : Char}
    (hs : s.toList = u ++ '\\' :: c :: v) (hu : '\\' ∉ u) (hc : c ≠ '\n')
    (h : decode (cstring s).toList = some o) : o.length < s.toList.length := by
  obtain ⟨o₁, s₁, o₂, hscan, hclose, rfl⟩ := decode_cstring.mp h
  rw [hs] at hscan ⊢
  have hlen := scan_readChar_shorter hu hc hscan
  have hlast := (step_close hclose).1
  rw [List.length_append]
  exact Nat.lt_of_le_of_lt (Nat.add_le_add_left hlast _) hlen

/-- The literal is well formed, on one line, and stands for the text. -/
theorem decode_cstring_iff (s : String) :
    decode (cstring s).toList = some s.toList ↔ '\\' ∉ s.toList ∧ '\r' ∉ s.toList := by
  refine ⟨fun h => ?_, fun h => decode_plain h.1 h.2⟩
  have hbackslash : '\\' ∉ s.toList := by
    intro hmem
    obtain ⟨u, v, hs, hu⟩ := List.eq_append_cons_of_mem hmem
    by_cases hv : ∃ c v', v = c :: v' ∧ c ≠ '\n'
    · obtain ⟨c, v', rfl, hc⟩ := hv
      exact absurd (decode_shorter hs hu hc h) (Nat.lt_irrefl _)
    · obtain ⟨o₁, s₁, o₂, hscan, hclose, heq⟩ := decode_cstring.mp h
      rw [hs] at hscan heq
      obtain ⟨o', rfl, hrest⟩ := scan_backslash hu hscan
      cases v with
      | nil =>
          -- the quote at the end is taken along
          cases hrest
          exact (step_close hclose).2 rfl
      | cons c v =>
          -- the backslash of the escaped newline is taken along
          obtain rfl : c = '\n' := Classical.byContradiction fun hc => hv ⟨c, v, rfl, hc⟩
          obtain ⟨o₃, s₃, o₄, hchar, -, rfl⟩ := scan_cons_eq_some.mp hrest
          rw [(readChar_newline hchar).2.2 rfl, List.append_assoc] at heq
          have htail := List.append_cancel_left heq
          simp at htail
  obtain ⟨o₁, s₁, o₂, hscan, -, -⟩ := decode_cstring.mp h
  exact ⟨hbackslash, (scan_text_eq_some hbackslash hscan).1⟩

end CtypesCbuf.Cbuf.StructsProgram
