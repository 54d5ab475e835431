import CtypesCbuf.Cbuf.Path

/-!
The strings that are long identifiers and the strings that `path_of_string`
accepts. The expressions of `is_uident` and `is_ident` are compared with the
start of a component only, and the splitter drops a dot at either end.
-/

namespace CtypesCbuf.Cbuf

open Ctypes CLanguage Stubs

def formatPath (p : Path) : String := String.intercalate "." p

/-! ### Long identifiers -/

/-- The class `[a-zA-Z0-9_]`. -/
def IsPathChar (c : Char) : Prop := c.isAlphanum = true ∨ c = '_'

/-- All of the string matches `[A-Z][a-zA-Z0-9_]*`. -/
def MatchesUident (s : String) : Prop :=
  ∃ c cs, s.toList = c :: cs ∧ c.isUpper = true ∧ ∀ d ∈ cs, IsPathChar d

/-- All of the string matches `[A-Za-z_][a-zA-Z0-9_]*`. -/
def MatchesIdent (s : String) : Prop :=
  ∃ c cs, s.toList = c :: cs ∧ (c.isAlpha = true ∨ c = '_') ∧ ∀ d ∈ cs, IsPathChar d

/-- Module names separated by dots, and an identifier after them. -/
def IsLongIdent (s : String) : Prop :=
  ∃ modules l, (∀ u ∈ modules, MatchesUident u) ∧ MatchesIdent l ∧
    s = formatPath (modules ++ [l])

/-- `path_of_string` decides what a long identifier is and loses nothing. -/
def PathReads (s : String) : Prop :=
  ((∃ p, pathOfString s = .ok p) ↔ IsLongIdent s) ∧
    ∀ p, pathOfString s = .ok p → formatPath p = s

theorem not_isPathChar_dot : ¬ IsPathChar '.' := by
  rintro (h | h)
  · cases h
  · cases h

theorem matchesUident_iff {s : String} :
    MatchesUident s ↔ isUident s = true ∧ ∀ c ∈ s.toList, IsPathChar c := by
  constructor
  · rintro ⟨c, cs, hs, hc, hcs⟩
    refine ⟨by simpa [isUident, hs] using hc, ?_⟩
    rw [hs]
    have halpha : c.isAlpha = true := by
      show (c.isUpper || c.isLower) = true
      rw [hc, Bool.true_or]
    exact List.forall_mem_cons.mpr ⟨.inl (by simp [Char.isAlphanum, halpha]), hcs⟩
  · rintro ⟨hu, hs⟩
    rw [isUident] at hu
    split at hu
    · cases hu
    · rename_i c cs hcs
      exact ⟨c, cs, hcs, hu, fun d hd => hs d (hcs ▸ List.mem_cons_of_mem c hd)⟩

theorem matchesIdent_iff {s : String} :
    MatchesIdent s ↔ isIdent s = true ∧ ∀ c ∈ s.toList, IsPathChar c := by
  constructor
  · rintro ⟨c, cs, hs, hc, hcs⟩
    refine ⟨by simpa [isIdent, hs] using hc, ?_⟩
    rw [hs]
    exact List.forall_mem_cons.mpr ⟨hc.imp_left fun h => by simp [Char.isAlphanum, h], hcs⟩
  · rintro ⟨hu, hs⟩
    rw [isIdent] at hu
    split at hu
    · cases hu
    · rename_i c cs hcs
      exact ⟨c, cs, hcs, by simpa using hu, fun d hd => hs d (hcs ▸ List.mem_cons_of_mem c hd)⟩

theorem isValidPath_iff {p : Path} : isValidPath p = true ↔
    ∃ modules l, p = modules ++ [l] ∧ (∀ u ∈ modules, isUident u = true) ∧ isIdent l = true := by
  induction p using isValidPath.induct with
  | case1 => simp [isValidPath]
  | case2 l =>
      constructor
      · intro h
        exact ⟨[], l, rfl, by simp, h⟩
      · rintro ⟨modules, l', h, -, hl⟩
        obtain ⟨-, rfl⟩ : modules = [] ∧ l = l' := by
          cases modules with
          | nil => exact ⟨rfl, List.singleton_inj.mp h⟩
          | cons u us => simp at h
        exact hl
  | case3 u p hne ih =>
      rw [isValidPath, Bool.and_eq_true, ih]
      · constructor
        · rintro ⟨hu, modules, l, rfl, hus, hl⟩
          exact ⟨u :: modules, l, rfl, List.forall_mem_cons.mpr ⟨hu, hus⟩, hl⟩
        · rintro ⟨modules, l, h, hus, hl⟩
          cases modules with
          | nil => exact absurd (List.cons.inj h).2 hne
          | cons u' us =>
              obtain ⟨rfl, rfl⟩ := List.cons.inj h
              obtain ⟨hu, hus⟩ := List.forall_mem_cons.mp hus
              exact ⟨hu, us, l, rfl, hus, hl⟩
      · exact hne

/-! ### The components of a string -/

def dropEndDot (cs : List Char) : List Char :=
  if cs.getLast? = some '.' then cs.dropLast else cs

/-- The characters without a dot at the start and without one at the end. -/
def dropDots (s : String) : List Char :=
  dropEndDot (if s.toList.head? = some '.' then s.toList.tail else s.toList)

def components (s : String) : List String := ((dropDots s).splitOn '.').map String.ofList

theorem dropEndDot_cons {c : Char} {cs : List Char} (h : c = '.' → cs ≠ []) :
    dropEndDot (c :: cs) = c :: dropEndDot cs := by
  cases cs with
  | nil =>
      have hc : c ≠ '.' := fun hc => h hc rfl
      simp [dropEndDot, hc]
  | cons d cs =>
      rw [dropEndDot, dropEndDot, List.getLast?_cons_cons]
      split <;> rfl

theorem splitFrom_eq (piece cs : List Char) : splitFrom piece cs =
    ((dropEndDot cs).splitOnPPrepend (fun c => c == '.') piece).map String.ofList := by
  induction cs generalizing piece with
  | nil => rfl
  | cons c cs ih =>
      rw [splitFrom]
      by_cases hc : c = '.'
      · rw [if_pos hc]
        cases cs with
        | nil => simp [hc, dropEndDot]
        | cons d cs =>
            rw [dropEndDot_cons (by simp), List.splitOnPPrepend_cons_pos (by simp [hc]),
              List.map_cons, List.isEmpty_cons, if_neg Bool.false_ne_true, ih,
              List.splitOnPPrepend_nil_right]
      · rw [if_neg hc, ih, dropEndDot_cons fun h => absurd h hc,
          List.splitOnPPrepend_cons_neg (by simp [hc])]

/-- The splitter returns the components, but none where all are empty. -/
theorem split_eq (s : String) :
    split s = components s ∨ split s = [] ∧ components s = [""] := by
  rw [split, components, dropDots]
  cases hs : s.toList with
  | nil => exact .inr ⟨rfl, rfl⟩
  | cons c cs =>
      by_cases hc : c = '.'
      · cases cs with
        | nil => exact .inr ⟨by simp [hc], by simp [hc, dropEndDot]⟩
        | cons d cs =>
            refine .inl ?_
            simp only [hc, if_true, List.isEmpty_cons, Bool.false_eq_true, if_false, splitFrom_eq]
            rfl
      · refine .inl ?_
        simp only [hc, if_false, splitFrom_eq, List.head?_cons, Option.some.injEq]
        rfl

theorem isValidPath_split (s : String) : isValidPath (split s) = isValidPath (components s) := by
  rcases split_eq s with h | ⟨h, hc⟩
  · rw [h]
  · rw [h, hc]
    rfl

theorem pathOfString_eq_ok {s : String} {p : Path} : pathOfString s = .ok p ↔
    isValidPath (components s) = true ∧ p = components s := by
  rw [pathOfString, isValidPath_split]
  split
  · rename_i hvalid
    have hsplit : split s = components s := (split_eq s).resolve_right fun h => by
      obtain ⟨_, hc⟩ := h
      rw [hc] at hvalid
      cases hvalid
    rw [hsplit, Except.ok.injEq]
    exact ⟨fun h => ⟨hvalid, h.symm⟩, fun h => h.2.symm⟩
  · rename_i hvalid
    exact ⟨(fun h => by cases h), fun h => absurd h.1 hvalid⟩

/-! ### What is accepted -/

/-- Letters, digits, underscores and dots, the dots between others. -/
structure OnlyPathChars (s : String) : Prop where
  chars : ∀ c ∈ s.toList, IsPathChar c ∨ c = '.'
  head : s.toList.head? ≠ some '.'
  last : s.toList.getLast? ≠ some '.'

theorem mem_intercalate_dot {ls : List (List Char)} {c : Char} (hc : c ≠ '.') :
    c ∈ List.intercalate ['.'] ls ↔ ∃ l ∈ ls, c ∈ l := by
  induction ls with
  | nil => simp
  | cons l ls ih =>
      cases ls with
      | nil => simp
      | cons l' ls =>
          rw [List.intercalate_cons_cons, List.mem_append, List.mem_append, ih]
          simp [hc]

theorem head?_intercalate {ls : List (List Char)} (hls : ∀ l ∈ ls, l ≠ [] ∧ '.' ∉ l) :
    (List.intercalate ['.'] ls).head? ≠ some '.' := by
  cases ls with
  | nil => simp
  | cons l ls =>
      obtain ⟨⟨hne, hdot⟩, -⟩ := List.forall_mem_cons.mp hls
      have hhead : l.head? ≠ some '.' := fun h => hdot (List.mem_of_mem_head? h)
      cases ls with
      | nil => simpa using hhead
      | cons l' ls =>
          rw [List.intercalate_cons_cons, List.append_assoc, List.head?_append_of_ne_nil _ hne]
          exact hhead

theorem getLast?_intercalate {ls : List (List Char)} (hls : ∀ l ∈ ls, l ≠ [] ∧ '.' ∉ l) :
    (List.intercalate ['.'] ls).getLast? ≠ some '.' := by
  induction ls with
  | nil => simp
  | cons l ls ih =>
      obtain ⟨⟨hne, hdot⟩, hls⟩ := List.forall_mem_cons.mp hls
      cases ls with
      | nil =>
          have hlast : l.getLast? ≠ some '.' := fun h => hdot (List.mem_of_getLast? h)
          simpa using hlast
      | cons l' ls =>
          have hrest : List.intercalate ['.'] (l' :: ls) ≠ [] := by
            have hne' : l' ≠ [] := (hls l' List.mem_cons_self).1
            cases ls with
            | nil => simpa using hne'
            | cons l'' ls => simp [List.intercalate_cons_cons]
          rw [List.intercalate_cons_cons, List.getLast?_append_of_ne_nil _ hrest]
          exact ih hls

theorem not_mem_of_mem_splitOn {cs l : List Char} (h : l ∈ cs.splitOn '.') : '.' ∉ l := by
  induction cs generalizing l with
  | nil =>
      obtain rfl : l = [] := by simpa using h
      exact List.not_mem_nil
  | cons c cs ih =>
      rw [List.splitOn_cons_eq_if_modifyHead] at h
      obtain ⟨l', ls, hls⟩ := List.exists_cons_of_ne_nil (List.splitOn_ne_nil '.' cs)
      rw [hls] at ih h
      split at h
      · rcases List.mem_cons.mp h with rfl | h
        · exact List.not_mem_nil
        · exact ih h
      · rename_i hc
        have hc : c ≠ '.' := by simpa using hc
        rcases List.mem_cons.mp h with rfl | h
        · exact List.not_mem_cons_of_ne_of_not_mem hc.symm (ih List.mem_cons_self)
        · exact ih (List.mem_cons_of_mem l' h)

section

variable {s : String}

theorem OnlyPathChars.dropDots_eq (h : OnlyPathChars s) : dropDots s = s.toList := by
  rw [dropDots, if_neg h.head, dropEndDot, if_neg h.last]

/-- Every component is made of the characters of the string. -/
theorem OnlyPathChars.mem_components (h : OnlyPathChars s) {l : String}
    (hl : l ∈ components s) : ∀ c ∈ l.toList, IsPathChar c := by
  rw [components, h.dropDots_eq] at hl
  obtain ⟨cs, hcs, rfl⟩ := List.mem_map.mp hl
  rw [String.toList_ofList]
  intro c hc
  have hdot : c ≠ '.' := fun hdot => not_mem_of_mem_splitOn hcs (hdot ▸ hc)
  have hmem : c ∈ s.toList := by
    rw [← @List.intercalate_splitOn _ s.toList _ _ '.']
    exact (mem_intercalate_dot hdot).mpr ⟨cs, hcs, hc⟩
  exact (h.chars c hmem).resolve_right hdot

theorem OnlyPathChars.formatPath_components (h : OnlyPathChars s) :
    formatPath (components s) = s := by
  have hlists : (components s).map String.toList = s.toList.splitOn '.' := by
    rw [components, h.dropDots_eq, List.map_map]
    exact (List.map_congr_left fun _ _ => String.toList_ofList).trans (List.map_id _)
  refine String.toList_inj.mp ?_
  rw [formatPath, String.toList_intercalate, hlists]
  exact List.intercalate_splitOn '.'

end

/-- Components put together with dots between them are the components of
what they make. -/
theorem components_formatPath {p : Path} (hne : p ≠ [])
    (hp : ∀ l ∈ p, l ≠ "" ∧ ∀ c ∈ l.toList, IsPathChar c) :
    OnlyPathChars (formatPath p) ∧ components (formatPath p) = p := by
  have hdot : ∀ cs ∈ p.map String.toList, cs ≠ [] ∧ '.' ∉ cs := by
    intro cs hcs
    obtain ⟨l, hl, rfl⟩ := List.mem_map.mp hcs
    exact ⟨fun h => (hp l hl).1 (String.toList_eq_nil_iff.mp h),
      fun h => not_isPathChar_dot ((hp l hl).2 '.' h)⟩
  have hlist : (formatPath p).toList = List.intercalate ['.'] (p.map String.toList) :=
    String.toList_intercalate
  have honly : OnlyPathChars (formatPath p) := by
    refine ⟨?_, ?_, ?_⟩
    · intro c hc
      refine or_iff_not_imp_right.mpr fun hcd => ?_
      rw [hlist, mem_intercalate_dot hcd] at hc
      obtain ⟨cs, hcs, hc⟩ := hc
      obtain ⟨l, hl, rfl⟩ := List.mem_map.mp hcs
      exact (hp l hl).2 c hc
    · rw [hlist]
      exact head?_intercalate hdot
    · rw [hlist]
      exact getLast?_intercalate hdot
  refine ⟨honly, ?_⟩
  rw [components, honly.dropDots_eq, hlist,
    List.splitOn_intercalate '.' (fun cs hcs => (hdot cs hcs).2) (by simpa using hne), List.map_map]
  exact (List.map_congr_left fun _ _ => String.ofList_toList).trans (List.map_id _)

/-- A long identifier has no other characters, and its components begin as
the two expressions say. -/
theorem isLongIdent_iff {s : String} :
    IsLongIdent s ↔ isValidPath (components s) = true ∧ OnlyPathChars s := by
  constructor
  · rintro ⟨modules, l, hmodules, hl, rfl⟩
    have hp : ∀ l' ∈ modules ++ [l], l' ≠ "" ∧ ∀ c ∈ l'.toList, IsPathChar c := by
      intro l' hl'
      rcases List.mem_append.mp hl' with hl' | hl'
      · have hu := matchesUident_iff.mp (hmodules l' hl')
        refine ⟨?_, hu.2⟩
        rintro rfl
        cases hu.1
      · obtain rfl := List.mem_singleton.mp hl'
        have hi := matchesIdent_iff.mp hl
        refine ⟨?_, hi.2⟩
        rintro rfl
        cases hi.1
    obtain ⟨honly, hcomponents⟩ := components_formatPath (by simp) hp
    refine ⟨?_, honly⟩
    rw [hcomponents]
    exact isValidPath_iff.mpr ⟨modules, l, rfl,
      fun u hu => (matchesUident_iff.mp (hmodules u hu)).1, (matchesIdent_iff.mp hl).1⟩
  · rintro ⟨hvalid, honly⟩
    obtain ⟨modules, l, hp, hmodules, hl⟩ := isValidPath_iff.mp hvalid
    have hchars : ∀ l' ∈ modules ++ [l], ∀ c ∈ l'.toList, IsPathChar c := fun l' hl' =>
      honly.mem_components (hp ▸ hl')
    refine ⟨modules, l, fun u hu => ?_, ?_, hp ▸ honly.formatPath_components.symm⟩
    · exact matchesUident_iff.mpr ⟨hmodules u hu, hchars u (List.mem_append_left _ hu)⟩
    · exact matchesIdent_iff.mpr ⟨hl, hchars l (by simp)⟩

/-- The components only begin as they should: a character of another class
in one of them, and a dot at either end, pass. -/
theorem pathReads_iff (s : String) :
    PathReads s ↔ isValidPath (components s) = false ∨ OnlyPathChars s := by
  constructor
  · intro h
    cases hvalid : isValidPath (components s) with
    | false => exact .inl rfl
    | true =>
        exact .inr (isLongIdent_iff.mp (h.1.mp ⟨_, pathOfString_eq_ok.mpr ⟨hvalid, rfl⟩⟩)).2
  · intro hfits
    have h : isValidPath (components s) = true → OnlyPathChars s := fun hvalid =>
      hfits.resolve_left (by rw [hvalid]; exact Bool.noConfusion)
    refine ⟨?_, ?_⟩
    · rw [isLongIdent_iff]
      constructor
      · rintro ⟨p, hp⟩
        have hvalid := (pathOfString_eq_ok.mp hp).1
        exact ⟨hvalid, h hvalid⟩
      · rintro ⟨hvalid, -⟩
        exact ⟨_, pathOfString_eq_ok.mpr ⟨hvalid, rfl⟩⟩
    · intro p hp
      obtain ⟨hvalid, rfl⟩ := pathOfString_eq_ok.mp hp
      exact (h hvalid).formatPath_components

/-- A symbol with a space and a dot in front of it is taken for a path. -/
theorem dotted_not_pathReads : ¬ PathReads ".a b" := by
  rintro ⟨-, h⟩
  have hread : pathOfString ".a b" = .ok ["a b"] := by decide
  exact absurd (h _ hread) (by decide)

end CtypesCbuf.Cbuf
