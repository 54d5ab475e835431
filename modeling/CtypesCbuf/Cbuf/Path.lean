import CtypesCbuf.Stubs.External

/-! Long identifiers and how they are read from strings, `Cbuf_path`. -/

namespace CtypesCbuf.Cbuf

open Ctypes CLanguage Stubs

/-- The head of the string is all that `Str.string_match` compares: the rest
of each regular expression may match the empty string. -/
def isUident (s : String) : Bool :=
  match s.toList with
  | [] => false
  | c :: _ => c.isUpper

def isIdent (s : String) : Bool :=
  match s.toList with
  | [] => false
  | c :: _ => c.isAlpha || c == '_'

def isValidPath : Path → Bool
  | [] => false
  | [l] => isIdent l
  | u :: p => isUident u && isValidPath p

/-- The pieces between dots, with the piece read so far reversed. A dot at
the end separates nothing. -/
def splitFrom : List Char → List Char → List String
  | piece, [] => [String.ofList piece.reverse]
  | piece, c :: cs =>
      if c = '.' then
        String.ofList piece.reverse :: if cs.isEmpty then [] else splitFrom [] cs
      else splitFrom (c :: piece) cs

/-- `Str.split (Str.regexp_string ".")`. A dot at the start separates nothing
either. -/
def split (s : String) : List String :=
  match s.toList with
  | [] => []
  | c :: cs =>
      if c = '.' then
        if cs.isEmpty then [] else splitFrom [] cs
      else splitFrom [] (c :: cs)

def pathOfString (s : String) : Except Exn Path :=
  let p := split s
  if isValidPath p then .ok p else .error (.invalidArg "Ctypes_ident.path_of_string")

theorem splitFrom_of_not_mem {piece cs : List Char} (h : '.' ∉ cs) :
    splitFrom piece cs = [String.ofList (piece.reverse ++ cs)] := by
  induction cs generalizing piece with
  | nil => rw [splitFrom, List.append_nil]
  | cons c cs ih =>
      have hc : c ≠ '.' := fun hc => h (hc ▸ List.mem_cons_self)
      have hcs : '.' ∉ cs := fun hcs => h (List.mem_cons_of_mem _ hcs)
      rw [splitFrom, if_neg hc, ih hcs]
      simp

/-- A string without dots is one piece. -/
theorem split_of_not_mem {s : String} (h : '.' ∉ s.toList) (hne : s ≠ "") :
    split s = [s] := by
  rw [split]
  cases hs : s.toList with
  | nil =>
      exact absurd (String.toList_inj.mp hs) hne
  | cons c cs =>
      rw [hs] at h
      have hc : c ≠ '.' := fun hc => h (hc ▸ List.mem_cons_self)
      simp only [if_neg hc]
      rw [splitFrom_of_not_mem h, List.reverse_nil, List.nil_append, ← hs,
        String.ofList_toList]

theorem mem_splitFrom {piece cs : List Char} {c : Char} (hc : c ≠ '.')
    (h : c ∈ piece ∨ c ∈ cs) : ∃ l ∈ splitFrom piece cs, c ∈ l.toList := by
  induction cs generalizing piece with
  | nil =>
      refine ⟨_, List.mem_singleton.mpr rfl, ?_⟩
      simpa using h
  | cons d cs ih =>
      rw [splitFrom]
      split
      · rename_i hd
        have hcs : c ∈ piece ∨ c ∈ cs := by
          rcases h with h | h
          · exact .inl h
          · exact .inr ((List.mem_cons.mp h).resolve_left fun hcd => hc (hcd.trans hd))
        rcases hcs with hcs | hcs
        · exact ⟨_, List.mem_cons_self, by simpa using hcs⟩
        · have hne : ¬ cs.isEmpty := by
            cases cs with
            | nil => cases hcs
            | cons d' cs => simp
          obtain ⟨l, hl, hcl⟩ := ih (.inr hcs)
          refine ⟨l, ?_, hcl⟩
          rw [if_neg hne]
          exact List.mem_cons_of_mem _ hl
      · refine ih ?_
        rcases h with h | h
        · exact .inl (List.mem_cons_of_mem _ h)
        · rcases List.mem_cons.mp h with rfl | h
          · exact .inl List.mem_cons_self
          · exact .inr h

/-- No character but the dot is lost. -/
theorem mem_split {s : String} {c : Char} (hc : c ≠ '.') (h : c ∈ s.toList) :
    ∃ l ∈ split s, c ∈ l.toList := by
  rw [split]
  cases hs : s.toList with
  | nil =>
      rw [hs] at h
      cases h
  | cons d cs =>
      rw [hs] at h
      dsimp only
      split
      · rename_i hd
        have hcs := (List.mem_cons.mp h).resolve_left fun hcd => hc (hcd.trans hd)
        cases cs with
        | nil => cases hcs
        | cons d' cs => exact mem_splitFrom hc (.inr hcs)
      · exact mem_splitFrom hc (.inr h)

theorem mem_pathOfString {s : String} {p : Path} {c : Char}
    (hp : pathOfString s = .ok p) (hc : c ≠ '.') (h : c ∈ s.toList) :
    ∃ l ∈ p, c ∈ l.toList := by
  rw [pathOfString] at hp
  split at hp
  · cases hp
    exact mem_split hc h
  · cases hp

/-! ### Names drawn from the supply -/

theorem freshName_toList (n : Nat) :
    (freshName n).toList = 'x' :: (Nat.repr n).toList := by
  rw [freshName, String.toList_append]
  rfl

theorem isDigit_of_mem_repr {n : Nat} {c : Char} (h : c ∈ (Nat.repr n).toList) :
    c.isDigit := by
  rw [Nat.toList_repr] at h
  exact Nat.isDigit_of_mem_toDigits (by omega) (by omega) h

theorem mem_freshName {n : Nat} {c : Char} (h : c ∈ (freshName n).toList) :
    c = 'x' ∨ c.isDigit := by
  rw [freshName_toList] at h
  rcases List.mem_cons.mp h with h | h
  · exact .inl h
  · exact .inr (isDigit_of_mem_repr h)

@[simp] theorem pathOfString_freshName (n : Nat) :
    pathOfString (freshName n) = .ok [freshName n] := by
  have hdot : '.' ∉ (freshName n).toList := by
    intro h
    rcases mem_freshName h with h | h
    · cases h
    · cases h
  have hne : freshName n ≠ "" := by
    intro h
    have hl := freshName_toList n
    rw [h] at hl
    cases hl
  rw [pathOfString, split_of_not_mem hdot hne]
  have hident : isIdent (freshName n) = true := by
    rw [isIdent, freshName_toList]
    rfl
  simp [isValidPath, hident]

end CtypesCbuf.Cbuf
