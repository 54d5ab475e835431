import Mathlib.Data.List.Infix
import CtypesCbuf.Lib.Transducer

/-!
String literals of C and what `puts` and `printf` make of them. Characters
stand for bytes; trigraphs are not replaced.
-/

namespace CStrings

open Transducer

/-! ### Literals -/

/-- How far the escape sequence that is being read has got. -/
inductive State
  | text
  | escape
  | octal (value more : Nat)
  | hexStart
  | hex (value : Nat)
  /-- After the quote at the end. -/
  | closed
  deriving DecidableEq, Repr

def simpleEscape : Char → Option Char
  | '\'' => some '\''
  | '"' => some '"'
  | '?' => some '?'
  | '\\' => some '\\'
  | 'a' => some '\x07'
  | 'b' => some '\x08'
  | 'f' => some '\x0c'
  | 'n' => some '\n'
  | 'r' => some '\r'
  | 't' => some '\t'
  | 'v' => some '\x0b'
  | _ => none

def octalDigit (c : Char) : Option Nat :=
  if '0' ≤ c ∧ c ≤ '7' then some (c.toNat - '0'.toNat) else none

def hexDigit (c : Char) : Option Nat :=
  if '0' ≤ c ∧ c ≤ '9' then some (c.toNat - '0'.toNat)
  else if 'a' ≤ c ∧ c ≤ 'f' then some (c.toNat - 'a'.toNat + 10)
  else if 'A' ≤ c ∧ c ≤ 'F' then some (c.toNat - 'A'.toNat + 10)
  else none

/-- A literal does not go on in the next line. A carriage return ends a line
too, as compilers read source files. -/
def textStep (c : Char) : Option (List Char × State) :=
  if c = '"' then some ([], .closed)
  else if c = '\\' then some ([], .escape)
  else if c = '\n' ∨ c = '\r' then none
  else some ([c], .text)

/-- A numeric escape sequence, which stands for one byte, ends before `c`. -/
def flush (value : Nat) (c : Char) : Option (List Char × State) :=
  if value < 256 then (textStep c).map fun r => (Char.ofNat value :: r.1, r.2) else none

def step : State → Char → Option (List Char × State)
  | .text, c => textStep c
  | .escape, c =>
      match simpleEscape c, octalDigit c with
      | some d, _ => some ([d], .text)
      | none, some x => some ([], .octal x 2)
      | none, none => if c = 'x' then some ([], .hexStart) else none
  | .octal value 0, c => flush value c
  | .octal value (more + 1), c =>
      match octalDigit c with
      | some x => some ([], .octal (8 * value + x) more)
      | none => flush value c
  | .hexStart, c => (hexDigit c).map fun x => ([], .hex x)
  | .hex value, c =>
      match hexDigit c with
      | some x => some ([], .hex (16 * value + x))
      | none => flush value c
  | .closed, _ => none

/-- The text of a literal on one line, if it is one. -/
def decode : List Char → Option (List Char)
  | '"' :: cs =>
      match scan step .text cs with
      | some (o, .closed) => some o
      | _ => none
  | _ => none

theorem decode_eq_some {cs o : List Char} :
    decode ('"' :: cs) = some o ↔ scan step .text cs = some (o, .closed) := by
  rw [decode]
  split
  · rename_i h
    simp [h]
  · rename_i h
    exact ⟨nofun, fun heq => absurd heq (h o)⟩

/-- The bytes an escape sequence that has been begun may still put out. -/
def State.pending : State → Nat
  | .text | .closed => 0
  | _ => 1

theorem textStep_length {c : Char} {o : List Char} {s : State}
    (h : textStep c = some (o, s)) : o.length + s.pending ≤ 1 := by
  rw [textStep] at h
  split_ifs at h <;> cases h <;> simp [State.pending]

theorem flush_eq_some {value : Nat} {c : Char} {o : List Char} {s : State}
    (h : flush value c = some (o, s)) :
    value < 256 ∧ ∃ o', o = Char.ofNat value :: o' ∧ textStep c = some (o', s) := by
  rw [flush] at h
  split at h
  · obtain ⟨⟨o', s'⟩, hstep, heq⟩ := Option.map_eq_some_iff.mp h
    cases heq
    exact ⟨‹_›, o', rfl, hstep⟩
  · cases h

/-- A character read is worth at most one byte put out. -/
theorem step_length {s s' : State} {c : Char} {o : List Char}
    (h : step s c = some (o, s')) : o.length + s'.pending ≤ 1 + s.pending := by
  have hflush : ∀ value, flush value c = some (o, s') → o.length + s'.pending ≤ 1 + 1 := by
    intro value hf
    obtain ⟨-, o', rfl, hstep⟩ := flush_eq_some hf
    have hlen := textStep_length hstep
    rw [List.length_cons]
    omega
  cases s with
  | text => exact textStep_length h
  | escape =>
      rw [step] at h
      split at h
      · cases h
        simp [State.pending]
      · cases h
        simp [State.pending]
      · split at h
        · cases h
          simp [State.pending]
        · cases h
  | octal value more =>
      cases more with
      | zero => exact hflush value h
      | succ more =>
          rw [step] at h
          split at h
          · cases h
            simp [State.pending]
          · exact hflush value h
  | hexStart =>
      obtain ⟨x, -, heq⟩ := Option.map_eq_some_iff.mp h
      cases heq
      simp [State.pending]
  | hex value =>
      rw [step] at h
      split at h
      · cases h
        simp [State.pending]
      · exact hflush value h
  | closed => cases h

/-- What follows a backslash comes to one byte together with it. -/
theorem step_escape_length {c : Char} {o : List Char} {s' : State}
    (h : step .escape c = some (o, s')) : o.length + s'.pending ≤ 1 := by
  rw [step] at h
  split at h
  · cases h
    simp [State.pending]
  · cases h
    simp [State.pending]
  · split at h
    · cases h
      simp [State.pending]
    · cases h

/-! ### Output -/

def cText (cs : List Char) : List Char := cs.takeWhile fun c => c ≠ '\x00'

/-- An argument of `printf`: what it is printed as by a conversion, which is
given without its percent sign. A conversion for another type has no meaning. -/
abbrev Arg := List Char → Option (List Char)

def isSpecifier (c : Char) : Bool := c ∈ "diouxXfFeEgGaAcspn".toList

def isModifier (c : Char) : Bool := c ∈ "-+ #0123456789.hlLjzt".toList

/-- The state: the conversion that has been begun and the arguments left. -/
def formatStep : Option (List Char) × List Arg → Char →
    Option (List Char × Option (List Char) × List Arg)
  | (none, args), c =>
      if c = '%' then some ([], some [], args) else some ([c], none, args)
  | (some conversion, args), c =>
      if c = '%' then
        if conversion = [] then some (['%'], none, args) else none
      else if isSpecifier c then
        match args with
        | [] => none
        | arg :: args => (arg (conversion ++ [c])).map fun o => (o, none, args)
      else if isModifier c then some ([], some (conversion ++ [c]), args)
      else none

/-- What `printf` prints, where its behaviour is defined. -/
def printf (format : List Char) (args : List Arg) : Option (List Char) :=
  match scan formatStep (none, args) (cText format) with
  | some (o, none, _) => some o
  | _ => none

/-- `conversion` is what may stand after a percent sign. -/
def IsConversion (conversion : List Char) : Prop :=
  ∃ modifiers c, conversion = modifiers ++ [c] ∧ (∀ m ∈ modifiers, isModifier m = true) ∧
    isSpecifier c = true

def isConversion (conversion : List Char) : Bool :=
  match conversion.reverse with
  | [] => false
  | c :: modifiers => isSpecifier c && modifiers.all isModifier

theorem isConversion_iff {conversion : List Char} :
    IsConversion conversion ↔ isConversion conversion = true := by
  rw [isConversion]
  constructor
  · rintro ⟨modifiers, c, rfl, hmodifiers, hc⟩
    simpa using ⟨hc, hmodifiers⟩
  · intro h
    split at h
    · cases h
    · rename_i c modifiers heq
      obtain ⟨hc, hmodifiers⟩ := Bool.and_eq_true_iff.mp h
      refine ⟨modifiers.reverse, c, ?_, by simpa using hmodifiers, hc⟩
      rw [← List.reverse_reverse conversion, heq, List.reverse_cons]

instance (conversion : List Char) : Decidable (IsConversion conversion) :=
  decidable_of_iff _ isConversion_iff.symm

variable {args args' : List Arg} {cs o : List Char} {pending pending' : Option (List Char)}

theorem printf_eq_some {format : List Char} : printf format args = some o ↔
    ∃ args', scan formatStep (none, args) (cText format) = some (o, none, args') := by
  rw [printf]
  split
  · rename_i h
    simp [h]
  · rename_i h
    exact ⟨nofun, fun ⟨args', heq⟩ => absurd heq (h o args')⟩

theorem scan_plain (h : '%' ∉ cs) (args : List Arg) :
    scan formatStep (none, args) cs = some (cs, none, args) := by
  refine scan_verbatim fun c hc => ?_
  have hne : c ≠ '%' := fun heq => h (heq ▸ hc)
  simp [formatStep, hne]

theorem modifier_facts {m : Char} (h : isModifier m = true) : m ≠ '%' ∧ isSpecifier m = false := by
  have hall : "-+ #0123456789.hlLjzt".toList.all fun m => m ≠ '%' ∧ isSpecifier m = false := by
    decide
  simpa using List.all_eq_true.mp hall m (by simpa [isModifier] using h)

theorem specifier_ne {c : Char} (h : isSpecifier c = true) : c ≠ '%' := by
  rintro rfl
  cases h

theorem scan_modifiers {modifiers : List Char} (h : ∀ m ∈ modifiers, isModifier m = true)
    (conversion : List Char) (args : List Arg) :
    scan formatStep (some conversion, args) modifiers =
      some ([], some (conversion ++ modifiers), args) := by
  induction modifiers generalizing conversion with
  | nil => simp [scan]
  | cons m modifiers ih =>
      obtain ⟨hm, hmodifiers⟩ := List.forall_mem_cons.mp h
      obtain ⟨hne, hspec⟩ := modifier_facts hm
      have hstep : formatStep (some conversion, args) m =
          some ([], some (conversion ++ [m]), args) := by
        simp [formatStep, hne, hspec, hm]
      rw [scan_cons hstep, ih hmodifiers, List.append_assoc]
      rfl

/-- A conversion takes one argument. -/
theorem scan_conversion {conversion : List Char} (h : IsConversion conversion) (args : List Arg) :
    scan formatStep (none, args) ('%' :: conversion) = match args with
      | [] => none
      | arg :: args => (arg conversion).map fun o => (o, none, args) := by
  obtain ⟨modifiers, c, rfl, hmodifiers, hc⟩ := h
  have hpercent : formatStep (none, args) '%' = some ([], some [], args) := rfl
  rw [scan_cons hpercent, scan_append (scan_modifiers hmodifiers [] args)]
  cases args with
  | nil => simp [scan, formatStep, specifier_ne hc, hc]
  | cons arg args =>
      cases harg : arg (modifiers ++ [c]) <;> simp [scan, formatStep, specifier_ne hc, hc, harg]

/-- A step takes an argument or puts out at most one byte. -/
theorem formatStep_cases {c : Char}
    (h : formatStep (pending, args) c = some (o, pending', args')) :
    args' = args ∧ o.length ≤ 1 ∨ ∃ arg, args = arg :: args' := by
  cases pending with
  | none =>
      simp only [formatStep] at h
      split at h <;> cases h <;> simp
  | some conversion =>
      simp only [formatStep] at h
      split at h
      · split at h
        · cases h
          simp
        · cases h
      · split at h
        · cases args with
          | nil => cases h
          | cons arg args =>
              obtain ⟨o', -, heq⟩ := Option.map_eq_some_iff.mp h
              cases heq
              exact .inr ⟨arg, rfl⟩
        · split at h
          · cases h
            simp
          · cases h

/-- As long as no argument is taken, a character is worth at most one byte. -/
theorem scan_args (h : scan formatStep (pending, args) cs = some (o, pending', args')) :
    args' <:+ args ∧ (args'.length = args.length → o.length ≤ cs.length) := by
  induction cs generalizing pending args o with
  | nil =>
      cases h
      exact ⟨List.suffix_refl _, fun _ => Nat.le_refl _⟩
  | cons c cs ih =>
      obtain ⟨o₁, ⟨pending₁, args₁⟩, o₂, hstep, hscan, rfl⟩ := scan_cons_eq_some.mp h
      obtain ⟨hsuffix, hlen⟩ := ih hscan
      rcases formatStep_cases hstep with ⟨rfl, ho₁⟩ | ⟨arg, rfl⟩
      · refine ⟨hsuffix, fun heq => ?_⟩
        have ho₂ := hlen heq
        rw [List.length_append, List.length_cons]
        omega
      · refine ⟨hsuffix.trans (List.suffix_cons arg args₁), fun heq => ?_⟩
        have hle := hsuffix.length_le
        rw [List.length_cons] at heq
        omega

end CStrings
