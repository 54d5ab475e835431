import CtypesCbuf.Runtime.Machine

/-!
What `ctypes_read` and `ctypes_write` do to integers. A write reduces the
integer that the OCaml value stands for to the C type, and a read makes an
OCaml value of what is in memory.
-/

namespace CtypesCbuf.Runtime

open IntFormat
open Ctypes hiding Fn
open CLanguage

variable {m : Machine} {p : Prim} {v : Value} {i : Int}

/-- An integer is that of one OCaml value. -/
theorem denotes_unique {l : MlPrim} {w : Value} (hv : Denotes m l v i) (hw : Denotes m l w i) :
    v = w := by
  cases l <;> first | exact hv.1.trans hw.1.symm | exact hv.elim

theorem convert_int {f : IntFormat} (hf : intFormat m.charSigned p = some f) (i : Int) :
    convert m p (.int i) = .int (f.wrap i) := by
  cases p <;> cases hf <;> rfl

/-- The format fills the type. -/
theorem intFormat_bits {charSigned : Bool} {f : IntFormat}
    (hf : intFormat charSigned p = some f) : f.bits = 8 * p.size := by
  cases p <;> cases hf <;> rfl

/-- Converting first to a format that is not narrower changes nothing. -/
theorem convert_wrap {f g : IntFormat} (hf : intFormat m.charSigned p = some f)
    (hbits : f.bits ≤ g.bits) (i : Int) :
    convert m p (.int (g.wrap i)) = .int (f.wrap i) := by
  rw [convert_int hf, wrap_wrap hbits]

/-- The integral types have a format, except `bool`. -/
theorem intFormat_of_integral (hp : Integral p) (hbool : p ≠ .bool) :
    ∃ f, intFormat m.charSigned p = some f := by
  cases p <;> first | exact ⟨_, rfl⟩ | exact absurd rfl hbool | cases hp

/-- The reader that `ctypes_write` applies keeps the bits of the type. -/
theorem writeReader_eval (hm : m.integers.Lawful) (hp : Integral p)
    (hv : Denotes m (mlPrim p) v i) :
    ∃ g : IntFormat, library m (writeReader p) [.value v] = .int (g.wrap i) ∧
      ∀ f, intFormat m.charSigned p = some f → f.bits ≤ g.bits := by
  cases p with
  | char | schar | short | int | int8T | int16T =>
      obtain ⟨rfl, -⟩ := hv
      exact ⟨.i32, rfl, fun f hf => by rw [intFormat_bits hf]; decide⟩
  | camlint =>
      obtain ⟨rfl, -⟩ := hv
      exact ⟨.i64, rfl, fun f hf => by rw [intFormat_bits hf]; decide⟩
  | bool =>
      obtain ⟨rfl, -⟩ := hv
      exact ⟨.i32, rfl, nofun⟩
  | int32T | sint =>
      obtain ⟨rfl, hi⟩ := hv
      exact ⟨.i32, congrArg CVal.int (wrap_of_inRange hi).symm,
        fun f hf => by rw [intFormat_bits hf]; decide⟩
  | int64T | long | llong | nativeint =>
      obtain ⟨rfl, hi⟩ := hv
      exact ⟨.i64, congrArg CVal.int (wrap_of_inRange hi).symm,
        fun f hf => by rw [intFormat_bits hf]; decide⟩
  | uchar | uint8T =>
      obtain ⟨rfl, hi⟩ := hv
      exact ⟨.u8, congrArg (fun j => CVal.int (u8.wrap j)) (hm.uint8 i hi),
        fun f hf => by rw [intFormat_bits hf]; decide⟩
  | ushort | uint16T =>
      obtain ⟨rfl, hi⟩ := hv
      exact ⟨.u16, congrArg (fun j => CVal.int (u16.wrap j)) (hm.uint16 i hi),
        fun f hf => by rw [intFormat_bits hf]; decide⟩
  | uint | uint32T =>
      obtain ⟨rfl, hi⟩ := hv
      exact ⟨.u32, congrArg (fun j => CVal.int (u32.wrap j)) (hm.uint32 i hi),
        fun f hf => by rw [intFormat_bits hf]; decide⟩
  | ulong | ullong | sizeT | uint64T =>
      obtain ⟨rfl, hi⟩ := hv
      exact ⟨.u64, congrArg (fun j => CVal.int (u64.wrap j)) (hm.uint64 i hi),
        fun f hf => by rw [intFormat_bits hf]; decide⟩
  | float | double | ldouble | complex32 | complex64 | complexld => cases hp

/-- `ctypes_write` stores the integer reduced to the type. -/
theorem ctypesWrite_eq (hm : m.integers.Lawful) (hp : Integral p)
    (hv : Denotes m (mlPrim p) v i) : ctypesWrite m p v = convert m p (.int i) := by
  by_cases hbool : p = .bool
  · subst hbool
    obtain ⟨rfl, rfl | rfl⟩ := hv <;> rfl
  · obtain ⟨g, hread, hbits⟩ := writeReader_eval hm hp hv
    obtain ⟨f, hf⟩ := intFormat_of_integral (m := m) hp hbool
    by_cases hchar : p = .char
    · subst hchar
      -- stored through `unsigned char`, which keeps the bits
      have huchar : convert m .uchar (.int (g.wrap i)) = .int (u8.wrap (g.wrap i)) :=
        convert_int rfl _
      have hu8 : f.bits ≤ u8.bits := by rw [intFormat_bits hf]; decide
      rw [ctypesWrite, hread, huchar, convert_wrap hf hu8, wrap_wrap (hbits f hf),
        convert_int hf]
    · have hwrite : ctypesWrite m p v = convert m p (library m (writeReader p) [.value v]) := by
        cases p <;> first | rfl | exact absurd rfl hchar
      rw [hwrite, hread, convert_wrap hf (hbits f hf), convert_int hf]

/-- A value of the type is not converted. -/
theorem convert_of_hasPrim {c : CVal} (hc : HasPrim m.charSigned p c) :
    convert m p c = c := by
  cases c with
  | int j =>
      rw [HasPrim] at hc
      cases hf : intFormat m.charSigned p with
      | some f =>
          rw [hf] at hc
          rw [convert_int hf, wrap_of_inRange hc]
      | none =>
          rw [hf] at hc
          obtain ⟨rfl, rfl | rfl⟩ := hc <;> rfl
  | flt k bits =>
      have hk : floatKind p = some k := hc
      simp only [convert, hk, if_pos]
  | _ => exact hc.elim

/-- What `ctypes_read` returns is an OCaml value of the type. -/
theorem ctypesRead_hasMlPrim {c : CVal} (hc : HasPrim m.charSigned p c) :
    ∃ u, ctypesRead m p c = .value u ∧ HasMlPrim m (mlPrim p) u := by
  cases c with
  | int j =>
      cases p with
      | char =>
          have hwrap : u8.wrap j = j % 256 := rfl
          have hnonneg := Int.emod_nonneg j (show (256 : Int) ≠ 0 by decide)
          have hlt := Int.emod_lt_of_pos j (show (0 : Int) < 256 by decide)
          have hrange : i63.InRange (u8.wrap j) := by
            have hmod : (modulus i63 : Int) = 9223372036854775808 := rfl
            rw [InRange, if_pos (show i63.signed = true from rfl), hmod, hwrap]
            omega
          refine ⟨.int (i63.wrap (u8.wrap j)), rfl, _, rfl, ?_⟩
          rw [wrap_of_inRange hrange, hwrap]
          exact ⟨hnonneg, hlt⟩
      | bool =>
          by_cases hj : j = 0
          · exact ⟨.int 0, by subst hj; rfl, 0, rfl, .inl rfl⟩
          · refine ⟨.int 1, ?_, 1, rfl, .inr rfl⟩
            show CVal.value (valLong (if j = 0 then 0 else 1)) = _
            rw [if_neg hj]
            rfl
      | float | double | ldouble | complex32 | complex64 | complexld =>
          rcases hc with ⟨h, -⟩
          cases h
      | _ => exact ⟨_, rfl, _, rfl, wrap_inRange _ _⟩
  | flt k bits =>
      have hk : floatKind p = some k := hc
      cases p <;> cases hk <;> exact ⟨_, rfl, trivial⟩
  | _ => exact hc.elim

end CtypesCbuf.Runtime
