import CtypesCbuf.Runtime.Accesses
import CtypesCbuf.Cbuf.Execution

/-!
Integers that pass through a stub. What C receives is what `ctypes_write`
stores, and what OCaml gets back is what `ctypes_read` returns; but the
projection of a `camlint` goes through a C `int`.
-/

namespace CtypesCbuf.Cbuf.GenerateC

open NameSupply IntFormat
open Ctypes hiding Fn
open CLanguage Stubs
open CtypesCbuf.Runtime

variable {m : Machine} {p : Prim} {v : Value} {i : Int}

/-! ### Projections of integers -/

/-- The projection applies the same reader, except to an `int`. -/
theorem primPrj_fname (hint : p ≠ .int) : (primPrj p).fname = writeReader p := by
  cases p <;> first | rfl | exact absurd rfl hint

theorem primPrj_eval (hm : m.integers.Lawful) (hp : Integral p)
    (hv : Denotes m (mlPrim p) v i) :
    ∃ g : IntFormat, library m (primPrj p).fname [.value v] = .int (g.wrap i) ∧
      ∀ f, intFormat m.charSigned p = some f → f.bits ≤ g.bits := by
  by_cases hint : p = .int
  · subst hint
    obtain ⟨rfl, -⟩ := hv
    exact ⟨.i64, rfl, fun f hf => by rw [intFormat_bits hf]; decide⟩
  · rw [primPrj_fname hint]
    exact writeReader_eval hm hp hv

/-- The local that a projection is bound to has room for the type, except for
a `camlint`. -/
theorem primPrjResult_bits (hcaml : p ≠ .camlint) {f g : IntFormat}
    (hf : intFormat m.charSigned p = some f)
    (hg : intFormat m.charSigned (primPrjResult p) = some g) : f.bits ≤ g.bits := by
  rw [intFormat_bits hf, intFormat_bits hg]
  cases p <;> first | decide | exact absurd rfl hcaml

/-! ### Both ways -/

/-- What C receives is what `ctypes_write` stores, unless a `camlint` has
more bits than a C `int`. -/
theorem received_eq_ctypesWrite_iff (hm : m.integers.Lawful) (hp : Integral p)
    (hv : Denotes m (mlPrim p) v i) :
    received m (.primitive p) (.value v) = ctypesWrite m p v ↔
      (p = .camlint → i32.InRange i) := by
  rw [ctypesWrite_eq hm hp hv, received]
  obtain ⟨g, hread, hbits⟩ := primPrj_eval hm hp hv
  by_cases hbool : p = .bool
  · subst hbool
    obtain ⟨rfl, rfl | rfl⟩ := hv <;> simp <;> rfl
  · obtain ⟨f, hf⟩ := intFormat_of_integral (m := m) hp hbool
    have hresult : ∃ h, intFormat m.charSigned (primPrjResult p) = some h := by
      cases p <;> first | exact ⟨_, rfl⟩ | exact absurd rfl hbool | cases hp
    obtain ⟨h, hh⟩ := hresult
    rw [hread, convert_int hh]
    by_cases hcaml : p = .camlint
    · subst hcaml
      cases hf
      cases hh
      obtain ⟨-, hi⟩ := hv
      have hi64 : i64.wrap i = i := wrap_of_inRange (hi.mono rfl (by decide))
      have hi32 : i64.wrap (i32.wrap i) = i32.wrap i :=
        wrap_of_inRange ((wrap_inRange i32 i).mono rfl (by decide))
      have hg : i32.wrap (g.wrap i) = i32.wrap i :=
        wrap_wrap (Nat.le_trans (by decide) (hbits i64 rfl))
      rw [hg, convert_int (p := .camlint) rfl, convert_int (p := .camlint) rfl, hi64, hi32,
        CVal.int.injEq, wrap_eq_self_iff]
      simp
    · have hwide := primPrjResult_bits hcaml hf hh
      have hkeep : convert m p (.int (h.wrap (g.wrap i))) = convert m p (.int i) := by
        rw [convert_wrap hf hwide, wrap_wrap (hbits f hf), convert_int hf]
      simp [hkeep, hcaml]

theorem char_ge {charSigned : Bool} {j : Int} (hc : HasPrim charSigned .char (.int j)) :
    -256 ≤ j := by
  have hrange : InRange ⟨charSigned, 8⟩ j := hc
  rw [InRange] at hrange
  split at hrange
  · have hmod : (modulus ⟨charSigned, 8⟩ : Int) = 256 := rfl
    omega
  · omega

/-- What OCaml gets back is what `ctypes_read` returns. -/
theorem injected_eq_ctypesRead {c : CVal} (hc : HasPrim m.charSigned p c) :
    injected m (.primitive p) c = ctypesRead m p c := by
  rw [injected, convert_of_hasPrim hc]
  by_cases hchar : p = .char
  · subst hchar
    cases c with
    | int j =>
        -- `Ctypes_val_char` adds 256 to reach the remainder of a negative `char`
        have hj := char_ge hc
        have hrem : (j + 256).tmod 256 = u8.wrap j := by
          have hwrap : u8.wrap j = j % 256 := rfl
          rw [hwrap, Int.tmod_eq_emod_of_nonneg (by omega)]
          omega
        show CVal.value (valLong ((j + 256).tmod 256)) = CVal.value (valLong (u8.wrap j))
        rw [hrem]
    | flt k bits => cases hc
    | _ => exact hc.elim
  · have hmaker : library m (primInj p).fname = library m (readMaker p) := by
      cases p <;> first | rfl | exact absurd rfl hchar
    have hread : ctypesRead m p c = library m (readMaker p) [c] := by
      cases p <;> first | rfl | exact absurd rfl hchar
    rw [hmaker, hread]

/-! ### Stubs of integers -/

/-- An integer argument: its type, the OCaml value and the integer it stands
for. -/
structure IntArg where
  prim : Prim
  val : Value
  int : Int

/-- The OCaml value is one of the type that the primitive is read at. -/
structure IntArg.Valid (m : Machine) (a : IntArg) : Prop where
  integral : Integral a.prim
  denotes : Denotes m (mlPrim a.prim) a.val a.int

/-- `p1 @-> ... @-> pn @-> returning r`. -/
def intFn (args : List IntArg) (r : Prim) : Fn :=
  arrows (args.map fun a => .primitive a.prim) (.returns (.primitive r))

/-- The stub passes what `ctypes_write` stores, the integers reduced to their
types, and returns what `ctypes_read` makes of the result `c`. -/
structure Converts (m : Machine) (errno_ : ErrnoPolicy) (args : List IntArg) (r : Prim)
    (c : CVal) (w : World) (s : State) : Prop where
  call : ∃ call, s.world.calls = w.calls ++ [call] ∧
    call.args = args.map fun a => ctypesWrite m a.prim a.val
  written : ∀ a ∈ args, ctypesWrite m a.prim a.val = convert m a.prim (.int a.int)
  result : resultImage errno_ s.result = ctypesRead m r c

theorem receivedArgs_intFn {args : List IntArg} :
    receivedArgs m (args.map fun a => .primitive a.prim)
        (args.map fun a => .value a.val) =
      args.map fun a => received m (.primitive a.prim) (.value a.val) := by
  induction args with
  | nil => rfl
  | cons a args ih =>
      rw [List.map_cons, List.map_cons, receivedArgs, ih, List.map_cons]
      rfl

theorem stub_converts_iff (hm : m.integers.Lawful) {args : List IntArg}
    (hargs : ∀ a ∈ args, a.Valid m) {r : Prim} {c : CVal}
    (hc : HasPrim m.charSigned r c) (hforeign : ∀ cargs, m.foreign cargs = c)
    {errno_ : ErrnoPolicy} {cname stubName : String} {n n2 : Nat} {d : CFundef}
    (hd : stub errno_ cname stubName (intFn args r) n = .ok (d, n2))
    (fields : String → CVal) (w : World) :
    Converts m errno_ args r c w (runFundef m (foreignFunction cname (intFn args r)) d
        (args.map fun a => .value a.val) fields w) ↔
      ∀ a ∈ args, a.prim = .camlint → i32.InRange a.int := by
  have hlen : (args.map fun a => CVal.value a.val).length =
      (args.map fun a => Typ.primitive a.prim).length := by simp
  obtain ⟨hacc, f', n1, i, hstub⟩ := stub_eq_ok hd
  obtain ⟨u, hu, -⟩ := ctypesRead_hasMlPrim hc
  have hinj : injected m (resultTyp (intFn args r)).core (convertTyp m (resultTyp (intFn args r))
      (m.foreign (args.map fun a => received m (.primitive a.prim) (.value a.val)))) =
      .value u := by
    rw [intFn, resultTyp_arrows, hforeign]
    show injected m (.primitive r) (convert m r c) = .value u
    rw [convert_of_hasPrim hc, injected_eq_ctypesRead hc, hu]
  have hpassed := passed_arrows (m := m) hstub hlen
  rw [receivedArgs_intFn] at hpassed
  obtain ⟨⟨e, e', hcalls⟩, ⟨k, -, hresult⟩, -⟩ := stub_callsOnce hstub hacc hpassed hinj fields w
  have hwrite : ∀ a ∈ args, received m (.primitive a.prim) (.value a.val) =
      ctypesWrite m a.prim a.val ↔ (a.prim = .camlint → i32.InRange a.int) := fun a ha =>
    received_eq_ctypesWrite_iff hm (hargs a ha).integral (hargs a ha).denotes
  constructor
  · rintro ⟨⟨call, hcall, hcargs⟩, -, -⟩ a ha
    rw [hcalls, List.append_cancel_left_eq, List.singleton_inj] at hcall
    rw [← hcall] at hcargs
    exact (hwrite a ha).mp (List.map_inj_left.mp hcargs a ha)
  · intro hall
    refine ⟨⟨_, hcalls, ?_⟩, fun a ha => ?_, ?_⟩
    · exact List.map_congr_left fun a ha => (hwrite a ha).mpr (hall a ha)
    · exact ctypesWrite_eq hm (hargs a ha).integral (hargs a ha).denotes
    · rw [hresult, resultImage_withErrno, hu]

/-- Every width at its limit. -/
theorem stub_converts_limits :
    let args : List IntArg := [⟨.camlint, .int 2147483647, 2147483647⟩,
      ⟨.char, .int 255, 255⟩, ⟨.int32T, .boxed .int32 (-2147483648), -2147483648⟩]
    ∃ d n, stub .returnErrno "f" "stub_1_f" (intFn args .short) 0 = .ok (d, n) ∧
      Converts .plain .returnErrno args .short (.int 0) .empty
        (runFundef .plain (foreignFunction "f" (intFn args .short)) d
          (args.map fun a => .value a.val) (fun _ => .undefined) .empty) := by
  intro args
  have hvalid : ∀ a ∈ args, a.Valid .plain := by
    simp only [args, List.forall_mem_cons]
    refine ⟨⟨rfl, rfl, by decide⟩, ⟨rfl, rfl, by decide, by decide⟩,
      ⟨rfl, rfl, by decide⟩, nofun⟩
  refine ⟨_, _, rfl, (stub_converts_iff Integers.plain_lawful hvalid (r := .short)
    (c := .int 0) (show i16.InRange 0 by decide) (fun _ => rfl) rfl _ _).mpr ?_⟩
  simp only [args, List.forall_mem_cons]
  exact ⟨fun _ => by decide, nofun, nofun, nofun⟩

/-- An OCaml integer of 32 bits does not get through. -/
theorem camlint_not_converts :
    let args : List IntArg := [⟨.camlint, .int 2147483648, 2147483648⟩]
    (∀ a ∈ args, a.Valid .plain) ∧
    ∃ d n, stub .ignoreErrno "f" "stub_1_f" (intFn args .int) 0 = .ok (d, n) ∧
      ¬ Converts .plain .ignoreErrno args .int (.int 0) .empty
        (runFundef .plain (foreignFunction "f" (intFn args .int)) d
          (args.map fun a => .value a.val) (fun _ => .undefined) .empty) := by
  intro args
  refine ⟨?_, _, _, rfl, ?_⟩
  · intro a ha
    obtain rfl := List.mem_singleton.mp ha
    exact ⟨rfl, rfl, by decide⟩
  · rintro ⟨⟨call, hcalls, hargs⟩, -, -⟩
    have hcall : call = ⟨"f", [.int (-2147483648)], 0, 0⟩ :=
      (List.singleton_inj.mp hcalls).symm
    rw [hcall] at hargs
    revert hargs
    decide

end CtypesCbuf.Cbuf.GenerateC
