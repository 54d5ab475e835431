import CtypesCbuf.Cbuf.EmitC
import CtypesCbuf.Cstubs.Arity
import CtypesCbuf.Ctypes.PrintedTypes

/-!
The roots that a stub registers. `camlParam` of `Cstubs_emit_c`, of which
`Cbuf_emit_c` has a copy, prints the macros in groups of five parameters. The
printed text is read as calls of macros, however its lines are broken.
-/

namespace CtypesCbuf.Cstubs

open CDeclaration NameSupply Supply
open Ctypes CLanguage Stubs
open Ctypes.TypePrinting
open Cbuf.EmitC (camlParam camlxParam macroCall ccomp)
open GenerateC

/-! ### Calls of macros -/

/-- The tokens `x, ..., z`. -/
def argumentTokens : List String → List Token
  | [] => []
  | [x] => [.word x]
  | x :: xs => .word x :: .symbol ',' :: argumentTokens xs

/-- The tokens of `name(x, ..., z);`. -/
def callTokens (name : String) (xs : List String) : List Token :=
  Token.word name :: Token.symbol '(' :: (argumentTokens xs ++ [Token.symbol ')', .symbol ';'])

/-- The macro `CAMLparamN` or `CAMLxparamN` that takes these arguments. -/
def rootTokens (macroName : String) (xs : List String) : List Token :=
  callTokens (macroName ++ Nat.repr xs.length) xs

/-- The tokens register `names` as roots, in this order: `CAMLparamN` is called
once and first, and no macro takes more than five arguments. -/
def Registers (ts : List Token) (names : List String) : Prop :=
  ∃ (first : List String) (rest : List (List String)),
    ts = rootTokens "CAMLparam" first ++ rest.flatMap (rootTokens "CAMLxparam") ∧
    first.length ≤ 5 ∧ (∀ xs ∈ rest, xs ≠ [] ∧ xs.length ≤ 5) ∧ first ++ rest.flatten = names

/-! ### The printed calls -/

theorem lexes_arguments {xs : List String} (hxs : ∀ x ∈ xs, IsIdentifier x) {ps : List Piece}
    {ts : List Token} (hps : Lexes ps ts) :
    Lexes
      (List.intercalate [Piece.text ",", .brk] (xs.map fun x => [Piece.text x]) ++
        Piece.text ");" :: ps)
      (argumentTokens xs ++ Token.symbol ')' :: Token.symbol ';' :: ts) := by
  have hclose : Lexes (Piece.text ");" :: ps) (Token.symbol ')' :: Token.symbol ';' :: ts) :=
    @Lexes.symbol ps ts hps ");" [')'] ';' rfl (by decide)
  have hsep : Separate (.text ");" :: ps) := @separate_text ");" ')' [';'] rfl (by decide) ps
  induction xs with
  | nil => simpa [argumentTokens] using hclose
  | cons x xs ih =>
      obtain ⟨hx, hxs⟩ := List.forall_mem_cons.mp hxs
      cases xs with
      | nil =>
          have hword := hclose.word hsep x
          rw [lex_word hx] at hword
          simpa [argumentTokens] using hword
      | cons y ys =>
          have hcomma : Lexes (Piece.text "," :: Piece.brk :: _)
              (Token.symbol ',' ::
                (argumentTokens (y :: ys) ++ Token.symbol ')' :: Token.symbol ';' :: ts)) :=
            @Lexes.symbol _ _ (ih hxs).brk "," [] ',' rfl (by decide)
          have hword := hcomma.word (@separate_text "," ',' [] rfl (by decide) _) x
          rw [lex_word hx] at hword
          rw [List.map_cons, List.map_cons, List.intercalate_cons_cons]
          simpa [argumentTokens] using hword

theorem lexes_macroCall {name : String} (hname : IsIdentifier name) {xs : List String}
    (hxs : ∀ x ∈ xs, IsIdentifier x) {ps : List Piece} {ts : List Token} (hps : Lexes ps ts) :
    Lexes (macroCall name xs ++ ps) (callTokens name xs ++ ts) := by
  have hopen : Lexes (Piece.text "(" :: _)
      (Token.symbol '(' :: (argumentTokens xs ++ Token.symbol ')' :: Token.symbol ';' :: ts)) :=
    @Lexes.symbol _ _ (lexes_arguments hxs hps) "(" [] '(' rfl (by decide)
  have hword := (hopen.brk.word (separate_brk _) name).box
  rw [lex_word hname] at hword
  simpa [macroCall, callTokens] using hword

/-- The parameters after the fifth, in groups of five and a rest. -/
theorem lexes_camlxParam {xs : List String} (hxs : ∀ x ∈ xs, IsIdentifier x) :
    ∃ rest : List (List String), Lexes (camlxParam xs) (rest.flatMap (rootTokens "CAMLxparam")) ∧
      (∀ ys ∈ rest, ys ≠ [] ∧ ys.length ≤ 5) ∧ rest.flatten = xs := by
  have hname : ∀ n, IsIdentifier ("CAMLxparam" ++ Nat.repr n) :=
    isIdentifier_numbered (by decide)
  fun_induction camlxParam xs with
  | case1 => exact ⟨[], lexes_nil, by simp, rfl⟩
  | case2 x1 x2 x3 x4 x5 xs ih =>
      have hfive : ∀ x ∈ [x1, x2, x3, x4, x5], IsIdentifier x := fun x hx =>
        hxs x (List.mem_append_left xs hx)
      obtain ⟨rest, hlex, hlen, rfl⟩ := ih fun x hx =>
        hxs x (List.mem_append_right [x1, x2, x3, x4, x5] hx)
      refine ⟨[x1, x2, x3, x4, x5] :: rest, ?_, ?_, rfl⟩
      · exact lexes_macroCall (hname 5) hfive hlex
      · exact List.forall_mem_cons.mpr ⟨by simp, hlen⟩
  | case3 xs hne hfive =>
      have hlen : xs.length ≤ 5 := by
        match xs, hfive with
        | [], _ | [_], _ | [_, _], _ | [_, _, _], _ | [_, _, _, _], _ => simp
        | x1 :: x2 :: x3 :: x4 :: x5 :: xs, hfive => exact absurd rfl (hfive x1 x2 x3 x4 x5 xs)
      refine ⟨[xs], ?_, by simpa using ⟨hne, hlen⟩, by simp⟩
      simpa [rootTokens] using lexes_macroCall (hname xs.length) hxs lexes_nil

/-- However its lines are broken, what is printed registers all parameters. -/
theorem camlParam_registers {names : List String} (hnames : ∀ x ∈ names, IsIdentifier x)
    {text : List Char} (htext : LaidOut (camlParam names) text) : Registers (lex text) names := by
  have hname : ∀ n, IsIdentifier ("CAMLparam" ++ Nat.repr n) :=
    isIdentifier_numbered (by decide)
  unfold camlParam at htext
  split at htext
  · rename_i x1 x2 x3 x4 x5 xs
    have hfive : ∀ x ∈ [x1, x2, x3, x4, x5], IsIdentifier x := fun x hx =>
      hnames x (List.mem_append_left xs hx)
    obtain ⟨rest, hlex, hlen, rfl⟩ := lexes_camlxParam fun x hx =>
      hnames x (List.mem_append_right [x1, x2, x3, x4, x5] hx)
    have hcalls := lexes_macroCall (hname 5) hfive hlex.brk
    rw [List.append_assoc] at htext
    exact ⟨[x1, x2, x3, x4, x5], rest, hcalls text htext, by simp, hlen, rfl⟩
  · rename_i hfive
    have hlen : names.length ≤ 5 := by
      match names, hfive with
      | [], _ | [_], _ | [_, _], _ | [_, _, _], _ | [_, _, _, _], _ => simp
      | x1 :: x2 :: x3 :: x4 :: x5 :: xs, hfive => exact absurd rfl (hfive x1 x2 x3 x4 x5 xs)
    have hcall := lexes_macroCall (hname names.length) hnames lexes_nil
    rw [List.append_nil] at hcall
    exact ⟨names, [], by simpa [rootTokens] using hcall text htext, hlen, by simp, by simp⟩

/-! ### Unlocked stubs -/

theorem isIdentifier_freshName (n : Nat) : IsIdentifier (freshName n) :=
  isIdentifier_numbered (by decide) n

theorem freshNames_isIdentifier {lo hi : Nat} {names : List String}
    (h : FreshNames lo hi names) : ∀ x ∈ names, IsIdentifier x := by
  intro x hx
  obtain ⟨n, -, -, rfl⟩ := h.drawn x hx
  exact isIdentifier_freshName n

theorem stub_params_fst {concurrency : NonLwt} {errno_ : ErrnoPolicy}
    {cname stubName : String} {f : Fn} {n n1 : Nat} {d : CFundef} {f' : NamedFn} {i : CEff}
    (hd : StubOf concurrency errno_ cname stubName f n d f' n1 i) :
    d.dec.params.map (fun p => p.1) = f'.params.map fun p => p.1 := by
  rw [congrArg CFundef.dec hd.def_eq, valueParams_eq, List.map_map]
  rfl

/-- A computation that starts with the roots prints them first. -/
theorem ccomp_camlParam_registers {views : ViewFormats} {names : List String} {c : CComp}
    (hnames : ∀ x ∈ names, IsIdentifier x) {ps : List Piece}
    (hps : ccomp views (.camlParam names c) = .ok ps) {text : List Char} (htext : LaidOut ps text) :
    ∃ ts rest, lex text = ts ++ rest ∧ Registers ts names := by
  rw [ccomp] at hps
  obtain ⟨s, -, hs⟩ := except_bind_eq_ok hps
  obtain rfl : Piece.box :: (camlParam names ++ Piece.text ";" :: Piece.brk :: s) = ps := by
    simpa using Except.ok.inj hs
  cases htext with
  | box hblank htext =>
      obtain ⟨as, bs, rfl, has, hbs⟩ := htext.of_append
      have hsep : Delimited bs := @separate_text ";" ';' [] rfl (by decide) _ bs hbs
      exact ⟨lex as, lex bs, (lex_blank hblank.isBlank _).trans (lex_append hsep),
        camlParam_registers hnames has⟩

/-- However many parameters there are, the printed macros register all of
them, and so does the printed body of every unlocked stub. -/
theorem roots_registered :
    (∀ (names : List String), (∀ x ∈ names, IsIdentifier x) →
      ∀ text, LaidOut (camlParam names) text → Registers (lex text) names) ∧
    (∀ (views : ViewFormats) (errno_ : ErrnoPolicy) (cname stubName : String) (f : Fn)
      (n n2 : Nat) (code : StubCode),
      fn .unlocked errno_ cname stubName f n = .ok (code, n2) →
      ∃ d defs, code = .functions (d :: defs) ∧
        d.dec.params.length = (args f).length ∧ (d.dec.params.map fun p => p.1).Nodup ∧
        ∀ ps text, ccomp views d.body = .ok ps → LaidOut ps text →
          ∃ ts rest, lex text = ts ++ rest ∧
            Registers ts (d.dec.params.map fun p => p.1)) := by
  refine ⟨fun names hnames text htext => camlParam_registers hnames htext, ?_⟩
  intro views errno_ cname stubName f n n2 code h
  obtain ⟨d, n1, defs, hd, hcode⟩ := fn_unlocked_eq_ok h
  obtain ⟨-, f', n3, i, hstub⟩ := stub_eq_ok hd
  have hnames := stub_params_fst hstub
  refine ⟨d, defs, hcode, ?_, hnames ▸ hstub.names.nodup, ?_⟩
  · have hlen : f'.params.length = (args f).length := by
      rw [← hstub.spec_eq, args_spec, List.length_map]
    rw [← hlen, ← List.length_map, hnames, List.length_map]
  · intro ps text hps htext
    rw [congrArg CFundef.body hstub.def_eq] at hps
    have hvalues : (valueParams f').map (fun p => p.1) = d.dec.params.map fun p => p.1 := by
      rw [congrArg CFundef.dec hstub.def_eq]
    rw [← hvalues]
    refine ccomp_camlParam_registers ?_ hps htext
    rw [hvalues, hnames]
    exact freshNames_isIdentifier hstub.names

def sixInts : Fn :=
  .function (.primitive .int) (.function (.primitive .int) (.function (.primitive .int)
    (.function (.primitive .int) (.function (.primitive .int) (.function (.primitive .int)
      (.returns (.primitive .int)))))))

/-- Seven names take two macros, and so do the parameters of a stub with six. -/
theorem roots_registered_seven :
    Registers (lex (render (camlParam ["x1", "x2", "x3", "x4", "x5", "x6", "x7"])))
      ["x1", "x2", "x3", "x4", "x5", "x6", "x7"] ∧
    ∃ d defs ps ts rest, (∃ n2, fn .unlocked .ignoreErrno "f" "stub" sixInts 0 =
        .ok (.functions (d :: defs), n2)) ∧
      ccomp (fun _ => none) d.body = .ok ps ∧ lex (render ps) = ts ++ rest ∧
      d.dec.params.length = 6 ∧ Registers ts (d.dec.params.map fun p => p.1) := by
  constructor
  · exact roots_registered.1 _ (by decide) _ (laidOut_render _)
  · obtain ⟨d, defs, n2, ps, hfn, hps⟩ : ∃ d defs n2 ps,
        fn .unlocked .ignoreErrno "f" "stub" sixInts 0 = .ok (.functions (d :: defs), n2) ∧
        ccomp (fun _ => none) d.body = .ok ps := ⟨_, _, _, _, rfl, rfl⟩
    obtain ⟨d', defs', hcode, hlen, -, hprinted⟩ :=
      roots_registered.2 (fun _ => none) _ _ _ _ _ _ _ hfn
    cases hcode
    obtain ⟨ts, rest, hlex, hroots⟩ := hprinted ps _ hps (laidOut_render ps)
    exact ⟨d, defs, ps, ts, rest, ⟨n2, hfn⟩, hps, hlex, hlen, hroots⟩

end CtypesCbuf.Cstubs
