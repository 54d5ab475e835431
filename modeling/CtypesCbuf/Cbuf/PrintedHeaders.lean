import CtypesCbuf.Cbuf.EmitC
import CtypesCbuf.Cbuf.GenerateC
import CtypesCbuf.Ctypes.PrintedFunctions

/-!
The headers of inverted stubs, printed by `cfundec` of `Cstubs_emit_c` and its
copy in `Cbuf_emit_c`, and the printed types of their functions. Each printer
has a list of parameters of its own: that of function types leaves parameters
of type `void` out, that of headers only a single one.
-/

namespace CtypesCbuf.Cbuf.EmitC

open CDeclaration
open NameSupply Supply
open Ctypes hiding Fn
open CLanguage GenerateC
open Ctypes.TypePrinting hiding formatParameterList

/-- The headers of an inverted stub: `inverse_fn_decl` prints the declaration that
`inverse_fn` gives to its definition. -/
inductive HeaderOf (name : String) (fn : Ctypes.Fn) (dec : CFundec) : Prop
  | prototype {n m : Nat} : fundec name (.ofCtypes fn) n = .ok (dec, m) → HeaderOf name fn dec
  | definition {runtimeLock : Bool} {n m : Nat} {d : CFundef} :
      inverseFn name runtimeLock (.ofCtypes fn) n = .ok (d, m) → d.dec = dec →
      HeaderOf name fn dec

theorem HeaderOf.fundec_eq {name : String} {fn : Ctypes.Fn} {dec : CFundec}
    (h : HeaderOf name fn dec) : ∃ n m, fundec name (.ofCtypes fn) n = .ok (dec, m) := by
  cases h with
  | prototype h => exact ⟨_, _, h⟩
  | @definition runtimeLock n m d h hd =>
      rw [inverseFn, bind_eq_ok] at h
      obtain ⟨dec', m', hdec, h⟩ := h
      have hsame : d.dec = dec' := by
        cases hret : dec'.ret with
        | bufTy b => simp [hret] at h
        | ty rtyp =>
            simp only [hret] at h
            obtain ⟨call, m1, -, h⟩ := bind_eq_ok.mp h
            obtain ⟨body, m2, -, h⟩ := bind_eq_ok.mp h
            obtain ⟨frame, m3, -, h⟩ := bind_eq_ok.mp h
            obtain ⟨c, m4, -, h⟩ := bind_eq_ok.mp h
            obtain ⟨w, m5, -, h⟩ := bind_eq_ok.mp h
            obtain ⟨rfl, -⟩ : _ = d ∧ m5 = m := by simpa using h
            rfl
      exact ⟨n, m', by rw [hdec, ← hd, hsame]⟩

section Reading

variable {isTypedef : String → Bool} {views : ViewFormats} {viewType : ViewId → CType}

/-! ### Lists of parameters -/

theorem comma_brk : Comma [.text ",", .brk, .box] := fun h =>
  ⟨@Lexes.symbol _ _ h.box.brk "," [] ',' rfl (by decide),
    @separate_text "," ',' [] rfl (by decide) _⟩

theorem mapM_formatArg (views : ViewFormats) (qs : List (String × Typ)) :
    (qs.map fun q => (q.1, Ty.ty q.2)).mapM (formatArg views) =
      .ok (qs.map fun q => formatTyp views (some q.1) q.2) := by
  induction qs with
  | nil => rfl
  | cons q qs ih =>
      rw [List.map_cons, List.mapM_cons, ih]
      rfl

theorem hasBrace_formatArg {q : String × Typ} (hname : IsName q.1)
    (ht : Spelled isTypedef views viewType q.2) :
    HasBrace (formatTyp views (some q.1) q.2) ↔ Defines views q.2 .toplevel := by
  have hk : ∀ _ : FormatContext, HasBrace (formatName (some q.1)) ↔ False := by
    intro _
    have h := hname.no_brace
    simp [formatName, h]
  rw [formatTyp, hasBrace_box, hasBrace_formatTyp' q.2 ht hk, or_false]

/-- Every parameter is printed with its name. -/
theorem printParams_named {qs : List (String × Typ)} (hnames : ∀ q ∈ qs, IsName q.1)
    (hspelled : ∀ q ∈ qs, Spelled isTypedef views viewType q.2)
    (hdef : ∀ q ∈ qs, ¬ Defines views q.2 .toplevel) :
    PrintParams isTypedef (qs.map fun q => formatTyp views (some q.1) q.2)
      (qs.map fun q => (some q.1, declaredType views viewType q.2)) := by
  induction qs with
  | nil => exact .nil
  | cons q qs ih =>
      obtain ⟨hname, hnames⟩ := List.forall_mem_cons.mp hnames
      obtain ⟨ht, hspelled⟩ := List.forall_mem_cons.mp hspelled
      obtain ⟨hd, hdef⟩ := List.forall_mem_cons.mp hdef
      have hq := formatTyp'_typed q.2 ht hd (printsDirect_name hname).inner
      exact .cons hq.box.declaration (ih hnames hspelled hdef)

theorem printParams_cons {ps : List Piece} {pss : List (List Piece)} {q : Option String × CType}
    {qs : List (Option String × CType)} (h : PrintParams isTypedef (ps :: pss) (q :: qs)) :
    PrintsDeclaration isTypedef ps q ∧ PrintParams isTypedef pss qs := by
  cases h with
  | cons hps hpss => exact ⟨hps, hpss⟩

/-- A list of parameters behind the name of a function. -/
theorem printsDirect_function {name : String} (hname : IsName name) {rest : List Piece}
    {P : List Token} {qs : List (Option String × CType)}
    (hlex : Lexes rest (Token.symbol '(' :: (P ++ [Token.symbol ')']))) (hsep : Separate rest)
    (hP : Params isTypedef P qs) :
    PrintsDirect isTypedef (Piece.text (" " ++ name) :: rest)
      fun t => (some name, .function t (.parameters qs)) := by
  have hdirect := (@direct_word isTypedef _ hname.not_keyword).function (List.cons_ne_nil _ _) hP
  exact ⟨separate_name name _, _, lexes_name hname hlex hsep, hdirect⟩

theorem lexes_void : Lexes [.text "(void)"] [.symbol '(', .word "void", .symbol ')'] :=
  @Lexes.symbol _ _ lexes_nil "(void)" "(void".toList ')' (by decide) (by decide)

theorem separate_void : Separate [.text "(void)"] := @separate_text "(void)" '(' _ rfl (by decide) _

theorem params_void : Params isTypedef [.word "void"] [(none, .words ["void"])] :=
  (specifies_void.declaration direct_nil.declares).last

variable (views viewType) in
/-- The parameters of a header. Only the list that is `void` and nothing else is
printed without it. -/
def headerParams : List Typ → CTypes
  | [.void] => .nil
  | ps => .ofList (ps.map (declaredType views viewType))

theorem headerParams_named {qs : List (String × Typ)} (h : ∀ x, qs ≠ [(x, .void)]) :
    CTypes.parameters (qs.map fun q => (some q.1, declaredType views viewType q.2)) =
      headerParams views viewType (qs.map Prod.snd) := by
  have hnamed : qs.map (fun q => (some q.1, declaredType views viewType q.2)) ≠
      [(none, .words ["void"])] := by
    cases qs with
    | nil => exact (List.cons_ne_nil _ _).symm
    | cons q qs => simp
  have hvoid : qs.map Prod.snd ≠ [.void] := by
    intro hq
    obtain ⟨⟨x, t⟩, rfl, ht⟩ := List.map_eq_singleton_iff.mp hq
    exact h x (by rw [show t = .void from ht])
  rw [CTypes.parameters_of_ne hnamed, headerParams]
  · simp [Function.comp_def]
  · exact hvoid

/-- What `format_parameter_list` prints behind the name of a function. -/
theorem formatParameterList_reads {name : String} (hname : IsName name)
    {qs : List (String × Typ)} (hnames : ∀ q ∈ qs, IsName q.1)
    (hspelled : ∀ q ∈ qs, Spelled isTypedef views viewType q.2) :
    ∃ ps, formatParameterList views (qs.map fun q => (q.1, .ty q.2)) (formatName (some name)) =
        .ok ps ∧
      (HasBrace ps ↔ ∃ q ∈ qs, Defines views q.2 .toplevel) ∧
      ((∀ q ∈ qs, ¬ Defines views q.2 .toplevel) → PrintsDirect isTypedef ps
        fun t => (some name, .function t (headerParams views viewType (qs.map Prod.snd)))) := by
  have hbrace := hname.no_brace
  unfold formatParameterList
  split
  · next h =>
      obtain rfl : qs = [] := by simpa using h
      exact ⟨_, rfl, by simp [formatName, hbrace],
        fun _ => printsDirect_function hname lexes_void separate_void params_void⟩
  · next x h =>
      obtain ⟨y, rfl⟩ : ∃ y, qs = [(y, .void)] := by
        cases qs with
        | nil => simp at h
        | cons q qs => exact ⟨q.1, by simp_all [Prod.ext_iff]⟩
      have hdirect := @printsDirect_function isTypedef name hname _ _ _ lexes_void.box
        separate_void.box params_void
      exact ⟨_, rfl, by simp [formatName, hbrace, Defines], fun _ => hdirect.box⟩
  · next hne hvoid =>
      have hsep : ¬ HasBrace [.text ",", .brk, .box] := by simp
      have hargs : (∃ ps ∈ qs.map fun q => formatTyp views (some q.1) q.2, HasBrace ps) ↔
          ∃ q ∈ qs, Defines views q.2 .toplevel := by
        simp only [List.mem_map, exists_exists_and_eq_and]
        exact exists_congr fun q => and_congr_right fun hq =>
          hasBrace_formatArg (hnames q hq) (hspelled q hq)
      rw [mapM_formatArg]
      refine ⟨_, rfl, ?_, fun hdef => ?_⟩
      · rw [← hargs, ← hasBrace_intercalate hsep]
        simp [formatName, hbrace, formatSeq]
      · rw [← headerParams_named]
        · cases qs with
          | nil => exact absurd rfl hne
          | cons q qs =>
              obtain ⟨⟨D, hlexD, hD⟩, hqs⟩ :=
                printParams_cons (printParams_named hnames hspelled hdef)
              obtain ⟨P, hlexP, hP⟩ := hqs.intercalate comma_brk hlexD hD
              have hopen : Separate (.box :: .text "(" :: .box :: .box ::
                  (List.intercalate [Piece.text ",", .brk, .box]
                    ((q :: qs).map fun q => formatTyp views (some q.1) q.2) ++ [Piece.text ")"])) :=
                (@separate_text "(" '(' [] rfl (by decide) _).box
              have hdirect := printsDirect_function hname hlexP.parameters.box hopen hP
              simpa [formatName, formatSeq] using hdirect.box
        · rintro x rfl
          exact hvoid x rfl

/-- A header declares the function of its parameters and its result. -/
theorem cfundec_reads {name : String} (hname : IsName name) {qs : List (String × Typ)}
    (hnames : ∀ q ∈ qs, IsName q.1)
    (hspelled : ∀ q ∈ qs, Spelled isTypedef views viewType q.2) {r : Typ}
    (hr : Spelled isTypedef views viewType r) :
    ∃ ps, cfundec views { name, params := qs.map fun q => (q.1, .ty q.2), ret := .ty r } = .ok ps ∧
      (HasBrace ps ↔ Defines views r .nonarray ∨ ∃ q ∈ qs, Defines views q.2 .toplevel) ∧
      (¬ HasBrace ps → PrintsDeclaration isTypedef ps (some name,
        .function (declaredType views viewType r)
          (headerParams views viewType (qs.map Prod.snd)))) := by
  obtain ⟨ps, hps, hbrace, hdirect⟩ := formatParameterList_reads hname hnames hspelled
  have hheader := hasBrace_formatTyp' r hr (fun _ => hbrace) .nonarray
  refine ⟨formatTyp' views r (fun _ => ps) .nonarray, ?_, hheader, fun hno => ?_⟩
  · rw [cfundec]
    simp only [hps]
    rfl
  · rw [hheader, not_or, not_exists] at hno
    have hdef : ∀ q ∈ qs, ¬ Defines views q.2 .toplevel := fun q hq hdef => hno.2 q ⟨hq, hdef⟩
    exact (formatTyp'_typed r hr hno.1 (hdirect hdef).inner).declaration

/-! ### Parameters and result of a function type -/

theorem exists_result (fn : Ctypes.Fn) (hfn : SpelledFn isTypedef views viewType fn) :
    ∃ r, returnType (.ofCtypes fn) = .ty r ∧ Spelled isTypedef views viewType r ∧
      declaredResult views viewType fn = declaredType views viewType r ∧
      (DefinesResult views fn ↔ Defines views r .nonarray) := by
  cases fn with
  | returns t => exact ⟨t, rfl, hfn, rfl, Iff.rfl⟩
  | function f t => exact exists_result t hfn.2

theorem spelled_arguments (fn : Ctypes.Fn) (hfn : SpelledFn isTypedef views viewType fn) :
    ∀ p ∈ (Fn.ofCtypes fn).arguments, Spelled isTypedef views viewType p := by
  cases fn with
  | returns t => exact List.forall_mem_nil _
  | function f t => exact List.forall_mem_cons.mpr ⟨hfn.1, spelled_arguments t hfn.2⟩

theorem definesParams_iff (fn : Ctypes.Fn) :
    DefinesParams views fn ↔ ∃ p ∈ (Fn.ofCtypes fn).arguments, Defines views p .nonarray := by
  cases fn with
  | returns t => exact iff_of_false id (by simp [Fn.ofCtypes, Fn.arguments])
  | function f t =>
      rw [DefinesParams, definesParams_iff t, Fn.ofCtypes, Fn.arguments]
      simp

theorem declaredParams_of_ne (fn : Ctypes.Fn)
    (hfn : ∀ p ∈ (Fn.ofCtypes fn).arguments, p ≠ .void) :
    declaredParams views viewType fn =
      .ofList ((Fn.ofCtypes fn).arguments.map (declaredType views viewType)) := by
  cases fn with
  | returns t => rfl
  | function f t =>
      obtain ⟨hf, ht⟩ := List.forall_mem_cons.mp hfn
      have hcons : declaredParams views viewType (.function f t) =
          .cons (declaredType views viewType f) (declaredParams views viewType t) := by
        rw [declaredParams]
        exact hf
      rw [hcons, declaredParams_of_ne t ht]
      rfl

theorem printsParams_iff_arguments (fn : Ctypes.Fn) : PrintsParams views viewType fn ↔
    ∀ p ∈ (Fn.ofCtypes fn).arguments, PrintsType views viewType p := by
  cases fn with
  | returns t => exact iff_of_true trivial (List.forall_mem_nil _)
  | function f t =>
      rw [PrintsParams, printsParams_iff_arguments t, Fn.ofCtypes, Fn.arguments,
        List.forall_mem_cons]

variable (views viewType) in
/-- `void` is the only parameter, or no parameter is printed as `void`. -/
def OnlyVoid (ps : List Typ) : Prop := ps = [.void] ∨ ∀ p ∈ ps, ¬ PrintsVoid views viewType p

/-- A header has parameters that a function of C can have. -/
theorem wellFormed_headerParams {ps : List Typ}
    (hps : ∀ p ∈ ps, Spelled isTypedef views viewType p) :
    (headerParams views viewType ps).NoVoid ∧ (headerParams views viewType ps).WellFormed ↔
      OnlyVoid views viewType ps ∧ ∀ p ∈ ps, PrintsType views viewType p := by
  by_cases hsingle : ps = [.void]
  · subst hsingle
    exact iff_of_true ⟨trivial, trivial⟩ ⟨.inl rfl, by simp [PrintsType]⟩
  · have hparams : headerParams views viewType ps =
        .ofList (ps.map (declaredType views viewType)) := by
      rw [headerParams]
      exact hsingle
    rw [hparams, CTypes.noVoid_ofList, CTypes.wellFormed_ofList, List.forall_mem_map,
      List.forall_mem_map, OnlyVoid, or_iff_right hsingle]
    exact and_congr
      (forall₂_congr fun p hp => not_congr (declaredType_eq_void_iff p (hps p hp)))
      (forall₂_congr fun p hp => wellFormed_declaredType p (hps p hp))

/-- Both lists of parameters have the same types, when `void` stands alone or
not at all. -/
theorem headerParams_eq {fn : Ctypes.Fn}
    (hvoid : OnlyVoid views viewType (Fn.ofCtypes fn).arguments)
    (hnovoid : (headerParams views viewType (Fn.ofCtypes fn).arguments).NoVoid) :
    CTypes.parameters (declaredParams views viewType fn).unnamed =
      headerParams views viewType (Fn.ofCtypes fn).arguments := by
  rcases hvoid with hvoid | hvoid
  · match fn, hvoid with
    | .function .void (.returns t), _ => rfl
  · have hlit : ∀ p ∈ (Fn.ofCtypes fn).arguments, p ≠ .void := by
      rintro p hp rfl
      exact hvoid _ hp trivial
    have hparams : headerParams views viewType (Fn.ofCtypes fn).arguments =
        .ofList ((Fn.ofCtypes fn).arguments.map (declaredType views viewType)) := by
      rw [headerParams]
      intro hsingle
      exact hlit .void (by rw [hsingle]; exact List.mem_singleton_self _) rfl
    rw [declaredParams_of_ne fn hlit, ← hparams, hnovoid.parameters_unnamed]

variable (isTypedef views) in
/-- The header of an inverted stub and the printed type of its function denote
one type. -/
def AgreesWithPrinted (name : String) (fn : Ctypes.Fn) (dec : CFundec) : Prop :=
  ∃ ps r cs, cfundec views dec = .ok ps ∧ DenotesFunction isTypedef ps (some name) r cs ∧
    DenotesFunction isTypedef (formatFn views none fn) none r cs

/-- A header agrees with the printed type iff no parameter is printed as `void`,
except for a single `void`, every text inside is one of a type that C has, and
nothing is printed with its members. -/
theorem header_agrees_iff {name : String} (hname : IsName name) {fn : Ctypes.Fn}
    (hfn : SpelledFn isTypedef views viewType fn) {dec : CFundec} (hdec : HeaderOf name fn dec) :
    AgreesWithPrinted isTypedef views name fn dec ↔
      OnlyVoid views viewType (Fn.ofCtypes fn).arguments ∧
      (PrintsParams views viewType fn ∧ PrintsResult views viewType fn) ∧
      (∀ p ∈ (Fn.ofCtypes fn).arguments, ¬ Defines views p .toplevel) ∧
      ¬ DefinesResult views fn := by
  obtain ⟨n, m, hdec⟩ := hdec.fundec_eq
  rw [fundec, bind_eq_ok] at hdec
  obtain ⟨ps, m', hargs, hdec⟩ := hdec
  obtain ⟨qs, rfl, hqs, hfresh⟩ := args_eq_ok hargs
  obtain ⟨r, hr, hspelledr, hresult, hdefr⟩ := exists_result fn hfn
  obtain ⟨rfl, -⟩ : { name, params := qs.map fun q => (q.1, .ty q.2), ret := .ty r } = dec ∧
      m' = m := by simpa [hr] using hdec
  have hspelled : ∀ q ∈ qs, Spelled isTypedef views viewType q.2 := fun q hq =>
    spelled_arguments fn hfn q.2 (hqs ▸ List.mem_map_of_mem hq)
  have hnames : ∀ q ∈ qs, IsName q.1 := by
    intro q hq
    obtain ⟨j, -, -, hj⟩ := hfresh.drawn q.1 (List.mem_map_of_mem hq)
    exact hj ▸ isName_numbered j
  obtain ⟨ps, hps, hbrace, hheader⟩ := cfundec_reads hname hnames hspelled hspelledr
  rw [hqs] at hheader
  have hdefs : (∃ q ∈ qs, Defines views q.2 .toplevel) ↔
      ∃ p ∈ (Fn.ofCtypes fn).arguments, Defines views p .toplevel := by
    rw [← hqs]
    simp only [List.mem_map, exists_exists_and_eq_and]
  rw [hdefs, ← hdefr] at hbrace
  have hparams := wellFormed_headerParams (spelled_arguments fn hfn)
  have hreturned := (wellFormed_declaredFn fn hfn).2
  rw [← printsParams_iff_arguments] at hparams
  rw [hresult] at hreturned
  constructor
  · rintro ⟨ps', r', cs, hps', hdenotes, -⟩
    obtain rfl : ps = ps' := Except.ok.inj (hps.symm.trans hps')
    have hno := hdenotes.not_hasBrace
    obtain ⟨-, -, hret, hlist⟩ := ((hheader hno).denotes_iff hno r' cs).mp hdenotes
    obtain ⟨hvoid, hprints⟩ := hparams.mp hlist
    rw [hbrace] at hno
    exact ⟨hvoid, ⟨hprints, hreturned.mp hret⟩, fun p hp hdef => hno (Or.inr ⟨p, hp, hdef⟩),
      fun hdef => hno (Or.inl hdef)⟩
  · rintro ⟨hvoid, ⟨hprints, hret⟩, hdef, hdefr'⟩
    have hno : ¬ HasBrace ps := by
      rw [hbrace]
      rintro (h | ⟨p, hp, h⟩)
      · exact hdefr' h
      · exact hdef p hp h
    have hprinted : ¬ (DefinesResult views fn ∨ DefinesParams views fn) := by
      rw [definesParams_iff]
      rintro (h | ⟨p, hp, h⟩)
      · exact hdefr' h
      · exact hdef p hp h.toplevel
    have hlist := hparams.mpr ⟨hvoid, hprints⟩
    have hformed : (CType.function (declaredType views viewType r)
        (headerParams views viewType (Fn.ofCtypes fn).arguments)).WellFormed :=
      ⟨hreturned.mpr hret, hlist⟩
    have hdecl := formatFn_declaration hfn hprinted
    rw [headerParams_eq hvoid hlist.1, hresult] at hdecl
    exact ⟨ps, _, _, hps, ((hheader hno).denotes_iff hno _ _).mpr ⟨rfl, rfl, hformed⟩,
      (hdecl.denotes_iff ((hasBrace_formatFn hfn).not.mpr hprinted) _ _).mpr ⟨rfl, rfl, hformed⟩⟩

end Reading

/-- `point_t` is a view of a structure without a tag, with a format of its own. -/
theorem header_agrees_iff_typedef :
    let views : ViewFormats := fun v => if v = 0 then some fun ps => .text "point_t" :: ps else none
    let fn : Ctypes.Fn := .function (.view 0 (.struct "" (.complete 16 8) .nil))
      (.function (.funptr (.function .void (.function int (.returns .void))))
        (.returns (.funptr (.function (.pointer .void) (.returns .void)))))
    ∃ dec, HeaderOf "f" fn dec ∧ AgreesWithPrinted (fun w => w == "point_t") views "f" fn dec := by
  intro views fn
  have hname : IsName "f" := by decide
  have hscope : NamesType (fun w => w == "point_t") "point_t" := by decide
  have hint : NamesType (fun w => w == "point_t") (primName .int) := by decide
  have hfn : SpelledFn (fun w => w == "point_t") views (fun _ => .words ["point_t"]) fn :=
    ⟨formatReads_name (by decide) hscope, ⟨trivial, hint, trivial⟩, trivial, trivial⟩
  obtain ⟨dec, m, hdec⟩ : ∃ dec m, fundec "f" (.ofCtypes fn) 0 = .ok (dec, m) := ⟨_, _, rfl⟩
  refine ⟨dec, .prototype hdec, (header_agrees_iff hname hfn (.prototype hdec)).mpr
    ⟨Or.inr ?_, ⟨?_, ?_⟩, ?_, ?_⟩⟩
  · simp [fn, views, Fn.ofCtypes, Fn.arguments, PrintsVoid]
  · simp [fn, views, PrintsParams, PrintsType, PrintsResult, VoidAlone, gather, int,
      CType.WellFormed, CType.IsReturned, declaredType, cType]
  · simp [fn, PrintsParams, PrintsType, PrintsResult, VoidAlone, gather, CType.IsReturned,
      declaredType, cType]
  · simp [fn, views, Fn.ofCtypes, Fn.arguments, Defines, DefinesParams, DefinesResult, int]
  · simp [fn, Defines, DefinesParams, DefinesResult]

/-- `void @-> int @-> returning int` is printed as `int(int)`, and its prototype as
`int f(void x2, int x1)`. -/
theorem voidFirst_not_agrees :
    ∃ dec, HeaderOf "f" (.function .void (.function int (.returns int))) dec ∧
      ¬ AgreesWithPrinted (fun _ => false) (fun _ => none) "f"
        (.function .void (.function int (.returns int))) dec := by
  have hname : IsName "f" := by decide
  have hnames : ∀ q ∈ [("x2", Typ.void), ("x1", int)], IsName q.1 := by decide
  have hint : Spelled (fun _ => false) (fun _ => none) (fun _ => .words []) int := by
    show NamesType _ (primName .int)
    decide
  have hspelled : ∀ q ∈ [("x2", Typ.void), ("x1", int)],
      Spelled (fun _ => false) (fun _ => none) (fun _ => .words []) q.2 := by
    simpa using ⟨trivial, hint⟩
  obtain ⟨ps, hps, hbrace, hheader⟩ := cfundec_reads hname hnames hspelled hint
  refine ⟨_, .prototype (n := 0) rfl, ?_⟩
  rintro ⟨ps', r, cs, hps', hdenotes, -⟩
  obtain rfl : ps = ps' := Except.ok.inj (hps.symm.trans hps')
  have hno := hdenotes.not_hasBrace
  obtain ⟨-, -, -, hnovoid, -⟩ := ((hheader hno).denotes_iff hno r cs).mp hdenotes
  exact hnovoid.1 rfl

end CtypesCbuf.Cbuf.EmitC
