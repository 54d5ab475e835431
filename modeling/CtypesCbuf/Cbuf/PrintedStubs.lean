import CtypesCbuf.Cbuf.EmitC
import CtypesCbuf.Cbuf.Layout

/-!
The definitions of structures and unions in printed stubs. A local is printed
by its tag only when its type is a structure or a union itself, and a
parameter is printed in the top-level context, so some of the types that lead
to a complete structure are printed with its members.
-/

namespace CtypesCbuf.Cbuf.EmitC

open NameSupply Supply
open Ctypes hiding Fn
open CLanguage Stubs GenerateC
open Ctypes.TypePrinting

/-! ### Printed code -/

def Prints (r : Emit) (ds : List Piece) : Prop := ∃ ps, r = .ok ps ∧ definitions ps = ds

theorem prints_ok (ps : List Piece) : Prints (.ok ps) (definitions ps) := ⟨ps, rfl, rfl⟩

theorem Prints.bind {r : Emit} {ds ds' : List Piece} (h : Prints r ds)
    {f : List Piece → Emit} (hf : ∀ ps, definitions ps = ds → Prints (f ps) ds') :
    Prints (r >>= f) ds' := by
  obtain ⟨ps, rfl, hps⟩ := h
  exact hf ps hps

def CastTy : Ty → Prop
  | .ty (.primitive _) | .ty (.pointer _) => True
  | _ => False

def SimpleExp : CExp → Prop
  | .cast ty e => CastTy ty ∧ SimpleExp e
  | _ => True

def SimpleEff : CEff → Prop
  | .exp e => SimpleExp e
  | .camlop (.camlLocalN e c) => SimpleExp e ∧ SimpleExp c
  | .camlop _ => True
  | .global _ => True
  | .app _ es => ∀ e ∈ es, SimpleExp e
  | .index e i => SimpleEff e ∧ SimpleExp i
  | .deref e => SimpleExp e
  | .derefField e _ => SimpleExp e

/-- The definition in the declaration of a local. Structures and unions are
declared by their tags. -/
def localHeading (views : ViewFormats) : Typ → List Piece
  | .view v ty => heading views (.view v ty)
  | _ => []

def bindHeading (views : ViewFormats) (b : CBind) : List Piece :=
  match b.1.2 with
  | .ty t => localHeading views t
  | .bufTy _ => []

/-- The bindings of generated stubs. -/
structure SimpleBind (b : CBind) : Prop where
  typ : ∃ t, b.1.2 = .ty t
  eff : SimpleEff b.2

section Printed

variable {views : ViewFormats} (hviews : PlainFormats views)

include hviews

theorem prints_formatTy {ty : Ty} (h : CastTy ty) : Prints (formatTy views ty) [] := by
  match ty, h with
  | .ty (.primitive p), _ => exact ⟨_, rfl, definitions_formatTyp hviews none _⟩
  | .ty (.pointer t), _ => exact ⟨_, rfl, definitions_formatTyp hviews none _⟩

theorem prints_cexp {e : CExp} (he : SimpleExp e) : Prints (cexp views e) [] := by
  induction e with
  | int i => exact prints_ok _
  | clocal x => exact prints_ok _
  | addr v => exact prints_ok _
  | cast ty e ih =>
      rw [cexp]
      split
      · exact ih he.2
      · refine (prints_formatTy hviews he.1).bind fun ps hps => ?_
        refine (ih he.2).bind fun qs hqs => ⟨_, rfl, ?_⟩
        simp [hps, hqs]

theorem prints_args {es : List CExp} (hes : ∀ e ∈ es, SimpleExp e) :
    ∃ pss, es.mapM (cexp views) = .ok pss ∧ ∀ ps ∈ pss, definitions ps = [] := by
  induction es with
  | nil => exact ⟨[], rfl, by simp⟩
  | cons e es ih =>
      obtain ⟨ps, he, hps⟩ := prints_cexp hviews (hes e (List.mem_cons_self ..))
      obtain ⟨pss, hrest, hpss⟩ := ih fun e he => hes e (List.mem_cons_of_mem _ he)
      refine ⟨ps :: pss, ?_, List.forall_mem_cons.mpr ⟨hps, hpss⟩⟩
      rw [List.mapM_cons, he, hrest]
      rfl

theorem prints_ceff {e : CEff} (he : SimpleEff e) : Prints (ceff views e) [] := by
  induction e with
  | exp e => exact prints_cexp hviews he
  | camlop o =>
      cases o with
      | camlParam0 => exact prints_ok _
      | camlDrop => exact prints_ok _
      | camlLocalN e c =>
          refine (prints_cexp hviews he.1).bind fun ps hps => ?_
          refine (prints_cexp hviews he.2).bind fun qs hqs => ⟨_, rfl, ?_⟩
          simp [hps, hqs]
  | global g => exact prints_ok _
  | app f es =>
      obtain ⟨pss, hes, hpss⟩ := prints_args hviews he
      have hargs : definitions (List.intercalate [.text ",", .brk]
          (pss.map fun arg => .box :: arg)) = [] := by
        rw [definitions_intercalate rfl]
        simpa using hpss
      rw [ceff, hes]
      refine ⟨_, rfl, ?_⟩
      simp [hargs]
  | index e i ih =>
      refine (ih he.1).bind fun ps hps => ?_
      refine (prints_cexp hviews he.2).bind fun qs hqs => ⟨_, rfl, ?_⟩
      simp [hps, hqs]
  | deref e =>
      refine (prints_cexp hviews he).bind fun ps hps => ⟨_, rfl, ?_⟩
      simp [hps]
  | derefField e f =>
      refine (prints_cexp hviews he).bind fun ps hps => ⟨_, rfl, ?_⟩
      simp [hps]

theorem prints_letBinding {b : CBind} (hb : SimpleBind b) :
    Prints (letBinding views b) (bindHeading views b) := by
  obtain ⟨⟨name, ty⟩, e⟩ := b
  obtain ⟨⟨t, rfl⟩, he⟩ := hb
  refine (prints_ceff hviews he).bind fun ps hps => ?_
  have hdeclared := definitions_formatTyp hviews (some name) t
  cases t with
  | void => exact ⟨_, rfl, by simp [hps, bindHeading, localHeading]⟩
  | struct tag spec fields =>
      exact ⟨_, rfl, by simp [hps, declaration, bindHeading, localHeading]⟩
  | union utag uspec ufields =>
      exact ⟨_, rfl, by simp [hps, declaration, bindHeading, localHeading]⟩
  | _ => exact ⟨_, rfl, by simp [hps, declaration, hdeclared, bindHeading, localHeading, heading]⟩

theorem prints_returnEff {e : CEff} (he : SimpleEff e) : Prints (returnEff views e) [] := by
  have hstatement : ∀ r : Emit, Prints r [] → Prints (returnStatement <$> r) [] := by
    rintro r ⟨ps, rfl, hps⟩
    exact ⟨_, rfl, by simp [returnStatement, hps]⟩
  cases e with
  | exp e =>
      rw [returnEff]
      split
      · exact prints_ok _
      · exact hstatement _ (prints_cexp hviews he)
  | _ => exact hstatement _ (prints_ceff hviews he)

theorem prints_eff {e : CEff} (he : SimpleEff e) : Prints (ccomp views (.eff e)) [] := by
  rw [ccomp]
  exact prints_returnEff hviews he

/-- Code that does not end in an expression declares all its locals. -/
theorem prints_letIn {b : CBind} (hb : SimpleBind b) {c : CComp} {ds : List Piece}
    (hc : Prints (ccomp views c) ds) (hne : ∀ v, c ≠ .eff (.exp v)) :
    Prints (ccomp views (.letIn b c)) (bindHeading views b ++ ds) := by
  rw [ccomp]
  · refine (prints_letBinding hviews hb).bind fun ps hps => ?_
    refine hc.bind fun qs hqs => ⟨_, rfl, ?_⟩
    simp [hps, hqs]
  · exact hne

omit hviews in
theorem prints_letConst (x : CLocal) (i : Int) {c : CComp} {ds : List Piece}
    (hc : Prints (ccomp views c) ds) : Prints (ccomp views (.letConst x i c)) ds := by
  refine hc.bind fun ps hps => ⟨_, rfl, ?_⟩
  simp [hps]

omit hviews in
theorem prints_var (v : CVar) : Prints (clvalue views (.var v)) [] := ⟨_, rfl, rfl⟩

theorem prints_letAssign {lv : CLvalue} (hlv : Prints (clvalue views lv) []) {e : CEff}
    (he : SimpleEff e) {c : CComp} {ds : List Piece} (hc : Prints (ccomp views c) ds) :
    Prints (ccomp views (.letAssign lv e c)) ds := by
  refine hlv.bind fun ls hls => ?_
  refine (prints_ceff hviews he).bind fun ps hps => ?_
  refine hc.bind fun qs hqs => ⟨_, rfl, ?_⟩
  simp [hls, hps, hqs]

theorem prints_lets {bs : List CBind} (hbs : ∀ b ∈ bs, SimpleBind b) {c : CComp}
    {ds : List Piece} (hc : Prints (ccomp views c) ds) (hne : ∀ v, c ≠ .eff (.exp v)) :
    Prints (ccomp views (CComp.lets bs c)) (bs.flatMap (bindHeading views) ++ ds) := by
  induction bs with
  | nil => exact hc
  | cons b bs ih =>
      have hrest := ih fun b hb => hbs b (List.mem_cons_of_mem _ hb)
      have hne' : ∀ v, CComp.lets bs c ≠ .eff (.exp v) := by
        cases bs with
        | nil => exact hne
        | cons b' bs => simp
      rw [List.flatMap_cons, List.append_assoc]
      exact prints_letIn hviews (hbs b (List.mem_cons_self ..)) hrest hne'

theorem prints_formatArgs (ps : List (String × Typ)) :
    ∃ pss, (ps.map fun p => (p.1, Ty.ty p.2)).mapM (formatArg views) = .ok pss ∧
      pss.flatMap definitions = ps.flatMap fun p => heading views p.2 := by
  induction ps with
  | nil => exact ⟨[], rfl, rfl⟩
  | cons p ps ih =>
      obtain ⟨pss, hrest, hpss⟩ := ih
      refine ⟨formatTyp views (some p.1) p.2 :: pss, ?_, ?_⟩
      · rw [List.map_cons, List.mapM_cons, hrest]
        rfl
      · rw [List.flatMap_cons, List.flatMap_cons, hpss, definitions_formatTyp hviews]

/-- The parameters are printed in the top-level context. -/
theorem prints_formatParameterList (ps : List (String × Typ)) (k : List Piece) :
    Prints (formatParameterList views (ps.map fun p => (p.1, .ty p.2)) k)
      (definitions k ++ ps.flatMap fun p => heading views p.2) := by
  obtain ⟨pss, hargs, hpss⟩ := prints_formatArgs hviews ps
  unfold formatParameterList
  split
  · next h =>
      obtain rfl : ps = [] := by simpa using h
      exact ⟨_, rfl, by simp⟩
  · next x h =>
      obtain ⟨name, rfl⟩ : ∃ name, ps = [(name, .void)] := by
        cases ps with
        | nil => simp at h
        | cons p ps => exact ⟨p.1, by simp_all [Prod.ext_iff]⟩
      exact ⟨_, rfl, by simp [heading]⟩
  · have hseq : definitions (List.intercalate [.text ",", .brk, .box] pss) =
        ps.flatMap fun p => heading views p.2 := (definitions_intercalate rfl pss).trans hpss
    rw [hargs]
    exact ⟨_, rfl, by simp [formatSeq, hseq]⟩

theorem prints_cfundec (name : String) (ps : List (String × Typ)) (ret : Typ) :
    Prints (cfundec views { name, params := ps.map fun p => (p.1, .ty p.2), ret := .ty ret })
      (ps.flatMap fun p => heading views p.2) := by
  refine (prints_formatParameterList hviews ps _).bind fun qs hqs => ⟨_, rfl, ?_⟩
  rw [definitions_formatTyp' hviews ret fun _ => hqs]
  simp [formatName]

omit hviews in
theorem prints_cfundef {d : CFundef} {ds ds' : List Piece} (hdec : Prints (cfundec views d.dec) ds)
    (hbody : Prints (ccomp views d.body) ds') : Prints (cfundef views d) (ds ++ ds') := by
  refine hdec.bind fun ps hps => ?_
  refine hbody.bind fun qs hqs => ⟨_, rfl, ?_⟩
  cases d.storage <;> simp [storageClass, hps, hqs]

end Printed

/-! ### Stubs -/

theorem heading_of_core (views : ViewFormats) {t : Typ}
    (hs : ∀ tag spec fields, t.core ≠ .struct tag spec fields)
    (hu : ∀ utag uspec ufields, t.core ≠ .union utag uspec ufields) : heading views t = [] := by
  induction t using Typ.core.induct with
  | case1 v ty ih =>
      rw [Typ.core_view] at hs hu
      rw [heading, ih hs hu, ite_self]
  | case2 t ht =>
      rw [Typ.core] at hs hu
      · unfold heading
        split <;> simp_all
      · exact ht
      · exact ht

theorem localHeading_of_core (views : ViewFormats) {t : Typ}
    (hs : ∀ tag spec fields, t.core ≠ .struct tag spec fields)
    (hu : ∀ utag uspec ufields, t.core ≠ .union utag uspec ufields) :
    localHeading views t = [] := by
  cases t with
  | view v ty => exact heading_of_core views hs hu
  | _ => rfl

structure PrintedBinds (views : ViewFormats) (bs : List CBind) (ds : List Piece) : Prop where
  simple : ∀ b ∈ bs, SimpleBind b
  headings : bs.flatMap (bindHeading views) = ds

theorem PrintedBinds.append {views : ViewFormats} {bs bs' : List CBind} {ds ds' : List Piece}
    (h : PrintedBinds views bs ds) (h' : PrintedBinds views bs' ds') :
    PrintedBinds views (bs ++ bs') (ds ++ ds') :=
  ⟨List.forall_mem_append.mpr ⟨h.simple, h'.simple⟩, by
    rw [List.flatMap_append, h.headings, h'.headings]⟩

theorem PrintedBinds.single (views : ViewFormats) (x : String) (t : Typ) {e : CEff}
    (he : SimpleEff e) : PrintedBinds views [((x, .ty t), e)] (localHeading views t) :=
  ⟨by simpa using ⟨⟨_, rfl⟩, he⟩, by simp [bindHeading]⟩

theorem projected_printed (views : ViewFormats) (f : Typ) {x : CExp} (hx : SimpleExp x) (n : Nat) :
    PrintedBinds views (projected f x n).binds (localHeading views f) ∧
      SimpleExp (projected f x n).arg := by
  have hread : ∀ g : CFunction, SimpleEff (.app g [x]) := fun g => by simpa [SimpleEff] using hx
  have hderef : ∀ y : CLocal, SimpleEff (.deref (.cast (.ty (ptr f)) (.clocal y))) :=
    fun y => ⟨trivial, trivial⟩
  rw [projected]
  cases hf : f.core with
  | primitive p =>
      rw [localHeading_of_core views (by simp [hf]) (by simp [hf])]
      exact ⟨PrintedBinds.single views _ (.primitive _) (hread _), trivial, trivial⟩
  | struct tag spec fields =>
      exact ⟨(PrintedBinds.single views _ (ptr .void) (hread _)).append
        (.single views _ f (hderef _)), trivial⟩
  | union utag uspec ufields =>
      exact ⟨(PrintedBinds.single views _ (ptr .void) (hread _)).append
        (.single views _ f (hderef _)), trivial⟩
  | ocaml o => cases o <;> exact ⟨.single views _ f (hread _), trivial⟩
  | _ => exact ⟨.single views _ f (hread _), trivial⟩

theorem localHeading_of_void (views : ViewFormats) {t : Typ} (ht : t.core = .void) :
    localHeading views t = [] :=
  localHeading_of_core views (by simp [ht]) (by simp [ht])

theorem simpleExp_arrange {cpos : CPosition} {vars bufvars : List CExp}
    (hvars : ∀ e ∈ vars, SimpleExp e) (hbufvars : ∀ e ∈ bufvars, SimpleExp e) :
    ∀ e ∈ arrange cpos vars bufvars, SimpleExp e := by
  cases cpos with
  | first => exact List.forall_mem_append.mpr ⟨hvars, hbufvars⟩
  | last => exact List.forall_mem_append.mpr ⟨hbufvars, hvars⟩

theorem layoutBuffers_printed (views : ViewFormats) (cpos : CPosition) {vars : List CExp}
    (hvars : ∀ e ∈ vars, SimpleExp e) (bufvars : List CExp) {b : NamedCBuffers} (n : Nat)
    (hbufvars : ∀ e ∈ bufvars, SimpleExp e) (hb : AcceptedBuffers b.spec) :
    PrintedBinds views (layoutBuffers cpos vars bufvars b n).binds
      (b.spec.types.flatMap (localHeading views)) ∧
    ∀ e ∈ (layoutBuffers cpos vars bufvars b n).vars, SimpleExp e := by
  induction bufvars, b using bodyForCbuffers.induct vars generalizing n with
  | case1 bufvars x i f =>
      obtain ⟨hbinds, harg⟩ := projected_printed views f (x := valueLocal x) trivial n
      rw [layoutBuffers]
      split
      · next hv =>
          refine ⟨⟨by simp, ?_⟩, simpleExp_arrange hvars hbufvars⟩
          simp [NamedCBuffers.spec, CBuffers.types, localHeading_of_void views hv]
      · refine ⟨?_, simpleExp_arrange hvars (List.forall_mem_cons.mpr ⟨harg, hbufvars⟩)⟩
        simpa [NamedCBuffers.spec, CBuffers.types] using hbinds
  | case2 bufvars x i f t ih1 ih2 =>
      obtain ⟨hbinds, harg⟩ := projected_printed views f (x := valueLocal x) trivial n
      obtain ⟨-, ht⟩ := hb
      rw [layoutBuffers]
      split
      · next hv =>
          have h := ih1 n hvars ht
          simpa [NamedCBuffers.spec, CBuffers.types, localHeading_of_void views hv] using h
      · obtain ⟨hrest, hvars'⟩ := ih2 _ (projected f (valueLocal x) n).next
          (List.forall_mem_cons.mpr ⟨harg, hbufvars⟩) ht
        exact ⟨hbinds.append hrest, hvars'⟩
  | case3 bufvars l r t => exact hb.elim

theorem layout_printed (views : ViewFormats) (vars : List CExp) {f : NamedFn} (n : Nat)
    (hvars : ∀ e ∈ vars, SimpleExp e) (hf : Accepted f.spec) :
    ∃ ds, PrintedBinds views (layout vars f n).binds ds ∧
      ds ++ localHeading views (layout vars f n).ret =
        f.spec.types.flatMap (localHeading views) ∧
      ∀ e ∈ (layout vars f n).vars, SimpleExp e := by
  induction f generalizing vars n with
  | returns t =>
      exact ⟨[], ⟨by simp [layout], rfl⟩, by simp [layout, NamedFn.spec, Fn.types], hvars⟩
  | function x f t ih =>
      obtain ⟨hbinds, harg⟩ := projected_printed views f (x := valueLocal x) trivial n
      rw [layout]
      split
      · next hv =>
          obtain ⟨ds, hrest, hds, hvars'⟩ := ih vars n hvars hf.2
          refine ⟨ds, hrest, ?_, hvars'⟩
          simpa [NamedFn.spec, Fn.types, localHeading_of_void views hv] using hds
      · obtain ⟨ds, hrest, hds, hvars'⟩ := ih _ (projected f (valueLocal x) n).next
          (List.forall_mem_cons.mpr ⟨harg, hvars⟩) hf.2
        refine ⟨_, hbinds.append hrest, ?_, hvars'⟩
        simpa [NamedFn.spec, Fn.types, Layout.after] using hds
  | buffers cpos b r ih =>
      obtain ⟨hbinds, hbufs⟩ := layoutBuffers_printed views cpos hvars [] n (by simp) hf.1
      obtain ⟨ds, hrest, hds, hvars'⟩ := ih _ _ hbufs hf.2
      refine ⟨_, hbinds.append hrest, ?_, hvars'⟩
      simpa [NamedFn.spec, Fn.types, layout, Layout.after] using hds

theorem simpleEff_injection {x : CLocal} {t : Typ} {i : CEff} (h : Injection x t i) :
    SimpleEff i := by
  cases h <;> simp [SimpleEff, SimpleExp, CastTy, valUnit, fromPtr]

theorem argvBinds_printed (views : ViewFormats) (k n : Nat) :
    PrintedBinds views (argvBinds k n) [] := by
  induction k generalizing n with
  | zero => exact ⟨by simp [argvBinds], rfl⟩
  | succ k ih =>
      have hread : SimpleEff (.index (.exp (.clocal argv)) (.int k)) := ⟨trivial, trivial⟩
      exact (PrintedBinds.single views _ value hread).append (ih (n + 1))

theorem argvArgs_simple (k n : Nat) : ∀ e ∈ argvArgs k n, SimpleExp e := by
  induction k generalizing n with
  | zero => simp [argvArgs]
  | succ k ih =>
      exact List.forall_mem_append.mpr ⟨ih (n + 1), by simp [Stubs.valueLocal, SimpleExp]⟩

def NamesByTag (views : ViewFormats) (d : CFundef) : Prop := Prints (cfundef views d) []

/-- A complete structure or union with a tag, or a chain of views of one that
are printed as what they view. -/
def ReachesBody (views : ViewFormats) : Typ → Prop
  | .struct tag (.complete _ _) _ => tag ≠ ""
  | .union utag (some _) _ => utag ≠ ""
  | .view v ty => views v = none ∧ ReachesBody views ty
  | _ => False

def ViewOfBody (views : ViewFormats) : Typ → Prop
  | .view v ty => ReachesBody views (.view v ty)
  | _ => False

section Stubs

variable {views : ViewFormats} (hviews : PlainFormats views)

include hviews

theorem prints_callTail (errno_ : ErrnoPolicy) (fvar : CFunction) {vars : List CExp}
    (hvars : ∀ e ∈ vars, SimpleExp e) {t : Typ} {i : CEff} {n : Nat}
    (hi : Injection (freshName (n + 1), .ty t) t.core i) :
    Prints (ccomp views (callTail errno_ fvar vars t i n)) (localHeading views t) := by
  have hcall : SimpleBind ((freshName (n + 1), .ty t), .app fvar vars.reverse) :=
    ⟨⟨t, rfl⟩, by simpa [SimpleEff] using hvars⟩
  have hne : ∀ v, CComp.eff i ≠ .eff (.exp v) := by
    intro v hv
    exact hi.ne_exp v (CComp.eff.inj hv)
  have hsimple : SimpleEff i := simpleEff_injection hi
  cases errno_ with
  | ignoreErrno =>
      have h := prints_letIn hviews hcall (prints_eff hviews hsimple) hne
      simpa [callTail, bindHeading] using h
  | returnErrno =>
      have hpair :
          Prints (ccomp views (pairWithErrno (.clocal (freshName (n + 2), .ty value)))) [] :=
        prints_eff hviews (by simp [pairWithErrno, SimpleEff, SimpleExp])
      have hv : SimpleBind ((freshName (n + 2), .ty value), i) := ⟨⟨value, rfl⟩, hsimple⟩
      have hinj := prints_letIn hviews hv hpair (by simp [pairWithErrno])
      have h := prints_letAssign hviews (prints_var (.global errno)) (e := .exp (.int 0)) trivial
        (prints_letIn hviews hcall hinj (by simp))
      simpa [callTail, bindHeading, localHeading, value] using h

theorem prints_valueDec {name : String} {ps : List (String × Ty)}
    (hps : ∀ p ∈ ps, p.2 = .ty value) :
    Prints (cfundec views { name, params := ps, ret := .ty value }) [] := by
  have hmap : ps = (ps.map fun p => (p.1, value)).map fun p => (p.1, Ty.ty p.2) := by
    rw [List.map_map]
    refine (List.map_id _).symm.trans (List.map_congr_left fun p hp => ?_)
    exact Prod.ext rfl (hps p hp)
  have hnone : (ps.map fun p => (p.1, value)).flatMap (fun p => heading views p.2) = [] := by
    refine List.flatMap_eq_nil_iff.mpr fun p hp => ?_
    obtain ⟨q, -, rfl⟩ := List.mem_map.mp hp
    rfl
  rw [hmap, ← hnone]
  exact prints_cfundec hviews _ _ _

/-- The definitions in a printed stub are those of its locals. -/
theorem prints_stub {errno_ : ErrnoPolicy} {cname stubName : String} {f : Fn} {n n1 : Nat}
    {d : CFundef} {f' : NamedFn} {i : CEff} (hf : Accepted f)
    (hd : StubOf errno_ cname stubName f n d f' n1 i) :
    Prints (cfundef views d) (f.types.flatMap (localHeading views)) := by
  obtain ⟨ds, hbinds, hds, hvars⟩ := layout_printed views [] n1 (by simp)
    (hd.spec_eq ▸ hf : Accepted f'.spec)
  have htail := prints_callTail hviews errno_ (foreignFunction cname f) hvars
    (inj_injection hd.inj_eq)
  have hne : ∀ v, callTail errno_ (foreignFunction cname f) (layout [] f' n1).vars
      (layout [] f' n1).ret i (layout [] f' n1).next ≠ .eff (.exp v) := by
    cases errno_ <;> simp [callTail]
  have hbody := prints_lets hviews hbinds.simple htail hne
  rw [hbinds.headings, hds, hd.spec_eq] at hbody
  have hdec : Prints (cfundec views { name := stubName, params := valueParams f'
                                      ret := .ty value }) [] :=
    prints_valueDec hviews fun p hp => (mem_names_of_mem_valueParams hp).2
  rw [hd.def_eq]
  exact prints_cfundef (d := { dec := _, body := _, storage := .external }) hdec hbody

/-- A bytecode function has locals of type `value` only. -/
theorem prints_byteDef (fname : String) (f : Fn) (k n : Nat) :
    Prints (cfundef views (byteDef fname f k n)) [] := by
  have hdec : Prints (cfundec views (byteDef fname f k n).dec) [] :=
    prints_cfundec hviews _ [("argv", ptr value), ("argc", int)] value
  have hcall : Prints (ccomp views (.eff (.app
      { fname, allocates := true, readsOcamlHeap := true, fn := f } (argvArgs k n)))) [] :=
    prints_eff hviews (argvArgs_simple k n)
  have hbinds := argvBinds_printed views k n
  have hbody := prints_lets hviews hbinds.simple hcall (by simp)
  rw [hbinds.headings] at hbody
  exact prints_cfundef hdec hbody

/-! ### Inverted stubs -/

/-- Code whose definitions are `ds`, and which declares all its locals. -/
structure PrintedComp (views : ViewFormats) (c : CComp) (ds : List Piece) : Prop where
  prints : Prints (ccomp views c) ds
  ne_exp : ∀ v, c ≠ .eff (.exp v)

theorem PrintedComp.lets {bs : List CBind} {c : CComp} {ds ds' : List Piece}
    (hbs : PrintedBinds views bs ds) (hc : PrintedComp views c ds') :
    PrintedComp views (CComp.lets bs c) (ds ++ ds') := by
  refine ⟨?_, ?_⟩
  · rw [← hbs.headings]
    exact prints_lets hviews hbs.simple hc.prints hc.ne_exp
  · cases bs with
    | nil => exact hc.ne_exp
    | cons b bs => simp

theorem PrintedComp.bind (x : String) (t : Typ) {e : CEff} (he : SimpleEff e) {c : CComp}
    {ds : List Piece} (hc : PrintedComp views c ds) :
    PrintedComp views (.letIn ((x, .ty t), e) c) (localHeading views t ++ ds) :=
  PrintedComp.lets hviews (.single views x t he) hc

theorem PrintedComp.wrapIf {cond : Bool} {f : CFunction} {c d : CComp} {n m : Nat}
    {ds : List Piece} (hc : PrintedComp views c ds)
    (h : wrapIf cond (.eff (.app f [])) c n = .ok (d, m)) : PrintedComp views d ds := by
  cases cond with
  | false =>
      obtain ⟨rfl, -⟩ : c = d ∧ n = m := by simpa [GenerateC.wrapIf] using h
      exact hc
  | true =>
      have hnone : SimpleEff (.app f []) := by simp [SimpleEff]
      rw [GenerateC.wrapIf, if_pos rfl, andThen_eff (by simp)] at h
      obtain ⟨rfl, -⟩ : CComp.letIn ((freshName (n + 1), .ty .void), .app f []) c = d ∧
          n + 1 = m := by simpa using h
      exact PrintedComp.bind hviews _ .void hnone hc

/-- What follows the projection of the callback's result. -/
theorem inverseReturn_printed {runtimeLock : Bool} {rtyp : Typ} {y : CExp} (hy : SimpleExp y)
    {c : CComp} {n m : Nat}
    (h : letBind (.eff (.camlop .camlDrop)) .void (fun _ =>
      GenerateC.wrapIf runtimeLock releaseRuntimeSystem (.ret (.ty rtyp) y)) n = .ok (c, m)) :
    PrintedComp views c [] := by
  rw [letBind_eff (by simp), letsAround_eq_ok] at h
  obtain ⟨d, hd, rfl⟩ := h
  have hret : PrintedComp views (.ret (.ty rtyp) y) [] := by
    refine ⟨?_, by simp⟩
    obtain ⟨ps, hps, hdefs⟩ := prints_cexp hviews hy
    by_cases hvoid : rtyp = .void
    · subst hvoid
      exact ⟨_, rfl, rfl⟩
    · rw [ccomp, hps]
      · exact ⟨_, rfl, by simp [returnStatement, hdefs]⟩
      · exact hvoid
  have hdrop : SimpleEff (.camlop .camlDrop) := trivial
  exact PrintedComp.bind hviews _ .void hdrop (PrintedComp.wrapIf hviews hret hd)

/-- The projection of the callback's result has a local of the result type. -/
theorem inverseResult_printed {runtimeLock : Bool} {rtyp : Typ} {x : CExp} (hx : SimpleExp x)
    {c : CComp} {n m : Nat}
    (h : (do
      let e ← project rtyp x
      letBind e rtyp fun y => letBind (.eff (.camlop .camlDrop)) .void fun _ =>
        GenerateC.wrapIf runtimeLock releaseRuntimeSystem (.ret (.ty rtyp) y)) n = .ok (c, m)) :
    PrintedComp views c (localHeading views rtyp) := by
  rw [project, bind_assoc] at h
  rcases prj_cases rtyp x n with ⟨hv, hp⟩ | ⟨-, -, msg, hp⟩ | ⟨-, e, n', hp, hk⟩
  · rw [bind_of_ok hp, pure_bind, letBind_exp] at h
    rw [localHeading_of_void views hv]
    exact inverseReturn_printed hviews hx h
  · rw [bind_of_error hp] at h
    cases h
  · rw [bind_of_ok hp, pure_bind, hk, letsAround_eq_ok] at h
    obtain ⟨d, hd, rfl⟩ := h
    obtain ⟨hbinds, harg⟩ := projected_printed views rtyp hx n
    have hlets := PrintedComp.lets hviews hbinds (inverseReturn_printed hviews harg hd)
    rwa [List.append_nil] at hlets

theorem inverseCall_printed {stubName : String} {runtimeLock : Bool} {rtyp : Typ} {c : CComp}
    {n m : Nat} (h : inverseCall stubName runtimeLock rtyp n = .ok (c, m)) :
    PrintedComp views c (localHeading views rtyp) := by
  rw [inverseCall, letBind_eff (by simp), letsAround_eq_ok] at h
  obtain ⟨d, hd, rfl⟩ := h
  rw [letBind_eff (by simp), letsAround_eq_ok] at hd
  obtain ⟨d, hd, rfl⟩ := hd
  have hindex : SimpleEff (.index functions (.clocal ("fn_" ++ stubName, .ty int))) :=
    ⟨trivial, trivial⟩
  have hcallback : SimpleEff (.app camlCallbackN
      [.clocal (freshName (n + 1), .ty value), .clocal nargsLocal, .clocal argsLocal]) := by
    simp [SimpleEff, SimpleExp]
  have hresult : SimpleExp (.clocal (freshName (n + 2), .ty value)) := trivial
  exact PrintedComp.bind hviews _ value hindex
    (PrintedComp.bind hviews _ value hcallback (inverseResult_printed hviews hresult hd))

theorem inverseBody_printed {call : CComp} {ds : List Piece} (hcall : PrintedComp views call ds)
    {qs : List (String × Typ)} {i : Nat} {c : CComp}
    (h : inverseBody call i (qs.map fun p => (p.1, .ty p.2)) = .ok c) :
    PrintedComp views c ds := by
  induction qs generalizing i c with
  | nil =>
      cases h
      exact hcall
  | cons q qs ih =>
      rw [List.map_cons, inverseBody] at h
      obtain ⟨c', hc', h⟩ := except_bind_eq_ok h
      obtain ⟨e, he, h⟩ := except_bind_eq_ok h
      cases h
      have hrest := ih hc'
      have hlv :
          Prints (clvalue views (.index (.var (.clocal argsLocal)) (.int (sintOfInt i)))) [] :=
        ⟨_, rfl, rfl⟩
      exact ⟨prints_letAssign hviews hlv (simpleEff_injection (inj_injection he)) hrest.prints,
        by simp⟩

/-- The macros in front of the stored parameters. -/
theorem inverseFrame_printed {body frame c : CComp} {x y : CLocal} {n m n' m' : Nat}
    {ds : List Piece} (hbody : PrintedComp views body ds)
    (hframe : andThen (.eff (.camlop .camlParam0))
      (.eff (.camlop (.camlLocalN (.clocal x) (.clocal y)))) n = .ok (frame, m))
    (hc : andThen frame body n' = .ok (c, m')) : PrintedComp views c ds := by
  rw [andThen_eff (by simp)] at hframe
  cases hframe
  rw [andThen, letBind_letIn rfl, letsAround_eq_ok] at hc
  obtain ⟨d, hd, rfl⟩ := hc
  rw [letBind_eff (by simp), letsAround_eq_ok] at hd
  obtain ⟨d, hd, rfl⟩ := hd
  cases hd
  have hparam : SimpleEff (.camlop .camlParam0) := trivial
  have hlocals : SimpleEff (.camlop (.camlLocalN (.clocal x) (.clocal y))) := ⟨trivial, trivial⟩
  exact PrintedComp.bind hviews _ .void hparam (PrintedComp.bind hviews _ .void hlocals hbody)

/-- The definitions in a printed inverted stub are those of its parameters and
of the local for the callback's result. -/
theorem prints_inverseFn {stubName : String} {runtimeLock : Bool} {f : Fn} {n n' : Nat}
    {d : CFundef} (h : inverseFn stubName runtimeLock f n = .ok (d, n')) :
    ∃ r, returnType f = .ty r ∧
      Prints (cfundef views d) (f.arguments.flatMap (heading views) ++ localHeading views r) := by
  rw [inverseFn, fundec, bind_assoc, bind_eq_ok] at h
  obtain ⟨ps, m, hps, h⟩ := h
  obtain ⟨qs, rfl, hqs, -⟩ := args_eq_ok hps
  rw [pure_bind] at h
  cases hr : returnType f with
  | bufTy b => simp [hr] at h
  | ty r =>
      refine ⟨r, rfl, ?_⟩
      simp only [hr] at h
      obtain ⟨call, m1, hcall, h⟩ := bind_eq_ok.mp h
      obtain ⟨body, m2, hbody, h⟩ := bind_eq_ok.mp h
      obtain ⟨frame, m3, hframe, h⟩ := bind_eq_ok.mp h
      obtain ⟨c, m4, hc, h⟩ := bind_eq_ok.mp h
      obtain ⟨e, m5, he, h⟩ := bind_eq_ok.mp h
      obtain ⟨hbody, -⟩ := lift_eq_ok.mp hbody
      have hstored := inverseBody_printed hviews (inverseCall_printed hviews hcall) hbody
      have hall := PrintedComp.wrapIf hviews (inverseFrame_printed hviews hstored hframe hc) he
      cases h
      have hdec := prints_cfundec hviews stubName qs r
      rw [← hqs, List.flatMap_map]
      exact prints_cfundef hdec (prints_letConst _ _ hall.prints)

/-! ### Stubs without definitions -/

omit hviews in
theorem heading_eq_nil_iff (t : Typ) : heading views t = [] ↔ ¬ ReachesBody views t := by
  induction t using Typ.core.induct with
  | case1 v ty ih =>
      rw [heading, ReachesBody]
      cases views v <;> simp [ih]
  | case2 t ht =>
      unfold heading ReachesBody
      split <;> simp_all

omit hviews in
theorem localHeading_eq_nil_iff (t : Typ) :
    localHeading views t = [] ↔ ¬ ViewOfBody views t := by
  cases t with
  | view v ty => exact heading_eq_nil_iff (.view v ty)
  | _ => simp [localHeading, ViewOfBody]

omit hviews in
theorem Prints.namesByTag_iff {d : CFundef} {ds : List Piece} (h : Prints (cfundef views d) ds) :
    NamesByTag views d ↔ ds = [] := by
  constructor
  · rintro ⟨ps, hps, hnone⟩
    obtain ⟨qs, hqs, rfl⟩ := h
    obtain rfl : qs = ps := by simpa [hps] using hqs.symm
    exact hnone
  · rintro rfl
    exact h

theorem fn_namesByTag_iff {errno_ : ErrnoPolicy} {cname stubName : String} {f : Fn} {n n' : Nat}
    {ds : List CFundef} (h : fn errno_ cname stubName f n = .ok (ds, n')) :
    (∀ d ∈ ds, NamesByTag views d) ↔ ∀ t ∈ f.types, ¬ ViewOfBody views t := by
  obtain ⟨d, m, hstub, h⟩ := bind_eq_ok.mp h
  obtain ⟨hf, f', n1, i, hd⟩ := stub_eq_ok hstub
  have hprinted : NamesByTag views d ↔ ∀ t ∈ f.types, ¬ ViewOfBody views t := by
    rw [(prints_stub hviews hf hd).namesByTag_iff, List.flatMap_eq_nil_iff]
    simp only [localHeading_eq_nil_iff]
  have hbyte : NamesByTag views (byteDef d.dec.name f d.dec.params.length m) :=
    prints_byteDef hviews _ _ _ _
  obtain ⟨m', hwith⟩ := withByteFn_eq f d m
  rw [hwith] at h
  cases h
  split <;> simp [hprinted, hbyte]

theorem inverseFn_namesByTag_iff {stubName : String} {runtimeLock : Bool} {f : Fn} {n n' : Nat}
    {d : CFundef} (h : inverseFn stubName runtimeLock f n = .ok (d, n')) :
    NamesByTag views d ↔ (∀ t ∈ f.arguments, ¬ ReachesBody views t) ∧
      ∀ r, returnType f = .ty r → ¬ ViewOfBody views r := by
  obtain ⟨r, hr, hprints⟩ := prints_inverseFn hviews h
  rw [hprints.namesByTag_iff, List.append_eq_nil_iff, List.flatMap_eq_nil_iff,
    localHeading_eq_nil_iff]
  simp [heading_eq_nil_iff, hr]

/-- The stub that returns the address of a variable has a pointer as its local. -/
theorem valueStub_namesByTag {cname stubName : String} {typ : Typ} {n n' : Nat} {d : CFundef}
    (h : valueStub cname stubName typ n = .ok (d, n')) : NamesByTag views d := by
  cases h
  have hdec : Prints (cfundec views _) [] :=
    prints_cfundec hviews stubName [("_", value)] value
  have hfrom : PrintedComp views (.eff (fromPtr (.clocal (freshName (n + 1), .ty (ptr typ))))) [] :=
    ⟨prints_eff hviews (by simp [fromPtr, SimpleEff, SimpleExp]), by simp [fromPtr]⟩
  have haddr : SimpleEff (.exp (.addr (.global
      { name := cname, typ := .ty typ, referencesOcamlHeap := false }))) := trivial
  exact prints_cfundef (d := { dec := _, body := _, storage := _ }) hdec
    (PrintedComp.bind hviews _ (ptr typ) haddr hfrom).prints

/-- The stub, its bytecode function and the inverted stub of a specification
print a definition exactly when one of its types leads to a body: for the
first, through a view, and for the last, as a parameter or through a view. -/
theorem printed_namesByTag_iff (f : Fn) :
    (∀ errno_ cname stubName n ds n', fn errno_ cname stubName f n = .ok (ds, n') →
      ((∀ d ∈ ds, NamesByTag views d) ↔ ∀ t ∈ f.types, ¬ ViewOfBody views t)) ∧
    (∀ stubName runtimeLock n d n', inverseFn stubName runtimeLock f n = .ok (d, n') →
      (NamesByTag views d ↔ (∀ t ∈ f.arguments, ¬ ReachesBody views t) ∧
        ∀ r, returnType f = .ty r → ¬ ViewOfBody views r)) :=
  ⟨fun _ _ _ _ _ _ h => fn_namesByTag_iff hviews h,
    fun _ _ _ _ _ h => inverseFn_namesByTag_iff hviews h⟩

end Stubs

def point : Typ :=
  .struct "point" (.complete 16 8)
    (.cons (.primitive .double) 0 "x" (.cons (.primitive .double) 8 "y" .nil))

def mirror : Fn := .function point (.returns (.view 0 point))

theorem printed_namesByTag_iff_mirror :
    (∃ ds n', fn .ignoreErrno "mirror" "stub" mirror 0 = .ok (ds, n') ∧
      ¬ ∀ d ∈ ds, NamesByTag (fun _ => none) d) ∧
    ∃ d n', inverseFn "mirror" false mirror 0 = .ok (d, n') ∧ ¬ NamesByTag (fun _ => none) d := by
  have hviews : PlainFormats (fun _ => none) := by
    intro v format h
    cases h
  have hview : ViewOfBody (fun _ => none) (.view 0 point) := by
    simp [ViewOfBody, ReachesBody, point]
  obtain ⟨hstub, hinverse⟩ := printed_namesByTag_iff hviews mirror
  refine ⟨⟨_, _, rfl, fun h => ?_⟩, _, _, rfl, fun h => ?_⟩
  · exact (hstub .ignoreErrno "mirror" "stub" 0 _ _ rfl).mp h (.view 0 point)
      (by simp [mirror, Fn.types]) hview
  · exact ((hinverse "mirror" false 0 _ _ rfl).mp h).2 (.view 0 point) rfl hview

/-- The parameter of an inverted stub is printed with its members. -/
theorem inverseFn_prints_point :
    passable point = .ok true ∧ ∃ d n' ps,
      inverseFn "norm" false (.function point (.returns (.primitive .double))) 0 = .ok (d, n') ∧
      cfundef (fun _ => none) d = .ok ps ∧ .definition "struct" "point" ∈ ps :=
  ⟨rfl, _, _, _, rfl, rfl, by decide⟩

end CtypesCbuf.Cbuf.EmitC
