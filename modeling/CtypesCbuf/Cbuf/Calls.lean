import CtypesCbuf.Cbuf.Wrappers

/-!
Calls of what a generated wrapper returns: the bindings, which run the write
functions and create the buffers, then the external, then the read functions.
-/

namespace CtypesCbuf.Cbuf

open NameSupply Supply
open Ctypes hiding Fn
open CLanguage Stubs GenerateML MlLanguage

variable {V W : Type}

/-! ### Arguments -/

/-- The calls of the write functions of arguments, the first of which is
argument `i`. -/
def writesFrom : Nat → List Typ → List Label
  | _, [] => []
  | i, t :: ts => writes ⟨.argument i, 0⟩ t ++ writesFrom (i + 1) ts

def ofArgument (j : Nat) : Label → Bool
  | .write p => p.part = .argument j
  | _ => false

def SameWrites (tr tr' : List Label) : Prop :=
  (∀ j, tr.filter (ofArgument j) = tr'.filter (ofArgument j)) ∧ ∀ l ∈ tr, ∃ p, l = .write p

theorem mem_writes {t : Typ} {p : Place} {l : Label} (h : l ∈ writes p t) :
    ∃ d, l = .write ⟨p.part, d⟩ := by
  induction t using Typ.core.induct generalizing p with
  | case1 v ty ih =>
      rcases List.mem_cons.mp h with rfl | h
      · exact ⟨p.depth, rfl⟩
      · exact ih (p := p.below) h
  | case2 t hview =>
      cases t with
      | view v ty => exact absurd rfl (hview v ty)
      | _ => cases h

theorem filter_writes_self (i : Nat) (t : Typ) :
    (writes ⟨.argument i, 0⟩ t).filter (ofArgument i) = writes ⟨.argument i, 0⟩ t := by
  rw [List.filter_eq_self]
  intro l hl
  obtain ⟨d, rfl⟩ := mem_writes hl
  simp [ofArgument]

theorem filter_writes_ne {i j : Nat} (hij : j ≠ i) (t : Typ) :
    (writes ⟨.argument i, 0⟩ t).filter (ofArgument j) = [] := by
  rw [List.filter_eq_nil_iff]
  intro l hl
  obtain ⟨d, rfl⟩ := mem_writes hl
  simpa [ofArgument] using hij.symm

theorem filter_writesFrom_lt {i j : Nat} (hij : j < i) (ts : List Typ) :
    (writesFrom i ts).filter (ofArgument j) = [] := by
  induction ts generalizing i with
  | nil => rfl
  | cons t ts ih =>
      rw [writesFrom, List.filter_append, filter_writes_ne (by omega), List.nil_append]
      exact ih (by omega)

/-- The calls of the first argument may be run in two parts, one after and
one before those of the others. -/
theorem SameWrites.cons {i : Nat} {t : Typ} {ts : List Typ} {trb trf trb' trf' : List Label}
    (h : trb ++ trf = writes ⟨.argument i, 0⟩ t)
    (h' : SameWrites (trb' ++ trf') (writesFrom (i + 1) ts)) :
    SameWrites ((trb' ++ trb) ++ (trf ++ trf')) (writesFrom i (t :: ts)) := by
  obtain ⟨hsame, hwrite⟩ := h'
  refine ⟨fun j => ?_, fun l hl => ?_⟩
  · have hmiddle : (trb' ++ trb) ++ (trf ++ trf') =
        trb' ++ (writes ⟨.argument i, 0⟩ t ++ trf') := by
      rw [← h]
      simp only [List.append_assoc]
    have hj := hsame j
    rw [List.filter_append] at hj
    rw [hmiddle, writesFrom]
    simp only [List.filter_append]
    by_cases hji : j = i
    · subst hji
      rw [filter_writesFrom_lt (Nat.lt_succ_self j)] at hj ⊢
      obtain ⟨hb, hf⟩ := List.append_eq_nil_iff.mp hj
      rw [hb, hf, List.nil_append]
    · rw [filter_writes_ne hji, List.nil_append, List.nil_append, hj]
  · have hcases : (l ∈ trb' ++ trf') ∨ l ∈ trb ++ trf := by
      simp only [List.mem_append] at hl ⊢
      tauto
    rcases hcases with hl | hl
    · exact hwrite l hl
    · rw [h] at hl
      obtain ⟨d, rfl⟩ := mem_writes hl
      exact ⟨_, rfl⟩

theorem sameWrites_nil : SameWrites [] [] := ⟨fun _ => rfl, nofun⟩

theorem SameWrites.created_eq_nil {tr tr' : List Label} (h : SameWrites tr tr') :
    created tr = [] := by
  rw [created, List.filterMap_eq_nil_iff]
  intro l hl
  obtain ⟨p, rfl⟩ := h.2 l hl
  rfl

def argConstraints (xs : List String) (vs : List V) : Constraints V W :=
  List.zipWith (fun x v => (x, IsVal fun y => y = v)) xs vs

/-- What is generated for arguments: parameters `xs`, expressions `es` that the
external is applied to, and bindings around those that there are. -/
structure ArgumentsSpec (I : MlLanguage.Interp V W) (F : File) (i : Nat) (ts : List Typ)
    (vs : List V)
    (n n' : Nat) (xs : List String) (es : List MlExp) (front back : List MlBind)
    (b : Bindings) (C : Constraints V W) : Prop where
  length : xs.length = ts.length
  count : es.length = ts.length
  names : FreshNames n n' (b.map Prod.fst ++ xs ++ C.map Prod.fst)
  bound : ∀ x ∈ boundNames (front ++ back), ∃ Q, (x, IsVal Q) ∈ C
  runs : ∀ T, Respects T (dataConstraints b) → Respects T C →
    Respects T (argConstraints xs vs) → ∀ D, b.map Prod.fst ⊆ D → xs ⊆ D →
    ∃ trb trf, SameWrites (trb ++ trf) (writesFrom i ts) ∧
      (∀ w0 c, Runs I F T w0 D c back trb) ∧
      (∀ w0 c, Runs I F T w0 (boundNames back ++ D) c front trf) ∧
      List.Forall₂ (fun e q => Emits I F T (boundNames front ++ (boundNames back ++ D)) e [] q)
        es (List.zipWith (argImage I) ts vs)

section Arguments

variable {I : MlLanguage.Interp V W} {F : File} {i : Nat} {t : Typ} {ts : List Typ} {v : V}
  {vs : List V}
  {n n1 n' : Nat} {xs : List String} {es : List MlExp} {front back : List MlBind}
  {b : Bindings} {C : Constraints V W}

theorem argumentsSpec_nil : ArgumentsSpec I F i [] [] n n [] [] [] [] [] [] := by
  refine ⟨rfl, rfl, FreshNames.nil n, nofun, fun T _ _ _ D _ _ => ?_⟩
  exact ⟨[], [], sameWrites_nil, fun _ _ => .nil, fun _ _ => .nil, .nil⟩

theorem argumentsSpec_cons {binds : List MlBind} {r : PatternExp}
    (hr : ArgumentSpec I F t ⟨.argument i, 0⟩ (fun y => y = v) (.ident [freshName (n + 1)])
      binds (n + 1) n1 r)
    (h : ArgumentsSpec I F (i + 1) ts vs n1 n' xs es front back b C) :
    ∃ front1 back1 b1 C1, r.binds = front1 ++ binds ++ back1 ∧
      matchPat r.pat (.typ ⟨.argument i, 0⟩ t) = some b1 ∧
      (r.exp = none → front1 = [] ∧ back1 = []) ∧
      ArgumentsSpec I F i (t :: ts) (v :: vs) n n' (freshName (n + 1) :: xs)
        (r.exp.getD (.ident [freshName (n + 1)]) :: es) (front ++ front1) (back1 ++ back)
        (b1 ++ b) (C1 ++ C) := by
  obtain ⟨b1, C1, front1, back1, hpat, hbinds, hnames, htrivial, hbound, hruns⟩ := hr
  refine ⟨front1, back1, b1, C1, hbinds, hpat, htrivial, ?_, ?_, ?_, ?_, ?_⟩
  · rw [List.length_cons, List.length_cons, h.length]
  · rw [List.length_cons, List.length_cons, h.count]
  · have hx : FreshNames n (n + 1) [freshName (n + 1)] :=
      FreshNames.single (n + 1) (by omega) (Nat.le_refl _)
    refine ((hx.append hnames).append h.names).perm ?_
    refine List.perm_iff_count.mpr fun y => ?_
    simp only [List.map_append, List.count_append, List.count_cons, List.count_nil]
    omega
  · intro x hx
    have hx' : x ∈ boundNames (front1 ++ back1) ∨ x ∈ boundNames (front ++ back) := by
      simp only [boundNames_append, List.mem_append] at hx ⊢
      tauto
    rcases hx' with hx | hx
    · obtain ⟨Q, hQ⟩ := hbound x hx
      exact ⟨Q, List.mem_append_left _ hQ⟩
    · obtain ⟨Q, hQ⟩ := h.bound x hx
      exact ⟨Q, List.mem_append_right _ hQ⟩
  · intro T hb hC hargs D hbD hxD
    rw [dataConstraints, List.map_append] at hb
    rw [List.map_append] at hbD
    have hTx : T (freshName (n + 1)) = IsVal fun y => y = v :=
      hargs _ List.mem_cons_self
    obtain ⟨trb1, trf1, tro, htr, hback1, hfront1, htro, hout⟩ := hruns T
      (fun q hq => hb q (List.mem_append_left _ hq))
      (fun q hq => hC q (List.mem_append_left _ hq)) D []
      (fun y hy => hbD (List.mem_append_left _ hy))
      (emits_ident (hxD List.mem_cons_self) hTx)
    obtain ⟨trb, trf, hsame, hback, hfront, hes⟩ := h.runs T
      (fun q hq => hb q (List.mem_append_right _ hq))
      (fun q hq => hC q (List.mem_append_right _ hq))
      (fun q hq => hargs q (List.mem_cons_of_mem _ hq)) D
      (fun y hy => hbD (List.mem_append_right _ hy))
      (fun y hy => hxD (List.mem_cons_of_mem _ hy))
    obtain rfl : tro = [] := by
      rw [htro]
      split <;> rfl
    rw [List.append_nil, List.nil_append] at htr
    -- the bindings of the later arguments stand outside on both sides
    refine ⟨trb ++ trb1, trf1 ++ trf, SameWrites.cons htr hsame, fun w0 c => ?_,
      fun w0 c => ?_, ?_⟩
    · exact (hback w0 c).append ((hback1 w0 _).mono (List.subset_append_right _ _))
    · refine ((hfront1 w0 c).mono ?_).append ((hfront w0 _).mono ?_)
      · intro y hy
        simp only [boundNames_append, List.mem_append] at hy ⊢
        tauto
      · intro y hy
        simp only [boundNames_append, List.mem_append] at hy ⊢
        tauto
    · refine .cons ?_ (hes.imp fun e q he => he.mono ?_)
      · refine (hout.mono ?_).imp ?_
        · intro y hy
          simp only [boundNames_append, List.mem_append] at hy ⊢
          tauto
        · rintro s evs y ⟨hevs, x, rfl, hy⟩
          exact ⟨hevs, hy⟩
      · intro y hy
        simp only [boundNames_append, List.mem_append] at hy ⊢
        tauto

theorem matchPat_function {p q : MlPat} {b' : Bindings} {f : Fn}
    (hp : matchPat p (.typ ⟨.argument i, 0⟩ t) = some b)
    (hq : matchPat q (.fn (i + 1) f) = some b') :
    matchPat (localCon "Function" [p, q]) (.fn i (.function t f)) = some (b ++ b') := by
  simp [localCon, MlPats.ofList, matchPat, matchPats, hp, hq]

/-- All arguments, up to what is left after them. -/
theorem arguments_spec (hF : F.Sound) (hlen : vs.length = ts.length) {tail : Fn}
    {exp : MlExp} {binds : List MlBind} {s : WrapperState} {m : Nat}
    (h : wrapperBody F.concurrency F.errno_ .arg (arrows ts tail) exp binds n = .ok (s, m)) :
    ∃ s' n1 xs es front back b C, ArgumentsSpec I F i ts vs n n1 xs es front back b C ∧
      wrapperBody F.concurrency F.errno_ .arg tail (es.foldl .appl exp)
        (front ++ binds ++ back) n1 = .ok (s', m) ∧
      s.args = xs ++ s'.args ∧ s.exp = s'.exp ∧ s.binds = s'.binds ∧
      (s.trivial → s'.trivial ∧ front = [] ∧ back = [] ∧ es = xs.map fun x => .ident [x]) ∧
      ∀ b', matchPat s'.pat (.fn (i + ts.length) tail) = some b' →
        matchPat s.pat (.fn i (arrows ts tail)) = some (b ++ b') := by
  induction ts generalizing i vs exp binds n s with
  | nil =>
      obtain rfl := List.length_eq_zero_iff.mp hlen
      exact ⟨s, n, [], [], [], [], [], [], argumentsSpec_nil, by simpa using h, rfl, rfl, rfl,
        fun ht => ⟨ht, rfl, rfl, rfl⟩, fun b' hb' => hb'⟩
  | cons t ts ih =>
      cases vs with
      | nil => cases hlen
      | cons v vs =>
          obtain ⟨r, n1, s1, hr, hs1, rfl⟩ := wrapperBody_function h
          obtain ⟨s', n2, xs, es, front, back, b, C, hspec, hs', hargs, hexp, hbinds,
            htrivial, hpat⟩ := ih (i := i + 1) (Nat.succ.inj hlen) hs1
          obtain ⟨front1, back1, b1, C1, hbinds1, hpat1, htrivial1, hspec1⟩ :=
            argumentsSpec_cons (v := v) (i := i) (argument_spec hF hr) hspec
          refine ⟨s', n2, _, _, _, _, _, _, hspec1, ?_, ?_, hexp, hbinds, ?_, ?_⟩
          · rw [hbinds1] at hs'
            rw [List.foldl_cons, ← hs']
            simp only [List.append_assoc]
          · rw [hargs]
            rfl
          · intro ht
            obtain ⟨hnone, ht⟩ := Bool.and_eq_true_iff.mp ht
            obtain ⟨ht', rfl, rfl, rfl⟩ := htrivial ht
            have hnone := Option.isNone_iff_eq_none.mp hnone
            obtain ⟨rfl, rfl⟩ := htrivial1 hnone
            refine ⟨ht', rfl, rfl, ?_⟩
            rw [hnone]
            rfl
          · intro b' hb'
            rw [List.append_assoc]
            refine matchPat_function hpat1 (hpat b' ?_)
            rwa [List.length_cons, ← Nat.add_assoc, Nat.add_right_comm] at hb'

theorem ArgumentsSpec.runs_binds {T : Typing V W} {D : List String}
    (h : ArgumentsSpec I F i ts vs n n' xs es front back b C)
    (hb : Respects T (dataConstraints b)) (hC : Respects T C)
    (hargs : Respects T (argConstraints xs vs)) (hbD : b.map Prod.fst ⊆ D) (hxD : xs ⊆ D) :
    ∃ tr, SameWrites tr (writesFrom i ts) ∧
      (∀ w0 c, Runs I F T w0 D c (front ++ back) tr) ∧
      List.Forall₂ (fun e q => Emits I F T (boundNames (front ++ back) ++ D) e [] q) es
        (List.zipWith (argImage I) ts vs) := by
  obtain ⟨trb, trf, hsame, hback, hfront, hes⟩ := h.runs T hb hC hargs D hbD hxD
  refine ⟨trb ++ trf, hsame, fun w0 c => (hback w0 c).append (hfront w0 _), ?_⟩
  rwa [boundNames_append, List.append_assoc]

end Arguments

/-! ### Output buffers -/

def CBuffers.toList : CBuffers → List (Nat × Typ)
  | .lastBuf i t => [(i, t)]
  | .conBuf l r => l.toList ++ r.toList

def CBuffers.sizes (b : CBuffers) : List Nat := b.toList.map Prod.fst

def Fn.sizes : Fn → List Nat
  | .returns _ => []
  | .function _ t => t.sizes
  | .buffers _ b _ => b.sizes

theorem Fn.tail_sizes (f : Fn) : f.tail.sizes = f.sizes := by
  induction f with
  | returns t => rfl
  | function f t ih => exact ih
  | buffers cpos b r _ => rfl

/-- The bindings for buffers with their variables and sizes: those that there
are stand before each of them. -/
def bufferBinds (binds : List MlBind) (bs : List (String × Nat)) : List MlBind :=
  bs.flatMap fun q => binds ++ [(.var q.1, bytesCreate q.2)]

/-- The labels of these bindings, when `tr` are those of the bindings repeated. -/
def bufferTrace (tr : List Label) : List Nat → List Label
  | [] => []
  | i :: is => bufferTrace tr is ++ .create i :: tr

def bufferStart (x : String) : MlExp := ocamlBytesStart (.ident [x])

/-- `(b1, (b2, ... bm))`. -/
def bufferTuple : List String → MlExp
  | [] => .unit
  | [x] => .ident [x]
  | x :: xs => .tuple (.ofList [.ident [x], bufferTuple xs])

def nested (I : MlLanguage.Interp V W) : List V → V
  | [] => I.unit
  | [v] => v
  | v :: vs => I.tuple [v, nested I vs]

/-- What `Bytes.create` returns for buffers of these sizes: each is created
after those that follow it. -/
def freshBuffers (I : MlLanguage.Interp V W) (w0 : W) : List Nat → List (V → Prop)
  | [] => []
  | i :: is => Fresh I w0 is.reverse i :: freshBuffers I w0 is

def bufferConstraints (I : MlLanguage.Interp V W) (w0 : W) (bs : List (String × Nat)) :
    Constraints V W :=
  List.zipWith (fun x Q => (x, IsVal Q)) (bs.map Prod.fst)
    (freshBuffers I w0 (bs.map Prod.snd))

section Buffers

variable {I : MlLanguage.Interp V W} {F : File} {T : Typing V W} {D : List String} {w0 : W}
  {binds : List MlBind} {bs : List (String × Nat)} {tr : List Label}

theorem created_bufferTrace (htr : created tr = []) (is : List Nat) :
    created (bufferTrace tr is) = is.reverse := by
  induction is with
  | nil => rfl
  | cons i is ih =>
      have hcons : created (.create i :: tr) = i :: created tr := rfl
      rw [bufferTrace, created_append, ih, hcons, htr, List.reverse_cons]

theorem bufferConstraints_names (I : MlLanguage.Interp V W) (w0 : W) (bs : List (String × Nat)) :
    (bufferConstraints I w0 bs).map Prod.fst = bs.map Prod.fst := by
  induction bs with
  | nil => rfl
  | cons q bs ih => exact congrArg (q.1 :: ·) ih

theorem forall₂_bufferConstraints (hT : Respects T (bufferConstraints I w0 bs)) :
    List.Forall₂ (fun x Q => T x = IsVal Q) (bs.map Prod.fst)
      (freshBuffers I w0 (bs.map Prod.snd)) := by
  induction bs with
  | nil => exact .nil
  | cons q bs ih =>
      exact .cons (hT _ List.mem_cons_self) (ih fun p hp => hT p (List.mem_cons_of_mem _ hp))

theorem mem_boundNames_bufferBinds {x : String} (h : x ∈ boundNames (bufferBinds binds bs)) :
    x ∈ boundNames binds ∨ x ∈ bs.map Prod.fst := by
  obtain ⟨p, hp, hx⟩ := List.mem_flatMap.mp h
  obtain ⟨q, hq, hp⟩ := List.mem_flatMap.mp hp
  rcases List.mem_append.mp hp with hp | hp
  · exact .inl (List.mem_flatMap.mpr ⟨p, hp, hx⟩)
  · obtain rfl := List.mem_singleton.mp hp
    obtain rfl := List.mem_singleton.mp hx
    exact .inr (List.mem_map.mpr ⟨q, hq, rfl⟩)

theorem names_subset_bufferBinds (binds : List MlBind) (bs : List (String × Nat)) :
    bs.map Prod.fst ⊆ boundNames (bufferBinds binds bs) := by
  intro x hx
  obtain ⟨q, hq, rfl⟩ := List.mem_map.mp hx
  refine List.mem_flatMap.mpr ⟨(.var q.1, bytesCreate q.2), ?_, List.mem_singleton.mpr rfl⟩
  exact List.mem_flatMap.mpr ⟨q, hq, by simp⟩

theorem binds_subset_bufferBinds (hne : bs ≠ []) (binds : List MlBind) :
    boundNames binds ⊆ boundNames (bufferBinds binds bs) := by
  obtain ⟨q, bs', rfl⟩ := List.exists_cons_of_ne_nil hne
  rw [bufferBinds, List.flatMap_cons, List.append_assoc, boundNames_append]
  exact List.subset_append_left _ _

theorem mem_bufferConstraints {x : String} (h : x ∈ bs.map Prod.fst) :
    ∃ Q, (x, IsVal Q) ∈ bufferConstraints I w0 bs := by
  induction bs with
  | nil => cases h
  | cons q bs ih =>
      rcases List.mem_cons.mp h with rfl | h
      · exact ⟨_, List.mem_cons_self⟩
      · obtain ⟨Q, hQ⟩ := ih h
        exact ⟨Q, List.mem_cons_of_mem _ hQ⟩

theorem runs_bufferBinds (hF : F.Sound) (htr : created tr = [])
    (hruns : ∀ c, Runs I F T w0 D c binds tr)
    (hlocal : ∀ q ∈ bs, IsLocal q.1) (hT : Respects T (bufferConstraints I w0 bs)) :
    Runs I F T w0 D [] (bufferBinds binds bs) (bufferTrace tr (bs.map Prod.snd)) := by
  induction bs with
  | nil => exact .nil
  | cons q bs ih =>
      have hrest := ih (fun q hq => hlocal q (List.mem_cons_of_mem _ hq))
        fun q hq => hT q (List.mem_cons_of_mem _ hq)
      have hcreated := created_bufferTrace htr (bs.map Prod.snd)
      have hcreate : ∀ D, Runs I F T w0 D (bs.map Prod.snd).reverse
          [(.var q.1, bytesCreate q.2)] [.create q.2] := fun D =>
        Runs.create hF (hlocal q List.mem_cons_self) (hT _ List.mem_cons_self)
      have hfirst : Runs I F T w0 (boundNames (bufferBinds binds bs) ++ D)
          ([] ++ created (bufferTrace tr (bs.map Prod.snd)))
          (binds ++ [(.var q.1, bytesCreate q.2)]) (.create q.2 :: tr) := by
        rw [List.nil_append, hcreated]
        refine (hcreate _).append ((hruns _).mono ?_)
        exact List.Subset.trans (List.subset_append_right _ _) (List.subset_append_right _ _)
      exact hrest.append hfirst

/-- The starts of buffers. -/
theorem emits_bufferStarts (hF : F.Sound) {xs : List String} {vs : List V} (hD : xs ⊆ D)
    (hT : Pinned T xs vs) :
    List.Forall₂ (fun e q => Emits I F T D e [] q) (xs.map bufferStart)
      (vs.map fun v y => y = I.ocamlBytesStart v) := by
  induction hT with
  | nil => exact .nil
  | @cons x v xs vs hx _ ih =>
      refine .cons ?_ (ih fun y hy => hD (List.mem_cons_of_mem _ hy))
      have hstart : Emits I F T D (bufferStart x) [] fun y =>
          ∃ b, b = v ∧ y = I.ocamlBytesStart b :=
        (emits_ident (hD List.mem_cons_self) hx).applLibrary hF
          (p := ["Ctypes", "ocaml_bytes_start"]) (f := .ocamlBytesStart) rfl fun _ _ => rfl
      refine hstart.imp ?_
      rintro s evs y ⟨hevs, b, rfl, hy⟩
      exact ⟨hevs, hy⟩

theorem forall₂_starts {vs us : List V}
    (h : List.Forall₂ (fun q u => q u) (vs.map fun v y => y = I.ocamlBytesStart v) us) :
    us = vs.map I.ocamlBytesStart := by
  induction vs generalizing us with
  | nil => exact List.forall₂_nil_left_iff.mp h
  | cons v vs ih =>
      obtain ⟨u, us', rfl, hrest, rfl⟩ := List.forall₂_cons_left_iff.mp h
      rw [List.map_cons, ih hrest]

theorem emits_bufferTuple {xs : List String} {vs : List V} (hne : xs ≠ []) (hD : xs ⊆ D)
    (hT : Pinned T xs vs) :
    Emits I F T D (bufferTuple xs) [] fun y => y = nested I vs := by
  induction hT with
  | nil => exact absurd rfl hne
  | @cons x v xs vs hx hxs ih =>
      have hfirst := emits_ident (I := I) (F := F) (hD List.mem_cons_self) hx
      cases hxs with
      | nil => exact hfirst
      | cons hx' hxs' =>
          have hrest := ih (by simp) fun y hy => hD (List.mem_cons_of_mem _ hy)
          refine (emits_pair hfirst hrest).imp ?_
          rintro s evs y ⟨hevs, a, a', rfl, rfl, rfl⟩
          exact ⟨hevs, rfl⟩

/-- The body where there are output buffers: the external is called with their
starts, and its result is returned next to them. -/
theorem evals_buffers (hF : F.Sound) {es : List MlExp} {qs : List (V → Prop)} {x : String}
    {D' : List String} (hes : List.Forall₂ (fun e q => Emits I F T D e [] q) es qs)
    (hsub : D ⊆ D') (hbs : bs ≠ []) (hbsD : bs.map Prod.fst ⊆ D')
    (hdisjoint : ∀ y ∈ D, y ∉ bs.map Prod.fst) (hx : IsLocal x) (hnew : x ∉ D')
    (harity : F.arity = es.length + bs.length) (hT : Respects T (bufferConstraints I w0 bs)) :
    Evals I F T D'
      (.letIn (.var x)
        (((bs.map Prod.fst).map bufferStart).foldl .appl (es.foldl .appl (.ident F.external)))
        (.tuple (.ofList [bufferTuple (bs.map Prod.fst), .ident [x]])))
      fun s evs y => ∃ bufs,
        List.Forall₂ (fun Q v => Q v) (freshBuffers I w0 (bs.map Prod.snd)) bufs ∧
        ∃ us, List.Forall₂ (fun q u => q u) qs us ∧
          evs = [.call (us ++ bufs.map I.ocamlBytesStart)] ∧
          y = I.tuple [nested I bufs,
            (I.external (us ++ bufs.map I.ocamlBytesStart) s.world).1] := by
  refine Evals.pin (forall₂_bufferConstraints hT) hbsD fun bufs T' _ hother hpinned => ?_
  have hes' : List.Forall₂ (fun e q => Emits I F T' D' e [] q) es qs := by
    refine hes.imp fun e q he => Evals.mono (Evals.congr he fun y hy => ?_) hsub
    exact hother y (hdisjoint y hy)
  have hall := List.rel_append hes' (emits_bufferStarts hF hbsD hpinned)
  have hpos : 0 < bs.length := List.length_pos_iff.mpr hbs
  have hcall := evals_call hF hall (by simp [harity]) (by omega)
  rw [List.foldl_append] at hcall
  have hne : bs.map Prod.fst ≠ [] := by simpa using hbs
  refine (hcall.letPair hx hnew (emits_bufferTuple hne hbsD hpinned)).imp ?_
  rintro s evs y ⟨a, u, ⟨us', hus, rfl, rfl⟩, rfl, rfl⟩
  obtain ⟨us, us2, hargs, hstarts, rfl⟩ := forall₂_split hus
  rw [forall₂_starts hstarts]
  exact ⟨us, hargs, rfl, rfl⟩

theorem argument_pattern (hF : F.Sound) (I : MlLanguage.Interp V W)
    {concurrency : ConcurrencyPolicy}
    {errno_ : ErrnoPolicy} {t : Typ} {e : MlExp} {binds : List MlBind} {n n' : Nat}
    {r : PatternExp}
    (h : patternAndExpOfTyp concurrency errno_ t e .arg binds n = .ok (r, n')) (p : Place) :
    ∃ b, matchPat r.pat (.typ p t) = some b ∧ FreshNames n n' (b.map Prod.fst) := by
  obtain ⟨b, C, front, back, hpat, -, hnames, -⟩ :=
    argument_spec (I := I) (p := p) (Q := fun _ => True) hF h
  exact ⟨b, hpat, hnames.left⟩

theorem matchPat_lastBuf {i : Nat} {t : Typ} {p : MlPat} {b : Bindings}
    (hp : matchPat p (.typ ⟨.buffer, 0⟩ t) = some b) :
    matchPat (localCon "LastBuf" [.var (Nat.repr i), p]) (.cbuffers (.lastBuf i t)) =
      some b := by
  simp [localCon, MlPats.ofList, matchPat, matchPats, hp]

theorem matchPat_conBuf {l r : CBuffers} {p q : MlPat} {b b' : Bindings}
    (hp : matchPat p (.cbuffers l) = some b) (hq : matchPat q (.cbuffers r) = some b') :
    matchPat (localCon "ConBuf" [p, q]) (.cbuffers (.conBuf l r)) = some (b ++ b') := by
  simp [localCon, MlPats.ofList, matchPat, matchPats, hp, hq]

/-- What is generated for output buffers with the variables and sizes `bs`. -/
structure BuffersSpec (b : CBuffers) (e : MlExp) (binds : List MlBind) (n n' : Nat)
    (r : BufferExp) (bs : List (String × Nat)) (d : Bindings) : Prop where
  ne_nil : bs ≠ []
  sizes : bs.map Prod.snd = b.sizes
  matches_ : matchPat r.pat (.cbuffers b) = some d
  names : FreshNames n n' (d.map Prod.fst ++ bs.map Prod.fst)
  exp : r.exp = ((bs.map Prod.fst).map bufferStart).foldl .appl e
  bufExp : r.bufExp = bufferTuple (bs.map Prod.fst)
  binds : r.binds = bufferBinds binds bs

theorem buffers_spec (hF : F.Sound) (I : MlLanguage.Interp V W) {b : CBuffers} {e : MlExp}
    {n n' : Nat}
    {r : BufferExp} (h : patternAndExpOfCbuffers2 b e binds n = .ok (r, n')) :
    ∃ bs d, BuffersSpec b e binds n n' r bs d := by
  induction b generalizing e n n' r with
  | lastBuf i t =>
      simp only [patternAndExpOfCbuffers2, bind_eq_ok, freshVar_bind, ident_bind, pure_apply,
        Except.ok.injEq, Prod.mk.injEq] at h
      obtain ⟨q, n1, hq, rfl, rfl⟩ := h
      obtain ⟨d, hpat, hnames⟩ := argument_pattern hF I hq ⟨.buffer, 0⟩
      refine ⟨[(freshName (n1 + 1), i)], d, by simp, rfl, matchPat_lastBuf hpat, ?_, rfl, rfl, ?_⟩
      · exact hnames.append (FreshNames.single (n1 + 1) (by omega) (Nat.le_refl _))
      · simp [bufferBinds]
  | conBuf l b ihl ihb =>
      cases l with
      | conBuf l1 l2 => simp [patternAndExpOfCbuffers2] at h
      | lastBuf i t =>
          simp only [patternAndExpOfCbuffers2, bind_eq_ok, freshVar_bind, ident_bind,
            pure_apply, Except.ok.injEq, Prod.mk.injEq] at h
          obtain ⟨q, n1, hq, r2, n2, hr2, rfl, rfl⟩ := h
          obtain ⟨d, hpat, hnames⟩ := argument_pattern hF I hq ⟨.buffer, 0⟩
          obtain ⟨bs, d2, hspec⟩ := ihb hr2
          refine ⟨(freshName (n1 + 1), i) :: bs, d ++ d2, by simp, ?_,
            matchPat_conBuf (matchPat_lastBuf hpat) hspec.matches_, ?_, hspec.exp, ?_, ?_⟩
          · rw [List.map_cons, hspec.sizes]
            rfl
          · have hx : FreshNames n1 (n1 + 1) [freshName (n1 + 1)] :=
              FreshNames.single (n1 + 1) (by omega) (Nat.le_refl _)
            refine ((hnames.append hx).append hspec.names).perm ?_
            refine List.perm_iff_count.mpr fun y => ?_
            simp only [List.map_append, List.map_cons, List.count_append, List.count_cons,
              List.count_nil]
            omega
          · obtain ⟨q', bs', rfl⟩ := List.exists_cons_of_ne_nil hspec.ne_nil
            rw [hspec.bufExp]
            rfl
          · rw [hspec.binds, bufferBinds, bufferBinds, List.flatMap_cons]
            simp

end Buffers

/-! ### Bodies -/

/-- The labels of the bindings, when `tr` are the calls of the write functions. -/
def bindTrace (is : List Nat) (tr : List Label) : List Label :=
  match is with
  | [] => tr
  | is => bufferTrace tr is

def resultReads : Fn → List Label
  | .returns t => reads ⟨.result, 0⟩ t
  | _ => []

/-- What is returned where the external returns `u`. The second component
next to output buffers is `u` itself. -/
def Returned (I : MlLanguage.Interp V W) (F : File) : Fn → List V → V → V → Prop
  | .returns t, _, u, y => returnImage I F t (ran I F.concurrency u) y
  | .buffers _ _ _, bufs, u, y => y = I.tuple [nested I bufs, u]
  | .function _ _, _, _, _ => False

/-- The external is called once, with arguments in `qs` and the starts of new
buffers, and the read functions run. -/
def Outcome (I : MlLanguage.Interp V W) (F : File) (w0 : W) (tail : Fn) (qs : List (V → Prop))
    (s : Store V W) (evs : List (Event V)) (y : V) : Prop :=
  ∃ us bufs evs', List.Forall₂ (fun q u => q u) qs us ∧
    List.Forall₂ (fun Q v => Q v) (freshBuffers I w0 tail.sizes) bufs ∧
    evs = .call (us ++ bufs.map I.ocamlBytesStart) :: evs' ∧
    evs'.map Event.label = resultReads tail ∧
    Returned I F tail bufs (I.external (us ++ bufs.map I.ocamlBytesStart) s.world).1 y

/-- What is generated for what follows the arguments, when the external is
applied to `es` and there are `binds` for them. -/
structure TailSpec (I : MlLanguage.Interp V W) (F : File) (w0 : W) (i : Nat) (tail : Fn)
    (es : List MlExp) (binds : List MlBind) (n n' : Nat) (s : WrapperState) (b : Bindings)
    (C : Constraints V W) : Prop where
  matches_ : matchPat s.pat (.fn i tail) = some b
  args : s.args = []
  names : FreshNames n n' (b.map Prod.fst ++ C.map Prod.fst)
  bound : ∀ x ∈ boundNames s.binds, x ∈ boundNames binds ∨ ∃ Q, (x, IsVal Q) ∈ C
  trivial : s.trivial → s.binds = binds ∧
    s.exp = runExp F.concurrency (es.foldl .appl (.ident F.external))
  runs : ∀ T D tr qs, Respects T (dataConstraints b) → Respects T C → b.map Prod.fst ⊆ D →
    (∀ x ∈ boundNames binds ++ D, Drawn freshName 0 n x ∨ x ∈ b.map Prod.fst) →
    F.arity = es.length + tail.sizes.length → 0 < F.arity → created tr = [] →
    (∀ c, Runs I F T w0 D c binds tr) →
    List.Forall₂ (fun e q => Emits I F T (boundNames binds ++ D) e [] q) es qs →
    Runs I F T w0 D [] s.binds (bindTrace tail.sizes tr) ∧
      Evals I F T (boundNames s.binds ++ D) s.exp (Outcome I F w0 tail qs)

theorem freshName_ne_underscore (n : Nat) : freshName n ≠ "_" := by
  intro h
  have hl := freshName_toList n
  rw [h] at hl
  cases hl

section Tail

variable {I : MlLanguage.Interp V W} {F : File} {w : W} {i n n' : Nat} {es : List MlExp}
  {binds : List MlBind} {s : WrapperState}

theorem tailSpec_returns (hF : F.Sound) {t : Typ}
    (h : wrapperBody F.concurrency F.errno_ .arg (.returns t)
      (es.foldl .appl (.ident F.external)) binds n = .ok (s, n')) :
    ∃ b, TailSpec I F w i (.returns t) es binds n n' s b [] := by
  simp only [wrapperBody, Stubs.flip, bind_eq_ok, pure_apply, Except.ok.injEq,
    Prod.mk.injEq] at h
  obtain ⟨r, n1, hr, rfl, rfl⟩ := h
  obtain ⟨b, hpat, hbinds, hnames, hruns⟩ :=
    result_spec (I := I) (p := ⟨.result, 0⟩) hF hr
  refine ⟨b, ?_, rfl, by simpa using hnames, ?_, ?_, ?_⟩
  · simp [localCon, MlPats.ofList, matchPat, matchPats, hpat]
  · intro x hx
    exact .inl (hbinds ▸ hx)
  · intro ht
    exact ⟨hbinds, by rw [Option.isNone_iff_eq_none.mp ht]; rfl⟩
  · intro T D tr qs hb _ hbD hdrawn harity hpos _ hbase hes
    have hcall := evals_call hF hes harity.symm hpos
    have hunderscore : "_" ∉ boundNames binds ++ D := by
      intro hx
      rcases hdrawn _ hx with h | h
      · obtain ⟨k, -, -, hk⟩ := h
        exact freshName_ne_underscore k hk.symm
      · obtain ⟨k, -, -, hk⟩ := hnames.drawn _ h
        exact freshName_ne_underscore k hk.symm
    have hresult := hruns T (boundNames binds ++ D) _ hb
      (List.Subset.trans hbD (List.subset_append_right _ _))
      (hcall.runExp hF hunderscore F.concurrency)
    refine ⟨hbinds ▸ hbase [], ?_⟩
    dsimp only
    rw [hbinds]
    refine hresult.imp ?_
    rintro st evs y ⟨evs1, evs2, x, rfl, ⟨u, ⟨us, hus, rfl, rfl⟩, rfl⟩, hreads, hy⟩
    refine ⟨us, [], evs2, hus, .nil, ?_, hreads, ?_⟩
    · simp
    · simpa [Returned] using hy

theorem tailSpec_buffers (hF : F.Sound) {cpos : CPosition} {buf : CBuffers} {ret : Fn}
    (h : wrapperBody F.concurrency F.errno_ .arg (.buffers cpos buf ret)
      (es.foldl .appl (.ident F.external)) binds n = .ok (s, n')) :
    ∃ b C, TailSpec I F w i (.buffers cpos buf ret) es binds n n' s b C := by
  cases ret with
  | function f t => simp [wrapperBody] at h
  | buffers cpos' b' r' => simp [wrapperBody] at h
  | returns t =>
      simp only [wrapperBody, patternAndExpOfCbuffers, Supply.pure_bind, bind_eq_ok,
        freshVar_bind, ident_bind, pure_apply, Except.ok.injEq, Prod.mk.injEq] at h
      obtain ⟨q, n1, hq, -, -, ⟨r, n2, hr, rfl, rfl⟩, rfl, rfl⟩ := h
      obtain ⟨b1, hpat, hnames1⟩ := argument_pattern hF I hq ⟨.result, 0⟩
      obtain ⟨bs, b2, hspec⟩ := buffers_spec hF I hr
      have hnames : FreshNames n n2
          ((b2 ++ b1).map Prod.fst ++ (bufferConstraints I w bs).map Prod.fst) := by
        rw [bufferConstraints_names]
        refine (hnames1.append hspec.names).perm (List.perm_iff_count.mpr fun y => ?_)
        simp only [List.map_append, List.count_append]
        omega
      refine ⟨b2 ++ b1, bufferConstraints I w bs, ?_, rfl, ?_, ?_,
        fun h => (Bool.false_ne_true h).elim, ?_⟩
      · simp [localCon, MlPats.ofList, matchPat, matchPats, hpat, hspec.matches_]
      · exact ⟨fun x hx => (hnames.drawn x hx).mono (Nat.le_refl n) (Nat.le_succ n2),
          hnames.nodup, Nat.le_succ_of_le hnames.le⟩
      · intro x hx
        dsimp only at hx
        rw [hspec.binds] at hx
        rcases mem_boundNames_bufferBinds hx with hx | hx
        · exact .inl hx
        · exact .inr (mem_bufferConstraints hx)
      · intro T D tr qs hb hC hbD hdrawn harity hpos hcreated hbase hes
        have hbs : ∀ x ∈ bs.map Prod.fst, Drawn freshName n n2 x := fun x hx =>
          hnames.drawn x (by
            rw [bufferConstraints_names]
            exact List.mem_append_right _ hx)
        have hsizes : (Fn.buffers cpos buf (.returns t)).sizes = bs.map Prod.snd :=
          hspec.sizes.symm
        have hnonempty : bs.map Prod.snd ≠ [] := by simpa using hspec.ne_nil
        refine ⟨?_, ?_⟩
        · have hruns := runs_bufferBinds hF hcreated hbase (fun q hq => by
            obtain ⟨k, -, -, hk⟩ := hbs q.1 (List.mem_map.mpr ⟨q, hq, rfl⟩)
            exact .inl ⟨k, hk⟩) hC
          rw [hsizes, hspec.binds]
          cases his : bs.map Prod.snd with
          | nil => exact absurd his hnonempty
          | cons i is =>
              rw [his] at hruns
              exact hruns
        · have hsub : boundNames binds ++ D ⊆ boundNames (bufferBinds binds bs) ++ D := by
            intro y hy
            rcases List.mem_append.mp hy with hy | hy
            · exact List.mem_append_left _ (binds_subset_bufferBinds hspec.ne_nil binds hy)
            · exact List.mem_append_right _ hy
          have hbsD : bs.map Prod.fst ⊆ boundNames (bufferBinds binds bs) ++ D :=
            List.Subset.trans (names_subset_bufferBinds binds bs) (List.subset_append_left _ _)
          have hbefore : ∀ y ∈ boundNames binds ++ D, y ∉ bs.map Prod.fst ∧
              Drawn freshName 0 n2 y := by
            intro y hy
            rcases hdrawn y hy with h | h
            · exact ⟨fun hy' => h.ne freshName_inj (hbs y hy') rfl,
                h.mono (Nat.le_refl 0) hnames.le⟩
            · refine ⟨fun hy' => ?_, (hnames.left.drawn y h).mono (Nat.zero_le n)
                (Nat.le_refl n2)⟩
              rw [← bufferConstraints_names I w] at hy'
              exact (List.nodup_append.mp hnames.nodup).2.2 y h y hy' rfl
          have hnew : freshName (n2 + 1) ∉ boundNames (bufferBinds binds bs) ++ D := by
            intro hx
            have hlast : Drawn freshName n2 (n2 + 1) (freshName (n2 + 1)) :=
              drawn_of_lt (by omega) (Nat.le_refl _)
            have hcases : freshName (n2 + 1) ∈ boundNames binds ++ D ∨
                freshName (n2 + 1) ∈ bs.map Prod.fst := by
              rcases List.mem_append.mp hx with hx | hx
              · rcases mem_boundNames_bufferBinds hx with hx | hx
                · exact .inl (List.mem_append_left _ hx)
                · exact .inr hx
              · exact .inl (List.mem_append_right _ hx)
            rcases hcases with hx | hx
            · exact (hbefore _ hx).2.ne freshName_inj hlast rfl
            · exact ((hbs _ hx).mono (Nat.zero_le n) (Nat.le_refl n2)).ne freshName_inj hlast rfl
          have hlength : F.arity = es.length + bs.length := by
            simpa [hsizes] using harity
          dsimp only
          rw [hspec.binds, hspec.exp, hspec.bufExp]
          refine (evals_buffers hF hes hsub hspec.ne_nil hbsD (fun y hy => (hbefore y hy).1)
            (.inl ⟨_, rfl⟩) hnew hlength hC).imp ?_
          rintro st evs y ⟨bufs, hbufs, us, hus, rfl, rfl⟩
          exact ⟨us, bufs, [], hus, by rwa [hsizes], rfl, rfl, rfl⟩

end Tail

/-- What is generated for a whole specification. -/
structure BodySpec (I : MlLanguage.Interp V W) (F : File) (w0 : W) (f : Fn) (vs : List V)
    (n n' : Nat)
    (s : WrapperState) (b : Bindings) (C : Constraints V W) : Prop where
  matches_ : matchPat s.pat (.fn 0 f) = some b
  length : s.args.length = f.arguments.length
  names : FreshNames n n' (b.map Prod.fst ++ s.args ++ C.map Prod.fst)
  bound : ∀ x ∈ boundNames s.binds, ∃ Q, (x, IsVal Q) ∈ C
  trivial : s.trivial → s.binds = [] ∧ s.exp = runExp F.concurrency
    ((s.args.map fun x => .ident [x]).foldl .appl (.ident F.external))
  runs : ∀ T, Respects T (dataConstraints b) → Respects T C →
    Respects T (argConstraints s.args vs) → ∃ tr, SameWrites tr (writesFrom 0 f.arguments) ∧
      Runs I F T w0 (b.map Prod.fst ++ s.args) [] s.binds (bindTrace f.sizes tr) ∧
      Evals I F T (boundNames s.binds ++ (b.map Prod.fst ++ s.args)) s.exp
        (Outcome I F w0 f.tail (List.zipWith (argImage I) f.arguments vs))

section Body

variable {I : MlLanguage.Interp V W} {F : File} {w : W} {f : Fn} {vs : List V} {n n' : Nat}
  {s : WrapperState}

theorem Fn.tail_ne_function (f : Fn) (t : Typ) (g : Fn) : f.tail ≠ .function t g := by
  induction f with
  | returns u => nofun
  | function u f ih => exact ih
  | buffers cpos b r _ => nofun

theorem tail_spec (hF : F.Sound) {i : Nat} {es : List MlExp} {binds : List MlBind}
    (h : wrapperBody F.concurrency F.errno_ .arg f.tail
      (es.foldl .appl (.ident F.external)) binds n = .ok (s, n')) :
    ∃ b C, TailSpec I F w i f.tail es binds n n' s b C := by
  cases htail : f.tail with
  | returns t =>
      rw [htail] at h
      obtain ⟨b, hspec⟩ := tailSpec_returns (I := I) (w := w) (i := i) hF h
      exact ⟨b, [], hspec⟩
  | function t g => exact absurd htail (f.tail_ne_function t g)
  | buffers cpos buf ret =>
      rw [htail] at h
      exact tailSpec_buffers hF h

theorem body_spec (hF : F.Sound) (hargs : f.arguments ≠ [])
    (hlen : vs.length = f.arguments.length)
    (harity : F.arity = f.arguments.length + f.sizes.length)
    (h : wrapperBody F.concurrency F.errno_ .arg f (.ident F.external) [] n = .ok (s, n')) :
    ∃ b C, BodySpec I F w f vs n n' s b C := by
  rw [← arrows_arguments f] at h
  obtain ⟨s', n1, xs, es, front, back, b1, C1, hspec, hs', hsargs, hsexp, hsbinds, htrivial,
    hpat⟩ := arguments_spec (I := I) (i := 0) hF hlen h
  obtain ⟨b2, C2, htail⟩ := tail_spec (I := I) (w := w) (i := 0 + f.arguments.length) hF hs'
  have hxs : s.args = xs := by rw [hsargs, htail.args, List.append_nil]
  have hnames : FreshNames n n' ((b1 ++ b2).map Prod.fst ++ xs ++ (C1 ++ C2).map Prod.fst) := by
    refine (hspec.names.append htail.names).perm (List.perm_iff_count.mpr fun y => ?_)
    simp only [List.map_append, List.count_append]
    omega
  rw [List.append_nil] at htail
  refine ⟨b1 ++ b2, C1 ++ C2, ?_, ?_, ?_, ?_, ?_, ?_⟩
  · have hmatch := hpat b2 htail.matches_
    rwa [arrows_arguments] at hmatch
  · rw [hxs, hspec.length]
  · rwa [hxs]
  · intro x hx
    rw [hsbinds] at hx
    rcases htail.bound x hx with hx | ⟨Q, hQ⟩
    · obtain ⟨Q, hQ⟩ := hspec.bound x hx
      exact ⟨Q, List.mem_append_left _ hQ⟩
    · exact ⟨Q, List.mem_append_right _ hQ⟩
  · intro ht
    obtain ⟨ht', rfl, rfl, rfl⟩ := htrivial ht
    obtain ⟨hbinds, hexp⟩ := htail.trivial ht'
    exact ⟨hsbinds.trans hbinds, by rw [hsexp, hexp, hxs]⟩
  · intro T hb hC hvs
    rw [dataConstraints, List.map_append] at hb
    rw [hxs] at hvs ⊢
    have hb1 : b1.map Prod.fst ⊆ (b1 ++ b2).map Prod.fst ++ xs := by
      intro y hy
      simp [List.map_append, hy]
    have hb2 : b2.map Prod.fst ⊆ (b1 ++ b2).map Prod.fst ++ xs := by
      intro y hy
      simp [List.map_append, hy]
    obtain ⟨tr, hsame, hbase, hes⟩ := hspec.runs_binds
      (fun q hq => hb q (List.mem_append_left _ hq))
      (fun q hq => hC q (List.mem_append_left _ hq)) hvs hb1 (List.subset_append_right _ _)
    have hdrawn : ∀ x ∈ boundNames (front ++ back) ++ ((b1 ++ b2).map Prod.fst ++ xs),
        Drawn freshName 0 n1 x ∨ x ∈ b2.map Prod.fst := by
      intro x hx
      have hcases : x ∈ b1.map Prod.fst ++ xs ++ C1.map Prod.fst ∨ x ∈ b2.map Prod.fst := by
        rcases List.mem_append.mp hx with hx | hx
        · obtain ⟨Q, hQ⟩ := hspec.bound x hx
          exact .inl (List.mem_append_right _ (List.mem_map.mpr ⟨_, hQ, rfl⟩))
        · simp only [List.map_append, List.mem_append] at hx ⊢
          tauto
      rcases hcases with hx | hx
      · exact .inl ((hspec.names.drawn x hx).mono (Nat.zero_le n) (Nat.le_refl n1))
      · exact .inr hx
    have hpos : 0 < F.arity := by
      have := List.length_pos_iff.mpr hargs
      omega
    obtain ⟨hruns, hevals⟩ := htail.runs T _ tr _
      (fun q hq => hb q (List.mem_append_right _ hq))
      (fun q hq => hC q (List.mem_append_right _ hq)) hb2 hdrawn
      (by rw [hspec.count, f.tail_sizes, harity]) hpos hsame.created_eq_nil
      (fun c => hbase w c) hes
    rw [f.tail_sizes] at hruns
    rw [hsbinds, hsexp]
    exact ⟨tr, hsame, hruns, hevals⟩

end Body

end CtypesCbuf.Cbuf
