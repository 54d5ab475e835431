import CtypesCbuf.CtypesForeign.Relocation

/-!
OCaml functions called from C. `box_function` wraps one constructor for each
parameter of the function type, and the handler removes one for each argument
that libffi passes. `Void` is a parameter for the one and no argument for the
other; a view over `void` is an argument for libffi and none for C.
-/

namespace CtypesCbuf.CtypesForeign.CtypesFfi

open NameSupply (except_bind_eq_ok)
open Ctypes
open CtypesCbuf.Runtime

/-- An OCaml function that takes its arguments one at a time. -/
inductive MlFun
  | value (v : Value)
  | closure (f : Value → MlFun)

namespace MlFun

def apply : MlFun → Value → Except Exn MlFun
  | .closure f, v => .ok (f v)
  | .value _, _ => .error .matchFailure

def toValue : MlFun → Value
  | .value v => v
  | .closure _ => .unit

/-- A function of `n` arguments. -/
def Arity : Nat → MlFun → Prop
  | 0, f => ∃ v, f = .value v
  | n + 1, f => ∃ g, f = .closure g ∧ ∀ v, Arity n (g v)

end MlFun

/-- `boxedfn`. A `Done` is known by what it writes at the address it is given.
An `Fn` also returns the value that it passes on to the OCaml function. -/
inductive BoxedFn
  | done (write : Option CVal)
  | fn (f : CVal → Except Exn (Value × BoxedFn))

/-- The references to functions are weak; those of a callback that can be
called are not empty. -/
def boxFunction (l : Libffi) (m : Machine) :
    Ctypes.Fn → Callspec → Except Failure ((MlFun → BoxedFn) × Callspec)
  | .returns ty, callspec => do
      let callspec ← prepCallspec l callspec ty
      let writeRv ← ofExn (write m ty)
      return (fun f => .done (writeRv f.toValue), callspec)
  | .function p f, callspec => do
      let (_, callspec) ← addArgument l callspec p
      let (box, callspec) ← boxFunction l m f callspec
      let read ← ofExn (build m p)
      return (fun f => .fn fun buf => do
        let v ← read buf
        let f' ← f.apply v
        return (v, box f'), callspec)

/-- The loop of the handler, with the places that are read and the values that
the function is applied to. -/
def callFns : List CVal → BoxedFn → Except Failure (List (CVal × Value) × BoxedFn)
  | [], boxedfn => .ok ([], boxedfn)
  | argptr :: args, .fn f => do
      let (v, boxedfn) ← ofExn (f argptr)
      let (us, boxedfn) ← callFns args boxedfn
      return ((argptr, v) :: us, boxedfn)
  | _ :: _, .done _ => .error .stub

/-- `callback_handler_with_lock`: the values that the function is applied to,
each with the place it is read from, and what is written for the return value.
The argument is `Val_unit` where libffi has none. -/
def callbackHandler (arity : Nat) (args : List CVal) (boxedfn : BoxedFn) :
    Except Failure (List (CVal × Value) × Option CVal) := do
  let (us, boxedfn) ← callFns (if arity = 0 then [.undefined] else args.take arity) boxedfn
  match boxedfn with
  | .done write => return (us, write)
  | .fn _ => .error .stub

/-- The types in the array of arguments, which libffi goes through. -/
def argTypes (callspec : Callspec) : List FfiType :=
  ((callspec.args.getD []).take callspec.nelements).filterMap fun
    | .type t => some t
    | _ => none

/-- What libffi hands to the handler for the arguments of C: it goes through the
types in order, and each takes the next argument. For an argument of type
`void` libffi promises nothing, nor for what comes after it. -/
inductive Hands : List FfiType → List CVal → List CVal → Prop
  | nil : Hands [] [] []
  | next {t ts c args handed} : t.type ≠ .void → Hands ts args handed →
      Hands (t :: ts) (c :: args) (c :: handed)
  | void {t ts args handed} : t.type = .void → handed.length = ts.length + 1 →
      Hands (t :: ts) args handed

def passed (ps : List Typ) : List Typ := ps.filter fun p => p.core ≠ .void

/-- One value for each parameter. Those that C passes are decoded from the
arguments in their order, whatever is read for the others. -/
inductive Decodes (m : Machine) : List Typ → List CVal → List (CVal × Value) → Prop
  | nil : Decodes m [] [] []
  | void {p ps args c v us read} : p.core = .void → build m p = .ok read → read c = .ok v →
      Decodes m ps args us → Decodes m (p :: ps) args ((c, v) :: us)
  | arg {p ps c args v us read} : p.core ≠ .void → build m p = .ok read → read c = .ok v →
      Decodes m ps args us → Decodes m (p :: ps) (c :: args) ((c, v) :: us)

def applyAll : MlFun → List Value → Except Exn MlFun
  | f, [] => .ok f
  | f, v :: vs => do applyAll (← f.apply v) vs

def result : Ctypes.Fn → Typ
  | .returns t => t
  | .function _ f => result f

/-- In every call the function is applied to one value for each parameter, and
its result is written. -/
def CallsBack (m : Machine) (fn : Ctypes.Fn) (box : MlFun → BoxedFn) (callspec : Callspec) : Prop :=
  ∀ f : MlFun, f.Arity (params fn).length → ∀ cif, callspec.cif = some cif →
    ∀ args handed : List CVal, args.length = (passed (params fn)).length →
      Hands (argTypes callspec) args handed → ∃ us r writeRv,
        callbackHandler cif.nargs handed (box f) = .ok (us, writeRv r) ∧
        Decodes m (params fn) args us ∧ applyAll f (us.map Prod.snd) = .ok (.value r) ∧
        write m (result fn) = .ok writeRv

/-- The types of parameters that a callback can have. -/
structure Callable (ps : List Typ) : Prop where
  void : ps = [.void] ∨ (ps ≠ [] ∧ .void ∉ ps)
  /-- Nothing that C passes comes after a view over `void`. -/
  voidLast : ps.Pairwise fun p q => p.core = .void → q.core = .void
  noOcaml : ∀ p ∈ ps, ∀ ty, p.core ≠ .ocaml ty

variable {l : Libffi} {m : Machine} {ts : List FfiType} {callspec callspec' : Callspec}
  {fn : Ctypes.Fn} {box : MlFun → BoxedFn}

theorem ofExn_eq_ok {α : Type} {x : Except Exn α} {a : α} (h : ofExn x = .ok a) : x = .ok a := by
  cases x with
  | error e => cases h
  | ok b => exact congrArg Except.ok (Except.ok.inj h)

/-! ### Reading arguments -/

/-- Only OCaml memory cannot be read. -/
theorem build_reads {p : Typ} {read : CVal → Except Exn Value} (h : build m p = .ok read)
    (hp : ∀ ty, p.core ≠ .ocaml ty) (c : CVal) : ∃ v, read c = .ok v := by
  induction p using Typ.core.induct generalizing read with
  | case1 w ty ih =>
      obtain ⟨buildty, hty, h⟩ := except_bind_eq_ok h
      cases h
      obtain ⟨v, hv⟩ := ih hty (by simpa using hp)
      exact ⟨m.read w v, congrArg (· >>= fun v => pure (m.read w v)) hv⟩
  | case2 p hview =>
      cases p with
      | view w ty => exact absurd rfl (hview w ty)
      | ocaml ty => exact absurd rfl (hp ty)
      | struct tag spec fields =>
          cases spec with
          | incomplete isize => cases h
          | complete size align =>
              cases h
              exact ⟨_, rfl⟩
      | union utag uspec ufields => cases h
      | array t n => cases h
      | bigarray ba => cases h
      | abstract a => cases h
      | void | primitive | pointer | funptr =>
          cases h
          exact ⟨_, rfl⟩

theorem build_ocaml {p : Typ} {ty : OcamlType} (hp : p.core = .ocaml ty)
    {read : CVal → Except Exn Value} (h : build m p = .ok read) (c : CVal) :
    read c = .error .assertFailure := by
  induction p using Typ.core.induct generalizing read with
  | case1 w ty' ih =>
      obtain ⟨buildty, hty, h⟩ := except_bind_eq_ok h
      cases h
      rw [Typ.core_view] at hp
      exact congrArg (· >>= fun v => pure (m.read w v)) (ih hp hty)
  | case2 p hview =>
      rw [Typ.core] at hp
      · subst hp
        cases h
        rfl
      · exact hview

/-- A parameter is decoded with its own reader, from the next argument if C
passes one. -/
theorem Decodes.cons_iff {p : Typ} {ps : List Typ} {args : List CVal} {u : CVal × Value}
    {us : List (CVal × Value)} : Decodes m (p :: ps) args (u :: us) ↔
      (∃ read, build m p = .ok read ∧ read u.1 = .ok u.2) ∧
        ∃ rest, (if p.core = .void then args = rest else args = u.1 :: rest) ∧
          Decodes m ps rest us := by
  obtain ⟨c, v⟩ := u
  constructor
  · intro h
    cases h with
    | void hp hread hv hrest => exact ⟨⟨_, hread, hv⟩, args, by simp [hp], hrest⟩
    | arg hp hread hv hrest => exact ⟨⟨_, hread, hv⟩, _, by simp [hp], hrest⟩
  · rintro ⟨⟨read, hread, hv⟩, rest, hargs, hrest⟩
    by_cases hp : p.core = .void
    · rw [if_pos hp] at hargs
      exact hargs ▸ .void hp hread hv hrest
    · rw [if_neg hp] at hargs
      exact hargs ▸ .arg hp hread hv hrest

/-- OCaml memory is never read. -/
theorem Decodes.noOcaml {ps : List Typ} {args : List CVal} {us : List (CVal × Value)}
    (h : Decodes m ps args us) : ∀ p ∈ ps, ∀ ty, p.core ≠ .ocaml ty := by
  induction h with
  | nil => exact List.forall_mem_nil _
  | void hp hread hv _ ih | arg hp hread hv _ ih =>
      refine List.forall_mem_cons.mpr ⟨fun ty hty => ?_, ih⟩
      rw [build_ocaml hty hread] at hv
      cases hv

/-! ### What libffi hands over -/

theorem argType_void_iff {p : Typ} {t : FfiType} (h : argType l p = .ok t) :
    t.type = .void ↔ p.core = .void := by
  rw [← argType_core p] at h
  cases hp : p.core with
  | void =>
      rw [hp] at h
      cases h
      exact iff_of_true rfl rfl
  | primitive q =>
      rw [hp, argType] at h
      refine iff_of_false (fun ht => ?_) (by simp)
      cases q <;> cases h <;> try cases ht
      simp only [scalar] at ht
      split at ht <;> cases ht
  | view v ty => exact absurd hp (Typ.core_ne_view p v ty)
  | pointer | funptr | ocaml =>
      rw [hp] at h
      cases h
      exact iff_of_false (by simp [ffiTypePointer]) (by simp)
  | struct tag spec fields =>
      rw [hp] at h
      refine iff_of_false (fun ht => ?_) (by simp)
      cases spec with
      | incomplete isize => cases h
      | complete size align =>
          obtain ⟨members, -, h⟩ := except_bind_eq_ok h
          obtain ⟨r, -, h⟩ := except_bind_eq_ok h
          cases h
          cases ht
  | union | array | bigarray | abstract =>
      rw [hp] at h
      cases h

theorem Holds.argTypes_eq (h : Holds ts callspec) : argTypes callspec = ts := by
  obtain ⟨hn, rest, hargs⟩ := h
  rw [argTypes, hargs, hn, List.take_append_of_le_length (by simp),
    List.take_of_length_le (by simp), List.filterMap_map]
  exact List.filterMap_some

theorem Hands.length_eq {args handed : List CVal} (h : Hands ts args handed) :
    handed.length = ts.length := by
  induction h with
  | nil => rfl
  | next _ _ ih => rw [List.length_cons, ih, List.length_cons]
  | void _ hlen => exact hlen

/-- The arguments, with something else from the first one of type `void` on. -/
def garbled (c d : CVal) : List FfiType → List CVal
  | [] => []
  | t :: ts =>
      if t.type = .void then List.replicate (ts.length + 1) d else c :: garbled c d ts

theorem hands_garbled {ps : List Typ} (c d : CVal)
    (h : List.Forall₂ (fun p t => argType l p = .ok t) ps ts) :
    Hands ts (List.replicate (passed ps).length c) (garbled c d ts) := by
  induction h with
  | nil => exact .nil
  | @cons p t ps ts hp _ ih =>
      rw [garbled]
      split
      · rename_i ht
        exact .void ht (by simp)
      · rename_i ht
        have hcore : p.core ≠ .void := (argType_void_iff hp).not.mp ht
        rw [passed, List.filter_cons_of_pos (by simpa using hcore), List.length_cons,
          List.replicate_succ]
        exact .next ht ih

theorem Decodes.reads {ps : List Typ} {args : List CVal} {us : List (CVal × Value)} {c : CVal}
    (h : Decodes m ps args us) (hargs : ∀ a ∈ args, a = c) :
    List.Forall₂ (fun p u => p.core ≠ .void → u.1 = c) ps us := by
  induction h with
  | nil => exact .nil
  | void hp _ _ _ ih => exact .cons (fun hne => absurd hp hne) (ih hargs)
  | arg _ _ _ _ ih =>
      obtain ⟨hc, hargs⟩ := List.forall_mem_cons.mp hargs
      exact .cons (fun _ => hc) (ih hargs)

theorem void_of_reads {ps : List Typ} {us : List (CVal × Value)} {c d : CVal} (hcd : d ≠ c)
    (hreads : List.Forall₂ (fun p u => p.core ≠ .void → u.1 = c) ps us)
    (hus : ∀ u ∈ us, u.1 = d) : ∀ p ∈ ps, p.core = .void := by
  induction hreads with
  | nil => exact List.forall_mem_nil _
  | cons hp _ ih =>
      obtain ⟨hu, hus⟩ := List.forall_mem_cons.mp hus
      refine List.forall_mem_cons.mpr ⟨?_, ih hus⟩
      exact Classical.byContradiction fun hne => hcd (hu.symm.trans (hp hne))

/-- When every argument is `c`, none is read behind the first type `void`. -/
theorem voidLast_of_garbled {ps : List Typ} {us : List (CVal × Value)} {c d : CVal} (hcd : d ≠ c)
    (hts : List.Forall₂ (fun p t => argType l p = .ok t) ps ts)
    (hreads : List.Forall₂ (fun p u => p.core ≠ .void → u.1 = c) ps us)
    (hus : us.map Prod.fst = garbled c d ts) :
    ps.Pairwise fun p q => p.core = .void → q.core = .void := by
  induction hts generalizing us with
  | nil => exact .nil
  | @cons p t ps ts hp hps ih =>
      obtain ⟨u, us', -, htail, rfl⟩ := List.forall₂_cons_left_iff.mp hreads
      rw [garbled, List.map_cons] at hus
      split at hus
      · have hd : ∀ u ∈ us', u.1 = d := by
          intro u hu
          have hmem : u.1 ∈ List.replicate ts.length d :=
            (List.cons.inj hus).2 ▸ List.mem_map_of_mem hu
          exact List.eq_of_mem_replicate hmem
        have hvoid := void_of_reads hcd htail hd
        refine List.pairwise_cons.mpr ⟨fun q hq _ => hvoid q hq, ?_⟩
        exact List.pairwise_of_forall_mem_list fun _ _ q hq _ => hvoid q hq
      · rename_i ht
        have hcore : p.core ≠ .void := (argType_void_iff hp).not.mp ht
        exact List.pairwise_cons.mpr
          ⟨fun q _ h => absurd h hcore, ih htail (List.cons.inj hus).2⟩

/-! ### Boxed functions -/

/-- What building a callback leaves: a call interface for the parameters that
are not `Void`. -/
theorem boxFunction_cif (hts : Holds ts callspec)
    (h : boxFunction l m fn callspec = .ok (box, callspec')) :
    ∃ cif us, callspec'.cif = some cif ∧ cif.nargs = (ts ++ us).length ∧
      Holds (ts ++ us) callspec' ∧
      List.Forall₂ (fun p u => argType l p = .ok u) ((params fn).filter (· ≠ .void)) us := by
  induction fn using params.induct generalizing ts callspec box with
  | case1 t =>
      obtain ⟨spec, hprep, h⟩ := except_bind_eq_ok h
      obtain ⟨writeRv, -, h⟩ := except_bind_eq_ok h
      obtain ⟨-, rfl⟩ := Prod.mk.inj (Except.ok.inj h)
      obtain ⟨ret, -, hprep⟩ := except_bind_eq_ok hprep
      have hprep := ofStub_eq_ok hprep
      obtain ⟨hholds, -⟩ := hts.prepCallspec hprep
      obtain ⟨-, -, hprep⟩ := Option.bind_eq_some_iff.mp hprep
      cases hprep
      exact ⟨_, [], rfl, by simpa using hts.1, by simpa using hholds, .nil⟩
  | case2 p f ih =>
      obtain ⟨⟨offset, spec⟩, hadd, h⟩ := except_bind_eq_ok h
      obtain ⟨⟨rest, spec'⟩, hrest, h⟩ := except_bind_eq_ok h
      obtain ⟨read, -, h⟩ := except_bind_eq_ok h
      obtain ⟨-, rfl⟩ := Prod.mk.inj (Except.ok.inj h)
      obtain ⟨rfl, rfl⟩ | ⟨hp, t, ht, hadd⟩ := addArgument_cases hadd
      · obtain ⟨cif, us, hcif, hn, hholds, hus⟩ := ih hts hrest
        exact ⟨cif, us, hcif, hn, hholds, by simpa [params] using hus⟩
      · obtain ⟨cif, us, hcif, hn, hholds, hus⟩ := ih (hts.addArgument hadd) hrest
        rw [List.append_assoc] at hn hholds
        refine ⟨cif, t :: us, hcif, hn, hholds, ?_⟩
        rw [params, List.filter_cons_of_pos (by simpa using hp)]
        exact .cons ht hus

/-- A boxed function has a constructor for every parameter. -/
theorem callFns_done {f : MlFun} {args : List CVal} {us : List (CVal × Value)} {w : Option CVal}
    (hbox : boxFunction l m fn callspec = .ok (box, callspec'))
    (h : callFns args (box f) = .ok (us, .done w)) : args.length = (params fn).length := by
  induction fn using params.induct generalizing callspec callspec' box f args us with
  | case1 t =>
      obtain ⟨spec, -, hbox⟩ := except_bind_eq_ok hbox
      obtain ⟨writeRv, -, hbox⟩ := except_bind_eq_ok hbox
      obtain ⟨rfl, -⟩ := Prod.mk.inj (Except.ok.inj hbox)
      cases args with
      | nil => rfl
      | cons c args => cases h
  | case2 p g ih =>
      obtain ⟨⟨offset, spec⟩, -, hbox⟩ := except_bind_eq_ok hbox
      obtain ⟨⟨rest, spec'⟩, hrest, hbox⟩ := except_bind_eq_ok hbox
      obtain ⟨read, -, hbox⟩ := except_bind_eq_ok hbox
      obtain ⟨rfl, -⟩ := Prod.mk.inj (Except.ok.inj hbox)
      cases args with
      | nil => cases h
      | cons c args =>
          obtain ⟨⟨v, b⟩, hfn, h⟩ := except_bind_eq_ok h
          obtain ⟨⟨ws, b'⟩, hloop, h⟩ := except_bind_eq_ok h
          obtain ⟨rfl, rfl⟩ := Prod.mk.inj (Except.ok.inj h)
          obtain ⟨u, -, hfn⟩ := except_bind_eq_ok (ofExn_eq_ok hfn)
          obtain ⟨f', -, hfn⟩ := except_bind_eq_ok hfn
          obtain ⟨-, rfl⟩ := Prod.mk.inj (Except.ok.inj hfn)
          rw [List.length_cons, ih hrest hloop, params, List.length_cons]

theorem callFns_fst {args : List CVal} {b b' : BoxedFn} {us : List (CVal × Value)}
    (h : callFns args b = .ok (us, b')) : us.map Prod.fst = args := by
  induction args generalizing b us with
  | nil =>
      cases h
      rfl
  | cons c args ih =>
      cases b with
      | done w => cases h
      | fn f =>
          obtain ⟨⟨v, b₁⟩, -, h⟩ := except_bind_eq_ok h
          obtain ⟨⟨ws, b₂⟩, hloop, h⟩ := except_bind_eq_ok h
          obtain ⟨rfl, rfl⟩ := Prod.mk.inj (Except.ok.inj h)
          rw [List.map_cons, ih hloop]

/-- Where nothing that C passes comes after a `void`, each parameter is handed
its own argument. -/
theorem Hands.cons_cases {p : Typ} {ps : List Typ} {t : FfiType} {args handed : List CVal}
    (hp : argType l p = .ok t) (hps : List.Forall₂ (fun p t => argType l p = .ok t) ps ts)
    (hlast : (p :: ps).Pairwise fun p q => p.core = .void → q.core = .void)
    (hargs : args.length = (passed (p :: ps)).length) (h : Hands (t :: ts) args handed) :
    ∃ c handed' rest, handed = c :: handed' ∧
      (if p.core = .void then args = rest else args = c :: rest) ∧
      rest.length = (passed ps).length ∧ Hands ts rest handed' := by
  cases h with
  | @next _ _ c args handed ht h =>
      have hcore : p.core ≠ .void := (argType_void_iff hp).not.mp ht
      rw [passed, List.filter_cons_of_pos (by simpa using hcore), List.length_cons,
        List.length_cons, Nat.succ_inj] at hargs
      exact ⟨c, handed, args, rfl, by simp [hcore], hargs, h⟩
  | void ht hlen =>
      have hcore : p.core = .void := (argType_void_iff hp).mp ht
      obtain ⟨c, handed, rfl⟩ := List.exists_cons_of_length_eq_add_one hlen
      rw [passed, List.filter_cons_of_neg (by simpa using hcore)] at hargs
      have hvoid : ∀ q ∈ ps, q.core = .void := fun q hq =>
        (List.pairwise_cons.mp hlast).1 q hq hcore
      have hnil : passed ps = [] := List.filter_eq_nil_iff.mpr fun q hq => by simpa using hvoid q hq
      refine ⟨c, handed, args, rfl, by simp [hcore], hargs, ?_⟩
      have hargs' : args.length = (passed ps).length := hargs
      rw [hnil] at hargs'
      rw [List.eq_nil_of_length_eq_zero hargs']
      cases hps with
      | nil =>
          rw [List.eq_nil_of_length_eq_zero (Nat.succ_inj.mp hlen)]
          exact .nil
      | @cons q u ps ts hq _ =>
          exact .void ((argType_void_iff hq).mpr (hvoid q (by simp))) (Nat.succ_inj.mp hlen)

/-- Applied to what is handed over, one place for each parameter, a boxed
function applies the function it boxes. -/
theorem callFns_box {f : MlFun} {args handed : List CVal} {ts : List FfiType}
    (hbox : boxFunction l m fn callspec = .ok (box, callspec'))
    (hf : f.Arity (params fn).length)
    (hts : List.Forall₂ (fun p t => argType l p = .ok t) (params fn) ts)
    (hlast : (params fn).Pairwise fun p q => p.core = .void → q.core = .void)
    (hocaml : ∀ p ∈ params fn, ∀ ty, p.core ≠ .ocaml ty)
    (hargs : args.length = (passed (params fn)).length) (hhanded : Hands ts args handed) :
    ∃ us r writeRv, callFns handed (box f) = .ok (us, .done (writeRv r)) ∧
      Decodes m (params fn) args us ∧ applyAll f (us.map Prod.snd) = .ok (.value r) ∧
      write m (result fn) = .ok writeRv := by
  induction fn using params.induct generalizing callspec callspec' box f args handed ts with
  | case1 t =>
      obtain ⟨spec, -, hbox⟩ := except_bind_eq_ok hbox
      obtain ⟨writeRv, hwrite, hbox⟩ := except_bind_eq_ok hbox
      obtain ⟨rfl, -⟩ := Prod.mk.inj (Except.ok.inj hbox)
      obtain ⟨r, rfl⟩ := hf
      cases hts
      cases hhanded
      exact ⟨[], r, writeRv, rfl, .nil, rfl, ofExn_eq_ok hwrite⟩
  | case2 p g ih =>
      obtain ⟨⟨offset, spec⟩, -, hbox⟩ := except_bind_eq_ok hbox
      obtain ⟨⟨rest, spec'⟩, hrest, hbox⟩ := except_bind_eq_ok hbox
      obtain ⟨read, hread, hbox⟩ := except_bind_eq_ok hbox
      obtain ⟨rfl, -⟩ := Prod.mk.inj (Except.ok.inj hbox)
      obtain ⟨h, rfl, harity⟩ := hf
      rw [params] at hts hlast hargs ⊢
      obtain ⟨t, ts', hp, htail, rfl⟩ := List.forall₂_cons_left_iff.mp hts
      obtain ⟨c, handed', rest', rfl, hc, hlen, hnext⟩ := hhanded.cons_cases hp htail hlast hargs
      have hread := ofExn_eq_ok hread
      obtain ⟨v, hv⟩ := build_reads hread (hocaml p (by simp [params])) c
      obtain ⟨us, r, writeRv, hloop, hdecodes, happly, hwrite⟩ :=
        ih hrest (harity v) htail (List.pairwise_cons.mp hlast).2
          (fun q hq => hocaml q (by simp [params, hq])) hlen hnext
      refine ⟨(c, v) :: us, r, writeRv, ?_, ?_, ?_, hwrite⟩
      · simp only [callFns, hv, MlFun.apply, ofExn, hloop, bind, Except.bind, pure, Except.pure]
      · exact Decodes.cons_iff.mpr ⟨⟨read, hread, hv⟩, rest', hc, hdecodes⟩
      · simp only [List.map_cons, applyAll, MlFun.apply, bind, Except.bind]
        exact happly

/-- The callback of a function whose only parameter is `Void`. -/
theorem callFns_void {f : MlFun} {t : Typ}
    (hbox : boxFunction l m (.function .void (.returns t)) callspec = .ok (box, callspec'))
    (hf : f.Arity 1) : ∃ r writeRv,
      callFns [.undefined] (box f) = .ok ([(.undefined, .unit)], .done (writeRv r)) ∧
      applyAll f [.unit] = .ok (.value r) ∧ write m t = .ok writeRv := by
  obtain ⟨⟨offset, spec₀⟩, -, hbox⟩ := except_bind_eq_ok hbox
  obtain ⟨⟨rest, spec⟩, hrest, hbox⟩ := except_bind_eq_ok hbox
  obtain ⟨rfl, -⟩ := Prod.mk.inj (Except.ok.inj hbox)
  obtain ⟨spec', -, hrest⟩ := except_bind_eq_ok hrest
  obtain ⟨writeRv, hwrite, hrest⟩ := except_bind_eq_ok hrest
  obtain ⟨rfl, -⟩ := Prod.mk.inj (Except.ok.inj hrest)
  obtain ⟨g, rfl, harity⟩ := hf
  obtain ⟨r, hr⟩ := harity .unit
  refine ⟨r, writeRv, ?_, ?_, ofExn_eq_ok hwrite⟩
  · simp only [callFns, MlFun.apply, ofExn, hr, MlFun.toValue, bind, Except.bind, pure,
      Except.pure]
  · simp only [applyAll, MlFun.apply, hr, bind, Except.bind]

/-- The function that ignores its `n` arguments. -/
def MlFun.const : Nat → MlFun
  | 0 => .value .unit
  | n + 1 => .closure fun _ => const n

theorem MlFun.arity_const (n : Nat) : (MlFun.const n).Arity n := by
  induction n with
  | zero => exact ⟨_, rfl⟩
  | succ n ih => exact ⟨_, rfl, fun _ => ih⟩

theorem callbackHandler_eq_ok {arity : Nat} {args : List CVal} {b : BoxedFn}
    {us : List (CVal × Value)} {w : Option CVal}
    (h : callbackHandler arity args b = .ok (us, w)) :
    callFns (if arity = 0 then [.undefined] else args.take arity) b = .ok (us, .done w) := by
  obtain ⟨⟨ws, b'⟩, hloop, h⟩ := except_bind_eq_ok h
  cases b' with
  | fn f => cases h
  | done w' =>
      obtain ⟨rfl, rfl⟩ := Prod.mk.inj (Except.ok.inj h)
      exact hloop

theorem callbackHandler_of_done {arity : Nat} {args : List CVal} {b : BoxedFn}
    {us : List (CVal × Value)} {w : Option CVal}
    (h : callFns (if arity = 0 then [.undefined] else args.take arity) b = .ok (us, .done w)) :
    callbackHandler arity args b = .ok (us, w) := by
  rw [callbackHandler, h]
  rfl

theorem filter_ne_void {ps : List Typ} (h : .void ∉ ps) : ps.filter (· ≠ .void) = ps := by
  refine List.filter_eq_self.mpr fun p hp => ?_
  rw [decide_eq_true_iff]
  rintro rfl
  exact h hp

/-- `void` alone is the parameter of one kind of function. -/
theorem eq_function_void {fn : Fn} (h : params fn = [.void]) :
    ∃ t, fn = .function .void (.returns t) := by
  cases fn with
  | returns t => cases h
  | function p g =>
      obtain ⟨rfl, hg⟩ := List.cons.inj h
      cases g with
      | returns t => exact ⟨t, rfl⟩
      | function q g => cases hg

/-- One call with garbled arguments tells what the parameters are. -/
theorem callable_of_callsBack {context : CallContext}
    (hbox : boxFunction l m fn (allocateCallspec context) = .ok (box, callspec))
    (h : CallsBack m fn box callspec) : Callable (params fn) := by
  obtain ⟨cif, ts, hcif, hn, hholds, hts⟩ := boxFunction_cif (holds_allocateCallspec context) hbox
  rw [List.nil_append] at hn hholds
  have hlen := hts.length_eq
  have hpassed : passed ((params fn).filter (· ≠ .void)) = passed (params fn) := by
    rw [passed, passed, List.filter_filter]
    refine List.filter_congr fun p _ => ?_
    by_cases hp : p = .void <;> simp [hp, Typ.core]
  have hhands := hands_garbled (.int 0) .undefined hts
  rw [hpassed] at hhands
  obtain ⟨us, r, writeRv, hhandler, hdecodes, -, -⟩ :=
    h (.const _) (MlFun.arity_const _) cif hcif (List.replicate _ (.int 0))
      (garbled (.int 0) .undefined ts) List.length_replicate
      (by rw [hholds.argTypes_eq]; exact hhands)
  have hloop := callbackHandler_eq_ok hhandler
  have hcount := callFns_done hbox hloop
  have hreads := hdecodes.reads fun a ha => List.eq_of_mem_replicate ha
  have hfst := callFns_fst hloop
  by_cases h0 : cif.nargs = 0
  · rw [if_pos h0, List.length_singleton] at hcount
    obtain ⟨p, hp⟩ := List.length_eq_one_iff.mp hcount.symm
    have hv : p = .void := by
      rw [← hn, h0, hp] at hlen
      by_contra hne
      rw [List.filter_cons_of_pos (by simpa using hne)] at hlen
      cases hlen
    subst hv
    rw [hp]
    exact ⟨.inl rfl, List.pairwise_singleton _ _, hp ▸ hdecodes.noOcaml⟩
  · rw [if_neg h0, hn, List.take_of_length_le hhands.length_eq.le] at hcount hfst
    have hvoid : .void ∉ params fn := by
      refine position_eq_length_iff.mp ?_
      rw [position, hlen, ← hhands.length_eq, hcount]
    rw [filter_ne_void hvoid] at hts
    refine ⟨.inr ⟨fun hnil => ?_, hvoid⟩, voidLast_of_garbled (by decide) hts hreads hfst,
      hdecodes.noOcaml⟩
    rw [hnil] at hts
    cases hts
    exact h0 hn

theorem callsBack_of_callable {context : CallContext}
    (hbox : boxFunction l m fn (allocateCallspec context) = .ok (box, callspec))
    (h : Callable (params fn)) : CallsBack m fn box callspec := by
  obtain ⟨cif, ts, hcif, hn, hholds, hts⟩ := boxFunction_cif (holds_allocateCallspec context) hbox
  rw [List.nil_append] at hn hholds
  obtain ⟨hvoid, hlast, hocaml⟩ := h
  intro f hf cif' hcif' args handed hargs hhands
  obtain rfl : cif = cif' := Option.some.inj (hcif.symm.trans hcif')
  rw [hholds.argTypes_eq] at hhands
  obtain hvoid | ⟨hne, hvoid⟩ := hvoid
  · have h0 : cif.nargs = 0 := by
      rw [hn, ← hts.length_eq, hvoid]
      simp
    obtain ⟨t, rfl⟩ := eq_function_void hvoid
    obtain ⟨r, writeRv, hloop, happly, hwrite⟩ := callFns_void hbox hf
    refine ⟨[(.undefined, .unit)], r, writeRv, callbackHandler_of_done ?_, ?_, happly, hwrite⟩
    · rwa [if_pos h0]
    · rw [List.eq_nil_of_length_eq_zero hargs]
      exact .void rfl rfl rfl .nil
  · rw [filter_ne_void hvoid] at hts
    have h0 : cif.nargs ≠ 0 := by
      rw [hn, ← hts.length_eq]
      exact fun h => hne (List.eq_nil_of_length_eq_zero h)
    obtain ⟨us, r, writeRv, hloop, hdecodes, happly, hwrite⟩ :=
      callFns_box hbox hf hts hlast hocaml hargs hhands
    refine ⟨us, r, writeRv, callbackHandler_of_done ?_, hdecodes, happly, hwrite⟩
    rwa [if_neg h0, hn, List.take_of_length_le hhands.length_eq.le]

/-- A callback applies its function to one value for each parameter exactly
when `Void` is the only parameter or none of them, nothing that C passes comes
after a view over `void`, and no parameter is OCaml memory. -/
theorem callsBack_iff {context : CallContext}
    (hbox : boxFunction l m fn (allocateCallspec context) = .ok (box, callspec)) :
    CallsBack m fn box callspec ↔ Callable (params fn) :=
  ⟨callable_of_callsBack hbox, callsBack_of_callable hbox⟩

/-- A function of an `int` and a pointer. -/
theorem callsBack_int_pointer : ∃ box callspec,
    boxFunction .plain .plain
      (.function Ctypes.int (.function (.pointer .void) (.returns Ctypes.int)))
      (allocateCallspec ⟨false, false⟩) = .ok (box, callspec) ∧
    CallsBack .plain (.function Ctypes.int (.function (.pointer .void) (.returns Ctypes.int)))
      box callspec := by
  refine ⟨_, _, rfl, (@callsBack_iff .plain _ _ _ _ ⟨false, false⟩ rfl).mpr ⟨.inr ?_, ?_, ?_⟩⟩
  · simp [params, Ctypes.int]
  · simp [params, Ctypes.int, Typ.core]
  · simp [params, Ctypes.int, Typ.core]

/-- After `Void` a parameter is left over. -/
theorem void_int_not_calledBack : ∃ box callspec cif,
    boxFunction .plain .plain (.function .void (.function Ctypes.int (.returns Ctypes.int)))
      (allocateCallspec ⟨false, false⟩) = .ok (box, callspec) ∧
    callspec.cif = some cif ∧ cif.nargs = 1 ∧
    (∀ c, callbackHandler cif.nargs [c] (box (.const 2)) = .error .stub) ∧
    ¬ CallsBack .plain (.function .void (.function Ctypes.int (.returns Ctypes.int)))
      box callspec := by
  refine ⟨_, _, _, rfl, rfl, rfl, fun c => rfl, fun h => ?_⟩
  have hhands : Hands [scalar 4 .sint32] [.undefined] [.undefined] := .next (by decide) .nil
  obtain ⟨us, r, writeRv, hhandler, -⟩ :=
    h (.const 2) (MlFun.arity_const 2) _ rfl [.undefined] [.undefined] rfl hhands
  cases hhandler

end CtypesCbuf.CtypesForeign.CtypesFfi
