import CtypesCbuf.CtypesForeign.CtypesFfi
import CtypesCbuf.Lib.NameSupply
import Mathlib.Data.List.Forall2
import Mathlib.Data.List.Nodup

/-!
OCaml strings and byte sequences as arguments. A writer stores such an argument
in the array `mov` under an index, and `ctypes_call` redirects the pointer with
that index. The index counts the parameters of the function type, while the
pointers are those of the arguments in the call specification, where `Void` has
none.
-/

namespace CtypesCbuf.CtypesForeign.CtypesFfi

open NameSupply (except_bind_eq_ok)
open Ctypes
open CtypesCbuf.Runtime

def params : Ctypes.Fn → List Typ
  | .returns _ => []
  | .function p f => p :: params f

def writers : Ccallspec → List Writer
  | .call _ _ => []
  | .writeArg write rest => write :: writers rest

/-- The parameter is an OCaml string or byte sequence, maybe through views. -/
def OcamlMemory (p : Typ) : Prop := p.core = .ocaml .string ∨ p.core = .ocaml .bytes

/-- The place in the array of arguments after the parameters `before`. -/
def position (before : List Typ) : Nat := (before.filter (· ≠ .void)).length

def HasArg (m : Machine) (p : Typ) (v : Value) : Prop :=
  ∀ ty, p.core = .ocaml ty → ∃ off obj, coreValue m p v = .ocamlRef ty off (.object ty obj)

/-- The array holds the types `ts`, each at its place. -/
def Holds (ts : List FfiType) (callspec : Callspec) : Prop :=
  callspec.nelements = ts.length ∧ ∃ rest, callspec.args.getD [] = ts.map .type ++ rest

variable {l : Libffi} {m : Machine} {ts : List FfiType} {callspec callspec' : Callspec}

/-! ### The array of arguments -/

theorem writeCell_eq_some {cells cells' : List Cell} {i : Nat} {c : Cell}
    (h : writeCell cells i c = some cells') : i < cells.length ∧ cells' = cells.set i c := by
  unfold writeCell at h
  split at h
  · exact ⟨‹_›, (Option.some.inj h).symm⟩
  · cases h

/-- Growing keeps the cells below its length. -/
theorem grown_prefix {cells : List Cell} {rest : List Cell}
    (h : callspec.args.getD [] = cells ++ rest) (hlen : cells.length < (grown callspec).1.length) :
    ∃ rest', (grown callspec).1 = cells ++ rest' := by
  unfold grown at hlen ⊢
  split at hlen
  · rw [if_pos ‹_›]
    rw [resize, h] at hlen ⊢
    generalize sizeT _ / wordSize = n at hlen ⊢
    have hn : cells.length ≤ n := by
      simp only [List.length_append, List.length_take, List.length_replicate] at hlen
      omega
    refine ⟨rest.take (n - cells.length) ++
      List.replicate (n - (cells ++ rest).length) .unset, ?_⟩
    rw [List.take_append, List.take_of_length_le hn, List.append_assoc]
  · rw [if_neg ‹_›]
    exact ⟨rest, h⟩

/-- The type of a new argument is put after those that are there. -/
theorem Holds.addArgument (h : Holds ts callspec) {t : FfiType} {offset : Int}
    (hadd : CtypesForeign.addArgument callspec t = some (offset, callspec')) :
    Holds (ts ++ [t]) callspec' := by
  obtain ⟨hn, rest, hargs⟩ := h
  unfold CtypesForeign.addArgument at hadd
  obtain ⟨-, -, hadd⟩ := Option.bind_eq_some_iff.mp hadd
  obtain ⟨cells₁, hwrite₁, hadd⟩ := Option.bind_eq_some_iff.mp hadd
  obtain ⟨cells₂, hwrite₂, hadd⟩ := Option.bind_eq_some_iff.mp hadd
  obtain ⟨hlt₁, rfl⟩ := writeCell_eq_some hwrite₁
  obtain ⟨-, rfl⟩ := writeCell_eq_some hwrite₂
  obtain ⟨-, rfl⟩ := Prod.mk.inj (Option.some.inj hadd)
  have hlen : (ts.map Cell.type).length < (grown callspec).1.length := by
    rwa [List.length_map, ← hn]
  obtain ⟨rest', hgrown⟩ := grown_prefix hargs hlen
  refine ⟨by simp [hn], ?_⟩
  show ∃ rest, (((grown callspec).1.set callspec.nelements (.type t)).set
    (callspec.nelements + 1) .null) = (ts ++ [t]).map .type ++ rest
  rw [hgrown, hn]
  cases rest' with
  | nil =>
      rw [hgrown] at hlen
      simp at hlen
  | cons c rest' =>
      refine ⟨rest'.set 0 .null, ?_⟩
      rw [List.set_append_right _ _ (by simp), List.set_append_right _ _ (by simp)]
      simp

theorem Holds.prepCallspec (h : Holds ts callspec) {ret : FfiType} {b : Bool}
    {prepCif : FfiType → Option (List Cell) → Bool}
    (hprep : CtypesForeign.prepCallspec b prepCif callspec ret = some callspec') :
    Holds ts callspec' ∧ callspec'.state = .callspec := by
  unfold CtypesForeign.prepCallspec at hprep
  obtain ⟨-, -, hprep⟩ := Option.bind_eq_some_iff.mp hprep
  cases hprep
  exact ⟨h, rfl⟩

theorem populateFrom_length {cells rest : List Cell} {us : List FfiType} :
    ∀ {ts : List FfiType} {offset : Nat}, cells = (ts ++ us).map .type ++ rest →
      ∃ offsets, populateFrom cells us.length ts.length offset = some offsets ∧
        offsets.length = us.length := by
  induction us with
  | nil => exact fun _ => ⟨[], rfl, rfl⟩
  | cons u us ih =>
      intro ts offset hcells
      have hget : cells[ts.length]? = some (.type u) := by
        rw [hcells]
        simp
      obtain ⟨offsets, hrest, hlen⟩ := @ih (ts ++ [u])
        (sizeT (alignedOffset offset u.alignment + u.size)) (by simpa using hcells)
      rw [List.length_append, List.length_singleton] at hrest
      refine ⟨alignedOffset offset u.alignment :: offsets, ?_, by simp [hlen]⟩
      rw [List.length_cons, populateFrom, hget]
      simp only [hrest, Option.bind_eq_bind, Option.bind_some, pure]

theorem Holds.populate (h : Holds ts callspec) :
    ∃ offsets, populateArgArray callspec = some offsets ∧ offsets.length = ts.length := by
  obtain ⟨hn, rest, hargs⟩ := h
  rw [populateArgArray, hn]
  exact @populateFrom_length _ _ ts [] 0 hargs

/-! ### Building the specification -/

theorem ofStub_eq_ok {α : Type} {o : Option α} {a : α} (h : ofStub o = .ok a) : o = some a := by
  cases o with
  | none => cases h
  | some b => exact congrArg some (Except.ok.inj h)

/-- `Void` adds no argument, another parameter its type. -/
theorem addArgument_cases {p : Typ} {offset : Int}
    (h : addArgument l callspec p = .ok (offset, callspec')) :
    (p = .void ∧ callspec' = callspec) ∨
      (p ≠ .void ∧ ∃ t, argType l p = .ok t ∧
        CtypesForeign.addArgument callspec t = some (offset, callspec')) := by
  by_cases hp : p = .void
  · subst hp
    cases h
    exact .inl ⟨rfl, rfl⟩
  · refine .inr ⟨hp, ?_⟩
    rw [addArgument] at h
    · obtain ⟨t, ht, h⟩ := except_bind_eq_ok h
      exact ⟨t, ht, ofStub_eq_ok h⟩
    · exact hp

/-- What building a specification leaves: a writer for each parameter, the
index counting all of them, and the types of those that are not `Void`. -/
structure Built (l : Libffi) (ps : List Typ) (idx : Nat) (ts : List FfiType)
    (e : Ccallspec) (callspec : Callspec) : Prop where
  indexed : (writers e).map (fun w => (w.typ, w.idx)) = ps.zipIdx idx
  types : ∃ us, List.Forall₂ (fun p u => argType l p = .ok u) (ps.filter (· ≠ .void)) us ∧
    Holds (ts ++ us) callspec
  state : callspec.state = .callspec

theorem buildCcallspec_built {checkErrno : Bool} {fn : Ctypes.Fn} {idx : Nat} {e : Ccallspec}
    (hts : Holds ts callspec)
    (h : buildCcallspec l m checkErrno idx fn callspec = .ok (e, callspec')) :
    Built l (params fn) idx ts e callspec' := by
  induction fn using params.induct generalizing idx ts callspec e with
  | case1 t =>
      obtain ⟨spec, hprep, h⟩ := except_bind_eq_ok h
      obtain ⟨b, -, h⟩ := except_bind_eq_ok h
      obtain ⟨rfl, rfl⟩ := Prod.mk.inj (Except.ok.inj h)
      obtain ⟨ret, -, hprep⟩ := except_bind_eq_ok hprep
      obtain ⟨hholds, hstate⟩ := hts.prepCallspec (ofStub_eq_ok hprep)
      exact ⟨rfl, ⟨[], .nil, by rwa [List.append_nil]⟩, hstate⟩
  | case2 p f ih =>
      obtain ⟨⟨offset, spec⟩, hadd, h⟩ := except_bind_eq_ok h
      obtain ⟨⟨rest, spec'⟩, hrest, h⟩ := except_bind_eq_ok h
      obtain ⟨rfl, rfl⟩ := Prod.mk.inj (Except.ok.inj h)
      have hwriters {us} (hb : Built l (params f) (idx + 1) us rest spec') :
          (writers (.writeArg ⟨p, offset, idx⟩ rest)).map (fun w => (w.typ, w.idx)) =
            (params (.function p f)).zipIdx idx := by
        simp only [CtypesFfi.writers, params, List.map_cons, List.zipIdx_cons, hb.indexed]
      obtain ⟨rfl, rfl⟩ | ⟨hp, t, ht, hadd⟩ := addArgument_cases hadd
      · have hb := ih hts hrest
        exact ⟨hwriters hb, by simpa [params] using hb.types, hb.state⟩
      · have hb := ih (hts.addArgument hadd) hrest
        obtain ⟨us, hus, hholds⟩ := hb.types
        refine ⟨hwriters hb, ⟨t :: us, ?_, by simpa using hholds⟩, hb.state⟩
        rw [params, List.filter_cons_of_pos (by simpa using hp)]
        exact .cons ht hus

/-! ### Writers -/

theorem argType_core (p : Typ) : argType l p.core = argType l p := by
  induction p using Typ.core.induct with
  | case1 v ty ih => rw [Typ.core_view, ih, argType]
  | case2 p h => rw [Typ.core]; exact h

/-- An argument of a type that libffi passes can be written. -/
theorem write_of_argType {p : Typ} {t : FfiType} (ht : argType l p = .ok t)
    (hp : ∀ ty, p.core ≠ .ocaml ty) : ∃ f, write m p.core = .ok f := by
  rw [← argType_core] at ht
  have hview := p.core_ne_view
  generalize p.core = q at *
  cases q with
  | struct tag spec fields =>
      cases spec with
      | incomplete isize => simp [argType, reportUnpassable] at ht
      | complete size align => exact ⟨_, rfl⟩
  | ocaml ty => exact absurd rfl (hp ty)
  | view v ty => exact absurd rfl (hview v ty)
  | union utag uspec ufields => simp [argType, reportUnpassable] at ht
  | abstract a => simp [argType, reportUnpassable] at ht
  | array t n => simp [argType, reportUnpassable] at ht
  | bigarray ba => simp [argType, reportUnpassable] at ht
  | void | primitive | pointer | funptr => exact ⟨_, rfl⟩

theorem writeArg_core (m : Machine) (p : Typ) (offset : Int) (idx : Nat) (v : Value)
    (dst : Written) :
    writeArg m p offset idx v dst = writeArg m p.core offset idx (coreValue m p v) dst := by
  induction p using Typ.core.induct generalizing v with
  | case1 w ty ih => rw [writeArg, ih, Typ.core_view, coreValue_view]
  | case2 p h =>
      rw [Typ.core, coreValue]
      · exact h
      · exact h

/-- What a writer stores in the array `mov`. -/
def relocated (m : Machine) (p : Typ) (v : Value) : Option (Value × Int) :=
  match p.core, coreValue m p v with
  | .ocaml _, .ocamlRef _ disp obj => some (obj, disp)
  | _, _ => none

/-- A parameter of a type that can be passed, with an argument of its type. -/
structure Passed (m : Machine) (p : Typ) (v : Value) : Prop where
  arg : HasArg m p v
  noFloatArray : p.core ≠ .ocaml .floatArray
  writable : (∀ ty, p.core ≠ .ocaml ty) → ∃ f, write m p.core = .ok f

theorem Passed.relocated_eq {p : Typ} {v : Value} (h : Passed m p v) :
    (relocated m p v = none ∧ ¬ OcamlMemory p) ∨
      ∃ ty off obj, relocated m p v = some (.object ty obj, off) ∧ OcamlMemory p ∧
        coreValue m p v = .ocamlRef ty off (.object ty obj) ∧ p.core = .ocaml ty := by
  by_cases hp : ∃ ty, p.core = .ocaml ty
  · obtain ⟨ty, hty⟩ := hp
    obtain ⟨off, obj, hv⟩ := h.arg ty hty
    refine .inr ⟨ty, off, obj, by rw [relocated, hty, hv], ?_, hv, hty⟩
    cases ty with
    | string => exact .inl hty
    | bytes => exact .inr hty
    | floatArray => exact absurd hty h.noFloatArray
  · refine .inl ⟨?_, fun hm => ?_⟩
    · rw [relocated]
      split
      · exact absurd ⟨_, ‹_›⟩ hp
      · rfl
    · obtain hm | hm := hm <;> exact hp ⟨_, hm⟩

/-- The array `mov` after a writer. -/
def store (m : Machine) (mov : List (Option (Value × Int))) (wv : Writer × Value) :
    List (Option (Value × Int)) :=
  match relocated m wv.1.typ wv.2 with
  | some e => mov.set wv.1.idx (some e)
  | none => mov

def action (m : Machine) (wv : Writer × Value) : ArgWriter :=
  writeArg m wv.1.typ wv.1.offset wv.1.idx wv.2

/-- A writer whose index is within the array succeeds. -/
theorem action_ok {wv : Writer × Value} {dst : Written} (h : Passed m wv.1.typ wv.2)
    (hidx : OcamlMemory wv.1.typ → wv.1.idx < dst.mov.length) :
    ∃ dst', action m wv dst = .ok dst' ∧ dst'.mov = store m dst.mov wv := by
  rw [action, writeArg_core, store]
  obtain ⟨hnone, hmem⟩ | ⟨ty, off, obj, hsome, hmem, hv, hty⟩ := h.relocated_eq
  · have hcore : ∀ ty, wv.1.typ.core ≠ .ocaml ty := by
      intro ty hty
      cases ty with
      | string => exact hmem (.inl hty)
      | bytes => exact hmem (.inr hty)
      | floatArray => exact h.noFloatArray hty
    obtain ⟨f, hf⟩ := h.writable hcore
    rw [hnone, writeArg]
    · simp only [hf, ofExn, bind, Except.bind, pure, Except.pure]
      exact ⟨_, rfl, rfl⟩
    · exact hcore _
    · exact hcore _
    · exact hcore _
    · exact fun v ty => Typ.core_ne_view _ v ty
  · have harg : writeArg m wv.1.typ.core wv.1.offset wv.1.idx (coreValue m wv.1.typ wv.2) dst =
        ocamlArg 1 wv.1.idx (coreValue m wv.1.typ wv.2) dst := by
      obtain hmem | hmem := hmem <;> rw [hmem, writeArg]
    rw [harg, hv, ocamlArg, if_pos (hidx hmem), hsome, Int.mul_one]
    exact ⟨_, rfl, rfl⟩

theorem store_length (mov : List (Option (Value × Int))) (wv : Writer × Value) :
    (store m mov wv).length = mov.length := by
  unfold store
  split
  · rw [List.length_set]
  · rfl

/-- A run of writers is a run of stores. -/
theorem foldlM_action {wvs : List (Writer × Value)} {dst : Written}
    (h : ∀ wv ∈ wvs, Passed m wv.1.typ wv.2 ∧
      (OcamlMemory wv.1.typ → wv.1.idx < dst.mov.length)) :
    ∃ dst', (wvs.map (action m)).foldlM (fun dst w => w dst) dst = .ok dst' ∧
      dst'.mov = wvs.foldl (store m) dst.mov := by
  induction wvs generalizing dst with
  | nil => exact ⟨dst, rfl, rfl⟩
  | cons wv wvs ih =>
      obtain ⟨hpassed, hidx⟩ := h wv (by simp)
      obtain ⟨dst₁, hrun₁, hmov₁⟩ := action_ok hpassed hidx
      obtain ⟨dst', hrun, hmov⟩ := @ih dst₁ fun wv' hwv' => by
        rw [hmov₁, store_length]
        exact h wv' (by simp [hwv'])
      refine ⟨dst', ?_, by rw [hmov, hmov₁, List.foldl_cons]⟩
      rw [List.map_cons, List.foldlM_cons, hrun₁]
      exact hrun

/-- Writers of other indices leave an element as it is. -/
theorem foldl_store_of_ne {wvs : List (Writer × Value)} {i : Nat}
    (h : ∀ wv ∈ wvs, OcamlMemory wv.1.typ → wv.1.idx ≠ i)
    (hpassed : ∀ wv ∈ wvs, Passed m wv.1.typ wv.2) (mov : List (Option (Value × Int))) :
    (wvs.foldl (store m) mov)[i]? = mov[i]? := by
  induction wvs generalizing mov with
  | nil => rfl
  | cons wv wvs ih =>
      rw [List.foldl_cons, ih (fun wv' hwv' => h wv' (by simp [hwv']))
        (fun wv' hwv' => hpassed wv' (by simp [hwv']))]
      unfold store
      obtain ⟨hnone, -⟩ | ⟨ty, off, obj, hsome, hmem, -, -⟩ :=
        (hpassed wv (by simp)).relocated_eq
      · rw [hnone]
      · rw [hsome]
        exact List.getElem?_set_ne (h wv (by simp) hmem)

theorem foldl_store_length (wvs : List (Writer × Value)) (mov : List (Option (Value × Int))) :
    (wvs.foldl (store m) mov).length = mov.length := by
  induction wvs generalizing mov with
  | nil => rfl
  | cons wv wvs ih => rw [List.foldl_cons, ih, store_length]

/-- With indices of their own, every writer finds its element. -/
theorem foldl_store_of_mem {wvs : List (Writer × Value)} {wv : Writer × Value}
    (hmem : wv ∈ wvs) (hnodup : (wvs.map (·.1.idx)).Nodup)
    (hpassed : ∀ wv ∈ wvs, Passed m wv.1.typ wv.2) (hocaml : OcamlMemory wv.1.typ)
    (mov : List (Option (Value × Int))) (hidx : wv.1.idx < mov.length) :
    (wvs.foldl (store m) mov)[wv.1.idx]? = some (relocated m wv.1.typ wv.2) := by
  induction wvs generalizing mov with
  | nil => nomatch hmem
  | cons wv' wvs ih =>
      rw [List.map_cons, List.nodup_cons] at hnodup
      have htail : ∀ wv ∈ wvs, Passed m wv.1.typ wv.2 := fun w hw => hpassed w (by simp [hw])
      rw [List.foldl_cons]
      obtain rfl | hmem := List.mem_cons.mp hmem
      · have hne : ∀ w ∈ wvs, OcamlMemory w.1.typ → w.1.idx ≠ wv.1.idx := by
          intro w hw _ heq
          exact hnodup.1 (List.mem_map.mpr ⟨w, hw, heq⟩)
        rw [foldl_store_of_ne hne htail, store]
        obtain ⟨-, hno⟩ | ⟨ty, off, obj, hsome, -⟩ := (hpassed wv (by simp)).relocated_eq
        · exact absurd hocaml hno
        · rw [hsome]
          exact List.getElem?_set_self hidx
      · exact ih hmem hnodup.2 htail _ (by rwa [store_length])

def Stored (e : Option (Value × Int)) : Prop :=
  e = none ∨ ∃ ty obj off, e = some (.object ty obj, off) ∧ ty ≠ .floatArray

theorem stored_relocated {p : Typ} {v : Value} (h : Passed m p v) : Stored (relocated m p v) := by
  obtain ⟨hnone, -⟩ | ⟨ty, off, obj, hsome, -, -, hty⟩ := h.relocated_eq
  · exact .inl hnone
  · refine .inr ⟨ty, obj, off, hsome, ?_⟩
    rintro rfl
    exact h.noFloatArray hty

theorem stored_foldl {wvs : List (Writer × Value)}
    (hpassed : ∀ wv ∈ wvs, Passed m wv.1.typ wv.2) {mov : List (Option (Value × Int))}
    (hmov : ∀ e ∈ mov, Stored e) : ∀ e ∈ wvs.foldl (store m) mov, Stored e := by
  induction wvs generalizing mov with
  | nil => exact hmov
  | cons wv wvs ih =>
      refine ih (fun wv' hwv' => hpassed wv' (by simp [hwv'])) fun e he => ?_
      have hwv := stored_relocated (hpassed wv (by simp))
      unfold store at he
      cases hrel : relocated m wv.1.typ wv.2 with
      | none =>
          rw [hrel] at he
          exact hmov e he
      | some e' =>
          rw [hrel] at he
          obtain he | rfl := List.mem_or_eq_of_mem_set he
          · exact hmov e he
          · rwa [hrel] at hwv

/-! ### Calls -/

/-- The pointer for an element of `mov`. -/
def target : Option (Value × Int) → ArgPointer → ArgPointer
  | some (.object _ obj, off), _ => .valRef (.interior obj off)
  | _, p => p

theorem redirect_eq {mov : List (Option (Value × Int))} {pointers : List ArgPointer}
    (hlen : mov.length = pointers.length) (hmov : ∀ e ∈ mov, Stored e) :
    redirect mov pointers = some (List.zipWith target mov pointers) := by
  induction mov generalizing pointers with
  | nil =>
      rw [List.eq_nil_of_length_eq_zero hlen.symm]
      rfl
  | cons e mov ih =>
      obtain ⟨p, pointers, rfl⟩ := List.exists_cons_of_length_eq_add_one hlen.symm
      have hrest := @ih pointers (by simpa using hlen)
        fun e he => hmov e (by simp [he])
      obtain rfl | ⟨ty, obj, off, rfl, hty⟩ := hmov e (by simp)
      · simp [redirect, hrest, target]
      · cases ty with
        | floatArray => exact absurd rfl hty
        | string => simp [redirect, hrest, target]
        | bytes => simp [redirect, hrest, target]

/-- The writers run from the last argument to the first. -/
theorem invoke_eq {e : Ccallspec} {args : List Value} (hlen : args.length = (writers e).length)
    (ws : List ArgWriter) :
    invoke m e ws callspec args =
      prepareCall callspec ((((writers e).zip args).map (action m)).reverse ++ ws) := by
  induction e generalizing args ws with
  | call checkErrno read => simp [invoke, writers]
  | writeArg w rest ih =>
      obtain ⟨v, args, rfl⟩ := List.exists_cons_of_length_eq_add_one hlen
      rw [invoke, ih (by simpa [writers] using hlen)]
      simp [writers, action]

/-- A call whose writers have indices within the array. -/
theorem prepareCall_eq (wvs : List (Writer × Value)) (hts : Holds ts callspec)
    (hstate : callspec.state = .callspec)
    (h : ∀ wv ∈ wvs, Passed m wv.1.typ wv.2 ∧
      (OcamlMemory wv.1.typ → wv.1.idx < callspec.nelements)) :
    ∃ buffer offsets, prepareCall callspec (wvs.map (action m)) = .ok buffer ∧
      populateArgArray callspec = some offsets ∧ offsets.length = callspec.nelements ∧
      buffer.pointers = List.zipWith target
        (wvs.foldl (store m) (List.replicate callspec.nelements none)) (offsets.map .slot) := by
  obtain ⟨offsets, hpopulate, hlen⟩ := hts.populate
  rw [← hts.1] at hlen
  have hsize : ∃ r, computeArgBufferSize callspec = some r := by
    rw [computeArgBufferSize, hstate]
    exact ⟨_, rfl⟩
  obtain ⟨r, hsize⟩ := hsize
  obtain ⟨dst, hrun, hmov⟩ := @foldlM_action m wvs ⟨[], List.replicate callspec.nelements none⟩
    (by simpa using h)
  have hredirect : redirect dst.mov (offsets.map .slot) =
      some (List.zipWith target dst.mov (offsets.map .slot)) := by
    apply redirect_eq
    · rw [hmov, foldl_store_length, List.length_replicate, List.length_map, hlen]
    · rw [hmov]
      exact stored_foldl (fun wv hwv => (h wv hwv).1) fun e he =>
        .inl (List.eq_of_mem_replicate he)
  refine ⟨⟨dst.places, _⟩, offsets, ?_, hpopulate, hlen, by rw [← hmov]⟩
  simp only [prepareCall, hsize, hpopulate, hrun, hredirect, ofStub, bind, Except.bind, pure,
    Except.pure]

/-! ### Indices and positions -/

theorem position_lt {ps before after : List Typ} {p : Typ} (hps : ps = before ++ p :: after)
    (hp : p ≠ .void) : position before < (ps.filter (· ≠ .void)).length := by
  rw [hps, List.filter_append, List.filter_cons_of_pos (by simpa using hp), List.length_append,
    List.length_cons, position]
  omega

/-- Parameters with a place have different ones. -/
theorem position_injective {ps before before' after after' : List Typ} {p q : Typ}
    (hps : ps = before ++ p :: after) (hqs : ps = before' ++ q :: after')
    (hp : p ≠ .void) (hq : q ≠ .void) (h : position before = position before') :
    before = before' := by
  rw [hps] at hqs
  obtain ⟨cs, hcs, htail⟩ | ⟨cs, hcs, htail⟩ := List.append_eq_append_iff.mp hqs
  · cases cs with
    | nil => rw [hcs, List.append_nil]
    | cons c cs =>
        obtain ⟨rfl, -⟩ := List.cons.inj htail
        have := position_lt hcs hp
        rw [← position] at this
        omega
  · cases cs with
    | nil => rw [hcs, List.append_nil]
    | cons c cs =>
        obtain ⟨rfl, -⟩ := List.cons.inj htail
        have := position_lt hcs hq
        rw [← position] at this
        omega

theorem position_eq_length_iff {before : List Typ} :
    position before = before.length ↔ .void ∉ before := by
  rw [position, List.length_filter_eq_length_iff]
  constructor
  · intro h hmem
    simpa using h _ hmem
  · intro h p hp
    rw [decide_eq_true_iff]
    rintro rfl
    exact h hp

/-- The writer of a parameter. -/
theorem Built.writer {ps : List Typ} {e : Ccallspec} (hb : Built l ps 0 [] e callspec)
    {before after : List Typ} {p : Typ} (hps : ps = before ++ p :: after) :
    ∃ offset, (writers e)[before.length]? = some ⟨p, offset, before.length⟩ := by
  have hget : ((writers e).map fun w => (w.typ, w.idx))[before.length]? =
      some (p, before.length) := by
    rw [hb.indexed, hps, List.getElem?_zipIdx]
    simp
  rw [List.getElem?_map, Option.map_eq_some_iff] at hget
  obtain ⟨⟨typ, offset, idx⟩, hw, heq⟩ := hget
  obtain ⟨rfl, rfl⟩ := Prod.mk.inj heq
  exact ⟨offset, hw⟩

/-- A writer with its argument belongs to a parameter. -/
theorem Built.parameter {ps : List Typ} {e : Ccallspec} (hb : Built l ps 0 [] e callspec)
    {args : List Value} {wv : Writer × Value} (h : wv ∈ (writers e).zip args) :
    ∃ before after, ps = before ++ wv.1.typ :: after ∧ wv.1.idx = before.length ∧
      args[before.length]? = some wv.2 := by
  obtain ⟨k, hk, hget⟩ := List.mem_iff_getElem.mp h
  have hw : (writers e)[k]? = some wv.1 := by
    rw [← hget, List.getElem_zip]
    exact List.getElem?_eq_getElem (by rw [List.length_zip] at hk; omega)
  have hv : args[k]? = some wv.2 := by
    rw [← hget, List.getElem_zip]
    exact List.getElem?_eq_getElem (by rw [List.length_zip] at hk; omega)
  have hp : (ps.zipIdx 0)[k]? = some (wv.1.typ, wv.1.idx) := by
    rw [← hb.indexed, List.getElem?_map, hw, Option.map_some]
  rw [List.getElem?_zipIdx, Option.map_eq_some_iff] at hp
  obtain ⟨p, hp, heq⟩ := hp
  obtain ⟨rfl, hidx⟩ := Prod.mk.inj heq
  obtain ⟨hlt, hp⟩ := List.getElem?_eq_some_iff.mp hp
  have htake : (ps.take k).length = k := List.length_take_of_le (Nat.le_of_lt hlt)
  refine ⟨ps.take k, ps.drop (k + 1), ?_, by omega, by rwa [htake]⟩
  rw [← hp, ← List.drop_eq_getElem_cons hlt, List.take_append_drop]

theorem Built.writers_length {ps : List Typ} {e : Ccallspec}
    (hb : Built l ps 0 [] e callspec) : (writers e).length = ps.length := by
  have := congrArg List.length hb.indexed
  simpa using this

/-- No two writers have one index. -/
theorem Built.idx_nodup {ps : List Typ} {e : Ccallspec} (hb : Built l ps 0 [] e callspec)
    {args : List Value} (hlen : args.length = ps.length) :
    (((writers e).zip args).map (·.1.idx)).Nodup := by
  have hfst : ((writers e).zip args).map Prod.fst = writers e :=
    List.map_fst_zip (by rw [hlen, hb.writers_length])
  have hidx : ((writers e).map fun w => (w.typ, w.idx)).map Prod.snd = (writers e).map (·.idx) := by
    rw [List.map_map]
    rfl
  have hmap : ((writers e).zip args).map (·.1.idx) = (writers e).map (·.idx) := by
    rw [← hfst, List.map_map, hfst]
    rfl
  rw [hmap, ← hidx, hb.indexed, List.zipIdx_map_snd]
  exact List.nodup_range'

/-- Every argument of OCaml memory goes to its own element of the array of
arguments, and every call redirects the pointers of these elements only. -/
structure RelocatesOwn (l : Libffi) (m : Machine) (ps : List Typ) (e : Ccallspec)
    (callspec : Callspec) : Prop where
  indices : ∀ before p after, ps = before ++ p :: after → OcamlMemory p →
    position before < callspec.nelements ∧
    (∃ t, argType l p = .ok t ∧ (callspec.args.getD [])[position before]? = some (.type t)) ∧
    ∃ offset, (writers e)[before.length]? = some ⟨p, offset, position before⟩
  calls : ∀ args, List.Forall₂ (HasArg m) ps args → ∃ buffer offsets,
    invoke m e [] callspec args = .ok buffer ∧ populateArgArray callspec = some offsets ∧
    buffer.pointers.length = callspec.nelements ∧
    ∀ before p after v, ps = before ++ p :: after → p ≠ .void →
      args[before.length]? = some v →
      (OcamlMemory p → ∃ ty off obj, coreValue m p v = .ocamlRef ty off (.object ty obj) ∧
        buffer.pointers[position before]? = some (.valRef (.interior obj off))) ∧
      (¬ OcamlMemory p →
        buffer.pointers[position before]? = offsets[position before]?.map .slot)

/-- `Void` comes after the parameters of OCaml memory. -/
def VoidLast (ps : List Typ) : Prop :=
  ∀ before p after, ps = before ++ p :: after → OcamlMemory p → .void ∉ before

variable {fn : Ctypes.Fn} {e : Ccallspec} {checkErrno : Bool} {context : CallContext}

theorem holds_allocateCallspec (context : CallContext) :
    Holds [] (allocateCallspec context) := ⟨rfl, [], rfl⟩

theorem forall₂_getElem {α β : Type} {R : α → β → Prop} {before after : List α} {a : α}
    {bs : List β} (h : List.Forall₂ R (before ++ a :: after) bs) :
    ∃ b, bs[before.length]? = some b ∧ R a b := by
  induction before generalizing bs with
  | nil =>
      obtain ⟨b, bs, hab, -, rfl⟩ := List.forall₂_cons_left_iff.mp h
      exact ⟨b, rfl, hab⟩
  | cons c before ih =>
      obtain ⟨b, bs, -, hrest, rfl⟩ := List.forall₂_cons_left_iff.mp h
      exact ih hrest

/-- The type of a parameter is at its place in the array. -/
theorem Built.placed {ps before after : List Typ} {p : Typ} (hb : Built l ps 0 [] e callspec)
    (hps : ps = before ++ p :: after) (hp : p ≠ .void) :
    position before < callspec.nelements ∧
      ∃ t, argType l p = .ok t ∧ (callspec.args.getD [])[position before]? = some (.type t) := by
  obtain ⟨us, hus, hn, rest, hcells⟩ := hb.types
  rw [List.nil_append] at hn hcells
  refine ⟨by rw [hn, ← hus.length_eq]; exact position_lt hps hp, ?_⟩
  rw [hps, List.filter_append, List.filter_cons_of_pos (by simpa using hp)] at hus
  obtain ⟨t, hget, ht⟩ := forall₂_getElem hus
  have hlt : position before < us.length := (List.getElem?_eq_some_iff.mp hget).1
  refine ⟨t, ht, ?_⟩
  rw [hcells, List.getElem?_append_left (by simpa using hlt), List.getElem?_map]
  exact congrArg (Option.map Cell.type) hget

theorem OcamlMemory.ne_void {p : Typ} (h : OcamlMemory p) : p ≠ .void := by
  rintro rfl
  obtain h | h := h <;> cases h

/-- Every argument of a call can be written, and its index is in bounds when
`Void` comes last. -/
theorem Built.passed {ps : List Typ} (hb : Built l ps 0 [] e callspec) (hvoid : VoidLast ps)
    (hfloat : ∀ p ∈ ps, p.core ≠ .ocaml .floatArray) {args : List Value}
    (hargs : List.Forall₂ (HasArg m) ps args) :
    ∀ wv ∈ (writers e).zip args, Passed m wv.1.typ wv.2 ∧
      (OcamlMemory wv.1.typ → wv.1.idx < callspec.nelements) := by
  intro wv hwv
  obtain ⟨before, after, hps, hidx, hv⟩ := hb.parameter hwv
  have hmem : wv.1.typ ∈ ps := by
    rw [hps]
    simp
  rw [hps] at hargs
  obtain ⟨v, hget, harg⟩ := forall₂_getElem hargs
  obtain rfl : wv.2 = v := Option.some.inj (hv.symm.trans hget)
  refine ⟨⟨harg, hfloat _ hmem, fun hcore => ?_⟩, fun hocaml => ?_⟩
  · by_cases hp : wv.1.typ = .void
    · rw [hp]
      exact ⟨_, rfl⟩
    · obtain ⟨-, t, ht, -⟩ := hb.placed hps hp
      exact write_of_argType ht hcore
  · rw [hidx, ← position_eq_length_iff.mpr (hvoid before _ after hps hocaml)]
    exact (hb.placed hps hocaml.ne_void).1

theorem Built.calls {ps : List Typ} (hb : Built l ps 0 [] e callspec) (hvoid : VoidLast ps)
    (hfloat : ∀ p ∈ ps, p.core ≠ .ocaml .floatArray) {args : List Value}
    (hargs : List.Forall₂ (HasArg m) ps args) :
    ∃ buffer offsets, invoke m e [] callspec args = .ok buffer ∧
      populateArgArray callspec = some offsets ∧
      buffer.pointers.length = callspec.nelements ∧
      ∀ before p after v, ps = before ++ p :: after → p ≠ .void →
        args[before.length]? = some v →
        (OcamlMemory p → ∃ ty off obj, coreValue m p v = .ocamlRef ty off (.object ty obj) ∧
          buffer.pointers[position before]? = some (.valRef (.interior obj off))) ∧
        (¬ OcamlMemory p →
          buffer.pointers[position before]? = offsets[position before]?.map .slot) := by
  have hlen : args.length = ps.length := hargs.length_eq.symm
  have hpassed := hb.passed hvoid hfloat hargs
  have hnodup := hb.idx_nodup hlen
  obtain ⟨us, -, hholds⟩ := hb.types
  obtain ⟨buffer, offsets, hcall, hpopulate, hoffsets, hpointers⟩ :=
    prepareCall_eq ((writers e).zip args).reverse hholds hb.state
      fun wv hwv => hpassed wv (List.mem_reverse.mp hwv)
  have hpassed' : ∀ wv ∈ ((writers e).zip args).reverse, Passed m wv.1.typ wv.2 :=
    fun wv hwv => (hpassed wv (List.mem_reverse.mp hwv)).1
  have hmovlen : (((writers e).zip args).reverse.foldl (store m)
      (List.replicate callspec.nelements none)).length = callspec.nelements := by
    rw [foldl_store_length, List.length_replicate]
  refine ⟨buffer, offsets, ?_, hpopulate, ?_, fun before p after v hps hp hv => ?_⟩
  · rw [invoke_eq (hlen.trans hb.writers_length.symm), List.append_nil, ← List.map_reverse]
    exact hcall
  · rw [hpointers, List.length_zipWith, hmovlen, List.length_map, hoffsets, Nat.min_self]
  obtain ⟨offset, hw⟩ := hb.writer hps
  have hpos := (hb.placed hps hp).1
  have hmem : ((⟨p, offset, before.length⟩, v) : Writer × Value) ∈ ((writers e).zip args).reverse :=
    List.mem_reverse.mpr (List.mem_of_getElem? (List.getElem?_zip_eq_some.mpr ⟨hw, hv⟩))
  obtain ⟨o, ho⟩ : ∃ o, offsets[position before]? = some o :=
    ⟨_, List.getElem?_eq_getElem (by omega)⟩
  have hslot : (offsets.map ArgPointer.slot)[position before]? = some (.slot o) := by
    rw [List.getElem?_map, ho, Option.map_some]
  constructor
  · intro hocaml
    have hidx := position_eq_length_iff.mpr (hvoid before p after hps hocaml)
    have hstored := foldl_store_of_mem hmem
      (by rw [List.map_reverse]; exact List.nodup_reverse.mpr hnodup) hpassed' hocaml
      (List.replicate callspec.nelements none)
      (by rw [List.length_replicate, ← hidx]; exact hpos)
    obtain ⟨-, hno⟩ | ⟨ty, off, obj, hsome, -, hcore, -⟩ := (hpassed' _ hmem).relocated_eq
    · exact absurd hocaml hno
    · refine ⟨ty, off, obj, hcore, ?_⟩
      rw [hidx] at hslot ⊢
      rw [hpointers, List.getElem?_zipWith, hslot, hstored, hsome]
      rfl
  · intro hno
    have hfree : ∀ wv ∈ ((writers e).zip args).reverse,
        OcamlMemory wv.1.typ → wv.1.idx ≠ position before := by
      intro wv hwv hocaml heq
      obtain ⟨before', after', hps', hidx', -⟩ := hb.parameter (List.mem_reverse.mp hwv)
      rw [hidx', ← position_eq_length_iff.mpr (hvoid before' _ after' hps' hocaml)] at heq
      obtain rfl := position_injective hps' hps hocaml.ne_void hp heq
      have htail := List.append_cancel_left (hps'.symm.trans hps)
      rw [(List.cons.inj htail).1] at hocaml
      exact hno hocaml
    have hkept := foldl_store_of_ne hfree hpassed' (List.replicate callspec.nelements none)
    rw [List.getElem?_replicate, if_pos hpos] at hkept
    rw [hpointers, List.getElem?_zipWith, hslot, hkept, ho]
    rfl

/-- An index is the place of its parameter in every case exactly when `Void`
comes after the parameters of OCaml memory. -/
theorem relocatesOwn_iff {fn : Ctypes.Fn}
    (hfloat : ∀ p ∈ params fn, p.core ≠ .ocaml .floatArray)
    (hbuild : buildCcallspec l m checkErrno 0 fn (allocateCallspec context) =
      .ok (e, callspec)) :
    RelocatesOwn l m (params fn) e callspec ↔ VoidLast (params fn) := by
  have hb := buildCcallspec_built (holds_allocateCallspec context) hbuild
  constructor
  · intro h before p after hps hp
    obtain ⟨-, -, offset, hw⟩ := h.indices before p after hps hp
    obtain ⟨offset', hw'⟩ := hb.writer hps
    rw [hw', Option.some.injEq, Writer.mk.injEq] at hw
    exact position_eq_length_iff.mp hw.2.2.symm
  · intro hvoid
    refine ⟨fun before p after hps hp => ?_, fun args hargs => hb.calls hvoid hfloat hargs⟩
    obtain ⟨hlt, hplaced⟩ := hb.placed hps hp.ne_void
    refine ⟨hlt, hplaced, ?_⟩
    rw [position_eq_length_iff.mpr (hvoid before p after hps hp)]
    exact hb.writer hps

/-- Any structure of one member, on a platform with signed characters. -/
def Libffi.plain : Libffi where
  bigEndian := false
  charSigned := true
  prepCif _ _ := true
  completeStruct
    | [t] => some (t.size, t.alignment)
    | _ => none

/-- A string before `Void`. -/
theorem relocatesOwn_string_void : ∃ e callspec,
    buildCcallspec .plain .plain false 0
      (.function (.ocaml .string) (.function .void (.returns Ctypes.int)))
      (allocateCallspec ⟨false, false⟩) = .ok (e, callspec) ∧
    RelocatesOwn .plain .plain [.ocaml .string, .void] e callspec := by
  refine ⟨_, _, rfl, (@relocatesOwn_iff _ _ _ _ false ⟨false, false⟩
    (.function (.ocaml .string) (.function .void (.returns Ctypes.int)))
    (by simp [params, Typ.core]) rfl).mpr ?_⟩
  intro before p after hps hp
  cases before with
  | nil => simp
  | cons c before =>
      obtain ⟨-, hps⟩ := List.cons.inj hps
      cases before with
      | nil => exact absurd (List.cons.inj hps).1.symm hp.ne_void
      | cons d before => simp [params] at hps

/-- After `Void` the index of a string is out of bounds. -/
theorem void_string_not_relocated : ∃ e callspec,
    buildCcallspec .plain .plain false 0
      (.function .void (.function (.ocaml .string) (.returns Ctypes.int)))
      (allocateCallspec ⟨false, false⟩) = .ok (e, callspec) ∧
    invoke .plain e [] callspec [.unit, .ocamlRef .string 0 (.object .string 0)] =
      .error (.raised (.invalidArg "index out of bounds")) ∧
    ¬ RelocatesOwn .plain .plain [.void, .ocaml .string] e callspec := by
  refine ⟨_, _, rfl, rfl, fun h => ?_⟩
  obtain ⟨-, -, offset, hw⟩ := h.indices [.void] (.ocaml .string) [] rfl (.inl rfl)
  have hidx : 1 = position [.void] := Option.some.inj (congrArg (Option.map Writer.idx) hw)
  simp [position] at hidx

end CtypesCbuf.CtypesForeign.CtypesFfi
