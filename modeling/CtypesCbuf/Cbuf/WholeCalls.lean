import Mathlib.Data.List.ReduceOption
import CtypesCbuf.Cbuf.SecondComponent
import CtypesCbuf.Cbuf.Representation
import CtypesCbuf.Cbuf.StubCompilation
import CtypesCbuf.Runtime.Memory

/-!
Calls of a generated wrapper that runs on the generated stub. The values of
the wrapper are those that the stub reads, and a byte sequence is known by how
many were created before it.
-/

namespace CtypesCbuf.Cbuf

open NameSupply Supply IntFormat
open Ctypes hiding Fn
open CLanguage Stubs GenerateML MlLanguage
open CtypesCbuf.Runtime
open Compilation (CProgram Compiles StubCompiles)

/-! ### The values of arguments -/

/-- The OCaml values of a type. -/
def HasTyp (m : Machine) : Typ → Value → Prop
  | .void, v => v = .unit
  | .primitive p, v => HasMlPrim m (mlPrim p) v
  | .pointer _, v => ∃ managed reftyp p, v = .cpointer (.fatptr managed reftyp p)
  | .funptr _, v => ∃ managed fn p, v = .staticFunptr (.fatfunptr managed fn p)
  | .struct _ _ _, v | .union _ _ _, v =>
      ∃ managed reftyp p, v = .structured (.cpointer (.fatptr managed reftyp p))
  | .view w ty, v => HasTyp m ty (m.write w v)
  | .ocaml o, v => ∃ off obj, v = .ocamlRef o off (.object o obj)
  | .array _ _, _ | .bigarray _, _ | .abstract _, _ => False

/-- The C value that an OCaml value of a type stands for. `void` has none. -/
def cValue (m : Machine) : Typ → Value → Option CVal
  | .void, _ => none
  | .primitive p, v => some (ctypesWrite m p v)
  | .pointer _, .cpointer (.fatptr _ _ p) => some (.ptr p)
  | .funptr _, .staticFunptr (.fatfunptr _ _ p) => some (.ptr p)
  | .struct tag spec fields, v => some (writeAggregate m (.struct tag spec fields) v)
  | .union utag spec ufields, v => some (writeAggregate m (.union utag spec ufields) v)
  | .abstract a, v => some (writeAggregate m (.abstract a) v)
  | .view w ty, v => cValue m ty (m.write w v)
  | .ocaml o, v => some (ocamlPtr m o [.value v])
  | _, _ => some .undefined

variable {m : Machine}

/-- It is what ctypes leaves in memory, for the types that are stored there. -/
theorem cValue_eq_write {t : Typ} {put : Value → Option CVal} (h : write m t = .ok put)
    (v : Value) : cValue m t v = put v := by
  induction t using Typ.core.induct generalizing put v with
  | case1 w ty ih =>
      rw [write] at h
      obtain ⟨put', hput, h⟩ := except_bind_eq_ok h
      cases h
      rw [cValue]
      exact ih hput _
  | case2 t hview =>
      cases t with
      | view w ty => exact absurd rfl (hview w ty)
      | struct tag spec fields =>
          cases spec with
          | incomplete k => cases h
          | complete size align =>
              cases h
              rfl
      | union utag spec ufields =>
          cases spec with
          | none => cases h
          | some spec =>
              cases h
              rfl
      | pointer u =>
          cases h
          dsimp only
          split
          · rfl
          · rename_i hv
            simp_all [cValue]
      | funptr fn =>
          cases h
          dsimp only
          split
          · rfl
          · rename_i hv
            simp_all [cValue]
      | ocaml o => cases h
      | array u k =>
          obtain ⟨size, -, h⟩ := except_bind_eq_ok h
          cases h
          rfl
      | bigarray ba =>
          obtain ⟨size, -, h⟩ := except_bind_eq_ok h
          cases h
          rfl
      | _ =>
          cases h
          rfl

/-- An OCaml integer fits a C `int`. -/
def FitsInt (m : Machine) (t : Typ) (v : Value) : Prop :=
  t.core = .primitive .camlint → ∀ i, coreValue m t v = .int i → i32.InRange i

/-- A reader of floats returns one of its kind. -/
theorem convert_readFloat {q : Prim} {k k' : FloatKind} (hq : floatKind q = some k')
    (v : Value) : convert m q (readFloat m k k' [.value v]) = readFloat m k k' [.value v] := by
  cases v with
  | flt l bits =>
      rw [readFloat]
      split
      · simp [convert, hq]
      · rfl
  | _ => rfl

/-- Floats reach C as ctypes writes them. -/
theorem received_eq_ctypesWrite_of_float {p : Prim} (hp : ¬ Integral p) (v : Value) :
    received m (.primitive p) (.value v) = ctypesWrite m p v := by
  obtain ⟨k, k', hk, hread⟩ : ∃ k k', floatKind (primPrjResult p) = some k' ∧
      library m (primPrj p).fname = readFloat m k k' := by
    cases p <;> first | exact ⟨_, _, rfl, rfl⟩ | exact absurd rfl hp
  have hwrite : ctypesWrite m p v = convert m p (library m (primPrj p).fname [.value v]) := by
    cases p <;> first | rfl | exact absurd rfl hp
  rw [hwrite, received, hread, convert_readFloat hk]

theorem denotes_of_hasMlPrim {p : Prim} (hp : Integral p) {v : Value}
    (hv : HasMlPrim m (mlPrim p) v) : ∃ i, Denotes m (mlPrim p) v i := by
  cases p <;> first | exact hv | cases hp

theorem received_primitive_iff (hm : m.integers.Lawful) {p : Prim} {v : Value}
    (hv : HasMlPrim m (mlPrim p) v) :
    received m (.primitive p) (.value v) = ctypesWrite m p v ↔
      FitsInt m (.primitive p) v := by
  by_cases hp : Integral p
  · obtain ⟨i, hi⟩ := denotes_of_hasMlPrim hp hv
    rw [GenerateC.received_eq_ctypesWrite_iff hm hp hi]
    constructor
    · intro h hcore j hj
      obtain rfl := Typ.primitive.inj hcore
      obtain ⟨rfl, -⟩ := hi
      obtain rfl := Value.int.inj hj
      exact h rfl
    · rintro h rfl
      exact h rfl i hi.1
  · refine ⟨fun _ hcore => ?_, fun _ => received_eq_ctypesWrite_of_float hp v⟩
    obtain rfl := Typ.primitive.inj hcore
    exact absurd rfl hp

/-! ### The wrapper on the stub -/

def pairFst : Value → Value
  | .pair v _ => v
  | v => v

def pairSnd : Value → Value
  | .pair _ w => w
  | v => v

def pairOf : List Value → Value
  | [v, w] => .pair v w
  | _ => .unit

/-- What the constructors of pointers and structures are applied to. -/
def contents : Value → Value
  | .cpointer v | .staticFunptr v | .structured v => v
  | v => v

/-- `CI.make_ptr`, `CI.make_fun_ptr` and `CI.make_structured`. -/
def madePtr (reftyp : Typ) : Value → Value
  | .rawPtr p => .cpointer (.fatptr .unit reftyp p)
  | v => v

def madeFunPtr (fn : Ctypes.Fn) : Value → Value
  | .rawPtr p => .staticFunptr (.fatfunptr .unit fn p)
  | v => v

def madeStructured (reftyp : Typ) : Value → Value
  | .managedBuffer block =>
      .structured (.cpointer (.fatptr (.some (.managedBuffer block)) reftyp (.managed block)))
  | v => v

/-- The world with one more byte sequence, of length `i`. -/
def withSequence (i : Nat) (w : World) : World :=
  { w with created := w.created ++ [i] }

/-- The external is the stub `d` of the function `fvar`. Promises are not told
from their values. -/
def onStub (m : Machine) (fvar : CFunction) (d : CFundef) : MlLanguage.Interp Value World where
  unit := .unit
  tuple := pairOf
  fst := pairFst
  snd := pairSnd
  cpointer := contents
  staticFunptr := contents
  addr := contents
  ocamlBytesStart v := .ocamlRef .bytes 0 v
  makePtr := madePtr
  makeFunPtr := madeFunPtr
  makeStructured := madeStructured
  write v x w := (m.write v x, w)
  read v x w := (m.read v x, w)
  bytesCreate i w := (.object .bytes w.created.length, withSequence i w)
  external args w :=
    let s := runFundef m fvar d (args.map .value) (fun _ => .undefined) w
    ((s.result.getD .undefined).toValue, s.world)
  runJob := id
  await := id
  resolved := id
  boxLwt := id

section Events

variable {fvar : CFunction} {d : CFundef}

theorem effect_created (e : Event Value) (w : World) :
    (e.effect (onStub m fvar d) w).created = w.created ++ created [e.label] := by
  cases e with
  | call args =>
      exact (runFundef_created m fvar d _ _ w).trans (List.append_nil w.created).symm
  | create i => rfl
  | _ => simp [created, Event.label, Event.effect, onStub]

/-- The byte sequences of a run are those that its log creates. -/
theorem replay_created (evs : List (Event Value)) (w : World) :
    (replay (onStub m fvar d) evs w).created = w.created ++ created (evs.map Event.label) := by
  induction evs generalizing w with
  | nil => simp [replay, created]
  | cons e evs ih =>
      have hcons : created ((e :: evs).map Event.label) =
          created [e.label] ++ created (evs.map Event.label) := created_append [e.label] _
      rw [hcons, ← List.append_assoc, ← effect_created]
      exact ih _

/-- Only the external calls the C function. -/
theorem replay_calls {evs : List (Event Value)} (h : (evs.map Event.label).count .call = 0)
    (w : World) : (replay (onStub m fvar d) evs w).calls = w.calls := by
  induction evs generalizing w with
  | nil => rfl
  | cons e evs ih =>
      cases e with
      | call args => simp [Event.label] at h
      | _ => exact ih (by simpa [Event.label] using h) _

end Events

/-! ### The arguments of the C function -/

section Arguments

variable {fvar : CFunction} {d : CFundef}

theorem fitsInt_view {w : ViewId} {ty : Typ} {v : Value} :
    FitsInt m (.view w ty) v ↔ FitsInt m ty (m.write w v) := by
  rw [FitsInt, FitsInt, Typ.core_view, coreValue_view]

/-- What C receives is the C value of the argument, unless it is an integer that
does not fit. -/
theorem received_argument (hm : m.integers.Lawful) {t : Typ} (ht : Passed t) {v y : Value}
    (hv : HasTyp m t v) (hy : argImage (onStub m fvar d) t v y) :
    (t.core = .void ∧ cValue m t v = none) ∨
      (t.core ≠ .void ∧ ∃ c, cValue m t v = some c ∧
        (received m t.core (.value y) = c ↔ FitsInt m t v)) := by
  induction t using Typ.core.induct generalizing v with
  | case1 w ty ih =>
      obtain ⟨_, hy⟩ := hy
      rw [HasTyp] at hv
      rw [Typ.core_view, cValue, fitsInt_view]
      exact ih ((passed_view w ty).mp ht) hv hy
  | case2 t hview =>
      have hself : t.core = t := by
        rw [Typ.core]
        exact hview
      have hother : t ≠ .primitive .camlint → FitsInt m t v := fun hne hcore =>
        absurd (hself.symm.trans hcore) hne
      cases t with
      | view w ty => exact absurd rfl (hview w ty)
      | void => exact .inl ⟨rfl, rfl⟩
      | primitive p =>
          obtain rfl : y = v := hy
          exact .inr ⟨(fun h => by cases h), _, rfl, received_primitive_iff hm hv⟩
      | pointer u =>
          obtain ⟨managed, reftyp, q, rfl⟩ := hv
          obtain rfl := hy
          exact .inr ⟨(fun h => by cases h), _, rfl, iff_of_true rfl (hother fun h => by cases h)⟩
      | funptr fn =>
          obtain ⟨managed, fn', q, rfl⟩ := hv
          obtain rfl := hy
          exact .inr ⟨(fun h => by cases h), _, rfl, iff_of_true rfl (hother fun h => by cases h)⟩
      | struct tag spec fields =>
          obtain ⟨managed, reftyp, q, rfl⟩ := hv
          obtain rfl := hy
          exact .inr ⟨(fun h => by cases h), _, rfl, iff_of_true rfl (hother fun h => by cases h)⟩
      | union utag uspec ufields =>
          obtain ⟨managed, reftyp, q, rfl⟩ := hv
          obtain rfl := hy
          exact .inr ⟨(fun h => by cases h), _, rfl, iff_of_true rfl (hother fun h => by cases h)⟩
      | ocaml o =>
          obtain rfl : y = v := hy
          exact .inr ⟨(fun h => by cases h), _, rfl, iff_of_true rfl (hother fun h => by cases h)⟩
      | _ => rcases ht with ht | ht <;> cases ht

def cValues (m : Machine) (args : List Typ) (vs : List Value) : List CVal :=
  (List.zipWith (cValue m) args vs).reduceOption

theorem receivedArgs_cValues (hm : m.integers.Lawful) {args : List Typ} {vs us : List Value}
    (hargs : ∀ t ∈ args, Passed t) (hvs : List.Forall₂ (HasTyp m) args vs)
    (hus : List.Forall₂ (fun q u => q u)
      (List.zipWith (argImage (onStub m fvar d)) args vs) us) :
    (GenerateC.receivedArgs m args (us.map .value)).length = (cValues m args vs).length ∧
      (GenerateC.receivedArgs m args (us.map .value) = cValues m args vs ↔
        ∀ q ∈ args.zip vs, FitsInt m q.1 q.2) := by
  induction hvs generalizing us with
  | nil =>
      obtain rfl := List.forall₂_nil_left_iff.mp hus
      exact ⟨rfl, iff_of_true rfl fun _ hq => absurd hq List.not_mem_nil⟩
  | @cons t v args vs hv hvs ih =>
      obtain ⟨u, us', hu, hus', rfl⟩ := List.forall₂_cons_left_iff.mp hus
      obtain ⟨ht, hargs'⟩ := List.forall_mem_cons.mp hargs
      obtain ⟨hlen, hiff⟩ := ih hargs' hus'
      rw [List.map_cons, GenerateC.receivedArgs, cValues, List.zipWith_cons_cons,
        List.zip_cons_cons, List.forall_mem_cons, ← hiff]
      rcases received_argument hm ht hv hu with ⟨hvoid, hnone⟩ | ⟨hne, c, hc, hreceived⟩
      · have hfits : FitsInt m t v := fun hcore => by rw [hvoid] at hcore; cases hcore
        rw [if_pos hvoid, hnone, List.reduceOption_cons_of_none]
        exact ⟨hlen, (and_iff_right hfits).symm⟩
      · rw [if_neg hne, hc, List.reduceOption_cons_of_some, ← hreceived]
        exact ⟨congrArg (· + 1) hlen, List.cons_eq_cons⟩

end Arguments

/-- `buffer s1 ocaml_bytes @* ... @* buffer sm ocaml_bytes`. -/
def bytesBuffers (s : Nat) (rest : List Nat) : CBuffers :=
  bufferList s (.ocaml .bytes) (rest.map fun i => (i, .ocaml .bytes))

theorem bytesBuffers_sizes (s : Nat) (rest : List Nat) :
    (bytesBuffers s rest).sizes = s :: rest := by
  induction rest generalizing s with
  | nil => rfl
  | cons s' rest ih => exact congrArg (s :: ·) (ih s')

theorem passedBuffers_bytes (m : Machine) (ρ : String → CVal) (cpos : CPosition)
    (vars bufvars : List CVal) {b : GenerateC.NamedCBuffers} {s : Nat} {rest : List Nat}
    (h : b.spec = bytesBuffers s rest) :
    GenerateC.passedBuffers m ρ cpos vars bufvars b =
      GenerateC.arrange cpos vars
        ((b.names.map fun x => interiorPtr [ρ x]).reverse ++ bufvars) := by
  induction b generalizing s rest bufvars with
  | lastBuf x i t =>
      cases rest with
      | nil =>
          obtain ⟨rfl, rfl⟩ := CBuffers.lastBuf.inj h
          rfl
      | cons s' rest => cases h
  | conBuf l b ihl ihb =>
      cases rest with
      | nil => cases h
      | cons s' rest =>
          obtain ⟨hl, hb⟩ := CBuffers.conBuf.inj h
          cases l with
          | conBuf l r => cases hl
          | lastBuf x i t =>
              obtain ⟨rfl, rfl⟩ := CBuffers.lastBuf.inj hl
              refine (ihb (interiorPtr [ρ x] :: bufvars) hb).trans ?_
              simp [GenerateC.NamedCBuffers.names]

/-- The C function gets the buffers before or behind its other arguments. -/
def callArguments (cpos : CPosition) (args bufs : List CVal) : List CVal :=
  match cpos with
  | .first => bufs ++ args
  | .last => args ++ bufs

theorem arrange_reverse (cpos : CPosition) (args bufs : List CVal) :
    (GenerateC.arrange cpos args.reverse bufs.reverse).reverse = callArguments cpos args bufs := by
  cases cpos <;> simp [GenerateC.arrange, callArguments]

theorem callArguments_left_inj {cpos : CPosition} {args args' bufs bufs' : List CVal}
    (hlen : args.length = args'.length)
    (h : callArguments cpos args bufs = callArguments cpos args' bufs') : args = args' := by
  cases cpos with
  | first => exact List.append_inj_right' h hlen
  | last => exact List.append_inj_left h hlen

/-- What the stub of a function with byte buffers passes. -/
theorem stub_passes {errno_ : ErrnoPolicy} {cname stubName : String} {args : List Typ}
    {cpos : CPosition} {s : Nat} {rest : List Nat} {t : Typ} {n n1 : Nat} {d : CFundef}
    {f' : GenerateC.NamedFn} {i : CEff}
    (hd : GenerateC.StubOf errno_ cname stubName
      (withBuffers args cpos (bytesBuffers s rest) t) n d f' n1 i)
    {us bufs : List CVal} (hus : us.length = args.length)
    (hbufs : bufs.length = rest.length + 1) :
    (GenerateC.passed m (paramEnv (GenerateC.valueParams f') (us ++ bufs)) [] f').reverse =
      callArguments cpos (GenerateC.receivedArgs m args us)
        (bufs.map fun v => interiorPtr [v]) := by
  obtain ⟨xs, r, hxs, hr, hnames, hparams, hpassed⟩ := GenerateC.named_arrows hd.spec_eq
  cases r with
  | returns t' => cases hr
  | function x f t' => cases hr
  | buffers cpos' b r' =>
      obtain ⟨rfl, hb, hr'⟩ := Fn.buffers.inj hr
      cases r' with
      | function x f t' => cases hr'
      | buffers cpos2 b2 r2 => cases hr'
      | returns t' =>
          have hcount : b.names.length = rest.length + 1 := by
            rw [← sizes_length, hb, bytesBuffers_sizes, List.length_cons]
          have hfst : (GenerateC.valueParams f').map (fun p => p.1) = xs ++ b.names := by
            rw [hparams, GenerateC.valueParams, GenerateC.valueParamsOfCbuffers_eq]
            simp [Function.comp_def]
          have hnodup : (xs ++ b.names).Nodup := by
            have h := hd.names.nodup
            rwa [hnames, GenerateC.NamedFn.names, GenerateC.NamedFn.names,
              List.append_nil] at h
          have hlength : (GenerateC.valueParams f').length = (us ++ bufs).length := by
            rw [← List.length_map, hfst, List.length_append, List.length_append, hxs, hus,
              hcount, hbufs]
          have hmap := map_paramEnv (hfst ▸ hnodup) hlength
          rw [hfst, List.map_append] at hmap
          obtain ⟨hargs, hbuffers⟩ := List.append_inj hmap (by rw [List.length_map, hxs, hus])
          rw [hpassed, hargs, GenerateC.passed, GenerateC.passed,
            passedBuffers_bytes m _ cpos' _ [] hb, List.append_nil, List.append_nil,
            arrange_reverse]
          conv_rhs => rw [← hbuffers, List.map_map]
          rfl

/-! ### The byte sequences -/

/-- The numbers of sequences of these sizes, created from the last on, where
`k` were created before. -/
def bufferObjects (k : Nat) : List Nat → List Nat
  | [] => []
  | _ :: is => (k + is.length) :: bufferObjects k is

theorem mem_bufferObjects {k o : Nat} {is : List Nat} (h : o ∈ bufferObjects k is) :
    k ≤ o ∧ o < k + is.length := by
  induction is with
  | nil => cases h
  | cons i is ih =>
      rw [List.length_cons]
      rcases List.mem_cons.mp h with rfl | h
      · omega
      · have := ih h
        omega

theorem bufferObjects_length (k : Nat) (is : List Nat) :
    (bufferObjects k is).length = is.length := by
  induction is with
  | nil => rfl
  | cons i is ih => exact congrArg (· + 1) ih

theorem bufferObjects_nodup (k : Nat) (is : List Nat) : (bufferObjects k is).Nodup := by
  induction is with
  | nil => exact List.nodup_nil
  | cons i is ih =>
      refine List.nodup_cons.mpr ⟨fun h => ?_, ih⟩
      exact absurd (mem_bufferObjects h).2 (Nat.lt_irrefl _)

theorem bufferObjects_getElem? (before is after : List Nat) :
    (bufferObjects before.length is).map (fun o => (before ++ is.reverse ++ after)[o]?) =
      is.map some := by
  induction is generalizing after with
  | nil => rfl
  | cons i is ih =>
      have hsplit : before ++ (i :: is).reverse ++ after =
          before ++ is.reverse ++ (i :: after) := by simp
      rw [hsplit, bufferObjects, List.map_cons, ih, List.map_cons]
      congr 1
      rw [List.getElem?_append_right (by simp)]
      simp

/-- Byte sequences of these sizes that a run from `w` to `w'` creates. -/
structure CreatedBytes (w w' : World) (sizes objs : List Nat) : Prop where
  distinct : objs.Nodup
  new : ∀ o ∈ objs, w.created.length ≤ o
  sizes : objs.map (fun o => w'.created[o]?) = sizes.map some

theorem bufferObjects_created {w w' : World} {is : List Nat}
    (h : w'.created = w.created ++ is.reverse) :
    CreatedBytes w w' is (bufferObjects w.created.length is) := by
  refine ⟨bufferObjects_nodup _ is, fun o ho => (mem_bufferObjects ho).1, ?_⟩
  have hget := bufferObjects_getElem? w.created is []
  rwa [List.append_nil, ← h] at hget

section Buffers

variable {fvar : CFunction} {d : CFundef} {w : World}

theorem fresh_object {c : List Nat} {i : Nat} {v : Value}
    (h : Fresh (onStub m fvar d) w c i v) :
    v = .object .bytes (w.created.length + c.length) := by
  obtain ⟨s, hat, rfl⟩ := h
  have hcreated : s.world.created = w.created ++ c := by
    rw [hat.world, replay_created, hat.creates]
  show Value.object .bytes s.world.created.length = _
  rw [hcreated, List.length_append]

theorem freshBuffers_objects {is : List Nat} {bufs : List Value}
    (h : List.Forall₂ (fun Q v => Q v) (freshBuffers (onStub m fvar d) w is) bufs) :
    bufs = (bufferObjects w.created.length is).map (.object .bytes) := by
  induction is generalizing bufs with
  | nil => exact List.forall₂_nil_left_iff.mp h
  | cons i is ih =>
      obtain ⟨v, bufs', hv, hbufs, rfl⟩ := List.forall₂_cons_left_iff.mp h
      rw [bufferObjects, List.map_cons, ← ih hbufs, fresh_object hv, List.length_reverse]

end Buffers

/-! ### Whole calls -/

/-- `(b1, (b2, ... bm))`. -/
def nestedPairs : List Value → Value
  | [] => .unit
  | [v] => v
  | v :: vs => .pair v (nestedPairs vs)

theorem nested_onStub (fvar : CFunction) (d : CFundef) (vs : List Value) :
    nested (onStub m fvar d) vs = nestedPairs vs := by
  induction vs with
  | nil => rfl
  | cons v vs ih =>
      cases vs with
      | nil => rfl
      | cons v' vs => exact congrArg (Value.pair v) ih

def bytesStart (obj : Nat) : CVal := .ptr (.interior obj 0)

/-- Between the worlds `w` and `w'`, the C function is called once, on the
arguments `cargs` and the starts of new byte sequences; `y` is the image of
its result. -/
structure CallsOnBuffers (m : Machine) (cname : String) (cpos : CPosition)
    (cargs : List CVal) (sizes : List Nat) (t : Typ) (w w' : World) (objs : List Nat)
    (y : Value) : Prop where
  created : CreatedBytes w w' sizes objs
  calls : ∃ e e', w'.calls =
    w.calls ++ [⟨cname, callArguments cpos cargs (objs.map bytesStart), e, e'⟩]
  image : (build m t >>= fun get =>
    get (m.foreign (callArguments cpos cargs (objs.map bytesStart)))) = .ok y

/-- The call that ends as `r` returns the byte sequences next to the image. -/
def ReturnsBuffers (m : Machine) (cname : String) (cpos : CPosition) (cargs : List CVal)
    (sizes : List Nat) (t : Typ) (w : World)
    (r : Option (Sem Value World × Store Value World)) : Prop :=
  ∃ objs y st, CallsOnBuffers m cname cpos cargs sizes t w st.world objs y ∧
    r = some (.val (.pair (nestedPairs (objs.map (.object .bytes))) y), st)

/-- A result that is returned as it is has its image from the stub. -/
theorem injected_image {t : Typ} (ht : ReturnedAsIs t) {c : CVal}
    (hc : HasCore m.charSigned t c) : ∃ y,
    injected m t.core (convertTyp m t c) = .value y ∧ (build m t >>= fun get => get c) = .ok y := by
  rcases ht with rfl | ⟨p, rfl⟩
  · exact ⟨.unit, rfl, rfl⟩
  · have hconvert : convert m p c = c := convert_of_hasPrim hc
    obtain ⟨y, hy, -⟩ := injected_primitive hc
    refine ⟨y, ?_, ?_⟩
    · show injected m (.primitive p) (convert m p c) = _
      rw [hconvert, hy]
    · show Except.ok (ctypesRead m p c).toValue = _
      rw [← GenerateC.injected_eq_ctypesRead hc, hy]
      rfl

section Call

variable {pre cname stubName : String} {counter : Nat} {args : List Typ} {cpos : CPosition}
  {s : Nat} {rest : List Nat} {t : Typ} {ext : Extern} {c : Case} {d : CFundef}
  {n n' k k' : Nat} {vs : List Value}

/-- The specification whose arguments and buffers are given. -/
theorem withBuffers_parts (args : List Typ) (cpos : CPosition) (b : CBuffers) (t : Typ) :
    (withBuffers args cpos b t).arguments = args ∧
      (withBuffers args cpos b t).tail = .buffers cpos b (.returns t) ∧
      (withBuffers args cpos b t).sizes = b.sizes ∧
      GenerateC.resultTyp (withBuffers args cpos b t) = t := by
  have htail : (withBuffers args cpos b t).tail = .buffers cpos b (.returns t) := by
    rw [withBuffers, tail_arrows]
    rfl
  refine ⟨?_, htail, ?_, ?_⟩
  · rw [withBuffers, arguments_arrows]
    exact List.append_nil args
  · rw [← Fn.tail_sizes, htail]
    rfl
  · rw [withBuffers, GenerateC.resultTyp_arrows]
    rfl

/-- A call of the external on the starts of byte sequences. -/
theorem onStub_external (ht : ReturnedAsIs t)
    (hd : GenerateC.stub .ignoreErrno cname stubName
      (withBuffers args cpos (bytesBuffers s rest) t) k = .ok (d, k'))
    (hforeign : ∀ cargs, HasCore m.charSigned t (m.foreign cargs)) {us : List Value}
    {objs : List Nat} (hus : us.length = args.length) (hobjs : objs.length = rest.length + 1)
    (w : World) :
    let fvar := GenerateC.foreignFunction cname
      (withBuffers args cpos (bytesBuffers s rest) t)
    let I := onStub m fvar d
    let r := I.external (us ++ (objs.map (.object .bytes)).map I.ocamlBytesStart) w
    let cargs := callArguments cpos (GenerateC.receivedArgs m args (us.map .value))
      (objs.map bytesStart)
    (build m t >>= fun get => get (m.foreign cargs)) = .ok r.1 ∧
      r.2.created = w.created ∧ ∃ e e', r.2.calls = w.calls ++ [⟨cname, cargs, e, e'⟩] := by
  intro fvar I r cargs
  obtain ⟨hacc, f', n1, i, hstub⟩ := GenerateC.stub_eq_ok hd
  obtain ⟨-, -, -, hresult⟩ := withBuffers_parts args cpos (bytesBuffers s rest) t
  obtain ⟨y, hinjected, himage⟩ := injected_image ht (hforeign cargs)
  let bufs := ((objs.map (.object .bytes)).map I.ocamlBytesStart).map CVal.value
  have hstarts : bufs.map (fun v => interiorPtr [v]) = objs.map bytesStart := by
    simp only [bufs, List.map_map]
    rfl
  have hlen : (us.map CVal.value).length = args.length := by rw [List.length_map, hus]
  have hbufs : bufs.length = rest.length + 1 := by simp [bufs, hobjs]
  have hpassed := stub_passes (m := m) hstub hlen hbufs
  rw [hstarts] at hpassed
  rw [← hresult] at hinjected
  obtain ⟨hcalls, ⟨e, -, hvalue⟩, hcreated⟩ := GenerateC.stub_callsOnce hstub hacc hpassed
    hinjected (fun _ => .undefined) w
  have hr : r = I.external (us ++ (objs.map (.object .bytes)).map I.ocamlBytesStart) w := rfl
  have hargs : (us ++ (objs.map (.object .bytes)).map I.ocamlBytesStart).map CVal.value =
      us.map .value ++ bufs := List.map_append
  simp only [I, onStub] at hr hargs
  rw [hargs, hvalue] at hr
  rw [hr]
  exact ⟨himage, hcreated, hcalls⟩

/-- The wrapper on the stub calls the C function on what the stub makes of the
arguments. -/
theorem callWrapper_onStub (hm : m.integers.Lawful) (hargs : args ≠ [])
    (ht : ReturnedAsIs t)
    (hext : extern_ .ignoreErrno (var pre counter cname) (var pre counter cname)
      (withBuffers args cpos (bytesBuffers s rest) t) = .ok ext)
    (hcase : case .sequential .ignoreErrno cname (var pre counter cname)
      (withBuffers args cpos (bytesBuffers s rest) t) n = .ok (c, n'))
    (hd : GenerateC.stub .ignoreErrno cname (var pre counter cname)
      (withBuffers args cpos (bytesBuffers s rest) t) k = .ok (d, k'))
    (hforeign : ∀ cargs, HasCore m.charSigned t (m.foreign cargs))
    (hvs : List.Forall₂ (HasTyp m) args vs) (w : World) :
    ∃ cargs, cargs.length = (cValues m args vs).length ∧
      (cargs = cValues m args vs ↔ ∀ q ∈ args.zip vs, FitsInt m q.1 q.2) ∧
      ReturnsBuffers m cname cpos cargs (s :: rest) t w
        (callWrapper (onStub m (GenerateC.foreignFunction cname
            (withBuffers args cpos (bytesBuffers s rest) t)) d)
          (externFile .sequential .ignoreErrno ext) c
          (withBuffers args cpos (bytesBuffers s rest) t) vs w) := by
  let f := withBuffers args cpos (bytesBuffers s rest) t
  let I := onStub m (GenerateC.foreignFunction cname f) d
  obtain ⟨hfargs, hftail, hfsizes, -⟩ := withBuffers_parts args cpos (bytesBuffers s rest) t
  rw [bytesBuffers_sizes] at hfsizes
  have hpassed : ∀ a ∈ args, Passed a :=
    (accepted_arrows.mp (GenerateC.stub_eq_ok hd).1).1
  obtain ⟨evs1, evs2, y0, hcall, ⟨tr, hsame, htr⟩, hout⟩ :=
    callWrapper_generated hext hcase I (by rwa [hfargs]) (by rw [hfargs, hvs.length_eq]) w
  rw [hfargs, hftail] at hout
  rw [hfsizes] at htr
  obtain ⟨us, bufs, evs, hus, hbufs, rfl, hreads, hret⟩ := hout
  obtain rfl : evs = [] := List.map_eq_nil_iff.mp hreads
  have hlen : us.length = args.length := by
    rw [← hus.length_eq, List.length_zipWith, hvs.length_eq, Nat.min_self]
  have hsizes : (Fn.buffers cpos (bytesBuffers s rest) (.returns t)).sizes = s :: rest :=
    bytesBuffers_sizes s rest
  rw [hsizes] at hbufs
  obtain rfl := freshBuffers_objects hbufs
  -- the world in which the external is called
  let w1 := replay I evs1 w
  have hcreated1 : w1.created = w.created ++ (s :: rest).reverse := by
    rw [replay_created, htr, created_bindTrace hsame]
  have hcalls1 : w1.calls = w.calls :=
    replay_calls (by rw [htr, count_call_bindTrace hsame]) w
  let objs := bufferObjects w.created.length (s :: rest)
  let inputs := us ++ (objs.map (.object .bytes)).map I.ocamlBytesStart
  obtain ⟨himage, hcreated, e, e', hcalls⟩ := onStub_external ht hd hforeign hlen
    (bufferObjects_length w.created.length (s :: rest)) w1
  obtain ⟨hlength, hiff⟩ := receivedArgs_cValues hm hpassed hvs hus
  have hworld : ((Store.start w).after I (evs1 ++ [.call inputs])).world =
      (I.external inputs w1).2 := replay_append I evs1 _ w
  have hpair : y0 = .pair (nested I (objs.map (.object .bytes))) (I.external inputs w1).1 :=
    hret
  refine ⟨_, hlength, hiff, objs, _, (Store.start w).after I (evs1 ++ [.call inputs]),
    ⟨?_, ⟨e, e', ?_⟩, himage⟩, hcall.trans ?_⟩
  · exact bufferObjects_created (by rw [hworld, hcreated, hcreated1])
  · rw [hworld, hcalls, hcalls1]
  · rw [hpair, nested_onStub]
    rfl

/-- The stub compiles, and calling the wrapper calls the C function once on the C
values of the arguments and the buffers and returns these next to its result,
exactly if no name, no type and no macro keeps the stub from compiling and every
OCaml integer among the arguments fits a C `int`. -/
theorem callWrapper_returnsBuffers_iff {p : CProgram}
    (hviews : Ctypes.TypePrinting.PlainFormats p.views) (hm : m.integers.Lawful)
    (hargs : args ≠ []) (ht : ReturnedAsIs t)
    (hext : extern_ .ignoreErrno (var pre counter cname) (var pre counter cname)
      (withBuffers args cpos (bytesBuffers s rest) t) = .ok ext)
    (hcase : case .sequential .ignoreErrno cname (var pre counter cname)
      (withBuffers args cpos (bytesBuffers s rest) t) n = .ok (c, n'))
    (hd : GenerateC.stub .ignoreErrno cname (var pre counter cname)
      (withBuffers args cpos (bytesBuffers s rest) t) k = .ok (d, k'))
    (hforeign : ∀ cargs, HasCore m.charSigned t (m.foreign cargs))
    (hvs : List.Forall₂ (HasTyp m) args vs) (w : World) :
    Compiles p d ∧
        ReturnsBuffers m cname cpos (cValues m args vs) (s :: rest) t w
          (callWrapper (onStub m (GenerateC.foreignFunction cname
              (withBuffers args cpos (bytesBuffers s rest) t)) d)
            (externFile .sequential .ignoreErrno ext) c
            (withBuffers args cpos (bytesBuffers s rest) t) vs w) ↔
      StubCompiles p cname (withBuffers args cpos (bytesBuffers s rest) t) k ∧
        ∀ q ∈ args.zip vs, FitsInt m q.1 q.2 := by
  have hlast : Compilation.BuffersLast (withBuffers args cpos (bytesBuffers s rest) t) :=
    Compilation.buffersLast_arrows.mpr ⟨t, rfl⟩
  rw [Compilation.stub_compiles_iff hviews hlast hd]
  obtain ⟨cargs, hlen, hiff, hcall⟩ :=
    callWrapper_onStub hm hargs ht hext hcase hd hforeign hvs w
  refine and_congr_right' ⟨?_, fun hfits => ?_⟩
  · rintro ⟨objs, y, st, ⟨-, ⟨e1, e1', hcalls⟩, -⟩, hr⟩
    obtain ⟨objs', y', st', ⟨-, ⟨e2, e2', hcalls'⟩, -⟩, hr'⟩ := hcall
    obtain ⟨-, rfl⟩ := Prod.mk.inj (Option.some.inj (hr.symm.trans hr'))
    rw [hcalls', List.append_cancel_left_eq, List.singleton_inj] at hcalls
    exact hiff.mp (callArguments_left_inj hlen (congrArg Call.args hcalls))
  · rw [← hiff.mpr hfits]
    exact hcall

end Call

def mixedArgs : List Typ := [.view 0 (.primitive .camlint), .void, ptr int]

def mixedValues : List Value :=
  [.int 2147483647, .unit, .cpointer (.fatptr .unit int (.addr 64))]

def mixedToBuffers : Fn := withBuffers mixedArgs .first (bytesBuffers 4 [8]) int

/-- A program with a function of this name. -/
def programWith (cname : String) : CProgram :=
  { views := fun _ => none, hasType := fun _ => True, functions := (· = cname)
    free := fun _ => True, void := trivial, value := trivial, voidPointer := trivial
    primitive := fun _ => trivial, ocaml := fun _ => trivial }

theorem programWith_views (cname : String) :
    Ctypes.TypePrinting.PlainFormats (programWith cname).views := by
  intro v format h
  cases h

/-- Two buffers stand before the largest `int` and a pointer. -/
theorem callWrapper_returnsBuffers_mixed :
    ∃ ext c n' d k',
      extern_ .ignoreErrno (var "stub" 1 "f") (var "stub" 1 "f") mixedToBuffers = .ok ext ∧
      case .sequential .ignoreErrno "f" (var "stub" 1 "f") mixedToBuffers 0 = .ok (c, n') ∧
      GenerateC.stub .ignoreErrno "f" (var "stub" 1 "f") mixedToBuffers 0 = .ok (d, k') ∧
      Compiles (programWith "f") d ∧
        ReturnsBuffers .plain "f" .first [.int 2147483647, .ptr (.addr 64)] [4, 8] int .empty
          (callWrapper (onStub .plain (GenerateC.foreignFunction "f" mixedToBuffers) d)
            (externFile .sequential .ignoreErrno ext) c mixedToBuffers mixedValues .empty) := by
  have hext : extern_ .ignoreErrno (var "stub" 1 "f") (var "stub" 1 "f")
      (withBuffers mixedArgs .first (bytesBuffers 4 [8]) int) = .ok _ := rfl
  have hcase : case .sequential .ignoreErrno "f" (var "stub" 1 "f")
      (withBuffers mixedArgs .first (bytesBuffers 4 [8]) int) 0 = .ok _ := rfl
  have hd : GenerateC.stub .ignoreErrno "f" (var "stub" 1 "f")
      (withBuffers mixedArgs .first (bytesBuffers 4 [8]) int) 0 = .ok _ := rfl
  have hvs : List.Forall₂ (HasTyp .plain) mixedArgs mixedValues :=
    .cons ⟨_, rfl, by decide⟩ (.cons rfl (.cons ⟨_, _, _, rfl⟩ .nil))
  have hforeign : ∀ cargs, HasCore true int (Machine.plain.foreign cargs) := fun _ =>
    show i32.InRange 0 by decide
  have htypes : mixedToBuffers.types =
      [.view 0 (.primitive .camlint), .void, ptr int, .ocaml .bytes, .ocaml .bytes, int] := rfl
  have hinputs : Compilation.inputTypes mixedToBuffers =
      [.view 0 (.primitive .camlint), .void, ptr int, .ocaml .bytes, .ocaml .bytes] := rfl
  have hcompiles : StubCompiles (programWith "f") "f" mixedToBuffers 0 :=
    { defined := .inr rfl
      visible := fun j _ => ne_freshName (by decide) j
      projects := by
        rw [hinputs]
        simp only [List.forall_mem_cons]
        exact ⟨trivial, trivial, trivial, trivial, trivial, fun _ h => absurd h List.not_mem_nil⟩
      result := .inr ⟨by decide, trivial⟩
      tags := by
        rw [htypes]
        simp [EmitC.ViewOfBody, EmitC.ReachesBody, ptr, int] }
  refine ⟨_, _, _, _, _, hext, hcase, hd, (callWrapper_returnsBuffers_iff (programWith_views "f")
    Integers.plain_lawful (by simp [mixedArgs]) (.inr ⟨_, rfl⟩) hext hcase hd hforeign hvs
    .empty).mpr ⟨hcompiles, ?_⟩⟩
  simp only [mixedArgs, mixedValues, List.zip_cons_cons, List.zip_nil_right,
    List.forall_mem_cons]
  refine ⟨fun _ i hi => ?_, fun h => ?_, fun h => ?_, fun _ h => absurd h List.not_mem_nil⟩
  · cases hi
    decide
  · cases h
  · cases h

def camlintToBuffer : Fn :=
  withBuffers [.primitive .camlint] .last (bytesBuffers 4 []) .void

/-- An OCaml integer of 32 bits does not get through. -/
theorem camlint_not_returnsBuffers :
    ∃ ext c n' d k',
      extern_ .ignoreErrno (var "stub" 1 "f") (var "stub" 1 "f") camlintToBuffer = .ok ext ∧
      case .sequential .ignoreErrno "f" (var "stub" 1 "f") camlintToBuffer 0 = .ok (c, n') ∧
      GenerateC.stub .ignoreErrno "f" (var "stub" 1 "f") camlintToBuffer 0 = .ok (d, k') ∧
      List.Forall₂ (HasTyp .plain) [.primitive .camlint] [.int 2147483648] ∧
      ¬ ReturnsBuffers .plain "f" .last
        (cValues .plain [.primitive .camlint] [.int 2147483648]) [4] .void .empty
        (callWrapper (onStub .plain (GenerateC.foreignFunction "f" camlintToBuffer) d)
          (externFile .sequential .ignoreErrno ext) c camlintToBuffer [.int 2147483648]
          .empty) := by
  refine ⟨_, _, _, _, _, rfl, rfl, rfl, .cons ⟨_, rfl, by decide⟩ .nil, ?_⟩
  rintro ⟨objs, y, st, ⟨-, ⟨e, e', hcalls⟩, -⟩, hr⟩
  have hactual : some [⟨"f", [.int (-2147483648), .ptr (.interior 0 0)], 0, 0⟩] =
      some st.world.calls :=
    congrArg (Option.map fun p : Sem Value World × Store Value World => p.2.world.calls) hr
  have hargs := congrArg Call.args
    (List.singleton_inj.mp ((Option.some.inj hactual).trans hcalls))
  have hfirst : CVal.int (-2147483648) = .int 2147483648 := (List.cons.inj hargs).1
  exact absurd hfirst (by decide)

end CtypesCbuf.Cbuf
