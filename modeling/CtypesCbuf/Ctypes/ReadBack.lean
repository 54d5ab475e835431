import CtypesCbuf.Ctypes.RoundTrip

/-!
Writing and reading back at every type that has a size, floats and bigarrays
included, and what a read depends on: the bytes of the type at the pointer,
and what the read functions of its views look at.
-/

namespace CtypesCbuf.Ctypes.Memory

open ByteMemory IntFormat
open CtypesCbuf.Runtime

/-! ### Primitives -/

def floatSize : FloatKind → Nat
  | .float => 4
  | .double | .complex32 => 8
  | .ldouble | .complex64 => 16
  | .complexld => 32

def FloatsFit (m : Machine) : Prop :=
  ∀ k k' bits, m.convertFloat k k' bits < 256 ^ floatSize k'

def BitsFit : Value → Prop
  | .flt k bits => bits < 256 ^ floatSize k
  | _ => True

section Primitives

variable {m : Machine} {p : Prim} {v : Value} {k : FloatKind}

/-- The float that `ctypes_write` stores. -/
theorem ctypesWrite_float (hf : FloatsFit m) (hk : floatKind p = some k)
    (hv : HasMlPrim m (mlPrim p) v) (hb : BitsFit v) :
    ∃ bits < 256 ^ p.size, ctypesWrite m p v = .flt k bits := by
  have hno : ∀ l, (∃ i, Denotes m l v i) → l = mlPrim p → False := by
    rintro l ⟨i, hi⟩ rfl
    cases p <;> cases hk <;> exact hi
  cases v with
  | flt l bits =>
      cases p with
      | float | double | ldouble | complex32 | complex64 | complexld =>
          cases hk
          cases l <;> first
            | exact ⟨bits, hb, rfl⟩
            | exact ⟨_, hf _ _ bits, rfl⟩
            | exact (hno _ hv rfl).elim
      | _ => cases hk
  | _ => exact (hno _ (by cases p <;> cases hk <;> exact hv) rfl).elim

/-- A primitive is read as what `ctypes_read` makes of the C value that
`ctypes_write` stored. -/
theorem stubsRead_back (hm : m.integers.Lawful) (hf : FloatsFit m)
    (hv : HasMlPrim m (mlPrim p) v) (hb : BitsFit v) (dst : Int) (mem : Memory) :
    ∃ mem' u, (Access.primitive p (ctypesWrite m p v) dst).perform mem = .ok mem' ∧
      (∀ a, ¬ In dst p.size a → mem' a = mem a) ∧
      ctypesRead m p (loadPrim m p mem' dst) = .value u ∧
      ctypesRead m p (ctypesWrite m p v) = .value u := by
  cases hk : floatKind p with
  | none =>
      have hp : Integral p := hk
      obtain ⟨i, hi⟩ : ∃ i, Denotes m (mlPrim p) v i := by
        cases p <;> first | exact hv | cases hk
      obtain ⟨mem', u, hperform, hframe, hread, hu⟩ := stubsRead_written hm hp hi dst mem
      obtain ⟨u', hread', hu'⟩ := ctypesRead_convert hp hi
      rw [← ctypesWrite_eq hm hp hi] at hread'
      refine ⟨mem', u, hperform, hframe, hread, ?_⟩
      rw [hread', denotes_unique hu' hu]
  | some k =>
      obtain ⟨bits, hbits, hwrite⟩ := ctypesWrite_float hf hk hv hb
      have hload : loadPrim m p (store dst p.size bits mem) dst = .flt k bits := by
        have hlt : ((bits : Int)) % (256 : Int) ^ p.size = bits :=
          Int.emod_eq_of_lt (by omega) (by exact_mod_cast hbits)
        rw [loadPrim, hk]
        dsimp only
        rw [fetch_store, hlt, Int.toNat_natCast]
      obtain ⟨u, hread, -⟩ := ctypesRead_hasMlPrim (m := m) (p := p) (c := .flt k bits) hk
      refine ⟨store dst p.size bits mem, u, ?_, fun a ha => store_of_notIn ha, ?_, ?_⟩
      · rw [hwrite]
        rfl
      · rw [hload, hread]
      · rw [hwrite, hread]

theorem integral_of_intFormat {charSigned : Bool} {f : IntFormat}
    (hf : intFormat charSigned p = some f) : Integral p := by
  cases p <;> first | rfl | cases hf

theorem loadPrim_int {f : IntFormat} (hf : intFormat m.charSigned p = some f) (mem : Memory)
    (a : Int) :
    loadPrim m p mem a = .int (f.wrap (fetch mem a p.size)) := by
  have hfloat : floatKind p = none := integral_of_intFormat hf
  rw [loadPrim, hfloat, hf]

end Primitives

/-! ### Every type -/

variable {A : ViewId → Type} (P : Platform A)

/-- `v` is a value of the OCaml type of `t`; an array may have any length. -/
def HasType : (t : Typ) → Val A t → Memory → Prop
  | .primitive p, (v : Value), _ => HasMlPrim P.machine (mlPrim p) v ∧ BitsFit v
  | .pointer _, (v : FatPtr Typ), _ => i64.InRange v.raw
  | .funptr _, (v : FatPtr Fn), _ => i64.InRange v.raw
  | .view w ty, v, mem => HasType ty (P.write w ty v mem).1 (P.write w ty v mem).2
  | _, _, _ => True

/-- `r`, in the memory `mem'`, is what comes back of `v`, in the memory `mem`.
An aggregate comes back as one with the type's own shape and the same bytes. -/
def ReadBack : (t : Typ) → Val A t → Memory → Val A t → Memory → Prop
  | .primitive p, (v : Value), _, (r : Value), _ =>
      ctypesRead P.machine p (ctypesWrite P.machine p v) = .value r
  | .bigarray ba, (v : BigarrayValue), mem, (r : BigarrayValue), mem' =>
      r.elementType = ba.elementType ∧ r.dimensions = ba.dimensions ∧
        SameBytes (ownSize (.bigarray ba)) v.address mem r.address mem'
  | .view w ty, v, mem, r, mem' =>
      ∃ u', ReadBack ty (P.write w ty v mem).1 (P.write w ty v mem).2 u' mem' ∧
        r = P.read w ty u' mem'
  | t, v, mem, r, mem' => Yields P t v mem r mem'

/-- As `Stores`, with what comes back at any type. -/
structure StoresBack (t : Typ) (v : Val A t) (mem : Memory) (dst : Int) (ptr : FatPtr Typ)
    (a : Access) (mem1 : Memory) : Prop where
  memory : mem1 = converted P t v mem
  apart : (∀ s ∈ storage P t v mem, ¬ Overlap dst s.1 (ownSize t)) →
    ∃ mem' r, a.perform mem1 = .ok mem' ∧ deref P t ptr mem' = .ok r ∧
      ReadBack P t v mem r mem' ∧ ∀ b, ¬ In dst (ownSize t) b → mem' b = mem1 b

/-- At a type that is no view, no primitive and no bigarray. -/
theorem Stores.back {t : Typ} {v : Val A t} {mem mem1 : Memory} {dst : Int} {ptr : FatPtr Typ}
    {a : Access} (h : Stores P t v mem dst ptr a mem1)
    (ht : ∀ r mem', Yields P t v mem r mem' → ReadBack P t v mem r mem') :
    StoresBack P t v mem dst ptr a mem1 where
  memory := h.memory
  apart hapart := by
    obtain ⟨mem', r, hperform, hderef, hyields, hframe⟩ := h.apart hapart
    exact ⟨mem', r, hperform, hderef, ht r mem' hyields, hframe⟩

theorem storesBack_view {w : ViewId} {ty : Typ} {v : Val A (.view w ty)} {mem mem1 : Memory}
    {dst : Int} {ptr : FatPtr Typ} {a : Access}
    (h : StoresBack P ty (P.write w ty v mem).1 (P.write w ty v mem).2 dst (ptr.coerce ty) a
      mem1) :
    StoresBack P (.view w ty) v mem dst ptr a mem1 where
  memory := h.memory
  apart hapart := by
    obtain ⟨mem', u, hperform, hderef, hback, hframe⟩ := h.apart hapart
    refine ⟨mem', P.read w ty u mem', hperform, ?_, ⟨u, hback, rfl⟩, hframe⟩
    rw [deref, hderef]
    rfl

/-- What a write through `dst` does, and what a read at the same address
gives afterwards, at any type with a size. -/
theorem storesBack (hm : P.machine.integers.Lawful) (hf : FloatsFit P.machine) {t : Typ}
    {size : Nat} (hs : sizeof t = .ok size) {v : Val A t} {mem : Memory}
    (hv : HasType P t v mem) (dst ptr : FatPtr Typ) (hptr : ptr.raw = dst.raw) :
    ∃ w, write P t = .ok w ∧
      StoresBack P t v mem dst.raw ptr (w v dst mem).1 (w v dst mem).2 := by
  induction t using Typ.core.induct generalizing mem ptr with
  | case1 u ty ih =>
      obtain ⟨w, hw, hstores⟩ := ih hs hv (ptr.coerce ty) hptr
      rw [write, hw]
      exact ⟨_, rfl, storesBack_view P hstores⟩
  | case2 t hview =>
      have hyields : ∀ {t : Typ} {v : Val A t} {w}, Storable t → HasTyp P t v mem →
          write P t = .ok w →
          (∀ r mem', Yields P t v mem r mem' → ReadBack P t v mem r mem') →
          StoresBack P t v mem dst.raw ptr (w v dst mem).1 (w v dst mem).2 := by
        intro t v w hstorable htyp hw hback
        obtain ⟨w', hw', hstores⟩ := stores P hm hstorable htyp dst ptr hptr
        cases hw.symm.trans hw'
        exact hstores.back P hback
      cases t with
      | view u ty => exact absurd rfl (hview u ty)
      | void | ocaml ty => cases hs
      | primitive p =>
          obtain ⟨mem', u, hperform, hframe, hread, hback⟩ :=
            stubsRead_back hm hf hv.1 hv.2 dst.raw mem
          refine ⟨_, rfl, rfl, fun _ => ⟨mem', u, hperform, ?_, hback, hframe⟩⟩
          show ((stubsRead P p ptr.raw mem').map _).map _ = _
          rw [stubsRead, hptr, hread]
          rfl
      | pointer t => exact ⟨_, rfl, hyields (t := .pointer t) trivial hv rfl fun _ _ h => h⟩
      | funptr fn => exact ⟨_, rfl, hyields (t := .funptr fn) trivial hv rfl fun _ _ h => h⟩
      | struct tag spec fields =>
          cases spec with
          | incomplete isize => cases hs
          | complete size align =>
              exact ⟨_, rfl, hyields (t := .struct tag (.complete size align) fields) trivial
                trivial rfl fun _ _ h => h⟩
      | union utag uspec ufields =>
          cases uspec with
          | none => cases hs
          | some spec =>
              exact ⟨_, rfl, hyields (t := .union utag (some spec) ufields) trivial trivial rfl
                fun _ _ h => h⟩
      | abstract a =>
          exact ⟨_, rfl, hyields (t := .abstract a) trivial trivial rfl fun _ _ h => h⟩
      | array t n =>
          have hown : ownSize (.array t n) = size := by rw [ownSize, hs]; rfl
          rw [write, hs, ← hown]
          have hstores : Stores P (.array t n) v mem dst.raw ptr
              (.memcpy dst.raw v.astart.raw (ownSize (.array t n))) mem := by
            refine stores_aggregate P (t := .array t n) (r := (⟨ptr.coerce t, n⟩ : CArray))
              rfl rfl (fun _ => rfl) fun mem' h => ?_
            rw [← hptr] at h
            exact ⟨rfl, rfl, h⟩
          exact ⟨_, rfl, hstores.back P fun _ _ h => h⟩
      | bigarray ba =>
          refine ⟨_, rfl, rfl, fun hapart => ?_⟩
          have hover := hapart _ rfl
          refine ⟨_, (⟨ptr.raw, ba.elementType, ba.dimensions⟩ : BigarrayValue),
            perform_memcpy hover mem, rfl, ⟨rfl, rfl, ?_⟩, fun b hb => copy_of_notIn hb⟩
          rw [hptr]
          exact sameBytes_copy dst.raw v.address _ mem

/-- A value of the type can be written and is read back; the write changes
only bytes of the type. -/
theorem assign_back (hm : P.machine.integers.Lawful) (hf : FloatsFit P.machine)
    {p : FatPtr Typ} {size : Nat} (hs : sizeof p.reftyp = .ok size) {v : Val A p.reftyp}
    {mem : Memory} (hv : HasType P p.reftyp v mem) (hapart : Apart P p v mem) :
    ∃ mem' r, assign P p v mem = .ok mem' ∧ deref P p.reftyp p mem' = .ok r ∧
      ReadBack P p.reftyp v mem r mem' ∧
      ∀ a, ¬ In p.raw size a → mem' a = converted P p.reftyp v mem a := by
  obtain ⟨w, hw, hstores⟩ := storesBack P hm hf hs hv p p rfl
  obtain ⟨mem', r, hperform, hderef, hback, hframe⟩ := hstores.apart hapart
  have hown : ownSize p.reftyp = size := by rw [ownSize, hs]; rfl
  rw [hown, hstores.memory] at hframe
  refine ⟨mem', r, ?_, hderef, hback, hframe⟩
  rw [assign, hw]
  exact hperform

/-! ### What a read depends on -/

/-- The read functions of the views of `t` do not tell the memories apart. -/
def SameReads : Typ → Memory → Memory → Prop
  | .view w ty, mem, mem' => SameReads ty mem mem' ∧ ∀ u, P.read w ty u mem' = P.read w ty u mem
  | _, _, _ => True

theorem loadPrim_congr {m : Machine} {p : Prim} {mem mem' : Memory} {src : Int}
    (h : ∀ a, In src p.size a → mem' a = mem a) :
    loadPrim m p mem' src = loadPrim m p mem src := by
  rw [loadPrim, loadPrim, fetch_congr h]

/-- A read gives the same where the bytes are the same. -/
theorem deref_congr {t : Typ} {size : Nat} (hs : sizeof t = .ok size) {p : FatPtr Typ}
    {mem mem' : Memory} (h : ∀ a, In p.raw size a → mem' a = mem a)
    (hreads : SameReads P t mem mem') : deref P t p mem' = deref P t p mem := by
  induction t using Typ.core.induct generalizing p with
  | case1 w ty ih =>
      rw [deref, deref, ih hs (p := p.coerce ty) h hreads.1]
      cases deref P ty (p.coerce ty) mem with
      | error e => rfl
      | ok u => exact congrArg Except.ok (hreads.2 u)
  | case2 t hview =>
      cases t with
      | view w ty => exact absurd rfl (hview w ty)
      | primitive q =>
          cases hs
          have hread : stubsRead P q p.raw mem' = stubsRead P q p.raw mem := by
            rw [stubsRead, stubsRead, loadPrim_congr h]
          show ((stubsRead P q p.raw mem').map _).map _ = ((stubsRead P q p.raw mem).map _).map _
          rw [hread]
          cases stubsRead P q p.raw mem <;> rfl
      | pointer u =>
          cases hs
          show Except.ok (⟨u, readPointer mem' p.raw, none⟩ : FatPtr Typ) = _
          rw [readPointer, fetch_congr h]
          rfl
      | funptr fn =>
          cases hs
          show Except.ok (⟨fn, readPointer mem' p.raw, none⟩ : FatPtr Fn) = _
          rw [readPointer, fetch_congr h]
          rfl
      | struct tag spec fields => cases spec <;> rfl
      | union utag uspec ufields => cases uspec <;> rfl
      | _ => rfl

theorem deref_primitive_iff {p : Prim} {q : FatPtr Typ} {v : Value} {mem : Memory} :
    deref P (.primitive p) q mem = .ok v ↔
      ctypesRead P.machine p (loadPrim P.machine p mem q.raw) = .value v := by
  show ((stubsRead P p q.raw mem).map _).map _ = _ ↔ _
  rw [stubsRead]
  cases ctypesRead P.machine p (loadPrim P.machine p mem q.raw) with
  | value w => exact ⟨fun h => by cases h; rfl, fun h => by cases h; rfl⟩
  | _ => exact ⟨(fun h => by cases h), fun h => by cases h⟩

end CtypesCbuf.Ctypes.Memory
