import CtypesCbuf.CtypesForeign.Callspec

/-!
The three computations of the buffer of a call agree. The invariant of a
specification under construction, `Built`, says what the bytes counted so far
are and what the array of arguments holds; adding an argument keeps it, and
everything after the last argument is read off it.
-/

namespace CtypesCbuf.CtypesForeign

open Alignment

variable {args ts us : List FfiType} {t ret : FfiType} {spec : Callspec}

/-! ### Adding arguments -/

/-- The specification holds the arguments `ts`. The array ends with a null and
has room for at least one more argument. -/
structure Built (ts : List FfiType) (spec : Callspec) : Prop where
  bytes : spec.bytes = argsEnd ts
  nelements : spec.nelements = ts.length
  building : spec.state = .building
  array : ts = [] ∧ spec.args = none ∧ spec.capacity = 0 ∨
    ∃ rest, spec.args = some (ts.map .type ++ .null :: rest) ∧
      spec.capacity = ts.length + 1 + rest.length ∧ 1 ≤ rest.length ∧ rest.length ≤ 8

theorem built_allocateCallspec (context : CallContext) :
    Built [] (allocateCallspec context) :=
  ⟨rfl, rfl, rfl, .inl ⟨rfl, rfl, rfl⟩⟩

theorem resize_of_le {cells : List Cell} {n : Nat} (h : cells.length ≤ n)
    (args : Option (List Cell)) (hargs : args.getD [] = cells) :
    resize args (n * wordSize) = cells ++ List.replicate (n - cells.length) .unset := by
  have hn : n * wordSize / wordSize = n := Nat.mul_div_cancel n (by decide)
  simp only [resize, hargs, hn, List.take_of_length_le h]

/-- After growing there is room for the argument, the null and one more. -/
theorem Built.grown (h : Built ts spec) (hts : ts.length < 2 ^ 31) :
    ∃ c c' rest, grown spec = (ts.map .type ++ c :: c' :: rest, ts.length + 2 + rest.length) ∧
      1 ≤ rest.length ∧ rest.length ≤ 8 := by
  rw [CtypesForeign.grown, h.nelements]
  obtain ⟨rfl, hargs, hcap⟩ | ⟨rest, hargs, hcap, hle, hge⟩ := h.array
  · rw [hargs, hcap]
    refine ⟨.unset, .unset, List.replicate 6 .unset, ?_, by decide, by decide⟩
    rw [if_pos (by decide), sizeT_of_lt (by decide), sizeT_of_lt (by decide)]
    decide
  · obtain ⟨c, rest, rfl⟩ := List.exists_cons_of_length_pos hle
    have hlen : (ts.map Cell.type ++ Cell.null :: c :: rest).length = spec.capacity := by
      rw [hcap, List.length_append, List.length_map, List.length_cons]
      omega
    by_cases hgrow : ts.length + 2 ≥ spec.capacity
    · have hrest : rest = [] := by
        apply List.eq_nil_of_length_eq_zero
        rw [List.length_cons] at hcap
        omega
      subst hrest
      have hcap2 : spec.capacity = ts.length + 2 := by
        rw [hcap]
        rfl
      refine ⟨.null, c, List.replicate 8 .unset, ?_, by decide, by decide⟩
      have hfits : (ts.map Cell.type ++ [Cell.null, c]).length ≤ spec.capacity + 8 := by omega
      rw [if_pos hgrow, sizeT_of_lt (by unfold wordSize; omega), sizeT_of_lt (by omega),
        resize_of_le hfits spec.args (by rw [hargs]; rfl), hlen, hcap2]
      have h8 : ts.length + 2 + 8 - (ts.length + 2) = 8 := by omega
      rw [h8]
      simp
    · refine ⟨.null, c, rest, ?_, ?_, ?_⟩
      · rw [if_neg hgrow, hargs, hcap, List.length_cons]
        have : ts.length + 1 + (rest.length + 1) = ts.length + 2 + rest.length := by omega
        rw [this]
        rfl
      · rw [List.length_cons] at hcap
        omega
      · rw [List.length_cons] at hge
        omega

theorem writeCell_append (cells rest : List Cell) (c c' : Cell) {i : Nat}
    (hi : i = cells.length) :
    writeCell (cells ++ c :: rest) i c' = some (cells ++ c' :: rest) := by
  subst hi
  have hlt : cells.length < (cells ++ c :: rest).length := by simp
  rw [writeCell, if_pos hlt]
  simp

theorem argSlots_snoc (ts : List FfiType) (t : FfiType) :
    argSlots (ts ++ [t]) = argSlots ts ++ [Slot.next (argsEnd ts) t.size t.alignment] :=
  argSlots_append ts [t]

theorem argsEnd_snoc (ts : List FfiType) (t : FfiType) :
    argsEnd (ts ++ [t]) = roundUp (argsEnd ts) t.alignment + t.size := by
  rw [argsEnd, argSlots_snoc, stop_append]
  rfl

theorem argSlots_length (ts : List FfiType) : (argSlots ts).length = ts.length := by
  have := congrArg List.length (map_place 0 (ts.map FfiType.block))
  simpa [argSlots] using this

theorem length_le_argsEnd (h : ∀ t ∈ ts, t.Valid) : ts.length ≤ argsEnd ts := by
  have hsize : ∀ s ∈ argSlots ts, 0 < s.size := by
    intro s hs
    have hmem : (s.size, s.align) ∈ ts.map FfiType.block := by
      rw [← map_place 0 (ts.map FfiType.block)]
      exact List.mem_map.mpr ⟨s, hs, rfl⟩
    obtain ⟨t, ht, heq⟩ := List.mem_map.mp hmem
    have hsize : t.size = s.size := congrArg Prod.fst heq
    rw [← hsize]
    exact (h t ht).1
  have hlen := argSlots_length ts
  have := (tight_argSlots h).length_le hsize
  rw [hlen] at this
  rw [argsEnd]
  omega

/-- An argument goes to the next aligned offset. -/
theorem Built.addArgument (h : Built ts spec) (hts : ∀ t ∈ ts, t.Valid) (ht : t.Valid)
    (ho : roundUp (argsEnd ts) t.alignment < 2 ^ 31)
    (hs : argsEnd (ts ++ [t]) < 2 ^ 64) :
    ∃ spec', addArgument spec t = some (((roundUp (argsEnd ts) t.alignment : Nat) : Int), spec') ∧
      Built (ts ++ [t]) spec' := by
  have hlen : ts.length < 2 ^ 31 := by
    have h1 := length_le_argsEnd hts
    have h2 : argsEnd ts ≤ roundUp (argsEnd ts) t.alignment := le_roundUp ht.align_pos
    omega
  obtain ⟨c, c', rest, hgrown, hle, hge⟩ := h.grown hlen
  have hoffset : cInt (alignedOffset spec.bytes t.alignment) =
      (roundUp (argsEnd ts) t.alignment : Nat) := by
    rw [h.bytes, alignedOffset_of_lt (by omega), cInt_of_lt ho]
  have hbytes : sizeT (((roundUp (argsEnd ts) t.alignment : Nat) : Int) + (t.size : Int)) =
      argsEnd (ts ++ [t]) := by
    rw [← Int.natCast_add, ← argsEnd_snoc, sizeT_of_lt hs]
  have hwrite₁ : writeCell (ts.map .type ++ c :: c' :: rest) ts.length (.type t) =
      some (ts.map .type ++ .type t :: c' :: rest) :=
    writeCell_append _ _ c (.type t) (by rw [List.length_map])
  have hwrite₂ : writeCell (ts.map .type ++ .type t :: c' :: rest) (ts.length + 1) .null =
      some ((ts ++ [t]).map .type ++ .null :: rest) := by
    have hsnoc : ts.map Cell.type ++ Cell.type t :: c' :: rest =
        (ts ++ [t]).map Cell.type ++ c' :: rest := by simp
    rw [hsnoc]
    exact writeCell_append _ _ c' .null (by simp)
  refine ⟨{ spec with
    bytes := argsEnd (ts ++ [t]), capacity := ts.length + 2 + rest.length
    args := some ((ts ++ [t]).map .type ++ .null :: rest), nelements := ts.length + 1
    maxAlign := if t.alignment > spec.maxAlign then t.alignment else spec.maxAlign }, ?_, ?_⟩
  · simp only [CtypesForeign.addArgument, h.building, hoffset, hbytes, guard, if_true,
      Option.bind_eq_bind, pure, Option.bind_some, hwrite₁, hwrite₂, hgrown, h.nelements]
  · refine ⟨rfl, by simp, h.building, .inr ⟨rest, rfl, ?_, hle, hge⟩⟩
    rw [List.length_append]
    rfl

/-- Nothing overflows while the arguments `us` are added after `ts`. -/
def Fits (ts us : List FfiType) : Prop :=
  ∀ vs t ws, us = vs ++ t :: ws →
    roundUp (argsEnd (ts ++ vs)) t.alignment < 2 ^ 31 ∧ argsEnd (ts ++ vs ++ [t]) < 2 ^ 64

theorem Fits.tail (h : Fits ts (t :: us)) : Fits (ts ++ [t]) us := by
  rintro vs u ws rfl
  have := h (t :: vs) u ws rfl
  simpa using this

/-- The offsets of the arguments `us` after `ts`. -/
def offsetsAfter (ts us : List FfiType) : List Nat :=
  (place (argsEnd ts) (us.map FfiType.block)).map Slot.offset

theorem offsetsAfter_cons (ts us : List FfiType) (t : FfiType) :
    offsetsAfter ts (t :: us) =
      roundUp (argsEnd ts) t.alignment :: offsetsAfter (ts ++ [t]) us := by
  rw [offsetsAfter, offsetsAfter, argsEnd_snoc]
  rfl

/-- A run of additions returns the offsets of the ideal layout. -/
theorem Built.addArguments (h : Built ts spec) (hts : ∀ t ∈ ts, t.Valid)
    (hus : ∀ t ∈ us, t.Valid) (hfits : Fits ts us) :
    ∃ spec', addArguments spec us =
        some ((offsetsAfter ts us).map fun o : Nat => (o : Int), spec') ∧
      Built (ts ++ us) spec' := by
  induction us generalizing ts spec with
  | nil => exact ⟨spec, rfl, by rwa [List.append_nil]⟩
  | cons t us ih =>
      obtain ⟨ho, hs⟩ := hfits [] t us rfl
      rw [List.append_nil] at ho hs
      obtain ⟨spec₁, hadd, hbuilt⟩ := h.addArgument hts (hus t (by simp)) ho hs
      have hvalid : ∀ u ∈ ts ++ [t], u.Valid := by
        intro u hu
        obtain hu | hu := List.mem_append.mp hu
        · exact hts u hu
        · rw [List.mem_singleton.mp hu]
          exact hus t (by simp)
      obtain ⟨spec', hrest, hbuilt'⟩ :=
        ih hbuilt hvalid (fun u hu => hus u (by simp [hu])) hfits.tail
      refine ⟨spec', ?_, by rwa [List.append_assoc] at hbuilt'⟩
      rw [offsetsAfter_cons]
      simp only [CtypesForeign.addArguments, hadd, hrest, Option.bind_eq_bind, Option.bind_some,
        pure, List.map_cons]

/-! ### The same offsets at the call -/

theorem populateFrom_eq {cells rest : List Cell} (hfits : Fits ts us)
    (hcells : cells = (ts ++ us).map .type ++ rest) :
    populateFrom cells us.length ts.length (argsEnd ts) = some (offsetsAfter ts us) := by
  induction us generalizing ts with
  | nil => rfl
  | cons t us ih =>
      obtain ⟨ho, hs⟩ := hfits [] t us rfl
      rw [List.append_nil] at ho hs
      have hget : cells[ts.length]? = some (.type t) := by
        rw [hcells]
        simp
      have hstep : sizeT ((roundUp (argsEnd ts) t.alignment : Nat) + (t.size : Int)) =
          argsEnd (ts ++ [t]) := by
        rw [← Int.natCast_add, ← argsEnd_snoc, sizeT_of_lt hs]
      have hrest := ih hfits.tail (by simpa using hcells)
      rw [List.length_append, List.length_singleton] at hrest
      rw [List.length_cons, populateFrom, hget, offsetsAfter_cons]
      simp only [alignedOffset_of_lt (Nat.lt_trans ho (by decide)), hstep, hrest,
        Option.bind_eq_bind, Option.bind_some, pure]

/-- The array of a specification with the arguments `args`. -/
theorem Built.populate (h : Built args spec) (hfits : Fits [] args) :
    populateArgArray spec = some (offsetsAfter [] args) := by
  rw [populateArgArray, h.nelements]
  obtain ⟨rfl, hargs, -⟩ | ⟨rest, hargs, -⟩ := h.array
  · rfl
  · rw [hargs]
    exact @populateFrom_eq [] args _ _ hfits rfl

/-! ### The whole buffer -/

section Bounds

variable (hvalid : ∀ t ∈ args, t.Valid) (hret : ret.Valid)
include hret

theorem argsEnd_le_bufferSize (args : List FfiType) :
    argsEnd args ≤ returnOffset args ret ∧ returnOffset args ret + ret.size ≤ bufferSize args ret ∧
      scratchEnd args ret ≤ arrayOffset args ret := by
  have h1 : argsEnd args ≤ returnOffset args ret := le_roundUp hret.align_pos
  have h2 : returnOffset args ret + ret.size ≤
      roundUp (returnOffset args ret + ret.size) wordSize := le_roundUp (by decide)
  have h3 : scratchEnd args ret ≤ arrayOffset args ret := le_roundUp (by decide)
  have h4 : arrayOffset args ret ≤ bufferSize args ret := Nat.le_add_right _ _
  have h5 : scratchEnd args ret =
    roundUp (returnOffset args ret + ret.size) wordSize + wordSize := rfl
  exact ⟨h1, by omega, h3⟩

include hvalid

theorem fits_of_noOverflow (h : NoOverflow args ret) : Fits [] args := by
  rintro vs t ws rfl
  have hslots : argSlots (vs ++ t :: ws) = argSlots vs ++
      Slot.next (argsEnd vs) t.size t.alignment ::
        place (argsEnd (vs ++ [t])) (ws.map FfiType.block) := by
    rw [argSlots_append, argsEnd_snoc]
    rfl
  constructor
  · exact h.offset (Slot.next (argsEnd vs) t.size t.alignment) (by rw [hslots]; simp)
  · have hle : argsEnd (vs ++ [t]) ≤ argsEnd (vs ++ t :: ws) := by
      have hws :
          Tight (argsEnd (vs ++ [t])) (place (argsEnd (vs ++ [t])) (ws.map FfiType.block)) := by
        refine tight_place fun b hb => ?_
        obtain ⟨u, hu, rfl⟩ := List.mem_map.mp hb
        exact (hvalid u (by simp [hu])).align_pos
      have hend : argsEnd (vs ++ t :: ws) =
          stop (argsEnd (vs ++ [t])) (place (argsEnd (vs ++ [t])) (ws.map FfiType.block)) := by
        rw [argsEnd, hslots, stop_append, argsEnd_snoc]
        rfl
      rw [hend]
      exact hws.le_stop
    obtain ⟨h1, h2, -⟩ := argsEnd_le_bufferSize hret (vs ++ t :: ws)
    have := h.size
    show argsEnd (vs ++ [t]) < 2 ^ 64
    omega

end Bounds

/-- Preparing keeps the arguments and adds the space of the return value. -/
theorem Built.prepCallspec (h : Built args spec) (hret : ret.Valid)
    (hno : NoOverflow args ret) (bigEndian : Bool)
    {prepCif : FfiType → Option (List Cell) → Bool} (hprep : prepCif ret spec.args = true) :
    ∃ spec', prepCallspec bigEndian prepCif spec ret = some spec' ∧
      spec'.bytes = scratchEnd args ret ∧ spec'.roffset = returnOffset args ret ∧
      spec'.nelements = args.length ∧ spec'.args = spec.args ∧
      spec'.capacity = spec.capacity ∧ spec'.state = .callspec := by
  obtain ⟨h1, h2, h3⟩ := argsEnd_le_bufferSize hret args
  have hsize := hno.size
  have h4 : arrayOffset args ret ≤ bufferSize args ret := Nat.le_add_right _ _
  have h5 : scratchEnd args ret =
    roundUp (returnOffset args ret + ret.size) wordSize + wordSize := rfl
  have hroffset : alignedOffset spec.bytes ret.alignment = returnOffset args ret := by
    rw [h.bytes]
    apply alignedOffset_of_lt
    show returnOffset args ret < 2 ^ 64
    omega
  have hbytes : sizeT ((returnOffset args ret : Int) + (ret.size : Int)) =
      returnOffset args ret + ret.size := by
    rw [← Int.natCast_add]
    apply sizeT_of_lt
    omega
  have haligned : alignedOffset (returnOffset args ret + ret.size) wordSize =
      roundUp (returnOffset args ret + ret.size) wordSize := by
    apply alignedOffset_of_lt
    omega
  have hscratch : sizeT ((roundUp (returnOffset args ret + ret.size) wordSize : Nat) +
      (wordSize : Int)) = scratchEnd args ret := by
    rw [← Int.natCast_add]
    apply sizeT_of_lt
    omega
  refine ⟨{ spec with
    bytes := scratchEnd args ret, roffset := returnOffset args ret
    radjustment := ffiReturnTypeAdjustment bigEndian ret
    cif := some ⟨spec.nelements, ret⟩, state := .callspec },
    ?_, rfl, rfl, h.nelements, rfl, rfl, rfl⟩
  have hp : ffiTypePointer.alignment = wordSize ∧ ffiTypePointer.size = wordSize := ⟨rfl, rfl⟩
  simp only [CtypesForeign.prepCallspec, hp, hroffset, hbytes, haligned, hscratch, hprep, guard,
    if_true, Option.bind_eq_bind, Option.bind_some, pure]

/-- The size of the buffer that is allocated for the call. -/
theorem computeArgBufferSize_eq (hno : NoOverflow args ret)
    (hbytes : spec.bytes = scratchEnd args ret) (hn : spec.nelements = args.length)
    (hstate : spec.state = .callspec) :
    computeArgBufferSize spec = some (bufferSize args ret, arrayOffset args ret) := by
  have hsize := hno.size
  have h4 : arrayOffset args ret + args.length * wordSize = bufferSize args ret := rfl
  have haligned : alignedOffset (scratchEnd args ret) wordSize = arrayOffset args ret := by
    apply alignedOffset_of_lt
    show arrayOffset args ret < 2 ^ 64
    omega
  have htotal : sizeT ((arrayOffset args ret : Int) + (args.length : Int) * (wordSize : Int)) =
      bufferSize args ret := by
    rw [← Int.natCast_mul, ← Int.natCast_add]
    apply sizeT_of_lt
    omega
  have hp : ffiTypePointer.alignment = wordSize := rfl
  simp only [computeArgBufferSize, hstate, hbytes, hn, hp, haligned, htotal, guard, if_true,
    Option.bind_eq_bind, Option.bind_some, pure]

/-- The buffer of a call: the slots of the arguments, the return value and the
pointer array. -/
structure BufferLayout (args : List FfiType) (ret : FfiType) (slots : List Nat)
    (roffset arrayOffset size : Nat) : Prop where
  length : slots.length = args.length
  aligned : ∀ (i : Nat) t o, args[i]? = some t → slots[i]? = some o → t.alignment ∣ o
  disjoint : ∀ (i j : Nat) t o o', i < j → args[i]? = some t → slots[i]? = some o →
    slots[j]? = some o' → o + t.size ≤ o'
  returned_aligned : ret.alignment ∣ roffset
  returned_after : ∀ (i : Nat) t o, args[i]? = some t → slots[i]? = some o →
    o + t.size ≤ roffset
  returned_room : roffset + max ret.size wordSize ≤ arrayOffset
  array_aligned : ffiTypePointer.alignment ∣ arrayOffset
  array_fits : arrayOffset + args.length * wordSize ≤ size

/-- The array of arguments ends with a null within its capacity; before the
first argument there is no array. -/
def Callspec.Terminated (spec : Callspec) : Prop :=
  match spec.args with
  | none => spec.nelements = 0 ∧ spec.capacity = 0
  | some cells => cells.length = spec.capacity ∧ spec.nelements + 1 ≤ spec.capacity ∧
      (∀ i < spec.nelements, ∃ t, cells[i]? = some (.type t)) ∧
      cells[spec.nelements]? = some .null

theorem Built.terminated (h : Built ts spec) : spec.Terminated := by
  rw [Callspec.Terminated]
  obtain ⟨rfl, hargs, hcap⟩ | ⟨rest, hargs, hcap, -, -⟩ := h.array
  · rw [hargs]
    exact ⟨h.nelements, hcap⟩
  · rw [hargs]
    refine ⟨?_, ?_, ?_, ?_⟩
    · rw [hcap, List.length_append, List.length_map, List.length_cons]
      omega
    · rw [hcap, h.nelements]
      omega
    · intro i hi
      rw [h.nelements] at hi
      refine ⟨ts.get ⟨i, hi⟩, ?_⟩
      rw [List.getElem?_append_left (by simpa using hi)]
      simp [hi]
    · rw [h.nelements]
      simp

/-- A slot of the ideal layout and the argument it is for. -/
theorem argSlots_getElem {i : Nat} {o : Nat} (ht : args[i]? = some t)
    (ho : (offsetsAfter [] args)[i]? = some o) :
    (argSlots args)[i]? = some ⟨o, t.size, t.alignment⟩ := by
  have hoffset : ((argSlots args).map Slot.offset)[i]? = some o := ho
  rw [List.getElem?_map, Option.map_eq_some_iff] at hoffset
  obtain ⟨s, hs, rfl⟩ := hoffset
  have hblock : ((argSlots args).map fun s => (s.size, s.align))[i]? = some t.block := by
    rw [argSlots, map_place, List.getElem?_map, ht, Option.map_some]
  rw [List.getElem?_map, hs, Option.map_some, Option.some.injEq] at hblock
  have hsize : s.size = t.size := congrArg Prod.fst hblock
  have halign : s.align = t.alignment := congrArg Prod.snd hblock
  rw [hs, ← hsize, ← halign]

theorem offsetsAfter_length (args : List FfiType) :
    (offsetsAfter [] args).length = args.length :=
  (List.length_map ..).trans (argSlots_length args)

theorem bufferLayout (hvalid : ∀ t ∈ args, t.Valid) (hret : ret.Valid) :
    BufferLayout args ret (offsetsAfter [] args) (returnOffset args ret)
      (arrayOffset args ret) (bufferSize args ret) where
  length := offsetsAfter_length args
  aligned i t o ht ho :=
    (tight_argSlots hvalid).aligned _ (List.mem_of_getElem? (argSlots_getElem ht ho))
  disjoint i j t o o' hij ht ho ho' := by
    obtain ⟨u, hu⟩ : ∃ u, args[j]? = some u := by
      have hj : j < (offsetsAfter [] args).length := (List.getElem?_eq_some_iff.mp ho').1
      rw [offsetsAfter_length] at hj
      exact ⟨args[j], List.getElem?_eq_getElem hj⟩
    obtain ⟨hi, hi'⟩ := List.getElem?_eq_some_iff.mp (argSlots_getElem ht ho)
    obtain ⟨hj, hj'⟩ := List.getElem?_eq_some_iff.mp (argSlots_getElem hu ho')
    have := List.pairwise_iff_getElem.mp (tight_argSlots hvalid).pairwise i j hi hj hij
    rwa [hi', hj'] at this
  returned_aligned := dvd_roundUp
  returned_after i t o ht ho := by
    have hstop := (tight_argSlots hvalid).stop_le _ (List.mem_of_getElem? (argSlots_getElem ht ho))
    exact le_trans hstop (argsEnd_le_bufferSize hret args).1
  returned_room := by
    have h1 : returnOffset args ret + ret.size ≤
        roundUp (returnOffset args ret + ret.size) wordSize := le_roundUp (by decide)
    have h2 : scratchEnd args ret ≤ arrayOffset args ret := le_roundUp (by decide)
    have h3 : scratchEnd args ret =
      roundUp (returnOffset args ret + ret.size) wordSize + wordSize := rfl
    omega
  array_aligned := dvd_roundUp
  array_fits := le_refl _

/-- Adding, preparing and calling compute one layout, and the array of
arguments is terminated after every call. -/
theorem callspec_layout (context : CallContext) (bigEndian : Bool)
    (prepCif : FfiType → Option (List Cell) → Bool) (hvalid : ∀ t ∈ args, t.Valid)
    (hret : ret.Valid) (hno : NoOverflow args ret) :
    (∀ ts us, args = ts ++ us → ∃ offsets spec,
      addArguments (allocateCallspec context) ts = some (offsets, spec) ∧ spec.Terminated) ∧
    ∃ offsets spec, addArguments (allocateCallspec context) args = some (offsets, spec) ∧
      (prepCif ret spec.args = true → ∃ spec' slots size arrayOffset,
        prepCallspec bigEndian prepCif spec ret = some spec' ∧ spec'.Terminated ∧
        populateArgArray spec' = some slots ∧
        computeArgBufferSize spec' = some (size, arrayOffset) ∧
        (offsets = slots.map fun o : Nat => (o : Int)) ∧
        cInt spec'.roffset = spec'.roffset ∧
        BufferLayout args ret slots spec'.roffset arrayOffset size) := by
  have hfits := fits_of_noOverflow hvalid hret hno
  have hbuilt := built_allocateCallspec context
  constructor
  · rintro ts us rfl
    have hprefix : Fits [] ts := fun vs t ws hts => hfits vs t (ws ++ us) (by rw [hts]; simp)
    obtain ⟨spec, hadd, hb⟩ :=
      hbuilt.addArguments (by simp) (fun t ht => hvalid t (by simp [ht])) hprefix
    exact ⟨_, spec, hadd, hb.terminated⟩
  · obtain ⟨spec, hadd, hb⟩ := hbuilt.addArguments (by simp) hvalid hfits
    rw [List.nil_append] at hb
    refine ⟨_, spec, hadd, fun hprep => ?_⟩
    obtain ⟨spec', hrun, hbytes, hroffset, hn, hargs, hcap, hstate⟩ :=
      hb.prepCallspec hret hno bigEndian hprep
    have hterm : spec'.Terminated := by
      have := hb.terminated
      rw [Callspec.Terminated] at this ⊢
      rwa [hargs, hcap, hn, ← hb.nelements]
    have hpopulate : populateArgArray spec' = some (offsetsAfter [] args) := by
      have := hb.populate hfits
      rw [populateArgArray, hb.nelements] at this
      rw [populateArgArray, hargs, hn, this]
    refine ⟨spec', _, _, _, hrun, hterm, hpopulate,
      computeArgBufferSize_eq hno hbytes hn hstate, rfl, ?_, ?_⟩
    · rw [hroffset]
      exact cInt_of_lt hno.returned
    · rw [hroffset]
      exact bufferLayout hvalid hret

/-- A `char`, an `int` and a pointer, returning an `int`. -/
theorem callspec_layout_three :
    ∃ offsets spec, addArguments (allocateCallspec ⟨false, false⟩)
        [⟨1, 1, .sint8⟩, ⟨4, 4, .sint32⟩, ⟨8, 8, .pointer⟩] = some (offsets, spec) ∧
      ∃ spec' slots size arrayOffset,
        prepCallspec false (fun _ _ => true) spec ⟨4, 4, .sint32⟩ = some spec' ∧
        populateArgArray spec' = some slots ∧
        computeArgBufferSize spec' = some (size, arrayOffset) ∧
        BufferLayout [⟨1, 1, .sint8⟩, ⟨4, 4, .sint32⟩, ⟨8, 8, .pointer⟩] ⟨4, 4, .sint32⟩
          slots spec'.roffset arrayOffset size := by
  have hvalid : ∀ t ∈ [(⟨1, 1, .sint8⟩ : FfiType), ⟨4, 4, .sint32⟩, ⟨8, 8, .pointer⟩],
      t.Valid := by
    simp only [List.forall_mem_cons]
    exact ⟨⟨by decide, 0, rfl⟩, ⟨by decide, 2, rfl⟩, ⟨by decide, 3, rfl⟩, by simp⟩
  have hret : FfiType.Valid ⟨4, 4, .sint32⟩ := ⟨by decide, 2, rfl⟩
  obtain ⟨-, offsets, spec, hadd, hrest⟩ :=
    callspec_layout ⟨false, false⟩ false (fun _ _ => true) hvalid hret
      ⟨by decide, by decide, by decide⟩
  obtain ⟨spec', slots, size, arrayOffset, hrun, -, hpop, hsize, -, -, hlayout⟩ := hrest rfl
  exact ⟨offsets, spec, hadd, spec', slots, size, arrayOffset, hrun, hpop, hsize, hlayout⟩

end CtypesCbuf.CtypesForeign
