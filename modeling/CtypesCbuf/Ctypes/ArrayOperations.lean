import CtypesCbuf.Ctypes.ArrayContents

/-!
The operations of `CArray` do to the contents of arrays what those of the list
module do to lists. Each is one lemma about runs from a heap in which the array
holds a list.
-/

namespace CtypesCbuf.Ctypes.Memory

open ByteMemory Loops
open CtypesCbuf.Runtime

variable {A : ViewId → Type} {P : Platform A} {allocator : Allocator}
variable {M : Type → Type} [Monad M]
variable {t : Typ} {n : Nat} {arr : ArrayOf t} {v : Val A t} {vs : List (Val A t)} {h h' : Heap}

/-- `calloc` finds a new block, apart from all that are in use. -/
def Allocator.Sound (allocator : Allocator) : Prop :=
  ∀ count size h, 0 ≤ count → ∃ b, allocator count size h = .ok b ∧
    ∀ c ∈ h.live, b.1 + (count.toNat * size : Nat) ≤ c.1 ∨ c.1 + c.2 ≤ b.1

/-! ### Steps -/

section Steps

variable {α β : Type} {a : α}

theorem ends_ofExcept {x : Except Exn α} (hx : x = .ok a) :
    Ends (ofExcept x : CProgram M α) h a h := by
  rw [hx]
  exact ends_pure a h

theorem ends_reading {f : Memory → Except Failure α} (hf : f h.bytes = .ok a) :
    Ends (reading f : CProgram M α) h a h := by
  show pure ((f h.bytes).map _) = _
  rw [hf]
  rfl

theorem ends_updating {f : Memory → Except Failure Memory} {mem : Memory}
    (hf : f h.bytes = .ok mem) :
    Ends (updating f : CProgram M Unit) h () { h with bytes := mem } := by
  show pure ((f h.bytes).map _) = _
  rw [hf]
  rfl

theorem fails_raise (e : Exn) : Fails (raise e : CProgram M α) h (.raises e) := rfl

variable [LawfulMonad M]

theorem performs_calling (y : M β) (f : β → α) :
    Performs (calling (f <$> y) : CProgram M α) h y fun b => (f b, h) := by
  show (fun a => Except.ok (a, h)) <$> (f <$> y) = _
  rw [← comp_map]
  rfl

end Steps

theorem plus_astart (hs : sizeof t = .ok n) (arr : ArrayOf t) (i : Nat) :
    plus arr.astart i = .ok ⟨t, arr.raw + (i * n : Nat), arr.managed⟩ := by
  rw [plus]
  show (sizeof t).map _ = _
  rw [hs, Int.natCast_mul]
  rfl

/-! ### Bounds -/

theorem checkBound_ends {i : Int} (hi : 0 ≤ i ∧ i < arr.alength) :
    Ends (CArray.checkBound arr i : CProgram M Unit) h () h := by
  rw [CArray.checkBound, if_neg (by omega)]
  exact ends_pure () h

theorem checkBound_fails {i : Int} (hi : ¬ (0 ≤ i ∧ i < arr.alength)) :
    Fails (CArray.checkBound arr i : CProgram M Unit) h
      (.raises (.invalidArg "index out of bounds")) := by
  rw [CArray.checkBound, if_pos (by omega)]
  exact fails_raise _

/-! ### One element -/

variable [LawfulMonad M]

theorem unsafeGet_ends (hs : sizeof t = .ok n) (hh : Holds P arr vs h) {i : Nat}
    (hi : i < vs.length) : Ends (CArray.unsafeGet P arr i : CProgram M _) h vs[i] h := by
  have hrow := hh.row i hi
  have hown : ownSize t = n := by rw [ownSize, hs]; rfl
  rw [hown] at hrow
  exact (ends_ofExcept (plus_astart hs arr i)).bind
    (ends_reading (Stored.deref (p := ⟨t, arr.raw + (i * n : Nat), arr.managed⟩) hrow))

variable (P) in
/-- Element `i` has become `u`, and nothing else has changed. -/
structure Puts (arr : ArrayOf t) (i : Nat) (u : Val A t) (h h' : Heap) : Prop where
  stored : Stored P t (arr.raw + (i * ownSize t : Nat)) u h'.bytes
  live : h'.live = h.live
  frame : ∀ b, ¬ In (arr.raw + (i * ownSize t : Nat)) (ownSize t) b → h'.bytes b = h.bytes b

theorem unsafeSet_ends (hm : P.machine.integers.Lawful) (hs : sizeof t = .ok n)
    (hv : Exact P t v) (arr : ArrayOf t) (i : Nat) (h : Heap) :
    ∃ u h', Ends (CArray.unsafeSet P arr i v : CProgram M Unit) h () h' ∧ Same t v u ∧
      Puts P arr i u h h' := by
  have hown : ownSize t = n := by rw [ownSize, hs]; rfl
  obtain ⟨w, hw, hspec⟩ := hv.write hm hs
  let p : FatPtr Typ := ⟨t, arr.raw + (i * n : Nat), arr.managed⟩
  obtain ⟨hkeep, hperform⟩ := hspec p h.bytes
  obtain ⟨mem', u, hok, hsame, hstored, hframe⟩ := hperform h.bytes
  have hassign : assignAt P t p v h.bytes = .ok mem' := by
    rw [assignAt, hw]
    show (w v p h.bytes).1.perform (w v p h.bytes).2 = _
    rw [hkeep, hok]
  refine ⟨u, { h with bytes := mem' }, (ends_ofExcept (plus_astart hs arr i)).bind
    (ends_updating hassign), hsame, ?_, rfl, ?_⟩
  · rw [hown]
    exact hstored
  · rw [hown]
    exact hframe

theorem Puts.writesOnly {i : Nat} {u : Val A t} (hp : Puts P arr i u h h')
    (hi : i < arr.alength.toNat) : WritesOnly arr h h' where
  live := hp.live
  bytes b hb := by
    refine hp.frame b ?_
    rintro ⟨h1, h2⟩
    have hle := element_le (n := ownSize t) hi
    exact hb ⟨by omega, by rw [ArrayOf.bytes]; omega⟩

theorem Puts.set {i : Nat} {u : Val A t} (hs : sizeof t = .ok n) (hh : Holds P arr vs h)
    (hp : Puts P arr i u h h') : Holds P arr (vs.set i u) h' where
  length := by rw [List.length_set, hh.length]
  row := by
    have hown : ownSize t = n := by rw [ownSize, hs]; rfl
    have hstored := hp.stored
    have hframe := hp.frame
    rw [hown] at hstored hframe
    exact hh.row.set hs hstored hframe
  live := by
    rw [hp.live, List.length_set]
    exact hh.live

theorem Puts.snoc {u : Val A t} (hs : sizeof t = .ok n) (hrow : Row P t arr.raw vs h.bytes)
    (hp : Puts P arr vs.length u h h') : Row P t arr.raw (vs ++ [u]) h'.bytes := by
  have hown : ownSize t = n := by rw [ownSize, hs]; rfl
  refine Row.snoc (hrow.congr hs fun b hb => hp.frame b ?_) hp.stored
  rintro ⟨h1, -⟩
  rw [hown] at h1
  exact absurd hb.2 (by omega)

theorem get_ends (hs : sizeof t = .ok n) (hh : Holds P arr vs h) {i : Nat}
    (hi : i < vs.length) : Ends (CArray.get P arr i : CProgram M _) h vs[i] h :=
  (checkBound_ends (by rw [hh.length]; omega)).bind (unsafeGet_ends hs hh hi)

theorem set_ends (hm : P.machine.integers.Lawful) (hs : sizeof t = .ok n) (hv : Exact P t v)
    {i : Nat} (hi : i < arr.alength.toNat) :
    ∃ u h', Ends (CArray.set P arr i v : CProgram M Unit) h () h' ∧ Same t v u ∧
      Puts P arr i u h h' := by
  obtain ⟨u, h', hends, hsame, hputs⟩ :=
    unsafeSet_ends (M := M) hm hs hv arr i h
  exact ⟨u, h', (checkBound_ends (by omega)).bind hends, hsame, hputs⟩

/-! ### New arrays -/

/-- The array is new in `h'`, and nothing else has changed. -/
structure MakesNew (h : Heap) (r : ArrayOf t) (h' : Heap) : Prop where
  fresh : ∀ c ∈ h.live, r.raw + r.bytes ≤ c.1 ∨ c.1 + c.2 ≤ r.raw
  live : h'.live = (r.raw, r.bytes) :: h.live
  bytes : ∀ b, ¬ In r.raw r.bytes b → h'.bytes b = h.bytes b

section New

variable {u : Typ} {r : ArrayOf u} {k : Nat}

theorem MakesNew.separate (hs : sizeof t = .ok n) (hnew : MakesNew h r h')
    (hh : Holds P arr vs h) : Separate r arr := by
  obtain ⟨c, hc, hstart, hstop⟩ := hh.live
  have hown : ownSize t = n := by rw [ownSize, hs]; rfl
  rw [hown, ← hh.bytes_eq hs] at hstop
  rcases hnew.fresh c hc with hfresh | hfresh
  · exact .inl (by omega)
  · exact .inr (by omega)

/-- Arrays that were there before hold what they held. -/
theorem MakesNew.keeps (hs : sizeof t = .ok n) (hnew : MakesNew h r h')
    (hh : Holds P arr vs h) : Holds P arr vs h' where
  length := hh.length
  row := by
    have hsep := hnew.separate hs hh
    rw [Separate, hh.bytes_eq hs] at hsep
    refine hh.row.congr hs fun b hb => hnew.bytes b ?_
    rintro ⟨h1, h2⟩
    obtain ⟨h3, h4⟩ := hb
    omega
  live := by
    obtain ⟨c, hc, hin⟩ := hh.live
    exact ⟨c, by rw [hnew.live]; exact List.mem_cons_of_mem _ hc, hin⟩

theorem WritesOnly.refl (arr : ArrayOf t) (h : Heap) : WritesOnly arr h h :=
  ⟨rfl, fun _ _ => rfl⟩

theorem WritesOnly.trans {h1 h2 h3 : Heap} (h12 : WritesOnly arr h1 h2)
    (h23 : WritesOnly arr h2 h3) : WritesOnly arr h1 h3 :=
  ⟨h23.live.trans h12.live, fun b hb => (h23.bytes b hb).trans (h12.bytes b hb)⟩

theorem MakesNew.writes {h1 : Heap} (hnew : MakesNew h r h1) (hw : WritesOnly r h1 h') :
    MakesNew h r h' :=
  ⟨hnew.fresh, hw.live.trans hnew.live,
    fun b hb => (hw.bytes b hb).trans (hnew.bytes b hb)⟩

theorem MakesNew.holds (hnew : MakesNew h arr h') (hlen : arr.alength = vs.length)
    (hrow : Row P t arr.raw vs h'.bytes) : Holds P arr vs h' where
  length := hlen
  row := hrow
  live := by
    refine ⟨_, by rw [hnew.live]; exact List.mem_cons_self .., le_refl _, ?_⟩
    rw [ArrayOf.bytes, hlen, Int.toNat_natCast]

theorem allocateN_ends (hal : allocator.Sound) (hs : sizeof t = .ok n) (count : Nat) (h : Heap) :
    ∃ b h', Ends (allocateN allocator t count : CProgram M _) h b h' ∧
      MakesNew h (CArray.fromPtr t b count) h' := by
  have hown : ownSize t = n := by rw [ownSize, hs]; rfl
  obtain ⟨b, hb, hfresh⟩ := hal count n h (Int.natCast_nonneg _)
  have hbytes : (CArray.fromPtr t b count).bytes = count * n := by
    rw [ArrayOf.bytes, hown]
    rfl
  have hcalloc : Ends (fun h => ExceptT.mk (pure ((allocator count n h).map fun b =>
      (b, h.calloc b.1 ((count : Int).toNat * n)))) : CProgram M _) h b
      (h.calloc b.1 (count * n)) := by
    show pure ((allocator count n h).map _) = _
    rw [hb]
    rfl
  refine ⟨b, h.calloc b.1 (count * n), (ends_ofExcept hs).bind hcalloc, ?_, ?_, ?_⟩
  · rw [hbytes]
    exact hfresh
  · rw [hbytes]
    rfl
  · rw [hbytes]
    exact fun x hx => if_neg hx

theorem make_ends (hal : allocator.Sound) (hs : sizeof t = .ok n) (count : Nat) (h : Heap) :
    ∃ (r : ArrayOf t) (h' : Heap),
      Ends (CArray.make P allocator t none count : CProgram M _) h r h' ∧
        r.alength = count ∧ MakesNew h r h' := by
  obtain ⟨b, h', hends, hnew⟩ := allocateN_ends (M := M) hal hs count h
  exact ⟨CArray.fromPtr t b count, h', hends.bind (ends_pure _ h'), rfl, hnew⟩

end New

end CtypesCbuf.Ctypes.Memory
