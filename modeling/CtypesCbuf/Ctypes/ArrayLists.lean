import Mathlib.Data.List.Forall2
import CtypesCbuf.Ctypes.ArrayOperations

/-!
`CArray` refines the list module: an operation on an array that holds a list
does what its namesake does on the list, calls the function that it is given on
the same elements in the same order, and returns new memory where it returns an
array.
-/

namespace CtypesCbuf.Ctypes.Memory

open ByteMemory Loops
open CtypesCbuf.Runtime

variable {A : ViewId → Type} {P : Platform A} {allocator : Allocator}
variable {M : Type → Type} [Monad M] [LawfulMonad M]
variable {t u : Typ} {n k : Nat} {arr : ArrayOf t} {v : Val A t} {vs : List (Val A t)}
variable {h h' : Heap}

/-! ### Reading loops -/

theorem reads_performs (hs : sizeof t = .ok n) (hh : Holds P arr vs h) {i : Nat}
    (hi : i < vs.length) {α : Type} (f : Val A t → M α) :
    Performs (CArray.unsafeGet P arr i >>= fun v => calling (f v) : CProgram M α) h (f vs[i])
      fun a => (a, h) := by
  have hcall := performs_calling (h := h) (f vs[i]) id
  rw [id_map] at hcall
  exact (unsafeGet_ends hs hh hi).bind_performs hcall

theorem foldLeft_performs (hs : sizeof t = .ok n) (hh : Holds P arr vs h) {β : Type}
    (f : β → Val A t → M β) (x : β) :
    Performs (CArray.foldLeft P f x arr) h (vs.foldlM f x) fun y => (y, h) := by
  rw [CArray.foldLeft, hh.length, Int.toNat_natCast]
  refine forUp_foldlM (fun j hj b => ?_) x
  rw [Nat.zero_add]
  exact reads_performs hs hh hj (f b)

theorem iter_performs (hs : sizeof t = .ok n) (hh : Holds P arr vs h) (f : Val A t → M Unit) :
    Performs (CArray.iter P f arr) h (vs.forM f) fun y => (y, h) := by
  rw [← foldlM_unit]
  exact foldLeft_performs hs hh (fun _ v => f v) ()

theorem foldRight_performs (hs : sizeof t = .ok n) (hh : Holds P arr vs h) {β : Type}
    (f : Val A t → β → M β) (x : β) :
    Performs (CArray.foldRight P f arr x) h (vs.foldrM f x) fun y => (y, h) := by
  rw [CArray.foldRight, hh.length, Int.toNat_natCast]
  exact forDown_foldrM (fun j hj b => reads_performs hs hh hj fun v => f v b) x

theorem toList_ends (hs : sizeof t = .ok n) (hh : Holds P arr vs h) :
    Ends (CArray.toList P arr : CProgram M _) h vs h := by
  rw [CArray.toList, hh.length, Int.toNat_natCast]
  have hbody : ∀ (j : Nat) (hj : j < vs.length) (l : List (Val A t)),
      Performs (CArray.get P arr j >>= fun v => pure (v :: l) : CProgram M _) h
        (pure (vs[j] :: l)) fun l' => (l', h) := by
    intro j hj l
    rw [Performs, map_pure]
    exact (get_ends hs hh hj).bind (ends_pure _ h)
  have hloop := forDown_foldrM (g := fun v l => pure (v :: l)) hbody []
  rw [Performs, List.foldrM_pure, map_pure, List.foldr_cons_eq_append, List.append_nil,
    List.map_id'] at hloop
  exact hloop

/-! ### Writing loops -/

section Writing

variable (hm : P.machine.integers.Lawful)

include hm

theorem fill_ends (hs : sizeof t = .ok n) (hv : Exact P t v) (hh : Holds P arr vs h) :
    ∃ us h', Ends (CArray.fill P arr v : CProgram M Unit) h () h' ∧ us.length = vs.length ∧
      (∀ u ∈ us, Same t v u) ∧ Holds P arr us h' ∧ WritesOnly arr h h' := by
  have hown : ownSize t = n := by rw [ownSize, hs]; rfl
  obtain ⟨w, hw, hspec⟩ := hv.write hm hs
  let I (j : Nat) (h1 : Heap) : Prop := WritesOnly arr h h1 ∧
    ∃ us : List (Val A t), us.length = j ∧ (∀ u ∈ us, Same t v u) ∧ Row P t arr.raw us h1.bytes
  let round (j : Nat) (_ : Unit) : CProgram M Unit :=
    updating (w v { arr.astart with raw := arr.raw + j * n } h.bytes).1.perform
  have hround : ∀ j < vs.length, ∀ h1, I j h1 →
      ∃ h2, Ends (round j ()) h1 () h2 ∧ I (j + 1) h2 := by
    rintro j hj h1 ⟨hw1, us, hlen, hsame, hrow⟩
    obtain ⟨mem', u, hok, hu, hstored, hframe⟩ :=
      (hspec { arr.astart with raw := arr.raw + (j : Int) * n } h.bytes).2 h1.bytes
    have hput : Puts P arr us.length u h1 { h1 with bytes := mem' } := by
      rw [← Int.natCast_mul, ← hlen] at hstored hframe
      exact ⟨by rw [hown]; exact hstored, rfl, by rw [hown]; exact hframe⟩
    refine ⟨_, ends_updating hok, ?_, us ++ [u], ?_, ?_, hput.snoc hs hrow⟩
    · exact hw1.trans (hput.writesOnly (by rw [hh.length, Int.toNat_natCast]; omega))
    · rw [List.length_append, hlen, List.length_singleton]
    · intro u' hu'
      rcases List.mem_append.mp hu' with hmem | hmem
      · exact hsame u' hmem
      · rw [List.mem_singleton.mp hmem]
        exact hu
  have hloop := forUp_ends (I := I) hround ⟨WritesOnly.refl arr h, [], rfl, by simp, row_nil⟩
  obtain ⟨h', hends, hwrites, us, hlen, hsame, hrow⟩ := hloop
  refine ⟨us, h', ?_, hlen, hsame, ⟨by rw [hlen, hh.length], hrow, ?_⟩, hwrites⟩
  · refine (ends_ofExcept hs).bind ((ends_ofExcept hw).bind ?_)
    have hconverted : Ends (updating fun mem => .ok (w v arr.astart mem).2 : CProgram M Unit)
        h () h := by
      have hkeep := ends_updating (M := M) (h := h)
        (f := fun mem => .ok (w v arr.astart mem).2) rfl
      rwa [(hspec arr.astart h.bytes).1] at hkeep
    have hget : Ends (MonadState.get : CProgram M Heap) h h h := rfl
    refine hget.bind (hconverted.bind ?_)
    rw [hh.length, Int.toNat_natCast]
    exact hends
  · rw [hwrites.live, hlen]
    exact hh.live

/-- `List.iteri` of `set` over a new array. -/
theorem ofList_ends (hal : allocator.Sound) (hs : sizeof t = .ok n)
    (hvs : ∀ v ∈ vs, Exact P t v) (h : Heap) :
    ∃ arr us h', Ends (CArray.ofList P allocator t vs : CProgram M _) h arr h' ∧
      List.Forall₂ (Same t) vs us ∧ Holds P arr us h' ∧ MakesNew h arr h' := by
  obtain ⟨arr, h1, hmake, hlen, hnew⟩ := make_ends (P := P) (M := M) hal hs vs.length h
  let I (ws : List (Val A t)) (h2 : Heap) : Prop := WritesOnly arr h1 h2 ∧
    ∃ us, List.Forall₂ (Same t) ws us ∧ Row P t arr.raw us h2.bytes
  have hround : ∀ ws v rest, vs = ws ++ v :: rest → ∀ h2, I ws h2 →
      ∃ h3, Ends (CArray.set P arr ws.length v : CProgram M Unit) h2 () h3 ∧
        I (ws ++ [v]) h3 := by
    rintro ws v rest hl h2 ⟨hw, us, hsame, hrow⟩
    have hv : Exact P t v := hvs v (by rw [hl]; simp)
    have hi : ws.length < arr.alength.toNat := by
      rw [hlen, Int.toNat_natCast, hl, List.length_append, List.length_cons]
      omega
    obtain ⟨u, h3, hset, hu, hput⟩ := set_ends (M := M) hm hs hv (h := h2) hi
    refine ⟨h3, hset, hw.trans (hput.writesOnly hi), us ++ [u],
      List.rel_append hsame (.cons hu .nil), ?_⟩
    rw [hsame.length_eq] at hput
    exact hput.snoc hs hrow
  have hloop := iteri_ends (g := fun i v => CArray.set P arr i v) (I := I) hround
    ⟨WritesOnly.refl arr h1, [], .nil, row_nil⟩
  obtain ⟨h', hiteri, hw, us, hsame, hrow⟩ := hloop
  refine ⟨arr, us, h', hmake.bind (hiteri.bind (ends_pure arr h')), hsame, ?_, hnew.writes hw⟩
  exact (hnew.writes hw).holds (by rw [hlen, hsame.length_eq]) hrow

/-- The loop of `map` and `mapi`: the results are stored in the other array. -/
theorem mapInto_performs {r : ArrayOf u} (hs : sizeof t = .ok n) (hu : sizeof u = .ok k)
    (hh : Holds P arr vs h) (hsep : Separate r arr) (hlen : r.alength = vs.length)
    (f : Nat → Val A t → M {w : Val A u // Exact P u w}) :
    ∃ done : List {w : Val A u // Exact P u w} → Heap,
      Performs (CArray.mapInto P r (fun i v => Subtype.val <$> f i v) arr : CProgram M Unit) h
        (vs.zipIdx.mapM fun v => f v.2 v.1) (fun ws => ((), done ws)) ∧
      ∀ ws, ws.length = vs.length → WritesOnly r h (done ws) ∧
        ∃ us, List.Forall₂ (Same u) (ws.map Subtype.val) us ∧
          Row P u r.raw us (done ws).bytes := by
  rw [CArray.mapInto, hh.length, Int.toNat_natCast]
  let I (ws : List {w : Val A u // Exact P u w}) (h1 : Heap) : Prop := WritesOnly r h h1 ∧
    ∃ us, List.Forall₂ (Same u) (ws.map Subtype.val) us ∧ Row P u r.raw us h1.bytes
  refine forUp_mapM (I := I) (fun j hj ws h1 hws ⟨hw, us, hsame, hrow⟩ => ?_)
    ⟨WritesOnly.refl r h, [], .nil, row_nil⟩
  have hi : j < r.alength.toNat := by rw [hlen]; omega
  have hget := unsafeGet_ends (M := M) hs (hh.independent hs hsep hw) hj
  have hset (w : {w : Val A u // Exact P u w}) :=
    unsafeSet_ends (M := M) hm hu w.2 r j h1
  choose w' h2 hset hsame' hput using hset
  refine ⟨h2, hget.bind_performs ((performs_calling (f j vs[j]) Subtype.val).bind_ends hset),
    fun w => ⟨hw.trans ((hput w).writesOnly hi), us ++ [w' w], ?_, ?_⟩⟩
  · rw [List.map_append]
    exact List.rel_append hsame (.cons (hsame' w) .nil)
  · have hlength := hsame.length_eq
    rw [List.length_map, hws] at hlength
    have hp := hput w
    rw [hlength] at hp
    exact hp.snoc hu hrow

theorem mapi_performs (hal : allocator.Sound) (hs : sizeof t = .ok n) (hu : sizeof u = .ok k)
    (hh : Holds P arr vs h) (f : Nat → Val A t → M {w : Val A u // Exact P u w}) :
    ∃ (r : ArrayOf u) (done : List {w : Val A u // Exact P u w} → Heap),
      Performs (CArray.mapi P allocator u (fun i v => Subtype.val <$> f i v) arr : CProgram M _)
        h (vs.zipIdx.mapM fun v => f v.2 v.1) (fun ws => (r, done ws)) ∧
      ∀ ws, ws.length = vs.length → MakesNew h r (done ws) ∧
        ∃ us, List.Forall₂ (Same u) (ws.map Subtype.val) us ∧ Holds P r us (done ws) := by
  obtain ⟨r, h1, hmake, hlen, hnew⟩ := make_ends (P := P) (M := M) hal hu vs.length h
  obtain ⟨done, hloop, hdone⟩ := mapInto_performs hm hs hu (hnew.keeps hs hh)
    (hnew.separate hs hh) hlen f
  rw [← hh.length] at hmake
  refine ⟨r, done, hmake.bind_performs (hloop.bind_ends fun ws => ends_pure r (done ws)),
    fun ws hws => ?_⟩
  obtain ⟨hw, us, hsame, hrow⟩ := hdone ws hws
  refine ⟨hnew.writes hw, us, hsame, (hnew.writes hw).holds ?_ hrow⟩
  rw [hlen, ← hsame.length_eq, List.length_map, hws]

omit hm in
theorem mapM_zipIdx {α β : Type} (f : α → M β) (l : List α) :
    (l.zipIdx.mapM fun a => f a.1) = l.mapM f := by
  have hmap := List.mapM_map (m := M) (f := Prod.fst) (g := f) (l := l.zipIdx)
  rw [List.zipIdx_map_fst] at hmap
  exact hmap.symm

/-- `map` is `mapi` with a function that does not look at the index. -/
theorem map_performs (hal : allocator.Sound) (hs : sizeof t = .ok n) (hu : sizeof u = .ok k)
    (hh : Holds P arr vs h) (f : Val A t → M {w : Val A u // Exact P u w}) :
    ∃ (r : ArrayOf u) (done : List {w : Val A u // Exact P u w} → Heap),
      Performs (CArray.map P allocator u (fun v => Subtype.val <$> f v) arr : CProgram M _)
        h (vs.mapM f) (fun ws => (r, done ws)) ∧
      ∀ ws, ws.length = vs.length → MakesNew h r (done ws) ∧
        ∃ us, List.Forall₂ (Same u) (ws.map Subtype.val) us ∧ Holds P r us (done ws) := by
  rw [← mapM_zipIdx]
  exact mapi_performs hm hal hs hu hh fun _ v => f v

omit hm in
/-- A copy of an array, and nothing else, is new. -/
theorem copy_ends (hal : allocator.Sound) (hs : sizeof t = .ok n) (hh : Holds P arr vs h) :
    ∃ r h', Ends (CArray.copy allocator arr : CProgram M _) h r h' ∧ Holds P r vs h' ∧
      MakesNew h r h' := by
  obtain ⟨b, h1, halloc, hnew⟩ := allocateN_ends (M := M) hal hs vs.length h
  rw [← hh.length] at halloc hnew
  let r := CArray.fromPtr t b arr.alength
  have hbytes : r.bytes = vs.length * n := by
    rw [← hh.bytes_eq hs]
    rfl
  have hsize : (arr.alength * (n : Int)).toNat = vs.length * n := by
    rw [hh.length, ← Int.natCast_mul, Int.toNat_natCast]
  have hsep := hnew.separate hs hh
  rw [Separate, hbytes, hh.bytes_eq hs] at hsep
  have hover : ¬ Overlap b.1 arr.raw (vs.length * n) := by
    rintro ⟨h1, h2⟩
    rcases hsep with hsep | hsep
    · exact absurd (show b.1 + _ ≤ arr.raw from hsep) (by omega)
    · exact absurd (show arr.raw + _ ≤ b.1 from hsep) (by omega)
  have hmemcpy : Ends (updating (Access.memcpy b.1 arr.raw
      (arr.alength * (n : Int)).toNat).perform : CProgram M Unit) h1 ()
      { h1 with bytes := copy b.1 arr.raw (vs.length * n) h1.bytes } := by
    rw [hsize]
    exact ends_updating (if_neg hover)
  have hw : WritesOnly r h1 { h1 with bytes := copy b.1 arr.raw (vs.length * n) h1.bytes } := by
    refine ⟨rfl, fun x hx => copy_of_notIn ?_⟩
    rwa [hbytes] at hx
  refine ⟨r, _, halloc.bind ((ends_ofExcept hs).bind (hmemcpy.bind (ends_pure _ _))), ?_,
    hnew.writes hw⟩
  refine (hnew.writes hw).holds hh.length ?_
  exact (hnew.keeps hs hh).row.moved hs fun j hj => copy_at hj

omit hm in
theorem sub_ends (hal : allocator.Sound) (hs : sizeof t = .ok n) (hh : Holds P arr vs h)
    {pos length : Nat} (hle : pos + length ≤ vs.length) :
    ∃ r h', Ends (CArray.sub allocator arr pos length : CProgram M _) h r h' ∧
      Holds P r ((vs.drop pos).take length) h' ∧ MakesNew h r h' := by
  have hown : ownSize t = n := by rw [ownSize, hs]; rfl
  let part : ArrayOf t := ⟨arr.raw + (pos * n : Nat), arr.managed, length⟩
  have hpart : Holds P part ((vs.drop pos).take length) h := by
    refine ⟨?_, hh.row.slice hs hle, ?_⟩
    · rw [List.length_take, List.length_drop, Nat.min_eq_left (by omega)]
    · obtain ⟨c, hc, hstart, hstop⟩ := hh.live
      rw [hown] at hstop ⊢
      have hmul : pos * n + length * n ≤ vs.length * n := by
        rw [← Nat.add_mul]
        exact Nat.mul_le_mul_right n hle
      refine ⟨c, hc, ?_, ?_⟩
      · show c.1 ≤ arr.raw + (pos * n : Nat)
        omega
      · rw [List.length_take, List.length_drop, Nat.min_eq_left (by omega)]
        show arr.raw + (pos * n : Nat) + _ ≤ _
        omega
  obtain ⟨r, h', hcopy, hholds, hnew⟩ := copy_ends (M := M) hal hs hpart
  refine ⟨r, h', ?_, hholds, hnew⟩
  rw [CArray.sub, if_neg (by rw [hh.length]; omega)]
  exact (ends_ofExcept (plus_astart hs arr pos)).bind hcopy

/-! ### All operations -/

omit hm in
theorem get_fails (hh : Holds P arr vs h) {i : Int} (hi : ¬ (0 ≤ i ∧ i < vs.length)) :
    Fails (CArray.get P arr i : CProgram M _) h
      (.raises (.invalidArg "index out of bounds")) :=
  (checkBound_fails (by rw [hh.length]; exact hi)).bind

omit hm in
theorem set_fails (hh : Holds P arr vs h) {i : Int} (hi : ¬ (0 ≤ i ∧ i < vs.length)) :
    Fails (CArray.set P arr i v : CProgram M _) h
      (.raises (.invalidArg "index out of bounds")) :=
  (checkBound_fails (by rw [hh.length]; exact hi)).bind

omit hm [LawfulMonad M] in
theorem sub_fails (hh : Holds P arr vs h) {pos length : Int}
    (hbad : pos < 0 ∨ length < 0 ∨ pos + length > vs.length) :
    Fails (CArray.sub allocator arr pos length : CProgram M _) h
      (.raises (.invalidArg "CArray.sub")) := by
  rw [CArray.sub, if_pos (by rw [hh.length]; omega)]
  exact fails_raise _

omit hm in
theorem Separate.symm {brr : ArrayOf u} (hsep : Separate arr brr) : Separate brr arr :=
  Or.symm hsep

end Writing

variable (M P allocator)

/-- Each operation on an array that holds a list does what its namesake does on
the list. The functions that `iter`, the folds and the maps are given have
their effects in `M`. -/
structure RefinesLists : Prop where
  toList_ofList : ∀ {t n}, sizeof t = .ok n → ∀ l : List (Val A t), (∀ v ∈ l, Exact P t v) →
    ∀ h, ∃ us h', Ends (do CArray.toList P (← CArray.ofList P allocator t l) : CProgram M _)
      h us h' ∧ List.Forall₂ (Same t) l us
  ofList : ∀ {t n}, sizeof t = .ok n → ∀ l : List (Val A t), (∀ v ∈ l, Exact P t v) →
    ∀ h, ∃ arr us h', Ends (CArray.ofList P allocator t l : CProgram M _) h arr h' ∧
      List.Forall₂ (Same t) l us ∧ Holds P arr us h' ∧ MakesNew h arr h'
  toList : ∀ {t n} {arr : ArrayOf t} {vs h}, sizeof t = .ok n → Holds P arr vs h →
    Ends (CArray.toList P arr : CProgram M _) h vs h
  get : ∀ {t n} {arr : ArrayOf t} {vs h}, sizeof t = .ok n → Holds P arr vs h → ∀ i : Int,
    (¬ (0 ≤ i ∧ i < vs.length) → Fails (CArray.get P arr i : CProgram M _) h
      (.raises (.invalidArg "index out of bounds"))) ∧
    ∀ (k : Nat) (hk : k < vs.length), i = k →
      Ends (CArray.get P arr i : CProgram M _) h vs[k] h
  set : ∀ {t n} {arr : ArrayOf t} {vs h}, sizeof t = .ok n → Holds P arr vs h → ∀ (i : Int) v,
    (¬ (0 ≤ i ∧ i < vs.length) → Fails (CArray.set P arr i v : CProgram M _) h
      (.raises (.invalidArg "index out of bounds"))) ∧
    ∀ k < vs.length, i = k → Exact P t v →
      ∃ u h', Ends (CArray.set P arr i v : CProgram M _) h () h' ∧ Same t v u ∧
        Holds P arr (vs.set k u) h' ∧ WritesOnly arr h h'
  fill : ∀ {t n} {arr : ArrayOf t} {vs h}, sizeof t = .ok n → Holds P arr vs h →
    ∀ v, Exact P t v → ∃ us h', Ends (CArray.fill P arr v : CProgram M _) h () h' ∧
      List.Forall₂ (Same t) (List.replicate vs.length v) us ∧ Holds P arr us h' ∧
      WritesOnly arr h h'
  iter : ∀ {t n} {arr : ArrayOf t} {vs h}, sizeof t = .ok n → Holds P arr vs h →
    ∀ f : Val A t → M Unit,
      Performs (CArray.iter P f arr) h (vs.forM f) fun x => (x, h)
  foldLeft : ∀ {t n} {arr : ArrayOf t} {vs h}, sizeof t = .ok n → Holds P arr vs h →
    ∀ {β : Type} (f : β → Val A t → M β) x,
      Performs (CArray.foldLeft P f x arr) h (vs.foldlM f x) fun y => (y, h)
  foldRight : ∀ {t n} {arr : ArrayOf t} {vs h}, sizeof t = .ok n → Holds P arr vs h →
    ∀ {β : Type} (f : Val A t → β → M β) x,
      Performs (CArray.foldRight P f arr x) h (vs.foldrM f x) fun y => (y, h)
  map : ∀ {t n} {arr : ArrayOf t} {vs h} {u k}, sizeof t = .ok n → Holds P arr vs h →
    sizeof u = .ok k → ∀ f : Val A t → M {w : Val A u // Exact P u w},
      ∃ (r : ArrayOf u) (done : List {w : Val A u // Exact P u w} → Heap),
        Performs (CArray.map P allocator u (fun v => Subtype.val <$> f v) arr : CProgram M _)
          h (vs.mapM f) (fun ws => (r, done ws)) ∧
        ∀ ws, ws.length = vs.length → MakesNew h r (done ws) ∧
          ∃ us, List.Forall₂ (Same u) (ws.map Subtype.val) us ∧ Holds P r us (done ws)
  mapi : ∀ {t n} {arr : ArrayOf t} {vs h} {u k}, sizeof t = .ok n → Holds P arr vs h →
    sizeof u = .ok k → ∀ f : Nat → Val A t → M {w : Val A u // Exact P u w},
      ∃ (r : ArrayOf u) (done : List {w : Val A u // Exact P u w} → Heap),
        Performs (CArray.mapi P allocator u (fun i v => Subtype.val <$> f i v) arr :
          CProgram M _) h (vs.zipIdx.mapM fun v => f v.2 v.1) (fun ws => (r, done ws)) ∧
        ∀ ws, ws.length = vs.length → MakesNew h r (done ws) ∧
          ∃ us, List.Forall₂ (Same u) (ws.map Subtype.val) us ∧ Holds P r us (done ws)
  copy : ∀ {t n} {arr : ArrayOf t} {vs h}, sizeof t = .ok n → Holds P arr vs h →
    ∃ r h', Ends (CArray.copy allocator arr : CProgram M _) h r h' ∧ Holds P r vs h' ∧
      MakesNew h r h'
  sub : ∀ {t n} {arr : ArrayOf t} {vs h}, sizeof t = .ok n → Holds P arr vs h →
    ∀ pos length : Int,
      (pos < 0 ∨ length < 0 ∨ pos + length > vs.length →
        Fails (CArray.sub allocator arr pos length : CProgram M _) h
          (.raises (.invalidArg "CArray.sub"))) ∧
      (0 ≤ pos → 0 ≤ length → pos + length ≤ vs.length →
        ∃ r h', Ends (CArray.sub allocator arr pos length : CProgram M _) h r h' ∧
          Holds P r ((vs.drop pos.toNat).take length.toNat) h' ∧ MakesNew h r h')
  /-- An array that was there before keeps what it holds, and is separate from the new one. -/
  separate : ∀ {t n} {arr : ArrayOf t} {vs h} {u} {r : ArrayOf u} {h'}, sizeof t = .ok n →
    MakesNew h r h' → Holds P arr vs h → Holds P arr vs h' ∧ Separate r arr
  /-- What is written to one of two separate arrays does not change the other. -/
  independent : ∀ {t n} {arr : ArrayOf t} {vs} {u k} {brr : ArrayOf u} {us h h'},
    sizeof t = .ok n → sizeof u = .ok k → Separate brr arr → Holds P arr vs h →
    Holds P brr us h → (WritesOnly brr h h' → Holds P arr vs h') ∧
      (WritesOnly arr h h' → Holds P brr us h')

variable {M P allocator}

theorem carray_refinesLists (hm : P.machine.integers.Lawful) (hal : allocator.Sound) :
    RefinesLists P allocator M where
  toList_ofList hs l hl h := by
    obtain ⟨arr, us, h', hends, hsame, hholds, -⟩ := ofList_ends (M := M) hm hal hs hl h
    exact ⟨us, h', hends.bind (toList_ends hs hholds), hsame⟩
  ofList hs _ hl h := ofList_ends hm hal hs hl h
  toList hs hh := toList_ends hs hh
  get hs hh i := by
    refine ⟨get_fails hh, ?_⟩
    rintro k hk rfl
    exact get_ends hs hh hk
  set hs hh i v := by
    refine ⟨set_fails hh, ?_⟩
    rintro k hk rfl hv
    have hi := hh.lt_alength hk
    obtain ⟨u, h', hends, hsame, hput⟩ := set_ends (M := M) hm hs hv hi
    exact ⟨u, h', hends, hsame, hput.set hs hh, hput.writesOnly hi⟩
  fill hs hh v hv := by
    obtain ⟨us, h', hends, hlen, hsame, hholds, hw⟩ := fill_ends (M := M) hm hs hv hh
    refine ⟨us, h', hends, ?_, hholds, hw⟩
    rw [← hlen]
    exact List.forall₂_iff_get.mpr ⟨by simp, fun i hi hi' => by
      simpa using hsame _ (List.get_mem us ⟨i, hi'⟩)⟩
  iter hs hh f := iter_performs hs hh f
  foldLeft hs hh _ f x := foldLeft_performs hs hh f x
  foldRight hs hh _ f x := foldRight_performs hs hh f x
  map hs hh hu f := map_performs hm hal hs hu hh f
  mapi hs hh hu f := mapi_performs hm hal hs hu hh f
  copy hs hh := copy_ends hal hs hh
  sub hs hh pos length := by
    refine ⟨sub_fails hh, fun hpos hlength hle => ?_⟩
    obtain ⟨pos, rfl⟩ := Int.eq_ofNat_of_zero_le hpos
    obtain ⟨length, rfl⟩ := Int.eq_ofNat_of_zero_le hlength
    exact sub_ends hal hs hh (by omega)
  separate hs hnew hh := ⟨hnew.keeps hs hh, hnew.separate hs hh⟩
  independent hs hu hsep hh hb :=
    ⟨fun hw => hh.independent hs hsep hw, fun hw => hb.independent hu hsep.symm hw⟩

def lastStop (live : List (Int × Nat)) : Int :=
  live.foldr (fun c stop => max (c.1 + c.2) stop) 0

def behindAll : Allocator := fun _ _ h => .ok (lastStop h.live, 0)

theorem behindAll_sound : behindAll.Sound := by
  intro count size h _
  suffices hstop : ∀ live, ∀ c ∈ live, c.1 + c.2 ≤ lastStop live from
    ⟨_, rfl, fun c hc => .inr (hstop h.live c hc)⟩
  intro live c hc
  induction live with
  | nil => cases hc
  | cons d live ih =>
      rw [lastStop, List.foldr_cons]
      rcases List.mem_cons.mp hc with rfl | hmem
      · exact le_max_left _ _
      · exact le_trans (ih hmem) (le_max_right _ _)

/-- Without views, and with functions that have no effects. -/
theorem carray_refinesLists_behindAll : RefinesLists unitPlatform behindAll Id :=
  carray_refinesLists Integers.plain_lawful behindAll_sound

end CtypesCbuf.Ctypes.Memory
