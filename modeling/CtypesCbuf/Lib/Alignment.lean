import Mathlib.Order.Bounds.Basic

/-!
Objects placed in memory one after the other, each at the next offset its
alignment allows. `roundUp` is the computation, `Tight` the property it gives
a sequence of slots, and the layouts of C structures and unions are stated
over `Tight`.
-/

namespace Alignment

def roundUp (n a : Nat) : Nat := if n % a = 0 then n else n - n % a + a

variable {n a m : Nat}

theorem le_roundUp (ha : 0 < a) : n ≤ roundUp n a := by
  have h := Nat.mod_lt n ha
  unfold roundUp
  split <;> omega

theorem dvd_roundUp : a ∣ roundUp n a := by
  unfold roundUp
  split
  · exact Nat.dvd_of_mod_eq_zero ‹_›
  · exact Nat.dvd_add (Nat.dvd_sub_mod n) (Nat.dvd_refl a)

theorem roundUp_le (hn : n ≤ m) (hm : a ∣ m) : roundUp n a ≤ m := by
  obtain ⟨k, rfl⟩ := hm
  unfold roundUp
  split
  · exact hn
  · have hdiv : n - n % a = a * (n / a) := by
      have := Nat.div_add_mod n a
      omega
    -- `n` is no multiple of `a`, so the multiple `a * k` lies above its floor.
    have hlt : n / a < k := by
      by_contra hk
      have h1 : a * k ≤ a * (n / a) := Nat.mul_le_mul_left a (by omega)
      have h2 := Nat.div_add_mod n a
      omega
    calc n - n % a + a = a * (n / a + 1) := by rw [hdiv, Nat.mul_succ]
      _ ≤ a * k := Nat.mul_le_mul_left a hlt

def Multiples (n a : Nat) : Set Nat := {m | n ≤ m ∧ a ∣ m}

theorem isLeast_roundUp (ha : 0 < a) : IsLeast (Multiples n a) (roundUp n a) :=
  ⟨⟨le_roundUp ha, dvd_roundUp⟩, fun _ h => roundUp_le h.1 h.2⟩

/-- An object in memory. -/
structure Slot where
  offset : Nat
  size : Nat
  align : Nat
  deriving DecidableEq, Repr

def Slot.stop (s : Slot) : Nat := s.offset + s.size

/-- The slot of a new object when memory is taken up to `n`. -/
def Slot.next (n size align : Nat) : Slot := ⟨roundUp n align, size, align⟩

/-- The end of slots that are placed from `n` on. -/
def stop (n : Nat) : List Slot → Nat
  | [] => n
  | s :: ss => stop s.stop ss

@[simp] theorem stop_append (n : Nat) (ss ts : List Slot) :
    stop n (ss ++ ts) = stop (stop n ss) ts := by
  induction ss generalizing n with
  | nil => rfl
  | cons s ss ih => exact ih s.stop

/-- Each slot is at the least aligned offset after the one before it. -/
def Tight (n : Nat) : List Slot → Prop
  | [] => True
  | s :: ss => IsLeast (Multiples n s.align) s.offset ∧ Tight s.stop ss

variable {s : Slot} {ss ts : List Slot}

theorem tight_append : Tight n (ss ++ ts) ↔ Tight n ss ∧ Tight (stop n ss) ts := by
  induction ss generalizing n with
  | nil => exact ⟨fun h => ⟨trivial, h⟩, fun h => h.2⟩
  | cons s ss ih => simp only [List.cons_append, Tight, stop, ih, and_assoc]

/-- A slot that is taken next keeps the slots tight. -/
theorem Tight.snoc_next {size align : Nat} (h : Tight n ss) (ha : 0 < align) :
    Tight n (ss ++ [Slot.next (stop n ss) size align]) :=
  tight_append.mpr ⟨h, isLeast_roundUp ha, trivial⟩

theorem Tight.aligned (h : Tight n ss) : ∀ s ∈ ss, s.align ∣ s.offset := by
  induction ss generalizing n with
  | nil => intro s hs; cases hs
  | cons t ss ih =>
      intro s hs
      obtain rfl | hs := List.mem_cons.mp hs
      · exact h.1.1.2
      · exact ih h.2 s hs

theorem Tight.le_offset (h : Tight n ss) : ∀ s ∈ ss, n ≤ s.offset := by
  induction ss generalizing n with
  | nil => intro s hs; cases hs
  | cons t ss ih =>
      intro s hs
      have hn : n ≤ t.offset := h.1.1.1
      obtain rfl | hs := List.mem_cons.mp hs
      · exact hn
      · have := ih h.2 s hs
        unfold Slot.stop at this
        omega

theorem Tight.le_stop (h : Tight n ss) : n ≤ stop n ss := by
  induction ss generalizing n with
  | nil => exact le_refl n
  | cons t ss ih =>
      have hn : n ≤ t.offset := h.1.1.1
      have := ih h.2
      unfold Slot.stop at this
      simp only [stop, Slot.stop]
      omega

theorem Tight.stop_le (h : Tight n ss) : ∀ s ∈ ss, s.stop ≤ stop n ss := by
  induction ss generalizing n with
  | nil => intro s hs; cases hs
  | cons t ss ih =>
      intro s hs
      obtain rfl | hs := List.mem_cons.mp hs
      · exact h.2.le_stop
      · exact ih h.2 s hs

theorem Tight.length_le (h : Tight n ss) (hs : ∀ s ∈ ss, 0 < s.size) :
    n + ss.length ≤ stop n ss := by
  induction ss generalizing n with
  | nil => exact le_refl n
  | cons t ss ih =>
      have hn : n ≤ t.offset := h.1.1.1
      have ht : 0 < t.size := hs t (by simp)
      have := ih h.2 fun s hs' => hs s (by simp [hs'])
      simp only [List.length_cons, stop]
      unfold Slot.stop at this ⊢
      omega

/-- Sizes and alignments decide where the slots are. -/
theorem Tight.unique (hs : Tight n ss) (ht : Tight n ts)
    (h : ss.map (fun s => (s.size, s.align)) = ts.map (fun t => (t.size, t.align))) :
    ss = ts := by
  induction ss generalizing n ts with
  | nil => exact (List.map_eq_nil_iff.mp h.symm).symm
  | cons s ss ih =>
      cases ts with
      | nil => cases h
      | cons t ts =>
          obtain ⟨hhead, htail⟩ := List.cons.inj h
          obtain ⟨hsize, halign⟩ := Prod.mk.inj hhead
          have hleast := hs.1
          rw [halign] at hleast
          have hoffset : s.offset = t.offset := hleast.unique ht.1
          have heq : s = t := by
            cases s
            cases t
            simp_all
          subst heq
          rw [ih hs.2 ht.2 htail]

/-- The slots are in order and none reaches into a later one. -/
theorem Tight.pairwise (h : Tight n ss) : ss.Pairwise fun s t => s.stop ≤ t.offset := by
  induction ss generalizing n with
  | nil => exact List.Pairwise.nil
  | cons t ss ih => exact List.Pairwise.cons h.2.le_offset (ih h.2)

/-- Slots of given sizes and alignments, placed from `n` on. -/
def place (n : Nat) : List (Nat × Nat) → List Slot
  | [] => []
  | (size, align) :: bs =>
      Slot.next n size align :: place (Slot.next n size align).stop bs

theorem tight_place {bs : List (Nat × Nat)} (hbs : ∀ b ∈ bs, 0 < b.2) :
    Tight n (place n bs) := by
  induction bs generalizing n with
  | nil => trivial
  | cons b bs ih =>
      have hb : 0 < b.2 := hbs b (by simp)
      exact ⟨isLeast_roundUp hb, ih fun c hc => hbs c (by simp [hc])⟩

theorem place_append (n : Nat) (bs cs : List (Nat × Nat)) :
    place n (bs ++ cs) = place n bs ++ place (stop n (place n bs)) cs := by
  induction bs generalizing n with
  | nil => rfl
  | cons b bs ih => simp only [List.cons_append, place, stop, ih]

theorem map_place (n : Nat) (bs : List (Nat × Nat)) :
    (place n bs).map (fun s => (s.size, s.align)) = bs := by
  induction bs generalizing n with
  | nil => rfl
  | cons b bs ih => rw [place, List.map_cons, ih]; rfl

/-- The layout of a C structure with members in the given slots. -/
structure StructLayout (ss : List Slot) (size align : Nat) : Prop where
  aligned : ∀ s ∈ ss, s.align ∣ s.offset
  disjoint : ss.Pairwise fun s t => s.stop ≤ t.offset
  tight : Tight 0 ss
  align_max : IsGreatest {a | ∃ s ∈ ss, s.align = a} align
  size_least : IsLeast (Multiples (stop 0 ss) align) size

structure UnionLayout (ss : List Slot) (size align : Nat) : Prop where
  offset_zero : ∀ s ∈ ss, s.offset = 0
  align_max : IsGreatest {a | ∃ s ∈ ss, s.align = a} align
  size_least : IsLeast {n | (∀ s ∈ ss, s.size ≤ n) ∧ align ∣ n} size

end Alignment
