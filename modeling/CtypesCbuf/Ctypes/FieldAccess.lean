import CtypesCbuf.Ctypes.ReadBack
import CtypesCbuf.Ctypes.WrappingLayout

/-!
`setf` and `getf` on structures and unions that `field` and `seal` have built.
A write to a field stays within the field, so the layout keeps the other
fields of a structure apart from it.
-/

namespace CtypesCbuf.Ctypes.Mutable

/-! ### Where C has the fields -/

variable {σ : Store} {t : Typ} {s : Nat}

theorem measure_ok {x : Except Exn Nat} {n : Nat} (h : x = .ok n) : measure x = n := by
  rw [h, measure]

/-- Two fields of a sealed structure have no byte in common. -/
theorem StructureType.Sound.fields_apart {s : StructureType} (h : s.Sound σ)
    {size align j k n l : Nat} (hs : s.spec = .complete size align) {f g : Field}
    (hf : s.fields[j]? = some f) (hg : s.fields[k]? = some g) (hjk : j ≠ k)
    (hn : sizeof σ f.ftype = .ok n) (hl : sizeof σ g.ftype = .ok l) :
    f.foffset + n ≤ g.foffset ∨ g.foffset + l ≤ f.foffset := by
  have hpair := (h.complete size align hs).disjoint
  rw [slots, List.pairwise_map, List.pairwise_iff_getElem] at hpair
  obtain ⟨hj, rfl⟩ := List.getElem?_eq_some_iff.mp hf
  obtain ⟨hk, rfl⟩ := List.getElem?_eq_some_iff.mp hg
  rcases Nat.lt_or_gt_of_ne hjk with hlt | hlt
  · left
    have hstop := hpair j k hj hk hlt
    rwa [Alignment.Slot.stop, slot, slot, measure_ok hn] at hstop
  · right
    have hstop := hpair k j hk hj hlt
    rwa [Alignment.Slot.stop, slot, slot, measure_ok hl] at hstop

/-- A field of a sealed union starts where the union does and is not longer. -/
theorem UnionType.Sound.field_le {u : UnionType} (h : u.Sound σ) {spec : StructuredSpec}
    (hu : u.uspec = some spec) {f : Field} (hf : f ∈ u.ufields) :
    f.foffset = 0 ∧ ∃ n ≤ spec.size, sizeof σ f.ftype = .ok n := by
  obtain ⟨hcomplete, hlayout⟩ := h.complete spec.size spec.align hu
  obtain ⟨n, -, hn, -⟩ := hcomplete f hf
  have hle := hlayout.size_least.1.1 (slot σ f) (List.mem_map_of_mem hf)
  rw [slot, measure_ok hn] at hle
  exact ⟨h.offset_zero f hf, n, hle, hn⟩

/-- A sealed structure or union, or a view of one, has the field. -/
def Store.HasField (σ : Store) (t : Typ) (f : Field) : Prop :=
  match t.core with
  | .struct i => ∃ tag size align fields,
      σ.structs[i]? = some ⟨tag, .complete size align, fields⟩ ∧ f ∈ fields
  | .union i => ∃ utag spec ufields, σ.unions[i]? = some ⟨utag, some spec, ufields⟩ ∧ f ∈ ufields
  | _ => False

theorem sizeof_core (σ : Store) (t : Typ) : sizeof σ t.core = sizeof σ t := by
  induction t using Typ.core.induct with
  | case1 v ty ih => rw [Typ.core, ih, sizeof]
  | case2 t hview =>
      rw [Typ.core]
      exact hview

/-- A field of a sealed type ends within it. -/
theorem Store.HasField.fits (hσ : σ.Sound) {f : Field} (hf : σ.HasField t f)
    (hs : sizeof σ t = .ok s) : ∃ n, sizeof σ f.ftype = .ok n ∧ f.foffset + n ≤ s := by
  rw [← sizeof_core] at hs
  rw [Store.HasField] at hf
  split at hf
  · rename_i i hcore
    obtain ⟨tag, size, align, fields, hi, hf⟩ := hf
    rw [hcore, sizeof, spec_of_struct hi] at hs
    cases hs
    have hsound := hσ.structs i _ hi
    obtain ⟨n, -, hn, -⟩ := hsound.measured f hf
    have hlayout := hsound.complete _ align rfl
    have hstop := hlayout.tight.stop_le (slot σ f) (List.mem_map_of_mem hf)
    rw [Alignment.Slot.stop, slot, measure_ok hn] at hstop
    exact ⟨n, hn, hstop.trans hlayout.size_least.1.1⟩
  · rename_i i hcore
    obtain ⟨utag, spec, ufields, hi, hf⟩ := hf
    rw [hcore, sizeof, uspec_of_union hi] at hs
    cases hs
    obtain ⟨hzero, n, hle, hn⟩ := (hσ.unions i _ hi).field_le rfl hf
    exact ⟨n, hn, by omega⟩
  · exact hf.elim

end CtypesCbuf.Ctypes.Mutable

namespace CtypesCbuf.Ctypes.Mutable.Wrapping

open Simulation
open IntFormat (i63)

/-! ### Types as they are now -/

/-- The natural number that stands for an OCaml integer in a description. -/
def word (z : Int) : Nat := (z % 2 ^ 63).toNat

def StructSpec.describe : StructSpec → Ctypes.StructSpec
  | .incomplete isize => .incomplete (word isize)
  | .complete size align => .complete (word size) align

def StructuredSpec.describe (spec : StructuredSpec) : Ctypes.StructuredSpec :=
  ⟨word spec.size, spec.align⟩

def Store.tag (τ : Store) (i : Nat) : String :=
  match τ.structs[i]? with
  | some s => s.tag
  | none => ""

def Store.utag (τ : Store) (i : Nat) : String :=
  match τ.unions[i]? with
  | some u => u.utag
  | none => ""

mutual
/-- The type with its records as they are now. Accesses to memory do not look
at the fields of a record; they are left out, and a structure may point to
itself. -/
def Store.describe (τ : Store) : Typ → Ctypes.Typ
  | .void => .void
  | .primitive p => .primitive p
  | .pointer t => .pointer (τ.describe t)
  | .funptr fn => .funptr (τ.describeFn fn)
  | .struct i => .struct (τ.tag i) (τ.spec i).describe .nil
  | .union i => .union (τ.utag i) ((τ.uspec i).map StructuredSpec.describe) .nil
  | .abstract a => .abstract a
  | .view v ty => .view v (τ.describe ty)
  | .array t n => .array (τ.describe t) n
  | .bigarray ba => .bigarray ba
  | .ocaml ty => .ocaml ty
def Store.describeFn (τ : Store) : Fn → Ctypes.Fn
  | .returns t => .returns (τ.describe t)
  | .function f t => .function (τ.describe f) (τ.describeFn t)
end

def Store.describeField (τ : Store) (f : Field) : Memory.Field :=
  ⟨τ.describe f.ftype, word f.foffset, f.fname⟩

theorem word_natCast {n : Nat} (h : n < 2 ^ 62) : word n = n := by
  rw [word, Int.emod_eq_of_lt (by omega) (by omega), Int.toNat_natCast]

theorem wrap_word {z : Int} (h : i63.InRange z) : i63.wrap (word z) = z := by
  have hnonneg := Int.emod_nonneg z (show (2 ^ 63 : Int) ≠ 0 by decide)
  rw [word, Int.toNat_of_nonneg hnonneg]
  exact (IntFormat.wrap_congr (Int.emod_emod_of_dvd z (Int.dvd_refl _))).trans
    (IntFormat.wrap_of_inRange h)

variable {τ : Store} {σ : Mutable.Store} {i n m : Nat}

/-- A size that the code computes right is described right. -/
theorem Computes.word {z : Int} (h : Computes z n) (hn : n < 2 ^ 62) : word z = n := by
  rw [h.eq hn, word_natCast hn]

/-- Where the size in C is an OCaml integer the description has it. -/
theorem Store.Twin.sizeof_describe (h : τ.Twin σ) : (t : Typ) →
    Agree (fun k n => n < 2 ^ 62 → k = n) (Ctypes.sizeof (τ.describe t)) (Mutable.sizeof σ t)
  | .void | .ocaml _ => .error _
  | .primitive _ | .pointer _ | .funptr _ | .abstract _ | .bigarray _ => .ok fun _ => rfl
  | .struct i => by
      have hspec := h.spec i
      rw [Store.describe, Mutable.sizeof]
      generalize τ.spec i = s at *
      generalize σ.spec i = r at *
      cases hspec with
      | incomplete => exact .error _
      | complete align hn => exact .ok hn.word
  | .union i => by
      have hspec := h.uspec i
      rw [Store.describe, Mutable.sizeof]
      generalize τ.uspec i = s at *
      generalize σ.uspec i = r at *
      cases hspec with
      | none => exact .error _
      | some align hn => exact .ok hn.word
  | .array t k => by
      rw [Store.describe, Ctypes.sizeof, Mutable.sizeof]
      refine (h.sizeof_describe t).map fun l n hln hlt => ?_
      rcases Nat.eq_zero_or_pos k with rfl | hk
      · rw [Nat.zero_mul, Nat.zero_mul]
      · have hle : n ≤ k * n := Nat.le_mul_of_pos_left n hk
        rw [hln (by omega)]
  | .view _ ty => by
      rw [Store.describe, Ctypes.sizeof, Mutable.sizeof]
      exact h.sizeof_describe ty

theorem Store.Twin.sizeof_fits (h : τ.Twin σ) {t : Typ} (hn : Mutable.sizeof σ t = .ok n)
    (hlt : n < 2 ^ 62) : Ctypes.sizeof (τ.describe t) = .ok n := by
  have hagree := h.sizeof_describe t
  rw [hn] at hagree
  obtain ⟨k, hk, heq⟩ := hagree.of_ok
  rw [hk, heq hlt]

theorem wrap_natCast (h : n < 2 ^ 62) : i63.wrap n = n :=
  IntFormat.wrap_of_inRange (IntFormat.inRange_i63_natCast.mpr h)

theorem map_mul (x : Except Exn Nat) (k : Nat) :
    (x.map fun s => k * s).map (fun n : Nat => i63.wrap n) =
      (x.map fun n : Nat => i63.wrap n).map fun s => mul k s := by
  cases x with
  | error e => simp only [Except.map]
  | ok l =>
      have hmul : i63.wrap ((k * l : Nat) : Int) = mul k (i63.wrap l) := by
        rw [mul, IntFormat.wrap_mul_wrap, Int.natCast_mul]
      exact congrArg Except.ok hmul

/-- A described size wraps around to the one that the code computes. -/
theorem wrap_sizeof_describe (h : τ.Twin σ) : (t : Typ) →
    (Ctypes.sizeof (τ.describe t)).map (fun k : Nat => i63.wrap k) = sizeof τ t
  | .void | .ocaml _ => rfl
  | .primitive p => congrArg Except.ok (wrap_natCast (n := p.size) (by cases p <;> decide))
  | .pointer _ | .funptr _ => congrArg Except.ok (wrap_natCast (n := pointerSize) (by decide))
  | .abstract _ => rfl
  | .bigarray ba => congrArg Except.ok (wrap_foldl_mul ba.dimensions ba.elementType.size rfl).symm
  | .struct i => by
      have hspec := h.spec i
      rw [Store.describe, sizeof]
      generalize τ.spec i = s at *
      generalize σ.spec i = r at *
      cases hspec with
      | incomplete => rfl
      | complete align hn => exact congrArg Except.ok (wrap_word hn.inRange)
  | .union i => by
      have hspec := h.uspec i
      rw [Store.describe, sizeof]
      generalize τ.uspec i = s at *
      generalize σ.uspec i = r at *
      cases hspec with
      | none => rfl
      | some align hn => exact congrArg Except.ok (wrap_word hn.inRange)
  | .array t k => by
      rw [Store.describe, Ctypes.sizeof, sizeof, ← wrap_sizeof_describe h t, map_mul]
  | .view _ ty => by
      rw [Store.describe, Ctypes.sizeof, sizeof]
      exact wrap_sizeof_describe h ty

/-! ### Where the fields are -/

/-- A field lies at the same place in C, within a type of the size `n`. -/
structure Field.Within (σ : Mutable.Store) (f : Field) (n : Nat) (g : Mutable.Field) : Prop where
  ftype : f.ftype = g.ftype
  foffset : f.foffset = g.foffset
  within : ∃ m, Mutable.sizeof σ g.ftype = .ok m ∧ g.foffset + m ≤ n

theorem Field.Within.size {f : Field} {g : Mutable.Field} (h : f.Within σ n g) (hτ : τ.Twin σ)
    (hlt : n < 2 ^ 62) : ∃ m, Mutable.sizeof σ g.ftype = .ok m ∧
      Ctypes.sizeof (τ.describeField f).ftype = .ok m ∧ (τ.describeField f).foffset = g.foffset ∧
      g.foffset + m ≤ n := by
  obtain ⟨m, hm, hle⟩ := h.within
  refine ⟨m, hm, ?_, ?_, hle⟩
  · rw [Store.describeField, h.ftype]
    exact hτ.sizeof_fits hm (by omega)
  · rw [Store.describeField, h.foffset]
    exact word_natCast (by omega)

theorem exists_twin {fields : List Field} {gs : List Mutable.Field}
    (h : List.Forall₂ Field.Twin fields gs) {f : Field} (hf : f ∈ fields) :
    ∃ g ∈ gs, f.Twin g := by
  obtain ⟨j, hj⟩ := List.getElem?_of_mem hf
  rcases forall₂_getElem? h j with ⟨hnone, -⟩ | ⟨f', g, hf', hg, hfg⟩
  · rw [hj] at hnone
    cases hnone
  · rw [hj] at hf'
    cases hf'
    exact ⟨g, List.mem_of_getElem? hg, hfg⟩

/-- A structure that fits has its fields where C has them. -/
theorem Store.Twin.struct_fields (h : τ.Twin σ) (hσ : σ.Sound) {tag : String} {size : Int}
    {align : Nat} {fields : List Field}
    (hi : τ.structs[i]? = some ⟨tag, .complete size align, fields⟩)
    (hn : Mutable.sizeof σ (.struct i) = .ok n) (hlt : n < 2 ^ 62) :
    ∃ gs, σ.structs[i]? = some ⟨tag, .complete n align, gs⟩ ∧
      ∀ (j : Nat) f, fields[j]? = some f → ∃ g, gs[j]? = some g ∧ f.Within σ n g := by
  rcases h.struct i with ⟨hs, -⟩ | ⟨s, r, hs, hr, htwin⟩
  · rw [hi] at hs
    cases hs
  rw [hi] at hs
  cases hs
  obtain ⟨tag', spec, gs⟩ := r
  obtain ⟨rfl, hspec, hfields⟩ := htwin
  cases hspec with
  | complete align hsize =>
      rw [Mutable.sizeof, spec_of_struct hr] at hn
      cases hn
      refine ⟨gs, hr, fun j f hf => ?_⟩
      rcases forall₂_getElem? hfields j with ⟨hnone, -⟩ | ⟨f', g, hf', hg, hfg⟩
      · rw [hf] at hnone
        cases hnone
      · rw [hf] at hf'
        cases hf'
        have hn : Mutable.sizeof σ (.struct i) = .ok n := by rw [Mutable.sizeof, spec_of_struct hr]
        have hfield : σ.HasField (.struct i) g :=
          ⟨tag, n, align, gs, hr, List.mem_of_getElem? hg⟩
        obtain ⟨m, hm, hle⟩ := hfield.fits hσ hn
        exact ⟨g, hg, hfg.ftype, hfg.foffset.eq (by omega), m, hm, hle⟩

/-- A union that fits starts with each of its fields. -/
theorem Store.Twin.union_fields (h : τ.Twin σ) (hσ : σ.Sound) {utag : String}
    {spec : StructuredSpec} {ufields : List Field}
    (hi : τ.unions[i]? = some ⟨utag, some spec, ufields⟩)
    (hn : Mutable.sizeof σ (.union i) = .ok n) (hlt : n < 2 ^ 62) :
    spec.size = n ∧ ∀ f ∈ ufields, ∃ g, g.foffset = 0 ∧ f.Within σ n g := by
  rcases h.union i with ⟨hu, -⟩ | ⟨u, r, hu, hr, htwin⟩
  · rw [hi] at hu
    cases hu
  rw [hi] at hu
  cases hu
  obtain ⟨utag', uspec, gs⟩ := r
  obtain ⟨rfl, huspec, hufields⟩ := htwin
  cases huspec with
  | some align hsize =>
      rw [Mutable.sizeof, uspec_of_union hr] at hn
      cases hn
      refine ⟨hsize.eq hlt, fun f hf => ?_⟩
      obtain ⟨g, hg, hfg⟩ := exists_twin hufields hf
      obtain ⟨hzero, m, hle, hm⟩ := (hσ.unions i _ hr).field_le rfl hg
      have hin : g.foffset + m ≤ n := by
        rw [hzero, Nat.zero_add]
        exact hle
      exact ⟨g, hzero, hfg.ftype, hfg.foffset.eq (by omega), m, hm, hin⟩

/-- A sealed structure or union, or a view of one, has the field. -/
def Store.HasField (τ : Store) (t : Typ) (f : Field) : Prop :=
  match t.core with
  | .struct i => ∃ tag size align fields,
      τ.structs[i]? = some ⟨tag, .complete size align, fields⟩ ∧ f ∈ fields
  | .union i => ∃ utag spec ufields, τ.unions[i]? = some ⟨utag, some spec, ufields⟩ ∧ f ∈ ufields
  | _ => False

/-- The fields are the same in C. -/
theorem Store.Twin.hasField (h : τ.Twin σ) {t : Typ} {f : Field} (hf : τ.HasField t f) :
    ∃ g, σ.HasField t g ∧ f.Twin g := by
  rw [Store.HasField] at hf
  split at hf
  · rename_i i hcore
    obtain ⟨tag, size, align, fields, hi, hf⟩ := hf
    rcases h.struct i with ⟨hs, -⟩ | ⟨s, r, hs, hr, htwin⟩
    · rw [hi] at hs
      cases hs
    rw [hi] at hs
    cases hs
    obtain ⟨tag', spec, gs⟩ := r
    obtain ⟨-, hspec, hfields⟩ := htwin
    obtain ⟨g, hg, hfg⟩ := exists_twin hfields hf
    cases hspec
    refine ⟨g, ?_, hfg⟩
    rw [Mutable.Store.HasField, hcore]
    exact ⟨_, _, _, _, hr, hg⟩
  · rename_i i hcore
    obtain ⟨utag, spec, ufields, hi, hf⟩ := hf
    rcases h.union i with ⟨hu, -⟩ | ⟨u, r, hu, hr, htwin⟩
    · rw [hi] at hu
      cases hu
    rw [hi] at hu
    cases hu
    obtain ⟨utag', uspec, gs⟩ := r
    obtain ⟨-, huspec, hfields⟩ := htwin
    obtain ⟨g, hg, hfg⟩ := exists_twin hfields hf
    cases huspec
    refine ⟨g, ?_, hfg⟩
    rw [Mutable.Store.HasField, hcore]
    exact ⟨_, _, _, hr, hg⟩
  · exact hf.elim

end CtypesCbuf.Ctypes.Mutable.Wrapping

namespace CtypesCbuf.Ctypes.Memory

open ByteMemory
open CtypesCbuf.Runtime
open Mutable.Wrapping

variable {A : ViewId → Type} (P : Platform A)

/-! ### Fields -/

def getf (s : FatPtr Typ) (field : Field) (mem : Memory) : Except Failure (Val A field.ftype) :=
  deref P field.ftype (fieldPtr s field) mem

/-- The read functions of the views of `t` look at no byte of the block. -/
def Ignores (t : Typ) (q : Int) (n : Nat) : Prop :=
  ∀ mem mem', (∀ a, ¬ In q n a → mem' a = mem a) → SameReads P t mem mem'

/-- `setf` of the field `f` of `s` to `v`: the value is read back, and outside
the field there is what the write functions of views leave. -/
structure Sets (s : FatPtr Typ) (f : Field) (v : Val A f.ftype) (mem mem' : Memory) : Prop where
  sets : setf P s f v mem = .ok mem'
  gets : ∃ r, getf P s f mem' = .ok r ∧ ReadBack P f.ftype v mem r mem'
  frame : ∀ a, ¬ In (s.raw + f.foffset) (ownSize f.ftype) a →
    mem' a = converted P f.ftype v mem a

variable {P} {s : FatPtr Typ} {f g : Field} {v : Val A f.ftype} {mem mem' : Memory} {n : Nat}

theorem ownSize_eq {t : Typ} (h : sizeof t = .ok n) : ownSize t = n := by
  rw [ownSize, h]
  rfl

theorem exists_sets (hm : P.machine.integers.Lawful) (hf : FloatsFit P.machine)
    (hs : sizeof f.ftype = .ok n) (hv : HasType P f.ftype v mem)
    (hapart : Apart P (fieldPtr s f) v mem) : ∃ mem', Sets P s f v mem mem' := by
  obtain ⟨mem', r, hassign, hderef, hback, hframe⟩ :=
    assign_back P hm hf (p := fieldPtr s f) hs hv hapart
  rw [← ownSize_eq hs] at hframe
  exact ⟨mem', hassign, ⟨r, hderef, hback⟩, hframe⟩

/-- Two blocks of which one ends before the other starts. -/
theorem not_in_of_apart {p q a : Int} {n l : Nat} (h : p + n ≤ q ∨ q + l ≤ p)
    (ha : In q l a) : ¬ In p n a := by
  rintro ⟨h1, h2⟩
  obtain ⟨h3, h4⟩ := ha
  omega

/-- A field that has no byte in common with the one written. -/
theorem Sets.other (h : Sets P s f v mem mem') {l : Nat} (hl : sizeof g.ftype = .ok l)
    (hapart : f.foffset + ownSize f.ftype ≤ g.foffset ∨ g.foffset + l ≤ f.foffset) :
    (∀ a, In (s.raw + g.foffset) (ownSize g.ftype) a →
        mem' a = converted P f.ftype v mem a) ∧
      (Ignores P g.ftype (s.raw + f.foffset) (ownSize f.ftype) →
        getf P s g mem' = getf P s g (converted P f.ftype v mem)) := by
  have hbytes : ∀ a, In (s.raw + g.foffset) l a → mem' a = converted P f.ftype v mem a :=
    fun a ha => h.frame a (not_in_of_apart (by omega) ha)
  rw [ownSize_eq hl]
  exact ⟨hbytes, fun hignores => deref_congr P hl hbytes (hignores _ _ h.frame)⟩

/-- `setf` of one field of a sealed structure leaves the others as they are,
and of a union changes no byte beyond it. The size in C is an OCaml integer. -/
theorem setf_frame (hm : P.machine.integers.Lawful) (hfit : FloatsFit P.machine)
    (cs : List Mutable.Call) (s : FatPtr Typ) (mem : Memory) :
    let τ := calls cs .empty
    (∀ (i : Nat) tag size align fields,
      τ.structs[i]? = some ⟨tag, .complete size align, fields⟩ → Fits cs (.struct i) →
      ∀ (j k : Nat) f g, fields[j]? = some f → fields[k]? = some g → j ≠ k →
      ∀ v : Val A (τ.describeField f).ftype, HasType P (τ.describeField f).ftype v mem →
        Apart P (fieldPtr s (τ.describeField f)) v mem →
        ∃ mem', Sets P s (τ.describeField f) v mem mem' ∧
          (∀ a, In (s.raw + g.foffset) (ownSize (τ.describeField g).ftype) a →
            mem' a = converted P (τ.describeField f).ftype v mem a) ∧
          (Ignores P (τ.describeField g).ftype (s.raw + f.foffset)
              (ownSize (τ.describeField f).ftype) →
            getf P s (τ.describeField g) mem' =
              getf P s (τ.describeField g) (converted P (τ.describeField f).ftype v mem))) ∧
    ∀ (i : Nat) utag spec ufields, τ.unions[i]? = some ⟨utag, some spec, ufields⟩ →
      Fits cs (.union i) →
      ∀ f ∈ ufields, ∀ v : Val A (τ.describeField f).ftype,
        HasType P (τ.describeField f).ftype v mem →
        Apart P (fieldPtr s (τ.describeField f)) v mem →
        ∃ mem', Sets P s (τ.describeField f) v mem mem' ∧
          ∀ a, ¬ (s.raw ≤ a ∧ a < s.raw + spec.size) →
            mem' a = converted P (τ.describeField f).ftype v mem a := by
  intro τ
  have htwin := twin_cTypes cs
  have hsound := (cTypes_reachable cs).sound
  constructor
  · intro i tag size align fields hi ⟨n, hn, hlt⟩ j k f g hf hg hjk v hv hapart
    obtain ⟨gs, hi', hfields⟩ := htwin.struct_fields hsound hi hn hlt
    obtain ⟨f', hf', hfin⟩ := hfields j f hf
    obtain ⟨g', hg', hgin⟩ := hfields k g hg
    obtain ⟨m, hm', hfsize, hfoffset, -⟩ := hfin.size htwin hlt
    obtain ⟨l, hl', hgsize, hgoffset, -⟩ := hgin.size htwin hlt
    have hdisjoint := (hsound.structs i _ hi').fields_apart rfl hf' hg' hjk hm' hl'
    obtain ⟨mem', hsets⟩ := exists_sets (f := τ.describeField f) (s := s) hm hfit hfsize hv hapart
    have hfields' : (τ.describeField f).foffset + ownSize (τ.describeField f).ftype ≤
        (τ.describeField g).foffset ∨
          (τ.describeField g).foffset + l ≤ (τ.describeField f).foffset := by
      rwa [ownSize_eq hfsize, hfoffset, hgoffset]
    obtain ⟨hbytes, hget⟩ := hsets.other (g := τ.describeField g) hgsize hfields'
    rw [hgoffset, ← hgin.foffset] at hbytes
    rw [hfoffset, ← hfin.foffset] at hget
    exact ⟨mem', hsets, hbytes, hget⟩
  · intro i utag spec ufields hi ⟨n, hn, hlt⟩ f hf v hv hapart
    obtain ⟨hsize, hfields⟩ := htwin.union_fields hsound hi hn hlt
    obtain ⟨g, hzero, hfin⟩ := hfields f hf
    obtain ⟨m, -, hfsize, hfoffset, hle⟩ := hfin.size htwin hlt
    obtain ⟨mem', hsets⟩ := exists_sets (f := τ.describeField f) (s := s) hm hfit hfsize hv hapart
    refine ⟨mem', hsets, fun a ha => hsets.frame a ?_⟩
    rw [hfoffset, hzero, ownSize_eq hfsize]
    rintro ⟨h1, h2⟩
    exact ha ⟨by omega, by omega⟩

/-! ### A view that looks at the field before it -/

def fittingMachine : Machine :=
  { Machine.plain with convertFloat := fun _ k bits => bits % 256 ^ floatSize k }

theorem fittingMachine_fits : FloatsFit fittingMachine := by
  intro k k' bits
  exact Nat.mod_lt _ (Nat.pow_pos (by decide))

/-- Views over pointers are read as the byte that the pointer points to. -/
def lookingPlatform : Platform fun _ => Int where
  machine := fittingMachine
  read _ ty u mem :=
    match ty, u with
    | .pointer _, (p : FatPtr Typ) => (mem p.raw).toNat
    | _, _ => 0
  write _ ty _ mem := (valueWith (fun _ => 0) ty, mem)
  allocate size _ := (8192, size)

/-- A structure of a `char` and a view over a pointer, and a union of a
`char`. -/
def lookingCalls : List Mutable.Call :=
  [.newStructure "s", .field "c" (.primitive .char) (.struct 0),
    .field "p" (.view 0 (.pointer (.primitive .char))) (.struct 0), .sealTyp (.struct 0),
    .newUnion "u", .field "c" (.primitive .char) (.union 0), .sealTyp (.union 0)]

def lookingTypes : Store := calls lookingCalls .empty

def charField : Mutable.Wrapping.Field := ⟨.primitive .char, 0, "c"⟩

def pointedField : Mutable.Wrapping.Field := ⟨.view 0 (.pointer (.primitive .char)), 8, "p"⟩

def lookingStruct : FatPtr Typ := ⟨lookingTypes.describe (.struct 0), 4096, none⟩

/-- The pointer points to the `char`. -/
def lookingMemory : Memory := store (4096 + 8) pointerSize 4096 fun _ => 0

/-- To write the `char` changes what `getf` of the other field gives. -/
theorem setf_changes_getf :
    lookingTypes.structs[0]? = some ⟨"s", .complete 16 8, [charField, pointedField]⟩ ∧
      ∃ mem', setf lookingPlatform lookingStruct (lookingTypes.describeField charField)
          (Value.int 65) lookingMemory = .ok mem' ∧
        getf lookingPlatform lookingStruct (lookingTypes.describeField pointedField)
          lookingMemory = .ok (0 : Int) ∧
        getf lookingPlatform lookingStruct (lookingTypes.describeField pointedField) mem' =
          .ok (65 : Int) :=
  ⟨rfl, _, rfl, rfl, rfl⟩

/-- The two fields of the structure, and the field of the union. -/
theorem setf_frame_char :
    (∃ mem', Sets lookingPlatform lookingStruct (lookingTypes.describeField charField)
        (Value.int 65) lookingMemory mem' ∧
      (∀ a, In (4096 + 8) 8 a → mem' a = lookingMemory a)) ∧
    ∃ mem', Sets lookingPlatform lookingStruct (lookingTypes.describeField charField)
        (Value.int 65) lookingMemory mem' ∧
      ∀ a : Int, ¬ (4096 ≤ a ∧ a < 4096 + 1) → mem' a = lookingMemory a := by
  have hm : lookingPlatform.machine.integers.Lawful := Integers.plain_lawful
  have hv : HasType lookingPlatform (.primitive .char) (Value.int 65) lookingMemory :=
    ⟨⟨65, rfl, by decide, by decide⟩, trivial⟩
  have hframe := @setf_frame _ lookingPlatform hm fittingMachine_fits lookingCalls lookingStruct
    lookingMemory
  obtain ⟨mem', hsets, hbytes, -⟩ := hframe.1 0 "s" 16 8 [charField, pointedField] rfl
    ⟨16, rfl, by decide⟩ 0 1 charField pointedField rfl rfl (by decide) (Value.int 65) hv nofun
  exact ⟨⟨mem', hsets, hbytes⟩,
    hframe.2 0 "u" ⟨1, 1⟩ [charField] rfl ⟨1, rfl, by decide⟩ charField (by simp) (Value.int 65)
      hv nofun⟩

end CtypesCbuf.Ctypes.Memory
