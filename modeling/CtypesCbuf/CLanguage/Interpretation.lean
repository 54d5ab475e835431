import CtypesCbuf.CLanguage.Steps

/-!
The meaning of C code for any meaning of its effects. Locals live in the
memory, where an effect may reach them; what an effect does with its operands
is a function of the memory, which may also keep a log. A hole is a local
whose value is given from outside.
-/

namespace CtypesCbuf.CLanguage

open StraightLine
open Ctypes hiding Fn

/-- A place that is assigned to, its operands evaluated. -/
inductive Place (V : Type)
  | var (v : CVar)
  | index (p : Place V) (i : V)
  | field (p : Place V) (f : String)
  | pointerField (p : Place V) (f : String)

/-- What an effect does once its operands are evaluated. -/
inductive Act (V : Type)
  | camlParam (xs : List String)
  | camlParam0
  | camlLocalN (x : CExp) (n : V)
  | camlDrop
  | global (g : CGlobal)
  | app (f : CFunction) (vs : List V)
  | index (ty : Except Exn Ty) (v i : V)
  | deref (ty : Ty) (v : V)
  | derefField (ty : Ty) (f : String) (v : V)
  | assign (p : Place V) (v : V)

/-- A meaning of expressions and effects. -/
structure Interp (V σ : Type) where
  load : String → σ → V
  store : String → V → σ → σ
  int : Int → V
  cast : Ty → V → V
  addr : CVar → V
  act : Act V → σ → V × σ

variable {V σ : Type}

abbrev Holes (V : Type) := CLocal → Option V

def noHoles : Holes V := fun _ => none

def hole (h : CLocal) (w : V) : Holes V := fun x => if x = h then some w else none

namespace Interp

variable (I : Interp V σ) (ρ : Holes V)

def exp (s : σ) : CExp → V
  | .int i => I.int i
  | .clocal x => (ρ x).getD (I.load x.1 s)
  | .cast ty e => I.cast ty (exp s e)
  | .addr v => I.addr v

def place (s : σ) : CLvalue → Place V
  | .var v => .var v
  | .index lv i => .index (place s lv) (I.exp ρ s i)
  | .field lv f => .field (place s lv) f
  | .pointerField lv f => .pointerField (place s lv) f

def eff : CEff → σ → V × σ
  | .exp e, s => (I.exp ρ s e, s)
  | .camlop .camlParam0, s => I.act .camlParam0 s
  | .camlop (.camlLocalN e c), s => I.act (.camlLocalN e (I.exp ρ s c)) s
  | .camlop .camlDrop, s => I.act .camlDrop s
  | .global g, s => I.act (.global g) s
  | .app f es, s => I.act (.app f (es.map (I.exp ρ s))) s
  | .index e i, s => I.act (.index (typeEff e) (eff e s).1 (I.exp ρ s i)) (eff e s).2
  | .deref e, s => I.act (.deref (typeExp e) (I.exp ρ s e)) s
  | .derefField e f, s => I.act (.derefField (typeExp e) f (I.exp ρ s e)) s

/-- An assignment whose place is evaluated in `s`, before its right-hand side. -/
def assign (s : σ) (lv : CLvalue) (v : V) (s' : σ) : σ :=
  match lv with
  | .var (.clocal x) => I.store x.1 (I.cast x.2 v) s'
  | lv => (I.act (.assign (I.place ρ s lv) v) s').2

end Interp

/-- How code ends. -/
inductive Outcome (V : Type)
  | value (v : V)
  | camlReturnT (ty : Ty) (v : V)
  | ret (ty : Ty) (v : V)

structure Running (V σ : Type) where
  memory : σ
  outcome : Option (Outcome V)

namespace Interp

variable (I : Interp V σ) (ρ : Holes V)

def step : Step → Running V σ → Running V σ
  | .bind (x, e), r =>
      { r with memory := I.store x.1 (I.cast x.2 (I.eff ρ e r.memory).1)
                 (I.eff ρ e r.memory).2 }
  | .const x i, r => { r with memory := I.store x.1 (I.int i) r.memory }
  | .assign lv e, r =>
      { r with memory := I.assign ρ r.memory lv (I.eff ρ e r.memory).1
                 (I.eff ρ e r.memory).2 }
  | .camlParam xs, r => { r with memory := (I.act (.camlParam xs) r.memory).2 }
  | .result e, r => ⟨(I.eff ρ e r.memory).2, some (.value (I.eff ρ e r.memory).1)⟩
  | .camlReturnT ty e, r =>
      { r with outcome := some (.camlReturnT ty (I.cast ty (I.exp ρ r.memory e))) }
  | .ret ty e, r => { r with outcome := some (.ret ty (I.cast ty (I.exp ρ r.memory e))) }

def runSteps (p : List Step) (r : Running V σ) : Running V σ := run (I.step ρ) p r

theorem runSteps_append (p q : List Step) (r : Running V σ) :
    I.runSteps ρ (p ++ q) r = I.runSteps ρ q (I.runSteps ρ p r) :=
  run_append ..

def runComp (c : CComp) (s : σ) : Running V σ := I.runSteps ρ c.steps ⟨s, none⟩

end Interp

/-- The laws of a memory that holds locals, and of typed effects. -/
structure Interp.Lawful (I : Interp V σ) : Prop where
  load_store : ∀ x v s, I.load x (I.store x v s) = v
  load_store_of_ne : ∀ {x y} v s, y ≠ x → I.load y (I.store x v s) = I.load y s
  store_comm : ∀ {x y} u v s, y ≠ x →
    I.store y u (I.store x v s) = I.store x v (I.store y u s)
  /-- What an effect gives is of its type. -/
  cast_eff : ∀ {ρ e ty} s, (∀ v, e ≠ .exp v) → typeEff e = .ok ty →
    I.cast ty (I.eff ρ e s).1 = (I.eff ρ e s).1

/-! ### Locals that effects do not reach -/

def Place.base : Place V → List CLocal
  | .var v => v.locals
  | .index p _ => p.base
  | .field p _ => p.base
  | .pointerField p _ => p.base

def Act.named : Act V → List CLocal
  | .camlLocalN x _ => x.locals
  | .assign p _ => p.base
  | _ => []

/-- No effect reaches `x` unless it takes it by name: its address is not taken. -/
def Interp.Unseen (I : Interp V σ) (x : String) : Prop :=
  ∀ a : Act V, x ∉ a.named.map (fun l => l.1) → ∀ v s,
    I.act a (I.store x v s) = ((I.act a s).1, I.store x v (I.act a s).2)

/-- The step leaves the local `x` as it is, whatever is in the holes. -/
def Interp.Keeps (I : Interp V σ) (st : Step) (x : String) : Prop :=
  ∀ ρ r, I.load x (I.step ρ st r).memory = I.load x r.memory

def CExp.reads : CExp → List CLocal
  | .clocal x => [x]
  | .cast _ e => e.reads
  | _ => []

def Step.names (st : Step) : List String := (st.locals ++ st.bound).map fun l => l.1

def CComp.names (c : CComp) : List String := c.steps.flatMap Step.names

namespace Interp

variable {I : Interp V σ} {ρ : Holes V}

theorem exp_congr {s s' : σ} {e : CExp}
    (h : ∀ x ∈ e.reads, I.load x.1 s' = I.load x.1 s) : I.exp ρ s' e = I.exp ρ s e := by
  induction e with
  | clocal x => rw [exp, exp, h x (by simp [CExp.reads])]
  | cast ty e ih => rw [exp, exp, ih h]
  | _ => rfl

theorem reads_subset {e : CExp} {l : CLocal} (h : l ∈ e.reads) : l ∈ e.locals := by
  induction e with
  | clocal x => exact h
  | cast ty e ih => exact ih h
  | _ => cases h

section Unseen

variable {x : String} {u : V} {s : σ}

theorem exp_store (law : I.Lawful) {e : CExp} (h : x ∉ e.locals.map fun l => l.1) :
    I.exp ρ (I.store x u s) e = I.exp ρ s e := by
  refine exp_congr fun l hl => law.load_store_of_ne u s ?_
  rintro rfl
  exact h (List.mem_map_of_mem (reads_subset hl))

theorem place_store (law : I.Lawful) {lv : CLvalue} (h : x ∉ lv.locals.map fun l => l.1) :
    I.place ρ (I.store x u s) lv = I.place ρ s lv := by
  induction lv with
  | var v => rfl
  | index lv i ih =>
      rw [CLvalue.locals, List.map_append, List.mem_append, not_or] at h
      rw [place, place, ih h.1, exp_store law h.2]
  | field lv f ih => rw [place, place, ih h]
  | pointerField lv f ih => rw [place, place, ih h]

theorem base_place (lv : CLvalue) : ∀ l ∈ (I.place ρ s lv).base, l ∈ lv.locals := by
  induction lv with
  | var v => exact fun l hl => hl
  | index lv i ih => exact fun l hl => List.mem_append_left _ (ih l hl)
  | field lv f ih => exact ih
  | pointerField lv f ih => exact ih

/-- An effect that does not mention an unseen local neither reads nor changes it. -/
theorem eff_store (law : I.Lawful) (hx : I.Unseen x) {e : CEff}
    (h : x ∉ e.locals.map fun l => l.1) :
    I.eff ρ e (I.store x u s) = ((I.eff ρ e s).1, I.store x u (I.eff ρ e s).2) := by
  induction e with
  | exp e =>
      rw [eff, eff, exp_store law h]
  | camlop o =>
      cases o with
      | camlLocalN e c =>
          rw [CEff.locals, CamlOp.locals, List.map_append, List.mem_append, not_or] at h
          rw [eff, eff, exp_store law h.2]
          exact hx (.camlLocalN e _) h.1 u s
      | camlParam0 => exact hx .camlParam0 (by simp [Act.named]) u s
      | camlDrop => exact hx .camlDrop (by simp [Act.named]) u s
  | global g => exact hx (.global g) (by simp [Act.named]) u s
  | app f es =>
      have hes : es.map (I.exp ρ (I.store x u s)) = es.map (I.exp ρ s) := by
        refine List.map_congr_left fun e he => exp_store law fun hxe => h ?_
        obtain ⟨l, hl, hlx⟩ := List.mem_map.mp hxe
        exact List.mem_map.mpr ⟨l, List.mem_flatMap.mpr ⟨e, he, hl⟩, hlx⟩
      rw [eff, eff, hes]
      exact hx (.app f _) (by simp [Act.named]) u s
  | index e i ih =>
      rw [CEff.locals, List.map_append, List.mem_append, not_or] at h
      rw [eff, eff, ih h.1, exp_store law h.2]
      exact hx (.index ..) (by simp [Act.named]) u _
  | deref e =>
      rw [eff, eff, exp_store law h]
      exact hx (.deref ..) (by simp [Act.named]) u s
  | derefField e f =>
      rw [eff, eff, exp_store law h]
      exact hx (.derefField ..) (by simp [Act.named]) u s

theorem assign_store (law : I.Lawful) (hx : I.Unseen x) {lv : CLvalue}
    (h : x ∉ lv.locals.map fun l => l.1) {v : V} {s' : σ} :
    I.assign ρ (I.store x u s) lv v (I.store x u s') = I.store x u (I.assign ρ s lv v s') := by
  have hact : (I.act (.assign (I.place ρ (I.store x u s) lv) v) (I.store x u s')).2
      = I.store x u (I.act (.assign (I.place ρ s lv) v) s').2 := by
    rw [place_store law h, hx]
    intro hxb
    obtain ⟨l, hl, rfl⟩ := List.mem_map.mp hxb
    exact h (List.mem_map_of_mem (base_place lv l hl))
  cases lv with
  | var w =>
      cases w with
      | clocal y =>
          have hyx : y.1 ≠ x := fun hyx => h (by simp [CLvalue.locals, CVar.locals, hyx])
          exact law.store_comm _ _ _ hyx
      | global g => exact hact
  | _ => exact hact

/-- A step that does not name an unseen local runs the same with any content of it. -/
theorem step_store (law : I.Lawful) (hx : I.Unseen x) {st : Step} (h : x ∉ st.names)
    (o : Option (Outcome V)) :
    I.step ρ st ⟨I.store x u s, o⟩ =
      ⟨I.store x u (I.step ρ st ⟨s, o⟩).memory, (I.step ρ st ⟨s, o⟩).outcome⟩ := by
  rw [Step.names, List.map_append, List.mem_append, not_or] at h
  obtain ⟨hl, hb⟩ := h
  cases st with
  | bind b =>
      obtain ⟨y, e⟩ := b
      have hyx : y.1 ≠ x := fun hyx => hb (by simp [Step.bound, hyx])
      simp only [step]
      rw [eff_store law hx hl, law.store_comm _ _ _ hyx]
  | const y i =>
      have hyx : y.1 ≠ x := fun hyx => hb (by simp [Step.bound, hyx])
      simp only [step]
      rw [law.store_comm _ _ _ hyx]
  | assign lv e =>
      rw [Step.locals, List.map_append, List.mem_append, not_or] at hl
      simp only [step]
      rw [eff_store law hx hl.2, assign_store law hx hl.1]
  | camlParam xs =>
      simp only [step]
      rw [hx (.camlParam xs) (by simp [Act.named])]
  | result e =>
      simp only [step]
      rw [eff_store law hx hl]
  | camlReturnT ty e =>
      simp only [step]
      rw [exp_store law hl]
  | ret ty e =>
      simp only [step]
      rw [exp_store law hl]

end Unseen

end Interp

end CtypesCbuf.CLanguage
