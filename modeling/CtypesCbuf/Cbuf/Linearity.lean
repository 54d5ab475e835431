import Mathlib.Data.List.Nodup
import CtypesCbuf.Cbuf.Execution

/-!
Scoping and linearity of a generated stub. Its locals are to be parameters or
bound before, each parameter that stands for a C argument is to be projected
once, and what it projects to is to be passed once. A buffer of a void type
breaks this, and so does anything but void arguments after the buffers.
-/

namespace CtypesCbuf.CLanguage

open StraightLine

/-- Every step mentions locals in `xs` or bound by a step before it. -/
def ScopedIn : List CLocal → List Step → Prop
  | _, [] => True
  | xs, s :: p => (∀ l ∈ s.locals, l ∈ xs) ∧ ScopedIn (s.bound ++ xs) p

/-- The locals that a step projects: the arguments of a function that reads
the OCaml heap, where a let binds the result. -/
def Step.projects : Step → List CLocal
  | .bind (_, .app g es) => if g.readsOcamlHeap then es.flatMap CExp.locals else []
  | _ => []

/-- The parameters that an expression is computed from, for what is known of
the locals. -/
def origins (env : CLocal → List CLocal) (e : CExp) : List CLocal := e.locals.flatMap env

def Step.carry : Step → (CLocal → List CLocal) → CLocal → List CLocal
  | .bind (x, e), env => fun y => if y = x then e.locals.flatMap env else env y
  | .const x _, env => fun y => if y = x then [] else env y
  | .assign (.var (.clocal x)) e, env => fun y => if y = x then e.locals.flatMap env else env y
  | _, env => env

def ownOrigin (params : List CLocal) (x : CLocal) : List CLocal :=
  if x ∈ params then [x] else []

/-- A stub that calls `fvar` is well scoped and linear in the parameters
`needed`. -/
structure Linear (params needed : List CLocal) (fvar : CFunction) (p : List Step) :
    Prop where
  wellScoped : ScopedIn params p
  projected : ∀ x ∈ needed, (p.flatMap Step.projects).count x = 1
  /-- The one call has one argument for each needed parameter, computed from
  this parameter and no other. -/
  passed : ∃ before y args after, p = before ++ .bind (y, .app fvar args) :: after ∧
    (∀ s ∈ before ++ after, ¬ s.Calls fvar) ∧
    (args.map (origins (run Step.carry before (ownOrigin params)))).Perm
      (needed.map fun x => [x])

theorem ScopedIn.mono {xs ys : List CLocal} {p : List Step} (h : ScopedIn xs p)
    (hsub : ∀ x ∈ xs, x ∈ ys) : ScopedIn ys p := by
  induction p generalizing xs ys with
  | nil => trivial
  | cons s p ih =>
      refine ⟨fun l hl => hsub l (h.1 l hl), ih h.2 fun x hx => ?_⟩
      rcases List.mem_append.mp hx with hx | hx
      · exact List.mem_append_left _ hx
      · exact List.mem_append_right _ (hsub x hx)

theorem scopedIn_append {xs : List CLocal} {p q : List Step} (hp : ScopedIn xs p)
    (hq : ScopedIn (p.flatMap Step.bound ++ xs) q) : ScopedIn xs (p ++ q) := by
  induction p generalizing xs with
  | nil => exact hq
  | cons s p ih =>
      refine ⟨hp.1, ih hp.2 (hq.mono fun x hx => ?_)⟩
      simp only [List.flatMap_cons, List.mem_append] at hx ⊢
      tauto

/-- In a scoped program a local is free or bound somewhere. -/
theorem ScopedIn.mem {xs : List CLocal} {p : List Step} (h : ScopedIn xs p) {s : Step}
    (hs : s ∈ p) {l : CLocal} (hl : l ∈ s.locals) :
    l ∈ xs ∨ l ∈ p.flatMap Step.bound := by
  induction p generalizing xs with
  | nil => cases hs
  | cons s' p ih =>
      rw [List.flatMap_cons, List.mem_append]
      rcases List.mem_cons.mp hs with rfl | hs
      · exact .inl (h.1 l hl)
      · rcases ih h.2 hs with hx | hb
        · rcases List.mem_append.mp hx with hx | hx
          · exact .inr (.inl hx)
          · exact .inl hx
        · exact .inr (.inr hb)

@[simp] theorem bound_bind (bs : List CBind) :
    (bs.map .bind).flatMap Step.bound = bs.map fun b => b.1 := by
  induction bs with
  | nil => rfl
  | cons b bs ih => rw [List.map_cons, List.flatMap_cons, ih]; rfl

/-- Lets say nothing new of the locals they do not bind. -/
theorem run_carry_of_notMem {bs : List CBind} {l : CLocal} (h : l ∉ bs.map fun b => b.1)
    (env : CLocal → List CLocal) : run Step.carry (bs.map .bind) env l = env l := by
  induction bs generalizing env with
  | nil => rfl
  | cons b bs ih =>
      rw [List.map_cons, List.mem_cons, not_or] at h
      rw [List.map_cons, run_cons, ih h.2]
      exact if_neg h.1

theorem mem_locals_of_mem_projects {s : Step} {l : CLocal} (h : l ∈ s.projects) :
    l ∈ s.locals := by
  unfold Step.projects at h
  split at h
  · split at h
    · exact h
    · cases h
  · cases h

theorem origins_congr {env env' : CLocal → List CLocal} {e : CExp}
    (h : ∀ l ∈ e.locals, env' l = env l) : origins env' e = origins env e :=
  List.flatMap_congr h

end CtypesCbuf.CLanguage

namespace CtypesCbuf.Cbuf.GenerateC

open NameSupply Supply StraightLine
open Ctypes hiding Fn
open CLanguage Stubs

/-! ### The parameters that C needs -/

/-- The parameter of a stub with the name `x`. -/
def valueParam (x : String) : CLocal := (x, .ty value)

theorem valueParam_injective : Function.Injective valueParam :=
  fun _ _ h => (Prod.mk.inj h).1

def NamedCBuffers.received : NamedCBuffers → List String
  | .lastBuf x _ t => if t.core = .void then [] else [x]
  | .conBuf l r => l.received ++ r.received

def NamedFn.received : NamedFn → List String
  | .returns _ => []
  | .function x f t => if f.core = .void then t.received else x :: t.received
  | .buffers _ b r => b.received ++ r.received

def NamedFn.needed : NamedFn → List String
  | .returns _ => []
  | .function x f t => if f.core = .void then t.needed else x :: t.needed
  | .buffers _ b r => b.names ++ r.needed

end CtypesCbuf.Cbuf.GenerateC

namespace CtypesCbuf.Cbuf

open Ctypes hiding Fn

def CBuffers.NoVoid : CBuffers → Prop
  | .lastBuf _ t => t.core ≠ .void
  | .conBuf l r => l.NoVoid ∧ r.NoVoid

def Fn.OnlyVoid : Fn → Prop
  | .returns _ => True
  | .function f t => f.core = .void ∧ t.OnlyVoid
  | .buffers _ _ _ => False

/-- The buffers are of no void type, and void arguments alone follow them. -/
def Fn.KeepsAll : Fn → Prop
  | .returns _ => True
  | .function _ t => t.KeepsAll
  | .buffers _ b r => b.NoVoid ∧ r.OnlyVoid

end CtypesCbuf.Cbuf

namespace CtypesCbuf.Cbuf.GenerateC

open NameSupply Supply StraightLine
open Ctypes hiding Fn
open CLanguage Stubs

theorem mem_names_of_mem_receivedBuffers {b : NamedCBuffers} {x : String}
    (h : x ∈ b.received) : x ∈ b.names := by
  induction b with
  | lastBuf y i t =>
      rw [NamedCBuffers.received] at h
      split at h
      · cases h
      · exact h
  | conBuf l r ihl ihr =>
      rcases List.mem_append.mp h with h | h
      · exact List.mem_append_left _ (ihl h)
      · exact List.mem_append_right _ (ihr h)

theorem mem_needed_of_mem_received {f : NamedFn} {x : String} (h : x ∈ f.received) :
    x ∈ f.needed := by
  induction f with
  | returns t => cases h
  | function y f t ih =>
      rw [NamedFn.received] at h
      rw [NamedFn.needed]
      split
      · rename_i hv
        rw [if_pos hv] at h
        exact ih h
      · rename_i hv
        rw [if_neg hv] at h
        rcases List.mem_cons.mp h with rfl | h
        · exact List.mem_cons_self
        · exact List.mem_cons_of_mem _ (ih h)
  | buffers cpos b r ih =>
      rcases List.mem_append.mp h with h | h
      · exact List.mem_append_left _ (mem_names_of_mem_receivedBuffers h)
      · exact List.mem_append_right _ (ih h)

theorem needed_sublist (f : NamedFn) : f.needed.Sublist f.names := by
  induction f with
  | returns t => exact List.Sublist.refl _
  | function y f t ih =>
      rw [NamedFn.needed, NamedFn.names]
      split
      · exact ih.cons y
      · exact ih.cons_cons y
  | buffers cpos b r ih => exact (List.Sublist.refl _).append ih

theorem mem_names_of_mem_needed {f : NamedFn} {x : String} (h : x ∈ f.needed) :
    x ∈ f.names := (needed_sublist f).subset h

/-- Buffers are all projected when none is void. -/
theorem noVoid_iff {b : NamedCBuffers} (hnodup : b.names.Nodup) :
    b.spec.NoVoid ↔ ∀ x ∈ b.names, x ∈ b.received := by
  induction b with
  | lastBuf x i t =>
      by_cases ht : t.core = .void <;>
        simp [NamedCBuffers.spec, CBuffers.NoVoid, NamedCBuffers.names,
          NamedCBuffers.received, ht]
  | conBuf l r ihl ihr =>
      obtain ⟨hl, hr, hdisjoint⟩ := List.nodup_append.mp hnodup
      rw [NamedCBuffers.spec, CBuffers.NoVoid, ihl hl, ihr hr]
      simp only [NamedCBuffers.names, NamedCBuffers.received, List.mem_append]
      constructor
      · rintro ⟨h1, h2⟩ x (hx | hx)
        · exact .inl (h1 x hx)
        · exact .inr (h2 x hx)
      · intro h
        refine ⟨fun x hx => ?_, fun x hx => ?_⟩
        · rcases h x (.inl hx) with h | h
          · exact h
          · exact absurd rfl (hdisjoint x hx x (mem_names_of_mem_receivedBuffers h))
        · rcases h x (.inr hx) with h | h
          · exact absurd rfl (hdisjoint x (mem_names_of_mem_receivedBuffers h) x hx)
          · exact h

theorem received_of_noVoid {b : NamedCBuffers} (h : b.spec.NoVoid) :
    b.received = b.names := by
  induction b with
  | lastBuf x i t => exact if_neg h
  | conBuf l r ihl ihr => rw [NamedCBuffers.received, ihl h.1, ihr h.2, NamedCBuffers.names]

theorem names_ne_nil (b : NamedCBuffers) : b.names ≠ [] := by
  induction b with
  | lastBuf x i t => simp [NamedCBuffers.names]
  | conBuf l r ihl ihr => simp [NamedCBuffers.names, ihl]

theorem onlyVoid_iff {f : NamedFn} : f.spec.OnlyVoid ↔ f.needed = [] := by
  induction f with
  | returns t => simp [NamedFn.spec, Fn.OnlyVoid, NamedFn.needed]
  | function x f t ih =>
      by_cases hv : f.core = .void <;>
        simp [NamedFn.spec, Fn.OnlyVoid, NamedFn.needed, hv, ih]
  | buffers cpos b r ih =>
      simp [NamedFn.spec, Fn.OnlyVoid, NamedFn.needed, names_ne_nil b]

/-- When a specification keeps all its parameters, and which parameters a stub
that does not keep them leaves out. -/
theorem keepsAll_iff {f : NamedFn} (hnodup : f.names.Nodup) :
    f.spec.KeepsAll ↔ (∀ x ∈ f.needed, x ∈ f.received) ∧
      ∀ x ∈ f.received, valueParam x ∈ valueParams f := by
  induction f with
  | returns t => simp [NamedFn.spec, Fn.KeepsAll, NamedFn.needed, NamedFn.received]
  | function x f t ih =>
      obtain ⟨hx, ht⟩ := List.nodup_cons.mp hnodup
      have hold : ∀ y ∈ t.needed, y ≠ x := by
        rintro y hy rfl
        exact hx (mem_names_of_mem_needed hy)
      have hparam : ∀ y ∈ t.received,
          valueParam y ∈ valueParams (.function x f t) ↔ valueParam y ∈ valueParams t := by
        intro y hy
        have hne := hold y (mem_needed_of_mem_received hy)
        simp [valueParams, valueParam, hne]
      rw [NamedFn.spec, Fn.KeepsAll, ih ht, NamedFn.needed, NamedFn.received]
      split
      · exact and_congr_right fun _ =>
          forall₂_congr fun y hy => (hparam y hy).symm
      · refine and_congr ?_ ?_
        · constructor
          · intro h y hy
            rcases List.mem_cons.mp hy with rfl | hy
            · exact List.mem_cons_self
            · exact List.mem_cons_of_mem _ (h y hy)
          · intro h y hy
            exact (List.mem_cons.mp (h y (List.mem_cons_of_mem _ hy))).resolve_left (hold y hy)
        · constructor
          · intro h y hy
            rcases List.mem_cons.mp hy with rfl | hy
            · exact List.mem_cons_self
            · exact (hparam y hy).mpr (h y hy)
          · intro h y hy
            exact (hparam y hy).mp (h y (List.mem_cons_of_mem _ hy))
  | buffers cpos b r ih =>
      obtain ⟨hb, hr, hdisjoint⟩ := List.nodup_append.mp hnodup
      rw [NamedFn.spec, Fn.KeepsAll, noVoid_iff hb, onlyVoid_iff, NamedFn.needed,
        NamedFn.received, valueParams, valueParamsOfCbuffers_eq]
      have hmem : ∀ x, valueParam x ∈ b.names.map (fun x => (x, Ty.ty value)) ↔ x ∈ b.names := by
        intro x
        simp [valueParam]
      constructor
      · rintro ⟨hnames, hneeded⟩
        have hreceived : r.received = [] := by
          refine List.eq_nil_iff_forall_not_mem.mpr fun x hx => ?_
          have hx := mem_needed_of_mem_received hx
          rw [hneeded] at hx
          cases hx
        simp only [hneeded, hreceived, List.append_nil]
        exact ⟨hnames, fun x hx => (hmem x).mpr (mem_names_of_mem_receivedBuffers hx)⟩
      · rintro ⟨hneeded, hparams⟩
        have hother : ∀ x ∈ r.names, x ∉ b.names :=
          fun x hx hx' => hdisjoint x hx' x hx rfl
        refine ⟨fun x hx => ?_, List.eq_nil_iff_forall_not_mem.mpr fun x hx => ?_⟩
        · rcases List.mem_append.mp (hneeded x (List.mem_append_left _ hx)) with h | h
          · exact h
          · exact absurd hx (hother x (mem_names_of_mem_needed (mem_needed_of_mem_received h)))
        · have hnb := hother x (mem_names_of_mem_needed hx)
          rcases List.mem_append.mp (hneeded x (List.mem_append_right _ hx)) with h | h
          · exact hnb (mem_names_of_mem_receivedBuffers h)
          · exact hnb ((hmem x).mp (hparams x (List.mem_append_right _ h)))

theorem needed_of_keepsAll {f : NamedFn} (h : f.spec.KeepsAll) :
    f.needed = f.received := by
  induction f with
  | returns t => rfl
  | function x f t ih => rw [NamedFn.needed, NamedFn.received, ih h]
  | buffers cpos b r ih =>
      have hr : r.received = [] := by
        refine List.eq_nil_iff_forall_not_mem.mpr fun x hx => ?_
        have hx := mem_needed_of_mem_received hx
        rw [onlyVoid_iff.mp h.2] at hx
        cases hx
      rw [NamedFn.needed, NamedFn.received, onlyVoid_iff.mp h.2, hr, received_of_noVoid h.1]

/-! ### What a layout projects -/

theorem projected_projects (f : Typ) (x : String) (n : Nat) :
    ((projected f (valueLocal x) n).binds.map .bind).flatMap Step.projects =
      [valueParam x] := by
  rw [projected]
  cases f.core with
  | primitive p =>
      simp [Projected.ofCore, Step.projects, CExp.locals, Stubs.valueLocal, valueParam]
  | ocaml o => cases o <;> rfl
  | _ => rfl

theorem layoutBuffers_projects (cpos : CPosition) (vars bufvars : List CExp)
    (b : NamedCBuffers) (n : Nat) (h : AcceptedBuffers b.spec) :
    ((layoutBuffers cpos vars bufvars b n).binds.map .bind).flatMap Step.projects =
      b.received.map valueParam := by
  induction bufvars, b using bodyForCbuffers.induct vars generalizing n with
  | case1 bufvars x i f =>
      rw [layoutBuffers, NamedCBuffers.received]
      split
      · rfl
      · exact projected_projects f x n
  | case2 bufvars x i f t ih1 ih2 =>
      rw [layoutBuffers, NamedCBuffers.received, NamedCBuffers.received]
      split
      · exact ih1 n h.2
      · rw [BufferLayout.after, List.map_append, List.flatMap_append, projected_projects,
          ih2 _ _ h.2]
        rfl
  | case3 bufvars l r t => exact h.elim

/-- The lets of a stub project the parameters that are received, in order. -/
theorem layout_projects (vars : List CExp) (f : NamedFn) (n : Nat)
    (h : Accepted f.spec) :
    ((layout vars f n).binds.map .bind).flatMap Step.projects =
      f.received.map valueParam := by
  induction f generalizing vars n with
  | returns t => rfl
  | function x f t ih =>
      rw [layout, NamedFn.received]
      split
      · exact ih vars n h.2
      · rw [Layout.after, List.map_append, List.flatMap_append, projected_projects,
          ih _ _ h.2]
        rfl
  | buffers cpos b r ih =>
      rw [layout, NamedFn.received, Layout.after, List.map_append, List.flatMap_append,
        layoutBuffers_projects cpos vars [] b n h.1, ih _ _ h.2, List.map_append]

theorem projected_scoped {xs : List CLocal} (f : Typ) {x : String} (hx : valueParam x ∈ xs)
    (n : Nat) : ScopedIn xs ((projected f (valueLocal x) n).binds.map .bind) := by
  have hx : (x, Ty.ty value) ∈ xs := hx
  rw [projected]
  cases f.core with
  | ocaml o =>
      cases o <;> simp [Projected.ofCore, ScopedIn, Step.locals, CEff.locals, CExp.locals,
        Stubs.valueLocal, ocamlToPtr, stringToPtr, bytesToPtr, floatArrayToPtr, hx]
  | _ =>
      simp [Projected.ofCore, ScopedIn, Step.locals, Step.bound, CEff.locals, CExp.locals,
        Stubs.valueLocal, ofFatptr, hx]

theorem layoutBuffers_scoped (cpos : CPosition) (vars bufvars : List CExp)
    (b : NamedCBuffers) (n : Nat) {xs : List CLocal}
    (h : ∀ x ∈ b.received, valueParam x ∈ xs) :
    ScopedIn xs ((layoutBuffers cpos vars bufvars b n).binds.map .bind) := by
  induction bufvars, b using bodyForCbuffers.induct vars generalizing n xs with
  | case1 bufvars x i f =>
      rw [NamedCBuffers.received] at h
      rw [layoutBuffers]
      split
      · trivial
      · rename_i hv
        rw [if_neg hv] at h
        exact projected_scoped f (h x List.mem_cons_self) n
  | case2 bufvars x i f t ih1 ih2 =>
      rw [NamedCBuffers.received, NamedCBuffers.received] at h
      rw [layoutBuffers]
      split
      · exact ih1 n fun y hy => h y (List.mem_append_right _ hy)
      · rename_i hv
        rw [if_neg hv] at h
        rw [BufferLayout.after, List.map_append]
        exact scopedIn_append (projected_scoped f (h x List.mem_cons_self) n)
          (ih2 _ _ fun y hy => List.mem_append_right _ (h y (List.mem_cons_of_mem _ hy)))
  | case3 bufvars l r t => trivial

/-- The lets mention the received parameters and what they bound before. -/
theorem layout_scoped (vars : List CExp) (f : NamedFn) (n : Nat) {xs : List CLocal}
    (h : ∀ x ∈ f.received, valueParam x ∈ xs) :
    ScopedIn xs ((layout vars f n).binds.map .bind) := by
  induction f generalizing vars n xs with
  | returns t => trivial
  | function x f t ih =>
      rw [NamedFn.received] at h
      rw [layout]
      split
      · rename_i hv
        rw [if_pos hv] at h
        exact ih vars n h
      · rename_i hv
        rw [if_neg hv] at h
        rw [Layout.after, List.map_append]
        exact scopedIn_append (projected_scoped f (h x List.mem_cons_self) n)
          (ih _ _ fun y hy => List.mem_append_right _ (h y (List.mem_cons_of_mem _ hy)))
  | buffers cpos b r ih =>
      rw [layout, Layout.after, List.map_append]
      exact scopedIn_append
        (layoutBuffers_scoped cpos vars [] b n fun y hy => h y (List.mem_append_left _ hy))
        (ih _ _ fun y hy => List.mem_append_right _ (h y (List.mem_append_right _ hy)))

/-! ### What the arguments of the call come from -/

/-- Projecting one parameter, for what is known of the locals. -/
theorem project_carry (f : Typ) (x : String) (n : Nat) (env : CLocal → List CLocal) :
    let p := projected f (valueLocal x) n
    let env' := run Step.carry (p.binds.map .bind) env
    (∀ l, Drawn freshName 0 n l.1 → env' l = env l) ∧
      ∀ es, DrawnBefore n es →
        (p.arg :: es).map (origins env') = env (valueParam x) :: es.map (origins env) := by
  intro p env'
  have hold : ∀ l, Drawn freshName 0 n l.1 → env' l = env l := by
    intro l hl
    refine run_carry_of_notMem (fun hmem => ?_) env
    obtain ⟨b, hb, rfl⟩ := List.mem_map.mp hmem
    have hb := (projected_reads f (valueLocal x) n).names.drawn b.1.1
      (List.mem_map.mpr ⟨b, hb, rfl⟩)
    exact hl.ne freshName_inj hb rfl
  have harg : origins env' p.arg = env (valueParam x) := by
    show origins (run Step.carry ((projected f (valueLocal x) n).binds.map .bind) env)
      (projected f (valueLocal x) n).arg = _
    rw [projected]
    cases f.core with
    | ocaml o =>
        cases o <;> simp [Projected.ofCore, origins, Step.carry, CEff.locals, CExp.locals,
          Stubs.valueLocal, ocamlToPtr, stringToPtr, bytesToPtr, floatArrayToPtr, valueParam]
    | _ =>
        simp [Projected.ofCore, origins, Step.carry, CEff.locals, CExp.locals, Stubs.valueLocal,
          ofFatptr, valueParam]
  refine ⟨hold, fun es hes => ?_⟩
  rw [List.map_cons, harg]
  congr 1
  refine List.map_congr_left fun e he => ?_
  exact origins_congr fun l hl => hold l (hes e he l hl)

theorem layoutBuffers_carry (cpos : CPosition) (vars bufvars : List CExp)
    (b : NamedCBuffers) (n : Nat) (env : CLocal → List CLocal)
    (hb : AcceptedBuffers b.spec) (hvoid : b.spec.NoVoid)
    (hnames : ∀ x ∈ b.names, Drawn freshName 0 n x) (hvars : DrawnBefore n vars)
    (hbufvars : DrawnBefore n bufvars) :
    (layoutBuffers cpos vars bufvars b n).vars.map (origins
        (run Step.carry ((layoutBuffers cpos vars bufvars b n).binds.map .bind) env)) =
      arrange cpos (vars.map (origins env))
        ((b.names.map fun x => env (valueParam x)).reverse ++ bufvars.map (origins env)) := by
  induction bufvars, b using bodyForCbuffers.induct vars generalizing n env with
  | case1 bufvars x i f =>
      obtain ⟨-, hstep⟩ := project_carry f x n env
      have hmap := hstep bufvars hbufvars
      have hmap' := (List.cons.inj (hstep vars hvars)).2
      rw [layoutBuffers, if_neg hvoid, map_arrange, hmap, hmap']
      rfl
  | case2 bufvars x i f t ih1 ih2 =>
      obtain ⟨hold, hstep⟩ := project_carry f x n env
      have hle := (projected_reads f (valueLocal x) n).names.le
      have ht : ∀ y ∈ t.names, Drawn freshName 0 n y :=
        fun y hy => hnames y (by simp [NamedCBuffers.names, hy])
      have hnew : ∀ y ∈ t.names, run Step.carry
          ((projected f (valueLocal x) n).binds.map .bind) env (valueParam y) =
            env (valueParam y) := fun y hy => hold _ (ht y hy)
      rw [layoutBuffers, if_neg hvoid.1, BufferLayout.after, List.map_append, run_append]
      refine (ih2 _ _ _ hb.2 hvoid.2 (fun y hy => (ht y hy).mono (Nat.le_refl 0) hle)
        (fun e he => hvars.projected f (valueLocal x) e (List.mem_cons_of_mem _ he))
        (hbufvars.projected f (valueLocal x))).trans ?_
      rw [hstep bufvars hbufvars, (List.cons.inj (hstep vars hvars)).2,
        List.map_congr_left hnew]
      simp [NamedCBuffers.names]
  | case3 bufvars l r t => exact hb.elim

theorem arrange_perm {α : Type} (cpos : CPosition) (vars bufvars : List α) :
    (arrange cpos vars bufvars).Perm (vars ++ bufvars) := by
  cases cpos with
  | first => exact List.Perm.refl _
  | last => exact List.perm_append_comm

/-- Void arguments add nothing. -/
theorem layout_onlyVoid {f : NamedFn} (h : f.spec.OnlyVoid) (vars : List CExp) (n : Nat) :
    (layout vars f n).binds = [] ∧ (layout vars f n).vars = vars := by
  induction f with
  | returns t => exact ⟨rfl, rfl⟩
  | function x f t ih =>
      rw [layout, if_pos h.1]
      exact ih h.2
  | buffers cpos b r ih => exact h.elim

/-- Each argument of the call comes from one needed parameter, and each needed
parameter is passed once. -/
theorem layout_carry (vars : List CExp) (f : NamedFn) (n : Nat)
    (env : CLocal → List CLocal) (hf : Accepted f.spec) (hkeeps : f.spec.KeepsAll)
    (hnames : ∀ x ∈ f.names, Drawn freshName 0 n x) (hvars : DrawnBefore n vars) :
    ((layout vars f n).vars.map (origins
        (run Step.carry ((layout vars f n).binds.map .bind) env))).Perm
      (vars.map (origins env) ++ f.needed.map fun x => env (valueParam x)) := by
  induction f generalizing vars n env with
  | returns t => simp [layout, NamedFn.needed]
  | function x f t ih =>
      have ht : ∀ y ∈ t.names, Drawn freshName 0 n y :=
        fun y hy => hnames y (by simp [NamedFn.names, hy])
      rw [layout, NamedFn.needed]
      split
      · exact ih vars n env hf.2 hkeeps ht hvars
      · obtain ⟨hold, hstep⟩ := project_carry f x n env
        have hle := (projected_reads f (valueLocal x) n).names.le
        have hnew : ∀ y ∈ t.needed, run Step.carry
            ((projected f (valueLocal x) n).binds.map .bind) env (valueParam y) =
              env (valueParam y) := fun y hy => hold _ (ht y (mem_names_of_mem_needed hy))
        rw [Layout.after, List.map_append, run_append]
        refine (ih _ _ _ hf.2 hkeeps (fun y hy => (ht y hy).mono (Nat.le_refl 0) hle)
          (hvars.projected f (valueLocal x))).trans ?_
        rw [hstep vars hvars, List.map_congr_left hnew, List.map_cons]
        exact List.perm_middle.symm
  | buffers cpos b r ih =>
      have hb : ∀ y ∈ b.names, Drawn freshName 0 n y :=
        fun y hy => hnames y (by simp [NamedFn.names, hy])
      have hcarry := layoutBuffers_carry cpos vars [] b n env hf.1 hkeeps.1 hb hvars
        (by simp [DrawnBefore])
      obtain ⟨hbinds, hsame⟩ := layout_onlyVoid hkeeps.2
        (layoutBuffers cpos vars [] b n).vars (layoutBuffers cpos vars [] b n).next
      rw [layout, Layout.after, hbinds, hsame, List.append_nil, hcarry, NamedFn.needed,
        onlyVoid_iff.mp hkeeps.2, List.append_nil, List.map_nil, List.append_nil]
      exact (arrange_perm cpos _ _).trans ((List.reverse_perm _).append_left _)

/-! ### Linear stubs -/

/-- What follows the projections is scoped when the arguments of the call
are. -/
theorem callTail_scoped {errno_ : ErrnoPolicy} {fvar : CFunction} {vars : List CExp}
    {t u : Typ} {i : CEff} {n : Nat} {xs : List CLocal}
    (hvars : ∀ e ∈ vars, ∀ l ∈ e.locals, l ∈ xs)
    (hi : Injection (freshName (n + 1), .ty t) u i) :
    ScopedIn xs (callTail errno_ fvar vars t i n).steps := by
  have hcall : ∀ l ∈ (callStep fvar vars t n).locals, l ∈ xs := by
    intro l hl
    obtain ⟨e, he, hl⟩ := List.mem_flatMap.mp hl
    exact hvars e (List.mem_reverse.mp he) l hl
  have hinj : ∀ l ∈ i.locals, l ∈ (freshName (n + 1), Ty.ty t) :: xs := by
    intro l hl
    rw [hi.locals l hl]
    exact List.mem_cons_self
  rw [callTail_steps]
  cases errno_ with
  | ignoreErrno => exact ⟨hcall, hinj, trivial⟩
  | returnErrno =>
      refine ⟨by simp [Step.locals, CLvalue.locals, CVar.locals, CEff.locals, CExp.locals],
        hcall, hinj, ?_, trivial⟩
      simp [Step.locals, pairWithErrno, CEff.locals, CExp.locals, Step.bound]

section Stub

variable {errno_ : ErrnoPolicy} {cname stubName : String} {f : Fn} {n n1 : Nat}
  {d : CFundef} {f' : NamedFn} {i : CEff}

/-- The locals of a stub that its steps bind were drawn after its parameters. -/
theorem StubOf.bound_drawn (hd : StubOf errno_ cname stubName f n d f' n1 i) :
    ∀ l ∈ d.body.steps.flatMap Step.bound, ∃ hi, Drawn freshName n1 hi l.1 := by
  have hbinds := (layout_reading [] f' n1).binds.names
  have hle := hbinds.le
  intro l hl
  rw [hd.def_eq, CComp.steps_lets, callTail_steps, List.flatMap_append, bound_bind,
    List.mem_append] at hl
  rcases hl with hl | hl
  · obtain ⟨b, hb, rfl⟩ := List.mem_map.mp hl
    exact ⟨_, hbinds.drawn b.1.1 (List.mem_map.mpr ⟨b, hb, rfl⟩)⟩
  · refine ⟨(layout [] f' n1).next + 2, ?_⟩
    cases errno_ with
    | ignoreErrno =>
        obtain rfl : l = (freshName ((layout [] f' n1).next + 1),
            .ty (layout [] f' n1).ret) := by
          simpa [resetSteps, callStep, returnSteps, Step.bound] using hl
        exact drawn_of_lt (by omega) (by omega)
    | returnErrno =>
        have hl : l = (freshName ((layout [] f' n1).next + 1), .ty (layout [] f' n1).ret) ∨
            l = (freshName ((layout [] f' n1).next + 2), .ty value) := by
          simpa [resetSteps, callStep, returnSteps, Step.bound] using hl
        rcases hl with rfl | rfl
        · exact drawn_of_lt (by omega) (by omega)
        · exact drawn_of_lt (by omega) (by omega)

/-- The projections of a stub are those of its lets, and of the C result when
that is copied. -/
theorem StubOf.projects (hd : StubOf errno_ cname stubName f n d f' n1 i)
    (hf : Accepted f) {x : String} (hx : x ∈ f'.names) :
    (d.body.steps.flatMap Step.projects).count (valueParam x) =
      (f'.received.map valueParam).count (valueParam x) := by
  have hbinds := (layout_reading [] f' n1).binds.names
  have hx := (hd.names.drawn x hx).mono (Nat.le_refl n) hbinds.le
  have hlater : valueParam x ∉ (resetSteps errno_ ++ callStep (foreignFunction cname f)
      (layout [] f' n1).vars (layout [] f' n1).ret (layout [] f' n1).next ::
        returnSteps errno_ i (layout [] f' n1).next).flatMap Step.projects := by
    intro hmem
    obtain ⟨s, hs, hmem⟩ := List.mem_flatMap.mp hmem
    rcases List.mem_append.mp hs with hs | hs
    · cases errno_ with
      | ignoreErrno => cases hs
      | returnErrno =>
          obtain rfl := List.mem_singleton.mp hs
          cases hmem
    · rcases List.mem_cons.mp hs with rfl | hs
      · cases hmem
      · have hl := after_call_locals (inj_injection hd.inj_eq) s hs _
          (mem_locals_of_mem_projects hmem)
        exact hx.ne freshName_inj hl rfl
  rw [hd.def_eq, CComp.steps_lets, callTail_steps, List.flatMap_append, List.count_append,
    layout_projects [] f' n1 (hd.spec_eq ▸ hf), List.count_eq_zero_of_not_mem hlater,
    Nat.add_zero]

/-- A linear stub leaves no parameter out. -/
theorem StubOf.keepsAll_of_linear (hd : StubOf errno_ cname stubName f n d f' n1 i)
    (hf : Accepted f)
    (h : Linear d.dec.params (f'.needed.map valueParam) (foreignFunction cname f)
      d.body.steps) : f.KeepsAll := by
  have hparams : d.dec.params = valueParams f' := by rw [hd.def_eq]
  rw [← hd.spec_eq, keepsAll_iff hd.names.nodup]
  refine ⟨fun x hx => ?_, fun x hx => ?_⟩
  · -- a needed parameter is projected
    have hcount := h.projected (valueParam x) (List.mem_map.mpr ⟨x, hx, rfl⟩)
    rw [hd.projects hf (mem_names_of_mem_needed hx)] at hcount
    have hmem : valueParam x ∈ f'.received.map valueParam :=
      List.count_pos_iff.mp (by omega)
    obtain ⟨y, hy, hxy⟩ := List.mem_map.mp hmem
    exact (Prod.mk.inj hxy).1 ▸ hy
  · -- what is projected is a parameter, since lets bind other names
    have hname := hd.names.drawn x (mem_names_of_mem_needed (mem_needed_of_mem_received hx))
    have hprojected : valueParam x ∈ ((layout [] f' n1).binds.map Step.bind).flatMap
        Step.projects := by
      rw [layout_projects [] f' n1 (hd.spec_eq ▸ hf)]
      exact List.mem_map.mpr ⟨x, hx, rfl⟩
    obtain ⟨s, hs, hmem⟩ := List.mem_flatMap.mp hprojected
    have hs : s ∈ d.body.steps := by
      rw [hd.def_eq, CComp.steps_lets]
      exact List.mem_append_left _ hs
    rw [← hparams]
    rcases h.wellScoped.mem hs (mem_locals_of_mem_projects hmem) with hl | hl
    · exact hl
    · obtain ⟨hi, hdrawn⟩ := hd.bound_drawn _ hl
      exact absurd rfl (hname.ne freshName_inj hdrawn)

theorem StubOf.linear_of_keepsAll (hd : StubOf errno_ cname stubName f n d f' n1 i)
    (hf : Accepted f) (h : f.KeepsAll) :
    Linear d.dec.params (f'.needed.map valueParam) (foreignFunction cname f)
      d.body.steps := by
  have hparams : d.dec.params = valueParams f' := by rw [hd.def_eq]
  have hf' : Accepted f'.spec := hd.spec_eq ▸ hf
  have hkeeps : f'.spec.KeepsAll := hd.spec_eq ▸ h
  have hread := layout_reading [] f' n1
  have hneeded := needed_of_keepsAll hkeeps
  have hreceived := ((keepsAll_iff hd.names.nodup).mp hkeeps).2
  have hsteps := congrArg (fun d => d.body.steps) hd.def_eq
  rw [CComp.steps_lets, callTail_steps] at hsteps
  refine ⟨?_, fun x hx => ?_, ?_⟩
  · rw [hparams, hd.def_eq, CComp.steps_lets]
    refine scopedIn_append (layout_scoped [] f' n1 hreceived)
      (callTail_scoped (fun e he l hl => ?_) (inj_injection hd.inj_eq))
    rw [bound_bind]
    rcases hread.vars e he l hl with hb | ⟨e', he', -⟩
    · exact List.mem_append_left _ hb
    · cases he'
  · obtain ⟨y, hy, rfl⟩ := List.mem_map.mp hx
    have hnodup : (f'.needed.map valueParam).Nodup :=
      List.Nodup.map valueParam_injective (hd.names.nodup.sublist (needed_sublist f'))
    rw [hd.projects hf (mem_names_of_mem_needed hy), ← hneeded]
    exact (hnodup.count).trans (if_pos hx)
  · refine ⟨(layout [] f' n1).binds.map .bind ++ resetSteps errno_,
      (freshName ((layout [] f' n1).next + 1), .ty (layout [] f' n1).ret),
      (layout [] f' n1).vars.reverse, returnSteps errno_ i (layout [] f' n1).next, ?_, ?_, ?_⟩
    · rw [hsteps, List.append_assoc]
      rfl
    · intro s hs
      rcases List.mem_append.mp hs with hs | hs
      · exact (before_call errno_ hread.binds s hs).2
      · exact after_call_calls hf (inj_injection hd.inj_eq) s hs
    · have hcarry := layout_carry [] f' n1 (ownOrigin d.dec.params) hf' hkeeps
        (fun x hx => (hd.names.drawn x hx).mono (Nat.zero_le n) (Nat.le_refl n1))
        (by simp [DrawnBefore])
      have hreset : ∀ env, run Step.carry (resetSteps errno_) env = env := by
        intro env
        cases errno_ <;> rfl
      have hown : ∀ x ∈ f'.needed,
          ownOrigin d.dec.params (valueParam x) = [valueParam x] := by
        intro x hx
        rw [hparams]
        exact if_pos (hreceived x (hneeded ▸ hx))
      rw [run_append, hreset, List.map_map]
      refine ((List.reverse_perm _).map _).trans (hcarry.trans ?_)
      rw [List.map_congr_left hown]
      exact List.Perm.refl _

end Stub

/-- The stub of a specification is well scoped and linear exactly when no
buffer is of a void type and no more than void arguments follow the buffers. -/
theorem stub_linear_iff {errno_ : ErrnoPolicy} {cname stubName : String} {f : Fn}
    {n n1 n2 : Nat} {f' : NamedFn} {d : CFundef} (hn : nameParams f n = .ok (f', n1))
    (h : stub errno_ cname stubName f n = .ok (d, n2)) :
    Linear d.dec.params (f'.needed.map valueParam) (foreignFunction cname f)
      d.body.steps ↔ f.KeepsAll := by
  have hf := (stub_eq_ok h).1
  obtain ⟨d', n2', i, hd', hd⟩ := stub_named errno_ cname stubName hn hf
  obtain ⟨rfl, rfl⟩ : d' = d ∧ n2' = n2 := by simpa [hd'] using h
  exact ⟨hd.keepsAll_of_linear hf, hd.linear_of_keepsAll hf⟩

def timeAndBytes : Fn :=
  .function int (retbuf (buffer 4 (.ocaml .bytes)) (.function .void (.returns .void)))

theorem timeAndBytes_linear :
    ∃ f' n1 d n2, nameParams timeAndBytes 0 = .ok (f', n1) ∧
      stub .returnErrno "f" "stub" timeAndBytes 0 = .ok (d, n2) ∧
      (Linear d.dec.params (f'.needed.map valueParam) (foreignFunction "f" timeAndBytes)
        d.body.steps ↔ timeAndBytes.KeepsAll) := by
  obtain ⟨f', n1, hn, -, -⟩ := nameParams_ok timeAndBytes 0
  obtain ⟨d, n2, i, hd, -⟩ := stub_named .returnErrno "f" "stub" hn
    ⟨.inr trivial, .inr trivial, .inl rfl, trivial⟩
  exact ⟨f', n1, d, n2, hn, hd, stub_linear_iff hn hd⟩

/-- A buffer of a view of `void` in front of 4 bytes. The case for `@*` goes on
with the arguments collected so far where it should go on with the buffers. -/
def voidBuffer : Fn :=
  .function int (retbuf (.conBuf (buffer 4 (.view 0 .void)) (buffer 4 (.ocaml .bytes)))
    (.returns .void))

theorem voidBuffer_not_linear :
    ∃ f' n1 d n2 a b, nameParams voidBuffer 0 = .ok (f', n1) ∧
      stub .ignoreErrno "f" "stub" voidBuffer 0 = .ok (d, n2) ∧
      (∃ before y after, d.body.steps =
        before ++ .bind (y, .app (foreignFunction "f" voidBuffer) [a, a, b]) :: after) ∧
      ¬ Linear d.dec.params (f'.needed.map valueParam) (foreignFunction "f" voidBuffer)
        d.body.steps := by
  have hf : Accepted voidBuffer := ⟨.inr trivial, ⟨.inl rfl, .inr trivial⟩, trivial⟩
  have hn : nameParams voidBuffer 0 = .ok (.function (freshName 3) int
      (.buffers .last (.conBuf (.lastBuf (freshName 2) 4 (.view 0 .void))
        (.lastBuf (freshName 1) 4 (.ocaml .bytes))) (.returns .void)), 3) := rfl
  obtain ⟨d, n2, i, hd, hshape⟩ := stub_named .ignoreErrno "f" "stub" hn hf
  let l := layout [] (.function (freshName 3) int
    (.buffers .last (.conBuf (.lastBuf (freshName 2) 4 (.view 0 .void))
      (.lastBuf (freshName 1) 4 (.ocaml .bytes))) (.returns .void))) 3
  refine ⟨_, _, d, n2, (projected int (valueLocal (freshName 3)) 3).arg,
    (projected (.ocaml .bytes) (valueLocal (freshName 1)) 6).arg, hn, hd, ?_, fun h => ?_⟩
  · rw [hshape.def_eq, CComp.steps_lets, callTail_steps]
    exact ⟨l.binds.map .bind, (freshName (l.next + 1), .ty l.ret),
      returnSteps .ignoreErrno i l.next, rfl⟩
  · exact (hshape.keepsAll_of_linear hf h).1.1 rfl

end CtypesCbuf.Cbuf.GenerateC
