import CtypesCbuf.Cbuf.Layout

/-!
The order of a generated stub. All parameters are projected before the call
of the C function, and what may allocate comes after it, so no pointer into
the OCaml heap is used after a point where the collector can move its block.
-/

namespace CtypesCbuf.Cbuf.GenerateC

open NameSupply Supply StraightLine
open Ctypes hiding Fn
open CLanguage Stubs

/-! ### What a layout binds and reads -/

/-- The lets and arguments of a layout that starts with `lo` names drawn and
`vars` collected. -/
structure Reading (lo hi : Nat) (vars : List CExp) (bs : List CBind)
    (vars' : List CExp) : Prop where
  binds : ReadingBinds lo hi bs
  vars : ∀ e ∈ vars', ∀ l ∈ e.locals,
    l ∈ bs.map (fun b => b.1) ∨ ∃ e' ∈ vars, l ∈ e'.locals

theorem Reading.nil (n : Nat) {vars vars' : List CExp}
    (h : ∀ e ∈ vars', e ∈ vars) : Reading n n vars [] vars' :=
  ⟨ReadingBinds.nil n, fun e he _ hl => .inr ⟨e, h e he, hl⟩⟩

/-- Projecting one more parameter first. -/
theorem Reading.projected {f : Typ} {x : CExp} {n hi : Nat} {vars : List CExp}
    {bs : List CBind} {vars' : List CExp}
    (h : Reading (projected f x n).next hi ((projected f x n).arg :: vars) bs vars') :
    Reading n hi vars ((projected f x n).binds ++ bs) vars' := by
  refine ⟨(projected_reads f x n).append h.binds, ?_⟩
  intro e he l hl
  rw [List.map_append, List.mem_append]
  rcases h.vars e he l hl with hb | ⟨e', he', hl'⟩
  · exact .inl (.inr hb)
  · rcases List.mem_cons.mp he' with rfl | he'
    · exact .inl (.inl (projected_arg_locals f x n l hl'))
    · exact .inr ⟨e', he', hl'⟩

/-- Fewer variables may be collected before. -/
theorem Reading.mono {lo hi : Nat} {vars vars' vars'' : List CExp}
    {bs : List CBind} (h : Reading lo hi vars bs vars')
    (hsub : ∀ e ∈ vars, e ∈ vars'') : Reading lo hi vars'' bs vars' := by
  refine ⟨h.binds, fun e he l hl => ?_⟩
  rcases h.vars e he l hl with hb | ⟨e', he', hl'⟩
  · exact .inl hb
  · exact .inr ⟨e', hsub e' he', hl'⟩

theorem Reading.append {lo mid hi : Nat} {vars vars' vars'' : List CExp}
    {bs bs' : List CBind} (h : Reading lo mid vars bs vars')
    (h' : Reading mid hi vars' bs' vars'') :
    Reading lo hi vars (bs ++ bs') vars'' := by
  refine ⟨h.binds.append h'.binds, ?_⟩
  intro e he l hl
  rw [List.map_append, List.mem_append]
  rcases h'.vars e he l hl with hb | ⟨e', he', hl'⟩
  · exact .inl (.inr hb)
  · rcases h.vars e' he' l hl' with hb | hv
    · exact .inl (.inl hb)
    · exact .inr hv

theorem mem_arrange {cpos : CPosition} {vars bufvars : List CExp} {e : CExp} :
    e ∈ arrange cpos vars bufvars ↔ e ∈ bufvars ++ vars := by
  cases cpos <;> simp [arrange, or_comm]

theorem layoutBuffers_reading (cpos : CPosition) (vars bufvars : List CExp)
    (b : NamedCBuffers) (n : Nat) :
    Reading n (layoutBuffers cpos vars bufvars b n).next (bufvars ++ vars)
      (layoutBuffers cpos vars bufvars b n).binds
      (layoutBuffers cpos vars bufvars b n).vars := by
  induction bufvars, b using bodyForCbuffers.induct vars generalizing n with
  | case1 bufvars x i f =>
      rw [layoutBuffers]
      split
      · exact Reading.nil n fun e he => mem_arrange.mp he
      · have h : Reading (projected f (valueLocal x) n).next
            (projected f (valueLocal x) n).next
            ((projected f (valueLocal x) n).arg :: (bufvars ++ vars)) []
            (arrange cpos vars ((projected f (valueLocal x) n).arg :: bufvars)) :=
          Reading.nil _ fun e he => by simpa using mem_arrange.mp he
        simpa using h.projected
  | case2 bufvars x i f t ih1 ih2 =>
      rw [layoutBuffers]
      split
      · exact (ih1 n).mono fun e he => List.mem_append.mpr (.inr (by simpa using he))
      · exact (ih2 (projected f (valueLocal x) n).arg _).projected
  | case3 bufvars l r t => exact Reading.nil n (by simp [layoutBuffers])

theorem layout_reading (vars : List CExp) (f : NamedFn) (n : Nat) :
    Reading n (layout vars f n).next vars (layout vars f n).binds
      (layout vars f n).vars := by
  induction f generalizing vars n with
  | returns t => exact Reading.nil n fun _ he => he
  | function x f t ih =>
      rw [layout]
      split
      · exact ih vars n
      · exact (ih _ _).projected
  | buffers cpos b r ih =>
      have hb := layoutBuffers_reading cpos vars [] b n
      exact hb.append (ih _ _)

/-! ### The order of a stub -/

/-- What the collector asks of a stub with value parameters `params` that
calls `fvar` and runs the steps `p`. -/
structure CollectorSafe (params : List CLocal) (fvar : CFunction) (p : List Step) :
    Prop where
  /-- The C function is called by exactly one step. -/
  calls_once : ∃ before call after, p = before ++ call :: after ∧ call.Calls fvar ∧
    (∀ s ∈ before, ¬ s.Calls fvar) ∧ ∀ s ∈ after, ¬ s.Calls fvar
  /-- Every projection of a parameter comes before the call. -/
  projects_before_call : NeverAfter (Step.Reads params) (Step.Calls fvar) p
  call_reads_no_param : ∀ s ∈ p, s.Calls fvar → ¬ s.Reads params
  /-- Nothing allocates up to the call. -/
  allocates_after_call : NeverAfter (Step.Calls fvar) Step.Allocates p
  /-- No parameter is read once something has allocated. -/
  reads_before_allocation : NeverAfter (Step.Reads params) Step.Allocates p
  reading_does_not_allocate : ∀ s ∈ p, s.Reads params → ¬ s.Allocates
  /-- What a projection got is not used once something has allocated. -/
  pointers_dead : ∀ b, .bind b ∈ p → (Step.bind b).Reads params →
    NeverAfter (Step.Reads [b.1]) Step.Allocates p ∧
      ∀ s ∈ p, s.Reads [b.1] → ¬ s.Allocates

/-- The C function does not return an OCaml value. -/
theorem returnType_ne_value {f : Fn} (hf : Accepted f) : returnType f ≠ .ty value := by
  induction f with
  | returns t =>
      intro h
      cases h
      exact hf
  | function f t ih => exact ih hf.2
  | buffers cpos b r ih => simp [returnType]

theorem foreign_not_in_injection (cname : String) {f : Fn} (hf : Accepted f)
    {x : CLocal} {t : Typ} {i : CEff} (hi : Injection x t i) :
    foreignFunction cname f ∉ i.functions := fun hmem =>
  returnType_ne_value hf (hi.functions _ hmem)

/-- The steps before the call only read the heap. -/
theorem before_call {cname : String} {f : Fn} {lo hi : Nat} {bs : List CBind}
    (errno_ : ErrnoPolicy) (h : ReadingBinds lo hi bs) :
    ∀ s ∈ bs.map .bind ++ resetSteps errno_,
      ¬ s.Allocates ∧ ¬ s.Calls (foreignFunction cname f) := by
  intro s hs
  rcases List.mem_append.mp hs with hs | hs
  · obtain ⟨b, hb, rfl⟩ := List.mem_map.mp hs
    refine ⟨?_, ?_⟩
    · rintro ⟨g, hg, ha⟩
      rw [(h.readers b hb g hg).1] at ha
      cases ha
    · intro hc
      have hr := (h.readers b hb _ hc).2
      cases hr
  · cases errno_ with
    | ignoreErrno => cases hs
    | returnErrno =>
        obtain rfl := List.mem_singleton.mp hs
        exact ⟨fun ⟨g, hg, _⟩ => (List.not_mem_nil hg).elim,
          fun hc => (List.not_mem_nil hc).elim⟩

/-- The steps after the call read the result and its injection only. -/
theorem after_call_locals {errno_ : ErrnoPolicy} {i : CEff} {n : Nat} {t u : Typ}
    (hi : Injection (freshName (n + 1), .ty t) u i) :
    ∀ s ∈ returnSteps errno_ i n, ∀ l ∈ s.locals, Drawn freshName n (n + 2) l.1 := by
  have hx : Drawn freshName n (n + 2) (freshName (n + 1)) :=
    drawn_of_lt (by omega) (by omega)
  have hv : Drawn freshName n (n + 2) (freshName (n + 2)) :=
    drawn_of_lt (by omega) (by omega)
  intro s hs l hl
  cases errno_ with
  | ignoreErrno =>
      obtain rfl := List.mem_singleton.mp hs
      rw [hi.locals l hl]
      exact hx
  | returnErrno =>
      rcases List.mem_cons.mp hs with rfl | hs
      · rw [hi.locals l hl]
        exact hx
      · obtain rfl := List.mem_singleton.mp hs
        obtain rfl : l = (freshName (n + 2), .ty value) := by
          simpa [Step.locals, pairWithErrno, CEff.locals, CExp.locals] using hl
        exact hv

theorem after_call_calls {errno_ : ErrnoPolicy} {cname : String} {f : Fn} {i : CEff}
    {n : Nat} {x : CLocal} {u : Typ} (hf : Accepted f) (hi : Injection x u i) :
    ∀ s ∈ returnSteps errno_ i n, ¬ s.Calls (foreignFunction cname f) := by
  have hnot := foreign_not_in_injection cname hf hi
  intro s hs
  cases errno_ with
  | ignoreErrno =>
      obtain rfl := List.mem_singleton.mp hs
      exact hnot
  | returnErrno =>
      rcases List.mem_cons.mp hs with rfl | hs
      · exact hnot
      · obtain rfl := List.mem_singleton.mp hs
        simp [Step.Calls, Step.functions, pairWithErrno, CEff.functions,
          foreignFunction, conser]

/-- A program that is safe because of what its three parts read and apply. -/
theorem collectorSafe_of_parts {params : List CLocal} {fvar : CFunction}
    {before after : List Step} {call : Step}
    (hbefore : ∀ s ∈ before, ¬ s.Allocates ∧ ¬ s.Calls fvar)
    (hcall : call.Calls fvar ∧ ¬ call.Allocates ∧ ¬ call.Reads params)
    (hafter : ∀ s ∈ after, ¬ s.Calls fvar ∧ ¬ s.Reads params)
    (hdead : ∀ b, .bind b ∈ before → ∀ s ∈ after, ¬ s.Reads [b.1]) :
    CollectorSafe params fvar (before ++ call :: after) := by
  obtain ⟨hcalls, hquiet, hnoread⟩ := hcall
  have hrest : ∀ s ∈ call :: after, ¬ s.Reads params := by
    intro s hs
    rcases List.mem_cons.mp hs with rfl | hs
    · exact hnoread
    · exact (hafter s hs).2
  have hstart : ∀ s ∈ before ++ [call], ¬ s.Allocates := by
    intro s hs
    rcases List.mem_append.mp hs with hs | hs
    · exact (hbefore s hs).1
    · exact List.mem_singleton.mp hs ▸ hquiet
  have hsplit : before ++ call :: after = (before ++ [call]) ++ after := by simp
  refine
    { calls_once := ⟨before, call, after, rfl, hcalls, fun s hs => (hbefore s hs).2,
        fun s hs => (hafter s hs).1⟩
      projects_before_call :=
        neverAfter_of_split (fun s hs => (hbefore s hs).2) hrest
      call_reads_no_param := ?_
      allocates_after_call := ?_
      reads_before_allocation := ?_
      reading_does_not_allocate := ?_
      pointers_dead := ?_ }
  · intro s hs hc
    rcases List.mem_append.mp hs with hs | hs
    · exact absurd hc (hbefore s hs).2
    · exact hrest s hs
  · rw [hsplit]
    exact neverAfter_of_split hstart fun s hs => (hafter s hs).1
  · rw [hsplit]
    exact neverAfter_of_split hstart fun s hs => (hafter s hs).2
  · intro s hs hr
    rcases List.mem_append.mp hs with hs | hs
    · exact (hbefore s hs).1
    · exact absurd hr (hrest s hs)
  · intro b hb hr
    have hb : .bind b ∈ before := by
      rcases List.mem_append.mp hb with hb | hb
      · exact hb
      · exact absurd hr (hrest _ hb)
    rw [hsplit]
    refine ⟨neverAfter_of_split hstart (hdead b hb), fun s hs hrb => ?_⟩
    rcases List.mem_append.mp hs with hs | hs
    · exact hstart s hs
    · exact absurd hrb (hdead b hb s hs)

theorem params_drawn {f : NamedFn} {lo hi : Nat} (h : FreshNames lo hi f.names) :
    ∀ x ∈ valueParams f, Drawn freshName lo hi x.1 := fun x hx =>
  h.drawn x.1 (mem_names_of_mem_valueParams hx).1

/-- Every generated stub projects, calls, allocates, in this order. -/
theorem stub_collectorSafe {errno_ : ErrnoPolicy} {cname stubName : String} {f : Fn}
    {n n2 : Nat} {d : CFundef}
    (h : stub errno_ cname stubName f n = .ok (d, n2)) :
    CollectorSafe d.dec.params (foreignFunction cname f) d.body.steps := by
  obtain ⟨hf, f', n1, i, hd⟩ := stub_eq_ok h
  have hread := layout_reading [] f' n1
  have hinj := inj_injection hd.inj_eq
  have hparams := params_drawn hd.names
  have hle := hread.binds.names.le
  rw [hd.def_eq, CComp.steps_lets, callTail_steps, ← List.append_assoc]
  -- a name bound by the projections was drawn after those of the parameters
  have hbinds : ∀ b ∈ (layout [] f' n1).binds,
      Drawn freshName n1 (layout [] f' n1).next b.1.1 := fun b hb =>
    hread.binds.names.drawn _ (List.mem_map.mpr ⟨b, hb, rfl⟩)
  have hcall : ∀ l ∈ (callStep (foreignFunction cname f) (layout [] f' n1).vars
      (layout [] f' n1).ret (layout [] f' n1).next).locals,
      Drawn freshName n1 (layout [] f' n1).next l.1 := by
    intro l hl
    obtain ⟨e, he, hl⟩ := List.mem_flatMap.mp hl
    rcases hread.vars e (List.mem_reverse.mp he) l hl with hb | ⟨e', he', -⟩
    · obtain ⟨b, hb', rfl⟩ := List.mem_map.mp hb
      exact hbinds b hb'
    · cases he'
  have hafter : ∀ s ∈ returnSteps errno_ i (layout [] f' n1).next, ∀ l ∈ s.locals,
      Drawn freshName (layout [] f' n1).next ((layout [] f' n1).next + 2) l.1 :=
    after_call_locals hinj
  refine collectorSafe_of_parts (before_call errno_ hread.binds) ⟨?_, ?_, ?_⟩ ?_ ?_
  · exact List.mem_singleton.mpr rfl
  · rintro ⟨g, hg, ha⟩
    obtain rfl := List.mem_singleton.mp hg
    cases ha
  · exact not_reads_of_drawn hparams hcall
  · intro s hs
    have hs' : ∀ l ∈ s.locals, Drawn freshName n1 ((layout [] f' n1).next + 2) l.1 :=
      fun l hl => (hafter s hs l hl).mono hle (Nat.le_refl _)
    exact ⟨after_call_calls hf hinj s hs, not_reads_of_drawn hparams hs'⟩
  · intro b hb s hs
    have hb' : ∀ x ∈ [b.1], Drawn freshName n1 (layout [] f' n1).next x.1 := by
      intro x hx
      obtain rfl := List.mem_singleton.mp hx
      rcases List.mem_append.mp hb with hb | hb
      · obtain ⟨b', hb', hbb⟩ := List.mem_map.mp hb
        cases hbb
        exact hbinds b hb'
      · cases errno_ <;> simp [resetSteps] at hb
    exact not_reads_of_drawn hb' (hafter s hs)

theorem stub_collectorSafe_bytes :
    ∃ d n2, stub .returnErrno "f" "stub" (.function (.ocaml .bytes)
      (retbuf (buffer 4 (.ocaml .bytes)) (.returns (.primitive .int)))) 0 = .ok (d, n2) ∧
      CollectorSafe d.dec.params (foreignFunction "f" (.function (.ocaml .bytes)
        (retbuf (buffer 4 (.ocaml .bytes)) (.returns (.primitive .int))))) d.body.steps := by
  obtain ⟨d, n2, -, -, -, hd, -⟩ := stub_accepted .returnErrno "f" "stub"
    (.function (.ocaml .bytes)
      (retbuf (buffer 4 (.ocaml .bytes)) (.returns (.primitive .int)))) 0
    ⟨.inr trivial, .inr trivial, trivial⟩
  exact ⟨d, n2, hd, stub_collectorSafe hd⟩

end CtypesCbuf.Cbuf.GenerateC
