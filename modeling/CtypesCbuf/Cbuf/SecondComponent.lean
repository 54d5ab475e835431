import CtypesCbuf.Cbuf.Agreement
import CtypesCbuf.Cbuf.Counting

/-!
The value that is returned next to output buffers, compared with what the
wrapper without buffers returns. The plain wrapper builds the image of the
C result by its type. The wrapper with buffers returns what the external
does.
-/

namespace CtypesCbuf.Cbuf

open NameSupply Supply
open Ctypes hiding Fn
open CLanguage Stubs GenerateML MlLanguage

variable {V W : Type}

/-- `a1 @-> ... @-> an @-> retbuf ~cposition b (returning t)`. -/
def withBuffers (args : List Typ) (cpos : CPosition) (b : CBuffers) (t : Typ) : Fn :=
  arrows args (.buffers cpos b (.returns t))

/-- `a1 @-> ... @-> an @-> returning t`. -/
def plain (args : List Typ) (t : Typ) : Fn := arrows args (.returns t)

@[simp] theorem arguments_arrows (args : List Typ) (tail : Fn) :
    (arrows args tail).arguments = args ++ tail.arguments := by
  induction args with
  | nil => rfl
  | cons a args ih => rw [arrows_cons, Fn.arguments, ih, List.cons_append]

@[simp] theorem tail_arrows (args : List Typ) (tail : Fn) :
    (arrows args tail).tail = tail.tail := by
  induction args with
  | nil => rfl
  | cons a args ih => exact ih

/-- The wrapper that is generated for a specification, and its external. -/
structure Generated where
  fn : Fn
  ext : Extern
  case : Case

/-- `g` is generated for `f`, under the given policies. -/
def Generated.For (g : Generated) (concurrency : ConcurrencyPolicy) (errno_ : ErrnoPolicy)
    (f : Fn) : Prop :=
  g.fn = f ∧ ∃ pre counter cname n n',
    extern_ errno_ (var pre counter cname) (var pre counter cname) f = .ok g.ext ∧
    GenerateML.case concurrency errno_ cname (var pre counter cname) f n = .ok (g.case, n')

def Generated.call (g : Generated) (concurrency : ConcurrencyPolicy) (errno_ : ErrnoPolicy)
    (I : MlLanguage.Interp V W) (args : List V) (w : W) : Option (Sem V W × Store V W) :=
  callWrapper I (externFile concurrency errno_ g.ext) g.case g.fn args w

/-- Whatever the functions of the views and of the library are: when the
externals return the same value, the second component of what `g` returns is
what `g'` returns. -/
def SecondIsPlain (concurrency : ConcurrencyPolicy) (errno_ : ErrnoPolicy)
    (g g' : Generated) : Prop :=
  ∀ (V W : Type) (I : MlLanguage.Interp V W) (u : V), (∀ us w, (I.external us w).1 = u) →
    ∀ args, args.length = g.fn.arguments.length → ∀ w w',
      ∃ b y s s', g.call concurrency errno_ I args w = some (.val (I.tuple [b, y]), s) ∧
        g'.call concurrency errno_ I args w' = some (.val y, s')

theorem Generated.For.spec {g : Generated} {concurrency : ConcurrencyPolicy}
    {errno_ : ErrnoPolicy} {f : Fn} (h : g.For concurrency errno_ f) (I : MlLanguage.Interp V W)
    (hf : f.arguments ≠ []) {args : List V} (hargs : args.length = f.arguments.length)
    (w : W) : ∃ evs1 evs2 y0, CallSpec I (externFile concurrency errno_ g.ext) f args w
      (g.call concurrency errno_ I args w) evs1 evs2 y0 := by
  obtain ⟨rfl, pre, counter, cname, n, n', hext, hcase⟩ := h
  exact callWrapper_generated hext hcase I hf hargs w

/-- What both wrappers return when the externals return `u`. -/
theorem returned_values {concurrency : ConcurrencyPolicy} {errno_ : ErrnoPolicy}
    (hdirect : runsInLwt concurrency = false) {g g' : Generated} {args : List Typ}
    {cpos : CPosition} {b : CBuffers} {t : Typ}
    (hg : g.For concurrency errno_ (withBuffers args cpos b t))
    (hg' : g'.For concurrency errno_ (plain args t)) (hargs : args ≠ []) (I : MlLanguage.Interp V W)
    {u : V} (hu : ∀ us w, (I.external us w).1 = u) {vs : List V}
    (hvs : vs.length = args.length) (w w' : W) :
    ∃ bufs y s s', g.call concurrency errno_ I vs w =
        some (.val (I.tuple [nested I bufs, u]), s) ∧
      g'.call concurrency errno_ I vs w' = some (.val y, s') ∧
      returnImage I (externFile concurrency errno_ g'.ext) t u y := by
  have hargs1 : (withBuffers args cpos b t).arguments = args := by
    simp [withBuffers, Fn.arguments]
  have hargs2 : (plain args t).arguments = args := by simp [plain, Fn.arguments]
  obtain ⟨evs1, evs2, y0, hcall, -, hout⟩ := hg.spec I (by rwa [hargs1])
    (by rw [hargs1]; exact hvs) w
  obtain ⟨evs1', evs2', y0', hcall', -, hout'⟩ := hg'.spec I (by rwa [hargs2])
    (by rw [hargs2]; exact hvs) w'
  have hnot : ¬ runsInLwt concurrency := by simp [hdirect]
  rw [withBuffers, tail_arrows] at hout
  rw [plain, tail_arrows] at hout'
  obtain ⟨us, bufs, evs, -, -, -, -, hret⟩ := hout
  obtain ⟨us', bufs', evs', -, -, -, -, hret'⟩ := hout'
  have hran : ∀ v, ran I concurrency v = v := by
    intro v
    cases concurrency <;> first | rfl | cases hdirect
  have hpair : y0 = I.tuple [nested I bufs, I.external _ _ |>.1] := hret
  have himage : returnImage I _ t (ran I concurrency _) y0' := hret'
  rw [hu] at hpair
  rw [hran, hu] at himage
  have hsame : ∀ y, delivered I concurrency y = y := delivered_direct hnot
  refine ⟨bufs, y0', (Store.start w).after I (evs1 ++ evs2),
    (Store.start w').after I (evs1' ++ evs2'), hcall.trans ?_, hcall'.trans ?_, himage⟩
  · show some (Sem.val (delivered I concurrency y0), _) = _
    rw [hsame, hpair]
  · show some (Sem.val (delivered I concurrency y0'), _) = _
    rw [hsame]

/-- The types whose values are returned as the external returns them. -/
def ReturnedAsIs (t : Typ) : Prop := t = .void ∨ ∃ p, t = .primitive p

/-! ### Values that remember how they are built -/

/-- Values for which every function of the library makes a new value. -/
inductive Built
  | unit
  /-- What the external returns. -/
  | result
  | bytes (i : Nat)
  | pair (x y : Built)
  | written (v : ViewId) (x : Built)
  | ptr (t : Typ) (x : Built)
  | funptr (fn : Ctypes.Fn) (x : Built)
  | structured (t : Typ) (x : Built)
  | read (v : ViewId) (x : Built)

namespace Built

def tuple : List Built → Built
  | [x, y] => .pair x y
  | _ => .unit

def fst : Built → Built
  | .pair x _ => x
  | x => x

def snd : Built → Built
  | .pair _ y => y
  | _ => .unit

/-- How many times the image of a result is built. Pairs carry it in front. -/
def depth : Built → Nat
  | .pair x _ => x.depth
  | .ptr _ x | .funptr _ x | .structured _ x | .read _ x => x.depth + 1
  | _ => 0

theorem depth_fst (x : Built) : x.fst.depth = x.depth := by
  cases x <;> rfl

/-- The functions of `Ctypes`, with one C function that returns `u`. -/
def interp (u : Built) : MlLanguage.Interp Built Unit :=
  { unit := .unit, tuple, fst, snd, cpointer := id, staticFunptr := id, addr := id,
    ocamlBytesStart := id, makePtr := .ptr, makeFunPtr := .funptr,
    makeStructured := .structured, write := fun v x w => (.written v x, w),
    read := fun v x w => (.read v x, w), bytesCreate := fun i w => (.bytes i, w),
    external := fun _ w => (u, w), runJob := id, await := id, resolved := id, boxLwt := id }

theorem mapped_depth {u : Built} {F : File} {G : Built → Built → Prop}
    (hG : ∀ x y, G x y → y.depth = x.depth + 1) {x y : Built}
    (h : mapped (interp u) F G x y) : y.depth = x.depth + 1 := by
  unfold mapped at h
  split at h
  · exact hG x y h
  · exact hG x y h
  · obtain ⟨r, hr, rfl⟩ := h
    exact (hG _ _ hr).trans (congrArg (· + 1) (depth_fst x))
  · obtain ⟨r, hr, rfl⟩ := h
    exact (hG _ _ hr).trans (congrArg (· + 1) (depth_fst x))
  · obtain ⟨r, hr, rfl⟩ := h
    exact hG _ _ hr
  · obtain ⟨r, hr, rfl⟩ := h
    exact hG _ _ hr
  · obtain ⟨r, hr, rfl⟩ := h
    exact (hG _ _ hr).trans (congrArg (· + 1) (depth_fst x))
  · obtain ⟨r, hr, rfl⟩ := h
    exact (hG _ _ hr).trans (congrArg (· + 1) (depth_fst x))

/-- The image of a result is deeper than the result, but at types returned as
they are. -/
theorem depth_returnImage {u : Built} {F : File} {t : Typ} (ht : Returnable t.core)
    {x y : Built} (h : returnImage (interp u) F t x y) :
    x.depth ≤ y.depth ∧ (¬ ReturnedAsIs t → x.depth < y.depth) := by
  induction t using Typ.core.induct generalizing y with
  | case1 v ty ih =>
      obtain ⟨z, hz, hy⟩ := h
      rw [Typ.core_view] at ht
      have hdeeper := mapped_depth (by rintro x y ⟨w, rfl⟩; rfl) hy
      have hle := (ih ht hz).1
      exact ⟨by omega, fun _ => by omega⟩
  | case2 t hview =>
      have hmade : ∀ {k : Built → Built}, (∀ x, (k x).depth = x.depth + 1) →
          mapped (interp u) F (fun x y => y = k x) x y →
          x.depth ≤ y.depth ∧ (¬ ReturnedAsIs t → x.depth < y.depth) := by
        intro k hk hy
        have hdeeper := mapped_depth (by rintro x y rfl; exact hk x) hy
        exact ⟨by omega, fun _ => by omega⟩
      cases t with
      | view v ty => exact absurd rfl (hview v ty)
      | pointer t => exact hmade (fun _ => rfl) h
      | funptr fn => exact hmade (fun _ => rfl) h
      | struct tag spec fields => exact hmade (fun _ => rfl) h
      | union utag uspec ufields => exact hmade (fun _ => rfl) h
      | void =>
          obtain rfl : y = x := h
          exact ⟨Nat.le_refl _, fun hn => absurd (.inl rfl) hn⟩
      | primitive p =>
          obtain rfl : y = x := h
          exact ⟨Nat.le_refl _, fun hn => absurd (.inr ⟨p, rfl⟩) hn⟩
      | _ => exact ht.elim

end Built

/-- The second component next to output buffers is what the plain wrapper
returns exactly at `void` and the primitives. -/
theorem secondIsPlain_iff {concurrency : ConcurrencyPolicy} {errno_ : ErrnoPolicy}
    (hdirect : runsInLwt concurrency = false) {g g' : Generated} {args : List Typ}
    {cpos : CPosition} {b : CBuffers} {t : Typ}
    (hg : g.For concurrency errno_ (withBuffers args cpos b t))
    (hg' : g'.For concurrency errno_ (plain args t)) (hargs : args ≠ []) :
    SecondIsPlain concurrency errno_ g g' ↔ ReturnedAsIs t := by
  have hlength : g.fn.arguments.length = args.length := by
    rw [hg.1]
    simp [withBuffers, Fn.arguments]
  constructor
  · intro h
    refine Classical.byContradiction fun hn => ?_
    have ht : Returnable t.core := by
      obtain ⟨-, pre, counter, cname, n, n', -, hcase⟩ := hg'
      have hwrap := ((case_succeeds_iff _ _ _ _ _ _).mp ⟨_, hcase⟩).2
      exact (wrappable_arrows.mp hwrap).2
    let vs := args.map fun _ => Built.unit
    have hvs : vs.length = args.length := List.length_map _
    obtain ⟨b0, y0, s0, s0', hcall0, hcall0'⟩ := h Built Unit (Built.interp .result) .result
      (fun _ _ => rfl) vs (hvs.trans hlength.symm) () ()
    obtain ⟨bufs, y, s, s', hcall, hcall', himage⟩ := returned_values hdirect hg hg' hargs
      (Built.interp .result) (u := .result) (fun _ _ => rfl) hvs () ()
    have hlt := (Built.depth_returnImage ht himage).2 hn
    rw [hcall0] at hcall
    rw [hcall0'] at hcall'
    have hpair := Sem.val.inj (Prod.mk.inj (Option.some.inj hcall)).1
    have hval := Sem.val.inj (Prod.mk.inj (Option.some.inj hcall')).1
    rw [← hval, (Built.pair.inj hpair).2] at hlt
    exact absurd hlt (Nat.lt_irrefl _)
  · intro ht V W I u hu vs hvs w w'
    obtain ⟨bufs, y, s, s', hcall, hcall', himage⟩ := returned_values hdirect hg hg' hargs I hu
      (hvs.trans hlength) w w'
    obtain rfl : y = u := by
      rcases ht with rfl | ⟨p, rfl⟩
      · exact himage
      · exact himage
    exact ⟨_, _, _, _, hcall, hcall'⟩

/-- The wrapper and the external generated for a specification, where there are
such. -/
def generated? (errno_ : ErrnoPolicy) (counter : Nat) (f : Fn) : Option Generated :=
  match extern_ errno_ (var "stub" counter "f") (var "stub" counter "f") f,
      GenerateML.case .sequential errno_ "f" (var "stub" counter "f") f 0 with
  | .ok ext, .ok (c, _) => some ⟨f, ext, c⟩
  | _, _ => none

theorem generated?_for {errno_ : ErrnoPolicy} {counter : Nat} {f : Fn} {g : Generated}
    (h : generated? errno_ counter f = some g) : g.For .sequential errno_ f := by
  unfold generated? at h
  split at h
  · rename_i ext c n' hext hcase
    obtain rfl := Option.some.inj h
    exact ⟨rfl, "stub", counter, "f", 0, n', hext, hcase⟩
  · cases h

/-- Two views above `int`, and a result of type `double`. -/
theorem secondIsPlain_double :
    ∃ g g', g.For .sequential .returnErrno
        (withBuffers [.view 0 (.view 1 int)] .first (buffer 4 (.ocaml .bytes))
          (.primitive .double)) ∧
      g'.For .sequential .returnErrno (plain [.view 0 (.view 1 int)] (.primitive .double)) ∧
      (SecondIsPlain .sequential .returnErrno g g' ↔ ReturnedAsIs (.primitive .double)) := by
  obtain ⟨g, hg⟩ : ∃ g, generated? .returnErrno 1 (withBuffers [.view 0 (.view 1 int)] .first
      (buffer 4 (.ocaml .bytes)) (.primitive .double)) = some g := ⟨_, rfl⟩
  obtain ⟨g', hg'⟩ : ∃ g', generated? .returnErrno 2
      (plain [.view 0 (.view 1 int)] (.primitive .double)) = some g' := ⟨_, rfl⟩
  exact ⟨g, g', generated?_for hg, generated?_for hg',
    secondIsPlain_iff rfl (generated?_for hg) (generated?_for hg') (by simp)⟩

def returnedValue? {V W S : Type} (r : Option (Sem V W × S)) : Option V :=
  r.bind fun p => match p.1 with
    | .val v => some v
    | _ => none

/-- A pointer comes back raw next to a buffer, where the plain wrapper makes a
typed pointer of it. -/
theorem pointer_not_secondIsPlain :
    ∃ g g', g.For .sequential .ignoreErrno
        (withBuffers [int] .last (buffer 4 (.ocaml .bytes)) (ptr int)) ∧
      g'.For .sequential .ignoreErrno (plain [int] (ptr int)) ∧
      ¬ SecondIsPlain .sequential .ignoreErrno g g' := by
  obtain ⟨g, hg⟩ : ∃ g, generated? .ignoreErrno 1
      (withBuffers [int] .last (buffer 4 (.ocaml .bytes)) (ptr int)) = some g := ⟨_, rfl⟩
  obtain ⟨g', hg'⟩ : ∃ g', generated? .ignoreErrno 2 (plain [int] (ptr int)) = some g' :=
    ⟨_, rfl⟩
  refine ⟨g, g', generated?_for hg, generated?_for hg', fun h => ?_⟩
  obtain ⟨b, y, s, s', hcall, hcall'⟩ := h Built Unit (Built.interp .result) .result
    (fun _ _ => rfl) [.unit] (by rw [(generated?_for hg).1]; rfl) () ()
  cases hg
  cases hg'
  have hpair : some (Built.pair (.bytes 4) .result) = some (.pair b y) :=
    congrArg returnedValue? hcall
  have hptr : some (Built.ptr int .result) = some y :=
    congrArg returnedValue? hcall'
  have hy := (Built.pair.inj (Option.some.inj hpair)).2
  rw [← hy] at hptr
  cases Option.some.inj hptr

end CtypesCbuf.Cbuf
