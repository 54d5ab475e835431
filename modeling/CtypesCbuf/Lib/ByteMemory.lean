import Mathlib.Data.Int.Lemmas

/-!
Memory as bytes by address. Integers are stored little endian; a block of
bytes is copied as a whole, the copy reads the memory before it. What a store
or a copy leaves alone is said by `store_of_notIn` and `copy_of_notIn`.
-/

namespace ByteMemory

abbrev Memory := Int → UInt8

/-- `a` is one of the `n` addresses from `p`. -/
def In (p : Int) (n : Nat) (a : Int) : Prop := p ≤ a ∧ a < p + n

instance (p : Int) (n : Nat) (a : Int) : Decidable (In p n a) := by
  unfold In
  infer_instance

/-- The blocks of `n` bytes at `p` and `q` have an address in common. -/
def Overlap (p q : Int) (n : Nat) : Prop := p < q + n ∧ q < p + n

instance (p q : Int) (n : Nat) : Decidable (Overlap p q n) := by
  unfold Overlap
  infer_instance

/-- The integer in the `n` bytes from `p`. -/
def fetch (m : Memory) (p : Int) : Nat → Int
  | 0 => 0
  | n + 1 => (m p).toNat + 256 * fetch m (p + 1) n

def store (p : Int) : Nat → Int → Memory → Memory
  | 0, _, m => m
  | n + 1, i, m => fun a =>
      if a = p then UInt8.ofNat (i % 256).toNat else store (p + 1) n (i / 256) m a

def copy (dst src : Int) (n : Nat) (m : Memory) : Memory := fun a =>
  if In dst n a then m (src + (a - dst)) else m a

variable {m m' : Memory} {p q a : Int} {n k : Nat} {i : Int}

theorem store_succ : store p (n + 1) i m a =
    if a = p then UInt8.ofNat (i % 256).toNat else store (p + 1) n (i / 256) m a := rfl

theorem store_of_notIn (h : ¬ In p n a) : store p n i m a = m a := by
  induction n generalizing p i with
  | zero => rfl
  | succ n ih =>
      have hp : a ≠ p := by
        rintro rfl
        exact h ⟨by omega, by omega⟩
      have hrest : ¬ In (p + 1) n a := by
        rintro ⟨h1, h2⟩
        exact h ⟨by omega, by omega⟩
      rw [store_succ, if_neg hp, ih hrest]

-- Derive the equations of `fetch` once, before the proofs that use them.
section
attribute [local simp] fetch
end

/-- What is fetched depends on the bytes of the block only. -/
theorem fetch_congr (h : ∀ a, In p n a → m' a = m a) : fetch m' p n = fetch m p n := by
  induction n generalizing p with
  | zero => rfl
  | succ n ih =>
      have hp : m' p = m p := h p ⟨by omega, by omega⟩
      have hrest : fetch m' (p + 1) n = fetch m (p + 1) n :=
        ih fun a ha => h a ⟨by have := ha.1; omega, by have := ha.2; omega⟩
      rw [fetch, fetch, hp, hrest]

/-- The same bytes at another place are the same integer. -/
theorem fetch_moved (h : ∀ k < n, m' (q + (k : Nat)) = m (p + (k : Nat))) :
    fetch m' q n = fetch m p n := by
  induction n generalizing p q with
  | zero => rfl
  | succ n ih =>
      have hfirst : m' q = m p := by simpa using h 0 (Nat.zero_lt_succ n)
      have hrest : fetch m' (q + 1) n = fetch m (p + 1) n := by
        refine ih fun k hk => ?_
        have hnext := h (k + 1) (Nat.succ_lt_succ hk)
        rwa [Int.natCast_succ, Int.add_comm (k : Int), ← Int.add_assoc, ← Int.add_assoc] at hnext
      rw [fetch, fetch, hfirst, hrest]

theorem fetch_nonneg (m : Memory) (p : Int) (n : Nat) : 0 ≤ fetch m p n := by
  induction n generalizing p with
  | zero => exact Int.le_refl 0
  | succ n ih =>
      have hrest := ih (p + 1)
      rw [fetch]
      omega

theorem fetch_lt (m : Memory) (p : Int) (n : Nat) : fetch m p n < 256 ^ n := by
  induction n generalizing p with
  | zero => rw [fetch, Int.pow_zero]; decide
  | succ n ih =>
      have hrest := ih (p + 1)
      have hbyte : ((m p).toNat : Int) < 256 := by exact_mod_cast (m p).toNat_lt
      rw [fetch, Int.pow_succ, Int.mul_comm]
      omega

/-- The lower and the upper bytes of an integer. -/
theorem fetch_add (m : Memory) (p : Int) (n k : Nat) :
    fetch m p (n + k) = fetch m p n + 256 ^ n * fetch m (p + n) k := by
  induction n generalizing p with
  | zero => simp [fetch]
  | succ n ih =>
      have hplace : p + 1 + n = p + (n + 1 : Nat) := by omega
      rw [Nat.add_right_comm, fetch, fetch, ih, hplace, Int.pow_succ, Int.mul_add, Int.add_assoc,
        Int.mul_comm (256 ^ n) 256, Int.mul_assoc]

theorem toNat_lowByte (i : Int) : ((UInt8.ofNat (i % 256).toNat).toNat : Int) = i % 256 := by
  have hlt : (i % 256).toNat < 256 := by omega
  rw [UInt8.toNat_ofNat', Nat.mod_eq_of_lt hlt]
  omega

theorem emod_mul_256 (i k : Int) : i % (256 * k) = i % 256 + 256 * (i / 256 % k) := by
  have hdiv : i / (256 * k) = i / 256 / k := (Int.ediv_ediv_of_nonneg (by decide)).symm
  rw [Int.emod_def, hdiv, Int.emod_def (i / 256) k, Int.mul_assoc, Int.mul_sub]
  omega

/-- A stored integer comes back reduced to its bytes. -/
theorem fetch_store : fetch (store p n i m) p n = i % 256 ^ n := by
  induction n generalizing p i with
  | zero => simp [fetch]
  | succ n ih =>
      have hrest : fetch (store p (n + 1) i m) (p + 1) n =
          fetch (store (p + 1) n (i / 256) m) (p + 1) n := by
        refine fetch_congr fun a ha => ?_
        have hp : a ≠ p := by
          rintro rfl
          have := ha.1
          omega
        rw [store_succ, if_neg hp]
      have hpow : (256 : Int) ^ (n + 1) = 256 * 256 ^ n := by rw [Int.pow_succ, Int.mul_comm]
      rw [fetch, hrest, ih, store_succ, if_pos rfl, toNat_lowByte, hpow, emod_mul_256]

theorem copy_of_notIn {dst src : Int} (h : ¬ In dst n a) : copy dst src n m a = m a := if_neg h

theorem copy_at {dst src : Int} (h : k < n) : copy dst src n m (dst + k) = m (src + k) := by
  rw [copy, if_pos ⟨by omega, by omega⟩]
  congr 1
  omega

end ByteMemory
