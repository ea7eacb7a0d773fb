import Mathlib

/-!
# Byte memory

A flat memory of bytes with little-endian loads and stores of any size.

Main results:

- Lemma {lit}`Memory.load_store_self`: a store is read back modulo its size.
- Lemma {lit}`Memory.load_store_of_disjoint`: a store does not change a load
  from other bytes.
-/

/-- A memory gives every address a byte. -/
abbrev Memory := Nat → BitVec 8

namespace Memory

open BitVec

/-- The integer stored in a number of bytes. -/
def load (m : Memory) (a : Nat) : Nat → Nat
  | 0 => 0
  | n + 1 => (m a).toNat + 256 * load m (a + 1) n

/-- Store the low bytes of an integer. -/
def store (m : Memory) (a n v : Nat) : Memory := fun b =>
  if a ≤ b ∧ b < a + n then BitVec.ofNat 8 (v / 256 ^ (b - a)) else m b

variable {m m' : Memory} {a b n k v : Nat}

theorem load_congr (h : ∀ b, a ≤ b → b < a + n → m b = m' b) : load m a n = load m' a n := by
  induction n generalizing a with
  | zero => rfl
  | succ n ih =>
    rw [load, load, h a le_rfl (by omega), ih]
    intro b hlo hhi
    exact h b (by omega) (by omega)

theorem load_lt (m : Memory) (a n : Nat) : load m a n < 256 ^ n := by
  induction n generalizing a with
  | zero => simp [load]
  | succ n ih =>
    have hbyte := (m a).isLt
    have hrest := ih (a + 1)
    rw [load, pow_succ]
    omega

theorem store_inside (hlo : a ≤ b) (hhi : b < a + n) :
    store m a n v b = BitVec.ofNat 8 (v / 256 ^ (b - a)) := by
  rw [store, if_pos ⟨hlo, hhi⟩]

theorem store_outside (h : b < a ∨ a + n ≤ b) : store m a n v b = m b := by
  rw [store, if_neg]
  omega

theorem load_store_self (m : Memory) (a n v : Nat) :
    load (store m a n v) a n = v % 256 ^ n := by
  induction n generalizing m a v with
  | zero => simp [load, Nat.mod_one]
  | succ n ih =>
    have hrest : load (store m a (n + 1) v) (a + 1) n =
        load (store m (a + 1) n (v / 256)) (a + 1) n := by
      apply load_congr
      intro b hlo hhi
      rw [store_inside (by omega) (by omega), store_inside hlo hhi]
      have hexp : b - a = b - (a + 1) + 1 := by omega
      rw [hexp, pow_succ', Nat.div_div_eq_div_mul]
    have hmod : v % 256 ^ (n + 1) = v % 256 + 256 * (v / 256 % 256 ^ n) := by
      rw [pow_succ', Nat.mod_mul]
    rw [load, hrest, ih, store_inside le_rfl (by omega), Nat.sub_self, pow_zero, Nat.div_one,
      toNat_ofNat, hmod]

theorem load_store_of_disjoint (h : b + k ≤ a ∨ a + n ≤ b) :
    load (store m a n v) b k = load m b k := by
  apply load_congr
  intro c hlo hhi
  exact store_outside (by omega)

theorem store_mod (m : Memory) (a n v : Nat) : store m a n (v % 256 ^ n) = store m a n v := by
  funext b
  by_cases h : a ≤ b ∧ b < a + n
  · rw [store_inside h.1 h.2, store_inside h.1 h.2]
    apply eq_of_toNat_eq
    have hsplit : 256 ^ n = 256 ^ (b - a) * (256 * 256 ^ (n - (b - a) - 1)) := by
      rw [← pow_succ', ← pow_add]
      congr 1
      omega
    rw [toNat_ofNat, toNat_ofNat, hsplit, Nat.mod_mul_right_div_self, Nat.mod_mul_right_mod]
  · rw [store_outside (by omega), store_outside (by omega)]

theorem load_mod (m : Memory) (a : Nat) {n k : Nat} (h : k ≤ n) :
    load m a n % 256 ^ k = load m a k := by
  induction k generalizing a n with
  | zero => simp [load, Nat.mod_one]
  | succ k ih =>
    cases n with
    | zero => omega
    | succ n =>
      have hbyte := (m a).isLt
      rw [load, load, ← ih (a + 1) (by omega : k ≤ n), pow_succ', Nat.mod_mul]
      congr 1
      · omega
      · congr 2
        omega

theorem load_add (m : Memory) (a k j : Nat) :
    load m a (k + j) = load m a k + 256 ^ k * load m (a + k) j := by
  induction k generalizing a with
  | zero => simp [load]
  | succ k ih =>
    have hsucc : k + 1 + j = (k + j) + 1 := by omega
    have haddr : a + (k + 1) = a + 1 + k := by omega
    rw [hsucc, load, load, ih, haddr, pow_succ']
    ring

theorem load_store_low (m : Memory) (a v : Nat) {n k : Nat} (h : k ≤ n) :
    load (store m a k v) a n = load m a n / 256 ^ k * 256 ^ k + v % 256 ^ k := by
  rcases Nat.exists_eq_add_of_le h with ⟨j, rfl⟩
  have hhigh : load (store m a k v) (a + k) j = load m (a + k) j :=
    load_store_of_disjoint (Or.inr le_rfl)
  have hdiv : load m a (k + j) / 256 ^ k = load m (a + k) j := by
    rw [load_add, Nat.add_mul_div_left _ _ (by positivity), Nat.div_eq_of_lt (load_lt m a k)]
    omega
  rw [hdiv, load_add, load_store_self, hhigh]
  ring

/-! ## Bits -/

/-- A bit of the memory; the bits of a byte are numbered from the lowest. -/
def bit (m : Memory) (i : Nat) : Bool := (m (i / 8)).getLsbD (i % 8)

theorem testBit_load (m : Memory) (a n i : Nat) :
    (load m a n).testBit i = (decide (i < 8 * n) && m.bit (8 * a + i)) := by
  induction n generalizing a i with
  | zero => simp [load]
  | succ n ih =>
    have hbyte : (m a).toNat < 2 ^ 8 := (m a).isLt
    rw [load, Nat.add_comm, show (256 : Nat) = 2 ^ 8 from rfl,
      Nat.testBit_two_pow_mul_add _ hbyte, ih]
    split
    · have hdiv : (8 * a + i) / 8 = a := by omega
      have hmod : (8 * a + i) % 8 = i := by omega
      have hlt : i < 8 * (n + 1) := by omega
      simp only [bit, hdiv, hmod, hlt, decide_true, Bool.true_and]
      rfl
    · have hidx : 8 * (a + 1) + (i - 8) = 8 * a + i := by omega
      have hlt : i - 8 < 8 * n ↔ i < 8 * (n + 1) := by omega
      simp only [hidx, hlt]

theorem bit_store (m : Memory) (a n v i : Nat) :
    (store m a n v).bit i =
      if 8 * a ≤ i ∧ i < 8 * (a + n) then v.testBit (i - 8 * a) else m.bit i := by
  unfold bit
  split
  · have hpow : (256 : Nat) ^ (i / 8 - a) = 2 ^ (8 * (i / 8 - a)) := by
      rw [pow_mul]
      rfl
    have hidx : i % 8 + 8 * (i / 8 - a) = i - 8 * a := by omega
    have hlt : i % 8 < 8 := by omega
    rw [store_inside (by omega) (by omega), getLsbD_ofNat, hpow, Nat.testBit_div_two_pow, hidx]
    simp [hlt]
  · rw [store_outside (by omega)]

theorem load_eq_of_bit (h : ∀ i, i < 8 * n → m.bit (8 * a + i) = m'.bit (8 * a + i)) :
    load m a n = load m' a n := by
  apply Nat.eq_of_testBit_eq
  intro i
  rw [testBit_load, testBit_load]
  by_cases hi : i < 8 * n
  · rw [h i hi]
  · simp [hi]

end Memory
