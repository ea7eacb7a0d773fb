import Mathlib

/-!
# Rounding up

The least multiple of an alignment that is not below a number.

Main results:

- Lemma {lit}`roundUp_le`: no smaller multiple is above the number.
- Lemma {lit}`roundUp_add_of_dvd`: rounding commutes with moving by a multiple.
-/

namespace Kcs

/-- The least multiple of the alignment from the number on. -/
def roundUp (n a : Nat) : Nat := if n % a = 0 then n else n + (a - n % a)

theorem roundUp_of_dvd {n a : Nat} (h : a ∣ n) : roundUp n a = n :=
  if_pos (Nat.mod_eq_zero_of_dvd h)

@[simp]
theorem roundUp_zero_left (a : Nat) : roundUp 0 a = 0 := roundUp_of_dvd (dvd_zero a)

theorem le_roundUp (n a : Nat) : n ≤ roundUp n a := by
  unfold roundUp
  split <;> omega

theorem roundUp_lt {a : Nat} (ha : 0 < a) (n : Nat) : roundUp n a < n + a := by
  have hmod := Nat.mod_lt n ha
  unfold roundUp
  split <;> omega

theorem dvd_roundUp {a : Nat} (ha : 0 < a) (n : Nat) : a ∣ roundUp n a := by
  have hmod := Nat.mod_lt n ha
  unfold roundUp
  split
  · rename_i hzero
    exact Nat.dvd_of_mod_eq_zero hzero
  · have hdiv := Nat.div_add_mod n a
    refine ⟨n / a + 1, ?_⟩
    rw [Nat.mul_add]
    omega

/-- No smaller multiple is above the number. -/
theorem roundUp_le {n a q : Nat} (ha : 0 < a) (hn : n ≤ q) (hq : a ∣ q) : roundUp n a ≤ q := by
  by_contra hlt
  have hbound := roundUp_lt ha n
  have hdvd : a ∣ roundUp n a - q := Nat.dvd_sub (dvd_roundUp ha n) hq
  have hle := Nat.le_of_dvd (by omega) hdvd
  omega

theorem roundUp_eq {n a q : Nat} (ha : 0 < a) (hn : n ≤ q) (hlt : q < n + a) (hq : a ∣ q) :
    roundUp n a = q := by
  refine le_antisymm (roundUp_le ha hn hq) ?_
  by_contra hgt
  have hdvd : a ∣ q - roundUp n a := Nat.dvd_sub hq (dvd_roundUp ha n)
  have hle := Nat.le_of_dvd (by omega) hdvd
  have hself := le_roundUp n a
  omega

theorem roundUp_add_of_dvd {b a : Nat} (ha : 0 < a) (hb : a ∣ b) (n : Nat) :
    roundUp (b + n) a = b + roundUp n a := by
  have hlt := roundUp_lt ha n
  have hle := le_roundUp n a
  exact roundUp_eq ha (by omega) (by omega) (dvd_add hb (dvd_roundUp ha n))

end Kcs
