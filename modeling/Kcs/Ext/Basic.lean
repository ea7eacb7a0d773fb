import Mathlib

/-!
# Lengths of strings and binaries

The arithmetic of lengths that the strings and binaries of the extended library share.

Main results:

- Lemma {lit}`substrEnd_toNat`: the end of a part that is taken out.
-/

namespace Kcs.Ext

open List BitVec

/-- A length in a macro, which is an `int` or an `unsigned int`. -/
structure Length where
  value : BitVec 32
  signed : Bool

/-- The capacity for a length, in whole units and with room for one more. -/
def capacityFor (unit : BitVec 32) (len : Length) : BitVec 32 :=
  ((if len.signed then len.value.sdiv unit else len.value / unit) + 1#32) * unit

/-- A length as the `size_t` that `memcpy` takes. -/
def Length.size (len : Length) : Nat :=
  if len.signed then (len.value.signExtend 64).toNat else len.value.toNat

/-- The comparison of a length with zero. -/
def Length.isPositive (len : Length) : Bool :=
  if len.signed then (0#32).slt len.value else (0#32).ult len.value

/-- The elements from a start, as many as a length that is not negative says. -/
def substring {α : Type} (text : List α) (start : Nat) (len : Int) : List α :=
  if len < 0 then text.drop start else (text.drop start).take len.toNat

/-- The end of the part that is taken out: `end` in `string_substr` and `binary_subbin`. -/
def substrEnd (n start len : BitVec 32) : BitVec 32 :=
  let limit := if len.slt 0#32 then n else start + len
  if (0#32).slt len && n.ult limit then n else limit

section Lengths

variable {α : Type}

theorem toInt_of_lt {x : BitVec 32} (h : x.toNat < 2 ^ 31) : x.toInt = x.toNat :=
  toInt_eq_toNat_of_lt (by omega)

theorem signExtend_toNat_of_lt {x : BitVec 32} (h : x.toNat < 2 ^ 31) :
    (x.signExtend 64).toNat = x.toNat := by
  have hmsb : x.msb = false := by
    rw [msb_eq_decide]
    simp only [decide_eq_false_iff_not]
    omega
  rw [signExtend_eq_setWidth_of_msb_false hmsb, toNat_setWidth]
  omega

theorem capacityFor_toNat {unit : BitVec 32} {len : Length} (hpos : 0 < unit.toNat)
    (hunit : unit.toNat < 2 ^ 31) (h : len.value.toNat + unit.toNat < 2 ^ 32)
    (hsigned : len.signed = true → len.value.toNat < 2 ^ 31) :
    (capacityFor unit len).toNat = (len.value.toNat / unit.toNat + 1) * unit.toNat := by
  have hdiv : (if len.signed then len.value.sdiv unit else len.value / unit).toNat =
      len.value.toNat / unit.toNat := by
    split
    · rename_i hs
      have hlen : len.value.msb = false := by
        have := hsigned hs
        rw [msb_eq_decide]
        simp only [decide_eq_false_iff_not]
        omega
      have hmsb : unit.msb = false := by
        rw [msb_eq_decide]
        simp only [decide_eq_false_iff_not]
        omega
      rw [sdiv_eq, hlen, hmsb]
      rfl
    · rfl
  have hle : len.value.toNat / unit.toNat * unit.toNat ≤ len.value.toNat := Nat.div_mul_le_self _ _
  have hquotient : len.value.toNat / unit.toNat ≤ len.value.toNat := Nat.div_le_self _ _
  have hbound : (len.value.toNat / unit.toNat + 1) * unit.toNat < 2 ^ 32 := by
    rw [Nat.add_mul, Nat.one_mul]
    omega
  rw [capacityFor, toNat_mul, toNat_add, hdiv, show (1#32).toNat = 1 from rfl,
    Nat.mod_eq_of_lt (show len.value.toNat / unit.toNat + 1 < 2 ^ 32 by omega),
    Nat.mod_eq_of_lt hbound]

theorem lt_capacityFor {unit : BitVec 32} {len : Length} (hpos : 0 < unit.toNat)
    (hunit : unit.toNat < 2 ^ 31) (h : len.value.toNat + unit.toNat < 2 ^ 32)
    (hsigned : len.signed = true → len.value.toNat < 2 ^ 31) :
    len.value.toNat < (capacityFor unit len).toNat := by
  rw [capacityFor_toNat hpos hunit h hsigned, Nat.mul_comm]
  exact Nat.lt_mul_div_succ _ hpos

theorem Length.size_of_lt {len : Length} (h : len.signed = true → len.value.toNat < 2 ^ 31) :
    len.size = len.value.toNat := by
  unfold Length.size
  split
  · rename_i hs
    exact signExtend_toNat_of_lt (h hs)
  · rfl

theorem length_substring (text : List α) (start : Nat) (len : Int) :
    (substring text start len).length =
      if len < 0 then text.length - start else min len.toNat (text.length - start) := by
  unfold substring
  split
  · rw [length_drop]
  · rw [length_take, length_drop]

theorem length_substring_le {text : List α} {start : Nat} (h : start ≤ text.length) (len : Int) :
    start + (substring text start len).length ≤ text.length := by
  rw [length_substring]
  split <;> omega

theorem take_length_substring (text : List α) (start : Nat) (len : Int) :
    (text.drop start).take (substring text start len).length = substring text start len := by
  unfold substring
  split
  · exact take_length
  · rw [length_take, ← take_take, take_length]

theorem toInt_of_nonneg {x : BitVec 32} (h : 0 ≤ x.toInt) :
    x.toInt = x.toNat ∧ x.toNat < 2 ^ 31 := by
  have := toInt_eq_toNat_cond x
  omega

/-- The end is clamped to the end of the list. -/
theorem substrEnd_toNat {text : List α} {n start : BitVec 32} (len : BitVec 32)
    (hn : n.toNat = text.length) (hlo : 0 ≤ start.toInt) (hhi : start.toInt ≤ text.length) :
    (substrEnd n start len).toNat =
      start.toNat + (substring text start.toNat len.toInt).length := by
  have hstart := toInt_of_nonneg hlo
  have hlen := toInt_eq_toNat_cond len
  rw [length_substring, substrEnd]
  have hzero : (0#32).toInt = 0 := rfl
  have hlt := len.isLt
  have hslt := start.isLt
  simp only [BitVec.slt, BitVec.ult, hzero, Bool.and_eq_true, decide_eq_true_eq]
  have hsum : 0 ≤ len.toInt → (start + len).toNat = start.toNat + len.toInt.toNat := by
    intro hpos
    rw [toNat_add]
    omega
  by_cases hneg : len.toInt < 0
  · rw [if_pos hneg, if_pos hneg, if_neg (by omega), hn]
    omega
  · rw [if_neg hneg, if_neg hneg]
    have hsum := hsum (by omega)
    by_cases hclamp : 0 < len.toInt ∧ n.toNat < (start + len).toNat
    · rw [if_pos hclamp, hn]
      omega
    · rw [if_neg hclamp, hsum]
      omega

end Lengths

end Kcs.Ext
