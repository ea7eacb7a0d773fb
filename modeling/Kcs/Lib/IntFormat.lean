import Mathlib

/-!
# Fixed-width integers

An integer format is a signedness and a width of at most 64 bits.  A value of
the format is an integer in its range; a machine word of 64 bits holds it sign-
or zero-extended.

Main results:

- Lemma {lit}`IntFormat.wrap_bmod` and {lit}`IntFormat.wrap_emod`: reducing to a
  format forgets an earlier reduction to a machine word.
- Lemma {lit}`IntFormat.ofInt_eq_extend`: the machine word of a value in range
  is the extension of its bits.
-/

/-- An integer format. -/
structure IntFormat where
  signed : Bool
  width : Nat
  width_pos : 0 < width
  width_le : width ≤ 64
deriving DecidableEq, Repr

namespace IntFormat

open BitVec

/-- The 8-bit formats. -/
def bits8 (signed : Bool) : IntFormat := ⟨signed, 8, by decide, by decide⟩

/-- The 16-bit formats. -/
def bits16 (signed : Bool) : IntFormat := ⟨signed, 16, by decide, by decide⟩

/-- The 32-bit formats. -/
def bits32 (signed : Bool) : IntFormat := ⟨signed, 32, by decide, by decide⟩

/-- The 64-bit formats. -/
def bits64 (signed : Bool) : IntFormat := ⟨signed, 64, by decide, by decide⟩

variable (f : IntFormat)

/-- Smallest value of the format. -/
def minValue : Int := if f.signed then -2 ^ (f.width - 1) else 0

/-- Largest value of the format. -/
def maxValue : Int := if f.signed then 2 ^ (f.width - 1) - 1 else 2 ^ f.width - 1

/-- Value of a bit pattern of the format's width. -/
def ofBits (x : BitVec f.width) : Int :=
  if f.signed then x.toInt else x.toNat

/-- Value of a machine word, read with the format's signedness. -/
def ofWord (x : BitVec 64) : Int :=
  if f.signed then x.toInt else x.toNat

/-- Machine word that holds a bit pattern of the format. -/
def extend (x : BitVec f.width) : BitVec 64 :=
  if f.signed then x.signExtend 64 else x.setWidth 64

/-- Reduction of an integer modulo two to the width, read in the format. -/
def wrap (n : Int) : Int :=
  f.ofBits (BitVec.ofInt f.width n)

/-- Is the integer a value of the format? -/
def InRange (n : Int) : Prop :=
  f.wrap n = n

instance (n : Int) : Decidable (f.InRange n) :=
  inferInstanceAs (Decidable (f.wrap n = n))

variable {f}

theorem wrap_signed (h : f.signed = true) (n : Int) : f.wrap n = n.bmod (2 ^ f.width) := by
  simp [wrap, ofBits, h]

theorem wrap_unsigned (h : f.signed = false) (n : Int) : f.wrap n = n % 2 ^ f.width := by
  have hpos : (0 : Int) < 2 ^ f.width := by positivity
  have hnonneg := Int.emod_nonneg n hpos.ne'
  simp only [wrap, ofBits, h, Bool.false_eq_true, if_false, BitVec.toNat_ofInt]
  push_cast
  rw [Int.toNat_of_nonneg hnonneg]

theorem wrap_congr {m n : Int} (h : m % 2 ^ f.width = n % 2 ^ f.width) : f.wrap m = f.wrap n := by
  have hbits : BitVec.ofInt f.width m = BitVec.ofInt f.width n := by
    apply eq_of_toNat_eq
    simp only [BitVec.toNat_ofInt]
    push_cast
    rw [h]
  rw [wrap, wrap, hbits]

theorem emod_width_of_emod_word {m n : Int} (h : m % 2 ^ 64 = n % 2 ^ 64) :
    m % 2 ^ f.width = n % 2 ^ f.width := by
  have hdvd : (2 : Int) ^ f.width ∣ 2 ^ 64 := pow_dvd_pow 2 f.width_le
  rw [← Int.emod_emod_of_dvd m hdvd, h, Int.emod_emod_of_dvd n hdvd]

@[simp]
theorem wrap_bmod (n : Int) : f.wrap (n.bmod (2 ^ 64)) = f.wrap n := by
  apply wrap_congr
  apply emod_width_of_emod_word
  exact_mod_cast Int.bmod_emod (x := n) (m := 2 ^ 64)

@[simp]
theorem wrap_emod (n : Int) : f.wrap (n % 2 ^ 64) = f.wrap n := by
  apply wrap_congr
  apply emod_width_of_emod_word
  exact Int.emod_emod_of_dvd n dvd_rfl

theorem wrap_emod_width (n : Int) : f.wrap n % 2 ^ f.width = n % 2 ^ f.width := by
  cases h : f.signed with
  | true =>
    rw [wrap_signed h]
    simpa using Int.bmod_emod (x := n) (m := 2 ^ f.width)
  | false =>
    rw [wrap_unsigned h]
    exact Int.emod_emod_of_dvd n dvd_rfl

@[simp]
theorem wrap_wrap (n : Int) : f.wrap (f.wrap n) = f.wrap n :=
  wrap_congr (wrap_emod_width n)

theorem inRange_wrap (n : Int) : f.InRange (f.wrap n) :=
  wrap_wrap n

theorem inRange_ofBits (x : BitVec f.width) : f.InRange (f.ofBits x) := by
  have hx : f.ofBits x = f.wrap x.toInt := by simp [wrap]
  rw [hx]
  exact inRange_wrap _

theorem inRange_signed_iff (h : f.signed = true) (n : Int) :
    f.InRange n ↔ -2 ^ (f.width - 1) ≤ n ∧ n < 2 ^ (f.width - 1) := by
  rw [InRange, wrap_signed h]
  have hpow : (2 : Int) ^ f.width = 2 * 2 ^ (f.width - 1) := by
    rw [← pow_succ', Nat.sub_add_cancel f.width_pos]
  have hcast : ((2 ^ f.width : Nat) : Int) = 2 * 2 ^ (f.width - 1) := by
    push_cast
    exact hpow
  constructor
  · intro hn
    rw [← hn]
    have hpos : 0 < 2 ^ f.width := by positivity
    have hlo := Int.le_bmod (x := n) hpos
    have hhi := Int.bmod_lt (x := n) hpos
    omega
  · rintro ⟨hlo, hhi⟩
    apply Int.bmod_eq_of_le_mul_two <;> omega

theorem inRange_unsigned_iff (h : f.signed = false) (n : Int) :
    f.InRange n ↔ 0 ≤ n ∧ n < 2 ^ f.width := by
  rw [InRange, wrap_unsigned h]
  have hpos : (0 : Int) < 2 ^ f.width := by positivity
  constructor
  · intro hn
    rw [← hn]
    exact ⟨Int.emod_nonneg n hpos.ne', Int.emod_lt_of_pos n hpos⟩
  · rintro ⟨hlo, hhi⟩
    exact Int.emod_eq_of_lt hlo hhi

/-! ## Machine words -/

@[simp]
theorem ofWord_extend (x : BitVec f.width) : f.ofWord (f.extend x) = f.ofBits x := by
  cases h : f.signed with
  | true => simp [ofWord, extend, ofBits, h, toInt_signExtend_of_le f.width_le]
  | false =>
    have hlt : x.toNat < 2 ^ 64 :=
      lt_of_lt_of_le x.isLt (Nat.pow_le_pow_right (by decide) f.width_le)
    simp only [ofWord, extend, ofBits, h, Bool.false_eq_true, if_false, toNat_setWidth,
      Nat.mod_eq_of_lt hlt]

theorem ofInt_eq_extend {n : Int} (hn : f.InRange n) :
    BitVec.ofInt 64 n = f.extend (BitVec.ofInt f.width n) := by
  cases h : f.signed with
  | true =>
    apply eq_of_toInt_eq
    rw [extend, if_pos h, toInt_signExtend_of_le f.width_le]
    have hwrap : (BitVec.ofInt f.width n).toInt = n := by
      have hn' := hn
      rw [InRange, wrap, ofBits, if_pos h] at hn'
      exact hn'
    rw [hwrap]
    have hrange := (inRange_signed_iff h n).mp hn
    have hle : (2 : Int) ^ (f.width - 1) ≤ 2 ^ 63 :=
      pow_le_pow_right₀ (by decide) (by have := f.width_le; omega)
    rw [BitVec.toInt_ofInt]
    apply Int.bmod_eq_of_le_mul_two <;> omega
  | false =>
    apply eq_of_toNat_eq
    rw [extend, if_neg (by simp [h])]
    have hrange := (inRange_unsigned_iff h n).mp hn
    have hle : (2 : Int) ^ f.width ≤ 2 ^ 64 := pow_le_pow_right₀ (by decide) f.width_le
    have hword : n % ((2 ^ 64 : Nat) : Int) = n :=
      Int.emod_eq_of_lt hrange.1 (by push_cast; exact lt_of_lt_of_le hrange.2 hle)
    have hwidth : n % ((2 ^ f.width : Nat) : Int) = n :=
      Int.emod_eq_of_lt hrange.1 (by push_cast; exact hrange.2)
    rw [toNat_setWidth, BitVec.toNat_ofInt, BitVec.toNat_ofInt, hword, hwidth, Nat.mod_eq_of_lt]
    omega

theorem ofWord_ofInt {n : Int} (hn : f.InRange n) : f.ofWord (BitVec.ofInt 64 n) = n := by
  rw [ofInt_eq_extend hn, ofWord_extend]
  exact hn

theorem ofInt_ofWord (x : BitVec 64) : BitVec.ofInt 64 (f.ofWord x) = x := by
  unfold ofWord
  split
  · simp
  · simp

section Bitwise

variable {m n : Int}

theorem ofWord_or (hm : f.InRange m) (hn : f.InRange n) :
    f.ofWord (BitVec.ofInt 64 m ||| BitVec.ofInt 64 n) =
      f.ofBits (BitVec.ofInt f.width m ||| BitVec.ofInt f.width n) := by
  rw [← ofWord_extend, ofInt_eq_extend hm, ofInt_eq_extend hn]
  unfold extend
  split
  · rw [signExtend_or]
  · rw [setWidth_or]

theorem ofWord_xor (hm : f.InRange m) (hn : f.InRange n) :
    f.ofWord (BitVec.ofInt 64 m ^^^ BitVec.ofInt 64 n) =
      f.ofBits (BitVec.ofInt f.width m ^^^ BitVec.ofInt f.width n) := by
  rw [← ofWord_extend, ofInt_eq_extend hm, ofInt_eq_extend hn]
  unfold extend
  split
  · rw [signExtend_xor]
  · rw [setWidth_xor]

theorem ofWord_and (hm : f.InRange m) (hn : f.InRange n) :
    f.ofWord (BitVec.ofInt 64 m &&& BitVec.ofInt 64 n) =
      f.ofBits (BitVec.ofInt f.width m &&& BitVec.ofInt f.width n) := by
  rw [← ofWord_extend, ofInt_eq_extend hm, ofInt_eq_extend hn]
  unfold extend
  split
  · rw [signExtend_and]
  · rw [setWidth_and]

end Bitwise

theorem wrap_ofWord (x : BitVec 64) : f.wrap (f.ofWord x) = f.ofBits (x.setWidth f.width) := by
  have hword : f.wrap (f.ofWord x) = f.wrap x.toNat := by
    unfold ofWord
    split
    · rw [toInt_eq_toNat_bmod, wrap_bmod]
    · rfl
  have hbits : BitVec.ofInt f.width x.toNat = x.setWidth f.width := by
    apply eq_of_toNat_eq
    rw [ofInt_natCast, toNat_ofNat, toNat_setWidth]
  rw [hword, wrap, hbits]

theorem setWidth_ofInt (n : Int) :
    (BitVec.ofInt 64 n).setWidth f.width = BitVec.ofInt f.width n := by
  apply eq_of_toNat_eq
  have hdvd : ((2 : Nat) ^ f.width : Int) ∣ ((2 ^ 64 : Nat) : Int) := by
    push_cast
    exact pow_dvd_pow 2 f.width_le
  have hword := Int.toNat_of_nonneg (Int.emod_nonneg n (b := ((2 ^ 64 : Nat) : Int)) (by decide))
  have hwidth := Int.toNat_of_nonneg
    (Int.emod_nonneg n (b := ((2 ^ f.width : Nat) : Int)) (by positivity))
  rw [toNat_setWidth, BitVec.toNat_ofInt, BitVec.toNat_ofInt]
  apply Int.ofNat.inj
  simp only [Int.ofNat_eq_natCast, Int.natCast_mod]
  rw [hword, hwidth]
  exact_mod_cast Int.emod_emod_of_dvd n hdvd

theorem wrap_ofWord_not (n : Int) :
    f.wrap (f.ofWord (~~~ BitVec.ofInt 64 n)) = f.ofBits (~~~ BitVec.ofInt f.width n) := by
  rw [wrap_ofWord, setWidth_not f.width_le, setWidth_ofInt]

theorem inRange_ofWord_not (h : f.signed = true) {n : Int} (hn : f.InRange n) :
    f.InRange (f.ofWord (~~~ BitVec.ofInt 64 n)) := by
  have hnot : ~~~ BitVec.ofInt 64 n = f.extend (~~~ BitVec.ofInt f.width n) := by
    rw [ofInt_eq_extend hn, extend, extend, if_pos h, if_pos h, signExtend_not f.width_pos]
  rw [hnot, ofWord_extend]
  exact inRange_ofBits _

/-! ## Arithmetic on words -/

theorem wrap_ofWord_ofInt (n : Int) : f.wrap (f.ofWord (BitVec.ofInt 64 n)) = f.wrap n := by
  rw [wrap_ofWord, setWidth_ofInt, wrap]

theorem InRange.of_between {m n : Int} (hn : f.InRange n) (hlo : min 0 n ≤ m) (hhi : m ≤ max 0 n) :
    f.InRange m := by
  cases h : f.signed with
  | true =>
    rw [inRange_signed_iff h] at hn ⊢
    have hpos : (0 : Int) < 2 ^ (f.width - 1) := by positivity
    omega
  | false =>
    rw [inRange_unsigned_iff h] at hn ⊢
    have hpos : (0 : Int) < 2 ^ f.width := by positivity
    omega

section Words

variable {a b : Int}

theorem toInt_ofInt (h : f.signed = true) (ha : f.InRange a) : (BitVec.ofInt 64 a).toInt = a := by
  have hword := ofWord_ofInt ha
  rwa [ofWord, if_pos h] at hword

theorem toNat_ofInt (h : f.signed = false) (ha : f.InRange a) :
    ((BitVec.ofInt 64 a).toNat : Int) = a := by
  have hword := ofWord_ofInt ha
  rwa [ofWord, if_neg (by simp [h])] at hword

theorem toNat_ofInt_of_nonneg (hlo : 0 ≤ a) (hhi : a < 2 ^ 64) :
    ((BitVec.ofInt 64 a).toNat : Int) = a :=
  toNat_ofInt (f := bits64 false) rfl ((inRange_unsigned_iff rfl a).mpr ⟨hlo, hhi⟩)

theorem ofWord_div (ha : f.InRange a) (hb : f.InRange b) :
    f.wrap (f.ofWord (if f.signed then (BitVec.ofInt 64 a).sdiv (BitVec.ofInt 64 b)
      else BitVec.ofInt 64 a / BitVec.ofInt 64 b)) = f.wrap (a.tdiv b) := by
  cases h : f.signed with
  | true =>
    rw [if_pos rfl, ofWord, if_pos h, toInt_sdiv, toInt_ofInt h ha, toInt_ofInt h hb, wrap_bmod]
  | false =>
    have hnonneg := ((inRange_unsigned_iff h a).mp ha).1
    rw [if_neg (by simp), ofWord, if_neg (by simp [h]), toNat_udiv, Int.natCast_ediv,
      toNat_ofInt h ha, toNat_ofInt h hb, Int.tdiv_eq_ediv_of_nonneg hnonneg]

theorem ofWord_mod (ha : f.InRange a) (hb : f.InRange b) :
    f.ofWord (if f.signed then (BitVec.ofInt 64 a).srem (BitVec.ofInt 64 b)
      else BitVec.ofInt 64 a % BitVec.ofInt 64 b) = a.tmod b := by
  cases h : f.signed with
  | true =>
    rw [if_pos rfl, ofWord, if_pos h, toInt_srem, toInt_ofInt h ha, toInt_ofInt h hb]
  | false =>
    have hnonneg := ((inRange_unsigned_iff h a).mp ha).1
    rw [if_neg (by simp), ofWord, if_neg (by simp [h]), toNat_umod, Int.natCast_mod,
      toNat_ofInt h ha, toNat_ofInt h hb, Int.tmod_eq_emod_of_nonneg hnonneg]

theorem inRange_tmod (ha : f.InRange a) (b : Int) : f.InRange (a.tmod b) := by
  have habs : (a.tmod b).natAbs ≤ a.natAbs := by
    rw [Int.natAbs_tmod]
    exact Nat.mod_le _ _
  apply ha.of_between
  · rcases le_or_gt 0 a with h | h
    · have hnonneg := Int.tmod_nonneg b h
      omega
    · omega
  · rcases le_or_gt 0 a with h | h
    · omega
    · have hnonpos : a.tmod b ≤ 0 := by
        have hneg := Int.tmod_nonneg b (by omega : 0 ≤ -a)
        rw [Int.neg_tmod] at hneg
        omega
      omega

theorem wrap_ofWord_shiftLeft (a : Int) (k : Nat) :
    f.wrap (f.ofWord (BitVec.ofInt 64 a <<< k)) = f.wrap (a * 2 ^ k) := by
  have hword : BitVec.ofInt 64 a <<< k = BitVec.ofInt 64 (a * 2 ^ k) := by
    rw [shiftLeft_eq_mul_twoPow, ofInt_mul]
    congr 1
    apply eq_of_toNat_eq
    rw [toNat_twoPow, BitVec.toNat_ofInt]
    have hcast : ((2 : Int) ^ k % ((2 ^ 64 : Nat) : Int)) = ((2 ^ k % 2 ^ 64 : Nat) : Int) := by
      push_cast
      rfl
    rw [hcast, Int.toNat_natCast]
  rw [hword, wrap_ofWord_ofInt]

theorem ofWord_shiftRight (ha : f.InRange a) (k : Nat) :
    f.ofWord (if f.signed then (BitVec.ofInt 64 a).sshiftRight k
      else BitVec.ofInt 64 a >>> k) = a / 2 ^ k := by
  cases h : f.signed with
  | true =>
    rw [if_pos rfl, ofWord, if_pos h, toInt_sshiftRight, toInt_ofInt h ha,
      Int.shiftRight_eq_div_pow]
    norm_cast
  | false =>
    rw [if_neg (by simp), ofWord, if_neg (by simp [h]), toNat_ushiftRight,
      Nat.shiftRight_eq_div_pow, Int.natCast_ediv, toNat_ofInt h ha]
    norm_cast

theorem inRange_shiftRight (ha : f.InRange a) (k : Nat) : f.InRange (a / 2 ^ k) := by
  have hpos : (0 : Int) < 2 ^ k := by positivity
  have hone : (1 : Int) ≤ 2 ^ k := hpos
  apply ha.of_between
  · rcases le_or_gt 0 a with h | h
    · have hnonneg := Int.ediv_nonneg h hpos.le
      omega
    · have hle : a ≤ a / 2 ^ k := by
        rw [Int.le_ediv_iff_mul_le hpos]
        nlinarith
      omega
  · rcases le_or_gt 0 a with h | h
    · have hle := Int.ediv_le_self (2 ^ k) h
      omega
    · have hneg := Int.ediv_neg_of_neg_of_pos h hpos
      omega

end Words

theorem bounds_word (f : IntFormat) :
    -2 ^ 64 ≤ f.minValue ∧ f.minValue ≤ 2 ^ 64 ∧ -2 ^ 64 ≤ f.maxValue ∧ f.maxValue ≤ 2 ^ 64 := by
  have hlt : (2 : Int) ^ (f.width - 1) ≤ 2 ^ 64 :=
    pow_le_pow_right₀ (by decide) (by have := f.width_le; omega)
  have hlt' : (2 : Int) ^ f.width ≤ 2 ^ 64 := pow_le_pow_right₀ (by decide) f.width_le
  have hpos : (0 : Int) < 2 ^ (f.width - 1) := by positivity
  have hpos' : (0 : Int) < 2 ^ f.width := by positivity
  unfold minValue maxValue
  split <;> refine ⟨?_, ?_, ?_, ?_⟩ <;> omega

theorem InRange.bounds {f : IntFormat} {n : Int} (h : f.InRange n) :
    f.minValue ≤ n ∧ n ≤ f.maxValue := by
  unfold minValue maxValue
  by_cases hs : f.signed = true
  · have := (inRange_signed_iff hs n).mp h
    simp only [hs, if_true]
    omega
  · have := (inRange_unsigned_iff (by simpa using hs) n).mp h
    simp only [hs]
    exact ⟨this.1, by simpa using Int.le_sub_one_of_lt this.2⟩

theorem InRange.lt_pow_width {f : IntFormat} {n : Int} (h : f.InRange n) : n < 2 ^ f.width := by
  by_cases hs : f.signed = true
  · have hrange := (inRange_signed_iff hs n).mp h
    have hpow : (2 : Int) ^ (f.width - 1) ≤ 2 ^ f.width :=
      pow_le_pow_right₀ (by decide) (by omega)
    omega
  · exact ((inRange_unsigned_iff (by simpa using hs) n).mp h).2

theorem inRange_iff_bounds {f : IntFormat} {n : Int} :
    f.InRange n ↔ f.minValue ≤ n ∧ n ≤ f.maxValue := by
  constructor
  · exact InRange.bounds
  · unfold minValue maxValue
    intro h
    by_cases hs : f.signed = true
    · rw [if_pos hs, if_pos hs] at h
      rw [inRange_signed_iff hs]
      omega
    · rw [if_neg hs, if_neg hs] at h
      rw [inRange_unsigned_iff (by simpa using hs)]
      omega

theorem wrap_eq_wrap_iff {f : IntFormat} {m n : Int} :
    f.wrap m = f.wrap n ↔ m % 2 ^ f.width = n % 2 ^ f.width := by
  constructor
  · intro h
    rw [← wrap_emod_width m, h, wrap_emod_width]
  · exact wrap_congr

theorem InRange.eq_of_emod {f : IntFormat} {m n : Int} (hm : f.InRange m) (hn : f.InRange n)
    (h : m % 2 ^ f.width = n % 2 ^ f.width) : m = n := by
  have hwrap := wrap_congr h
  rwa [hm, hn] at hwrap

theorem ofBits_and_mask {f : IntFormat} (h : f.signed = false) {w : Nat} (hw : w ≤ f.width)
    (a : Int) :
    f.ofBits (BitVec.ofInt f.width a &&& BitVec.ofInt f.width ((2 ^ w - 1 : Nat) : Int)) =
      a % 2 ^ w := by
  have hpow : (2 : Nat) ^ w ≤ 2 ^ f.width := Nat.pow_le_pow_right (by decide) hw
  have hone : 1 ≤ (2 : Nat) ^ w := Nat.one_le_two_pow
  have hmask : (BitVec.ofInt f.width ((2 ^ w - 1 : Nat) : Int)).toNat = 2 ^ w - 1 := by
    rw [BitVec.toNat_ofInt]
    norm_cast
    exact Nat.mod_eq_of_lt (by omega)
  have hdvd : (2 : Int) ^ w ∣ 2 ^ f.width := pow_dvd_pow 2 hw
  unfold ofBits
  rw [h, if_neg (by decide), toNat_and, hmask, Nat.and_two_pow_sub_one_eq_mod, BitVec.toNat_ofInt]
  push_cast
  rw [Int.toNat_of_nonneg (Int.emod_nonneg _ (by positivity)), Int.emod_emod_of_dvd _ hdvd]

end IntFormat
