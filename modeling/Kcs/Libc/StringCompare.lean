import Mathlib

/-!
# Comparing strings

The runtime's {lit}`strcmp`, {lit}`strncmp` and {lit}`memcmp` on a memory of which only some bytes
may be read.  {lit}`strncmp` tests for the end of its first string before it compares, so that it
returns the difference of the characters before.

Main results:

- Theorem {lit}`string_comparisons_iff`: {lit}`strcmp` and {lit}`memcmp` follow that order, and
  {lit}`strncmp` does exactly when its first string does not end first.
-/

namespace Kcs.Libc

open List Option

/-! ## The functions -/

/-- The bytes that may be read, by their addresses. -/
abbrev Bytes := BitVec 64 → Option (BitVec 8)

/-- The difference of two characters, which are promoted to `int`. -/
def charDiff (a b : BitVec 8) : BitVec 32 := a.setWidth 32 - b.setWidth 32

/-- No loop passes more bytes than there are addresses. -/
def addressCount : Nat := 2 ^ 64

section

variable (m : Bytes)

/-- The loop of `strcmp`. -/
def strcmpFrom : Nat → BitVec 64 → BitVec 64 → Option (BitVec 32)
  | 0, _, _ => none
  | fuel + 1, ss1, ss2 =>
    (m ss1).bind fun a => (m ss2).bind fun b =>
      if a = b ∧ a ≠ 0#8 then strcmpFrom fuel (ss1 + 1#64) (ss2 + 1#64) else some (charDiff a b)

/-- `strcmp` -/
def strcmp (s1 s2 : BitVec 64) : Option (BitVec 32) := strcmpFrom m addressCount s1 s2

/-- The loop of `strncmp` up to the address `t`. -/
def strncmpFrom (t : BitVec 64) : Nat → BitVec 64 → BitVec 64 → BitVec 32 → Option (BitVec 32)
  | 0, _, _, _ => none
  | fuel + 1, ss1, ss2, r =>
    if ss1 = t then some r
    else (m ss1).bind fun a =>
      if a = 0#8 then some r
      else (m ss2).bind fun b =>
        if charDiff a b = 0#32 then strncmpFrom t fuel (ss1 + 1#64) (ss2 + 1#64) (charDiff a b)
        else some (charDiff a b)

/-- `strncmp` -/
def strncmp (s1 s2 n : BitVec 64) : Option (BitVec 32) :=
  strncmpFrom m (s1 + n) addressCount s1 s2 0#32

/-- The loop of `memcmp` up to the address `t`. -/
def memcmpFrom (t : BitVec 64) : Nat → BitVec 64 → BitVec 64 → BitVec 32 → Option (BitVec 32)
  | 0, _, _, _ => none
  | fuel + 1, ss1, ss2, result =>
    if ss2 = t then some result
    else (m ss1).bind fun a => (m ss2).bind fun b =>
      if charDiff a b = 0#32 then memcmpFrom t fuel (ss1 + 1#64) (ss2 + 1#64) (charDiff a b)
      else some (charDiff a b)

/-- `memcmp` -/
def memcmp (s1 s2 n : BitVec 64) : Option (BitVec 32) :=
  memcmpFrom m (s2 + n) addressCount s1 s2 0#32

end

/-! ## What they should return -/

/-- The characters of a string in front of its terminator. -/
structure CharString where
  chars : List (BitVec 8)
  nulFree : 0#8 ∉ chars

/-- The bytes that start at an address. -/
def Reads (m : Bytes) : BitVec 64 → List (BitVec 8) → Prop
  | _, [] => True
  | p, c :: cs => m p = some c ∧ Reads m (p + 1#64) cs

/-- The sign of an `int`, as the comparison with zero. -/
def signOf (r : BitVec 32) : Ordering := compare r.toInt 0

section

variable (m : Bytes) (s1 s2 n : BitVec 64) (x y : CharString)

/-- The bytes of a string up to its terminator. -/
def CharString.StandsAt : Prop := Reads m s1 (x.chars ++ [0#8])

/-- The bytes of a string up to its terminator, but not more than `n`. -/
def CharString.StartsAt : Prop := Reads m s1 ((x.chars ++ [0#8]).take n.toNat)

/-- `strcmp` is the lexicographic comparison. -/
def StrcmpRight : Prop := ∃ r, strcmp m s1 s2 = some r ∧ signOf r = compare x.chars y.chars

/-- `strncmp` is the lexicographic comparison of the first `n` characters. -/
def StrncmpRight : Prop :=
  ∃ r, strncmp m s1 s2 n = some r ∧
    signOf r = compare (x.chars.take n.toNat) (y.chars.take n.toNat)

/-- `memcmp` is the lexicographic comparison of two areas. -/
def MemcmpRight (bs cs : List (BitVec 8)) : Prop :=
  ∃ r, memcmp m s1 s2 n = some r ∧ signOf r = compare bs cs

/-- Exchanging the strings exchanges the sign of `strncmp`. -/
def StrncmpAntisymmetric : Prop :=
  ∃ r r', strncmp m s1 s2 n = some r ∧ strncmp m s2 s1 n = some r' ∧ signOf r = (signOf r').swap

/-- `strncmp` has the sign of `strcmp`. -/
def StrncmpAgrees : Prop :=
  ∃ r r', strncmp m s1 s2 n = some r ∧ strcmp m s1 s2 = some r' ∧ signOf r = signOf r'

/-- The first string ends before `n` characters, and the second one goes on behind the same
characters. -/
def EndsFirst (n : Nat) (x y : List (BitVec 8)) : Prop := x.length < n ∧ x <+: y ∧ x ≠ y

instance (n : Nat) (x y : List (BitVec 8)) : Decidable (EndsFirst n x y) :=
  inferInstanceAs (Decidable (_ ∧ _ ∧ _))

end

/-! ## Characters -/

theorem toInt_charDiff (a b : BitVec 8) : (charDiff a b).toInt = a.toNat - b.toNat := by
  have ha := a.isLt
  have hb := b.isLt
  rw [charDiff, BitVec.toInt_sub, BitVec.toInt_setWidth, BitVec.toInt_setWidth]
  simp only [Int.bmod_def]
  omega

theorem signOf_charDiff (a b : BitVec 8) : signOf (charDiff a b) = compare a b := by
  rw [signOf, toInt_charDiff]
  change compareOfLessAndEq _ _ = compareOfLessAndEq _ _
  have hlt : (a.toNat : Int) - b.toNat < 0 ↔ a < b := by
    rw [BitVec.lt_def]
    omega
  have heq : (a.toNat : Int) - b.toNat = 0 ↔ a = b := by
    rw [BitVec.toNat_eq]
    omega
  simp only [compareOfLessAndEq, hlt, heq]

theorem charDiff_eq_zero_iff {a b : BitVec 8} : charDiff a b = 0#32 ↔ a = b := by
  rw [← BitVec.toInt_inj, toInt_charDiff, BitVec.toNat_eq]
  simp only [BitVec.toInt_zero]
  omega

theorem zero_compare {b : BitVec 8} (hb : b ≠ 0#8) : compare 0#8 b = .lt := by
  refine if_pos (BitVec.lt_def.mpr (Nat.pos_of_ne_zero fun h => hb ?_))
  exact BitVec.eq_of_toNat_eq h

theorem compare_zero {a : BitVec 8} (ha : a ≠ 0#8) : compare a 0#8 = .gt := by
  rw [Std.OrientedOrd.eq_swap, zero_compare ha]
  rfl

theorem compare_cons (a b : BitVec 8) (x y : List (BitVec 8)) :
    compare (a :: x) (b :: y) = (compare a b).then (compare x y) := List.compareLex_cons_cons

theorem compare_cons_self (a : BitVec 8) (x y : List (BitVec 8)) :
    compare (a :: x) (a :: y) = compare x y := by
  rw [compare_cons, Std.ReflOrd.compare_self (a := a)]
  rfl

theorem compare_cons_of_ne {a b : BitVec 8} (h : a ≠ b) (x y : List (BitVec 8)) :
    compare (a :: x) (b :: y) = compare a b := by
  rw [compare_cons]
  cases hcmp : compare a b with
  | lt => rfl
  | gt => rfl
  | eq => exact absurd (Std.LawfulEqOrd.eq_of_compare hcmp) h

theorem compare_nil_cons (b : BitVec 8) (y : List (BitVec 8)) : compare [] (b :: y) = .lt := rfl

theorem compare_cons_nil (a : BitVec 8) (x : List (BitVec 8)) : compare (a :: x) [] = .gt := rfl

/-! ## Addresses -/

section

variable {m : Bytes} {p q : BitVec 64} {x y : List (BitVec 8)}

theorem Reads.getElem {cs : List (BitVec 8)} (h : Reads m p cs) (i : Nat) (hi : i < cs.length) :
    m (p + BitVec.ofNat 64 i) = some cs[i] := by
  induction cs generalizing p i with
  | nil => cases hi
  | cons c cs ih =>
    cases i with
    | zero => simpa using h.1
    | succ i =>
      have htail := ih h.2 i (by simpa using hi)
      rw [BitVec.add_assoc, BitVec.add_comm 1#64] at htail
      rw [BitVec.ofNat_add]
      exact htail

theorem length_lt_of_reads (h : Reads m p (x ++ [0#8])) (hx : 0#8 ∉ x) :
    x.length < addressCount := by
  by_contra hle
  -- Otherwise the terminator is also one of the characters.
  have hlast := h.getElem x.length (by simp)
  have hearlier := h.getElem (x.length - 2 ^ 64) (by simp)
  have haddr : BitVec.ofNat 64 x.length = BitVec.ofNat 64 (x.length - 2 ^ 64) := by
    apply BitVec.eq_of_toNat_eq
    rw [BitVec.toNat_ofNat, BitVec.toNat_ofNat]
    unfold addressCount at hle
    omega
  have hlt : x.length - 2 ^ 64 < x.length := by
    unfold addressCount at hle
    omega
  rw [haddr, hearlier, getElem_append_left hlt] at hlast
  simp only [getElem_append_right (Nat.le_refl _), Nat.sub_self, getElem_singleton,
    some.injEq] at hlast
  exact hx (hlast ▸ getElem_mem hlt)

theorem eq_end_iff {k : Nat} (hk : k < addressCount) : p = p + BitVec.ofNat 64 k ↔ k = 0 := by
  constructor
  · intro h
    have hzero : BitVec.ofNat 64 k = 0#64 := BitVec.self_eq_add_right.mp h
    have hnat := congrArg BitVec.toNat hzero
    rwa [BitVec.toNat_ofNat, Nat.mod_eq_of_lt (show k < 2 ^ 64 from hk)] at hnat
  · rintro rfl
    simp

theorem end_succ (p : BitVec 64) (k : Nat) :
    p + BitVec.ofNat 64 (k + 1) = p + 1#64 + BitVec.ofNat 64 k := by
  rw [BitVec.add_assoc, BitVec.ofNat_add, BitVec.add_comm (BitVec.ofNat 64 k)]

end

/-! ## The loops -/

section

variable {m : Bytes}

theorem strcmpFrom_spec {x y : List (BitVec 8)} (hx : 0#8 ∉ x) (hy : 0#8 ∉ y) {fuel : Nat}
    (hfuel : x.length < fuel) {p q : BitVec 64} (hp : Reads m p (x ++ [0#8]))
    (hq : Reads m q (y ++ [0#8])) :
    ∃ r, strcmpFrom m fuel p q = some r ∧ signOf r = compare x y := by
  induction x generalizing y fuel p q with
  | nil =>
    rcases Nat.exists_eq_succ_of_ne_zero (Nat.ne_of_gt hfuel) with ⟨fuel, rfl⟩
    rw [strcmpFrom, hp.1, bind_some]
    cases y with
    | nil => exact ⟨_, by rw [hq.1, bind_some, if_neg (by simp)], signOf_charDiff _ _⟩
    | cons b y =>
      refine ⟨_, by rw [hq.1, bind_some, if_neg (by simp)], ?_⟩
      rw [signOf_charDiff, zero_compare (ne_of_mem_of_not_mem mem_cons_self hy), compare_nil_cons]
  | cons a x ih =>
    rcases Nat.exists_eq_succ_of_ne_zero (Nat.ne_of_gt (Nat.zero_lt_of_lt hfuel)) with ⟨fuel, rfl⟩
    have ha : a ≠ 0#8 := ne_of_mem_of_not_mem mem_cons_self hx
    rw [strcmpFrom, hp.1, bind_some]
    cases y with
    | nil =>
      refine ⟨_, by rw [hq.1, bind_some, if_neg (fun h => ha h.1)], ?_⟩
      rw [signOf_charDiff, compare_zero ha, compare_cons_nil]
    | cons b y =>
      rw [hq.1, bind_some]
      by_cases hab : a = b
      · subst hab
        rw [if_pos ⟨rfl, ha⟩, compare_cons_self]
        exact ih (fun h => hx (mem_cons_of_mem _ h)) (fun h => hy (mem_cons_of_mem _ h))
          (by simpa using hfuel) hp.2 hq.2
      · exact ⟨_, by rw [if_neg (fun h => hab h.1)],
          by rw [signOf_charDiff, compare_cons_of_ne hab]⟩

theorem endsFirst_cons_iff (k : Nat) (a : BitVec 8) (x y : List (BitVec 8)) :
    EndsFirst (k + 1) (a :: x) (a :: y) ↔ EndsFirst k x y := by
  simp [EndsFirst, cons_prefix_cons]

/-- The loop of `strncmp` compares what is left of the strings, unless the first one ends first. -/
theorem strncmpFrom_spec {x y : List (BitVec 8)} (hx : 0#8 ∉ x) (hy : 0#8 ∉ y) {k fuel : Nat}
    (hk : k < addressCount) (hfuel : k < fuel) {p q : BitVec 64}
    (hp : Reads m p ((x ++ [0#8]).take k)) (hq : Reads m q ((y ++ [0#8]).take k)) :
    ∃ r, strncmpFrom m (p + BitVec.ofNat 64 k) fuel p q 0#32 = some r ∧
      signOf r = if EndsFirst k x y then .eq else compare (x.take k) (y.take k) := by
  induction k generalizing x y fuel p q with
  | zero =>
    rcases Nat.exists_eq_succ_of_ne_zero (Nat.ne_of_gt hfuel) with ⟨fuel, rfl⟩
    refine ⟨0#32, ?_, ?_⟩
    · rw [strncmpFrom, if_pos (by simp)]
    · rw [if_neg (fun h => absurd h.1 (Nat.not_lt_zero _)), take_zero, take_zero]
      rfl
  | succ k ih =>
    rcases Nat.exists_eq_succ_of_ne_zero (Nat.ne_of_gt (Nat.zero_lt_of_lt hfuel)) with ⟨fuel, rfl⟩
    have hend : p ≠ p + BitVec.ofNat 64 (k + 1) := fun h =>
      absurd ((eq_end_iff hk).mp h) (Nat.succ_ne_zero k)
    rw [strncmpFrom, if_neg hend]
    cases x with
    | nil =>
      -- The first string ends: the second one is not looked at.
      refine ⟨0#32, by rw [hp.1, bind_some, if_pos rfl], ?_⟩
      cases y with
      | nil => rw [if_neg (fun h => h.2.2 rfl)]; rfl
      | cons b y => rw [if_pos ⟨Nat.succ_pos k, nil_prefix, by simp⟩]; rfl
    | cons a x =>
      have ha : a ≠ 0#8 := ne_of_mem_of_not_mem mem_cons_self hx
      rw [hp.1, bind_some, if_neg ha]
      cases y with
      | nil =>
        have hne : charDiff a 0#8 ≠ 0#32 := fun h => ha (charDiff_eq_zero_iff.mp h)
        refine ⟨charDiff a 0#8, by rw [hq.1, bind_some, if_neg hne], ?_⟩
        rw [if_neg (fun h => by simpa using h.2.1), signOf_charDiff, compare_zero ha,
          take_succ_cons,
          take_nil, compare_cons_nil]
      | cons b y =>
        rw [hq.1, bind_some, take_succ_cons, take_succ_cons]
        by_cases hab : a = b
        · subst hab
          have hzero : charDiff a a = 0#32 := charDiff_eq_zero_iff.mpr rfl
          rw [if_pos hzero, hzero, end_succ, compare_cons_self]
          simp only [endsFirst_cons_iff]
          exact ih (fun h => hx (mem_cons_of_mem _ h)) (fun h => hy (mem_cons_of_mem _ h))
            (by omega) (by omega) hp.2 hq.2
        · have hne : charDiff a b ≠ 0#32 := fun h => hab (charDiff_eq_zero_iff.mp h)
          refine ⟨charDiff a b, if_neg hne, ?_⟩
          rw [if_neg (fun h => hab (cons_prefix_cons.mp h.2.1).1), signOf_charDiff,
            compare_cons_of_ne hab]

theorem memcmpFrom_spec {bs cs : List (BitVec 8)} (hlen : bs.length = cs.length) {fuel : Nat}
    (hk : cs.length < addressCount) (hfuel : cs.length < fuel) {p q : BitVec 64}
    (hp : Reads m p bs) (hq : Reads m q cs) :
    ∃ r, memcmpFrom m (q + BitVec.ofNat 64 cs.length) fuel p q 0#32 = some r ∧
      signOf r = compare bs cs := by
  induction bs generalizing cs fuel p q with
  | nil =>
    rcases Nat.exists_eq_succ_of_ne_zero (Nat.ne_of_gt (Nat.zero_lt_of_lt hfuel)) with ⟨fuel, rfl⟩
    rw [length_nil, eq_comm, length_eq_zero_iff] at hlen
    subst hlen
    exact ⟨0#32, by rw [memcmpFrom, if_pos (by simp)], rfl⟩
  | cons b bs ih =>
    rcases Nat.exists_eq_succ_of_ne_zero (Nat.ne_of_gt (Nat.zero_lt_of_lt hfuel)) with ⟨fuel, rfl⟩
    cases cs with
    | nil => cases hlen
    | cons c cs =>
      have hend : q ≠ q + BitVec.ofNat 64 (c :: cs).length := fun h =>
        absurd ((eq_end_iff hk).mp h) (Nat.succ_ne_zero _)
      rw [memcmpFrom, if_neg hend, hp.1, bind_some, hq.1, bind_some]
      by_cases hbc : b = c
      · subst hbc
        have hzero : charDiff b b = 0#32 := charDiff_eq_zero_iff.mpr rfl
        rw [if_pos hzero, hzero, length_cons, end_succ, compare_cons_self]
        rw [length_cons] at hk hfuel
        exact ih (by simpa using hlen) (by omega) (by omega) hp.2 hq.2
      · have hne : charDiff b c ≠ 0#32 := fun h => hbc (charDiff_eq_zero_iff.mp h)
        exact ⟨charDiff b c, if_neg hne, by rw [signOf_charDiff, compare_cons_of_ne hbc]⟩

end

/-! ## Strings that end first -/

theorem compare_append_cons (x z : List (BitVec 8)) (b : BitVec 8) :
    compare x (x ++ b :: z) = .lt := by
  induction x with
  | nil => exact compare_nil_cons b z
  | cons a x ih => rwa [cons_append, compare_cons_self]

theorem EndsFirst.compare_eq {n : Nat} {x y : List (BitVec 8)} (h : EndsFirst n x y) :
    compare (x.take n) (y.take n) = .lt := by
  rcases h with ⟨hlen, ⟨z, rfl⟩, hne⟩
  cases z with
  | nil => exact absurd (append_nil x).symm hne
  | cons b z =>
    rcases Nat.exists_eq_add_of_lt hlen with ⟨k, rfl⟩
    rw [take_of_length_le (by omega), take_append, take_of_length_le (by omega),
      show x.length + k + 1 - x.length = k + 1 by omega, take_succ_cons]
    exact compare_append_cons x _ b

theorem EndsFirst.asymm {n : Nat} {x y : List (BitVec 8)} (h : EndsFirst n x y) :
    ¬ EndsFirst n y x := fun h' =>
  h.2.2 (h.2.1.eq_of_length (Nat.le_antisymm h.2.1.length_le h'.2.1.length_le))

/-! ## The functions on strings -/

section

variable {m : Bytes} {s1 s2 n : BitVec 64} {x y : CharString}

theorem strcmp_right (h1 : x.StandsAt m s1) (h2 : y.StandsAt m s2) : StrcmpRight m s1 s2 x y :=
  strcmpFrom_spec x.nulFree y.nulFree (length_lt_of_reads h1 x.nulFree) h1 h2

theorem strncmp_spec (h1 : x.StartsAt m s1 n) (h2 : y.StartsAt m s2 n) :
    ∃ r, strncmp m s1 s2 n = some r ∧ signOf r =
      if EndsFirst n.toNat x.chars y.chars then .eq
      else compare (x.chars.take n.toNat) (y.chars.take n.toNat) := by
  have hspec := strncmpFrom_spec x.nulFree y.nulFree n.isLt n.isLt h1 h2
  rwa [BitVec.ofNat_toNat, BitVec.setWidth_eq] at hspec

theorem strncmp_right_iff (h1 : x.StartsAt m s1 n) (h2 : y.StartsAt m s2 n) :
    StrncmpRight m s1 s2 n x y ↔ ¬ EndsFirst n.toNat x.chars y.chars := by
  rcases strncmp_spec h1 h2 with ⟨r, hr, hsign⟩
  constructor
  · rintro ⟨r', hr', hright⟩ hends
    cases hr.symm.trans hr'
    rw [if_pos hends] at hsign
    rw [hends.compare_eq, hsign] at hright
    cases hright
  · intro hends
    exact ⟨r, hr, by rw [hsign, if_neg hends]⟩

theorem strncmp_antisymmetric_iff (h1 : x.StartsAt m s1 n) (h2 : y.StartsAt m s2 n) :
    StrncmpAntisymmetric m s1 s2 n ↔
      ¬ EndsFirst n.toNat x.chars y.chars ∧ ¬ EndsFirst n.toNat y.chars x.chars := by
  rcases strncmp_spec h1 h2 with ⟨r, hr, hsign⟩
  rcases strncmp_spec h2 h1 with ⟨r', hr', hsign'⟩
  have hanti : StrncmpAntisymmetric m s1 s2 n ↔ signOf r = (signOf r').swap := by
    constructor
    · rintro ⟨q, q', hq, hq', hswap⟩
      cases hr.symm.trans hq
      cases hr'.symm.trans hq'
      exact hswap
    · exact fun hswap => ⟨r, r', hr, hr', hswap⟩
  rw [hanti, hsign, hsign']
  by_cases hxy : EndsFirst n.toNat x.chars y.chars
  · rw [if_pos hxy, if_neg hxy.asymm, Std.OrientedOrd.eq_swap, hxy.compare_eq]
    simp [hxy]
  · by_cases hyx : EndsFirst n.toNat y.chars x.chars
    · rw [if_neg hxy, if_pos hyx, Std.OrientedOrd.eq_swap, hyx.compare_eq]
      simp [hyx]
    · rw [if_neg hxy, if_neg hyx]
      simp only [hxy, hyx, not_false_eq_true, and_self, iff_true]
      exact Std.OrientedOrd.eq_swap

theorem CharString.StandsAt.startsAt (h : x.StandsAt m s1) (n : BitVec 64) : x.StartsAt m s1 n := by
  unfold CharString.StartsAt
  unfold CharString.StandsAt at h
  generalize x.chars ++ [0#8] = cs at h ⊢
  generalize n.toNat = k
  induction cs generalizing s1 k with
  | nil => rw [take_nil]; exact h
  | cons c cs ih =>
    cases k with
    | zero => exact trivial
    | succ k => exact ⟨h.1, ih h.2 k⟩

theorem strncmp_agrees_iff (h1 : x.StandsAt m s1) (h2 : y.StandsAt m s2)
    (hx : x.chars.length < n.toNat) (hy : y.chars.length < n.toNat) :
    StrncmpAgrees m s1 s2 n ↔ ¬ EndsFirst n.toNat x.chars y.chars := by
  rcases strcmp_right h1 h2 with ⟨c, hc, hcsign⟩
  rw [← strncmp_right_iff (h1.startsAt n) (h2.startsAt n), StrncmpRight,
    take_of_length_le (by omega), take_of_length_le (by omega), ← hcsign]
  constructor
  · rintro ⟨r, r', hr, hr', hsign⟩
    cases hc.symm.trans hr'
    exact ⟨r, hr, hsign⟩
  · rintro ⟨r, hr, hsign⟩
    exact ⟨r, c, hr, hc, hsign⟩

theorem memcmp_right {bs cs : List (BitVec 8)} (hbs : bs.length = n.toNat)
    (hcs : cs.length = n.toNat) (h1 : Reads m s1 bs) (h2 : Reads m s2 cs) :
    MemcmpRight m s1 s2 n bs cs := by
  have hlt : cs.length < addressCount := by
    rw [hcs]
    exact n.isLt
  have hspec := memcmpFrom_spec (hbs.trans hcs.symm) hlt hlt h1 h2
  rwa [hcs, BitVec.ofNat_toNat, BitVec.setWidth_eq] at hspec

end

/-- The three functions read no more than the strings up to their terminators, up to {lit}`n`
characters or {lit}`n` bytes; `strncmp` is right, antisymmetric and in agreement with `strcmp`
exactly as long as no string ends first. -/
theorem string_comparisons_iff (m : Bytes) (s1 s2 n : BitVec 64) (x y : CharString) :
    (x.StandsAt m s1 → y.StandsAt m s2 → StrcmpRight m s1 s2 x y) ∧
    (x.StartsAt m s1 n → y.StartsAt m s2 n →
      (StrncmpRight m s1 s2 n x y ↔ ¬ EndsFirst n.toNat x.chars y.chars) ∧
      (StrncmpAntisymmetric m s1 s2 n ↔
        ¬ EndsFirst n.toNat x.chars y.chars ∧ ¬ EndsFirst n.toNat y.chars x.chars)) ∧
    (x.StandsAt m s1 → y.StandsAt m s2 → x.chars.length < n.toNat → y.chars.length < n.toNat →
      (StrncmpAgrees m s1 s2 n ↔ ¬ EndsFirst n.toNat x.chars y.chars)) ∧
    ∀ bs cs : List (BitVec 8), bs.length = n.toNat → cs.length = n.toNat → Reads m s1 bs →
      Reads m s2 cs → MemcmpRight m s1 s2 n bs cs :=
  ⟨strcmp_right, fun h1 h2 => ⟨strncmp_right_iff h1 h2, strncmp_antisymmetric_iff h1 h2⟩,
    strncmp_agrees_iff, fun _ _ => memcmp_right⟩

/-- The memory with {lit}`"a"` at 0 and {lit}`"ab"` at 2. -/
def prefixMemory : Bytes := fun p => [97#8, 0#8, 97#8, 98#8, 0#8][p.toNat]?

/-- The sign of `strncmp("a", "ab", 5)` is that of equal strings. -/
theorem strncmp_prefix_wrong :
    CharString.StandsAt prefixMemory 0#64 ⟨[97#8], by decide⟩ ∧
      CharString.StandsAt prefixMemory 2#64 ⟨[97#8, 98#8], by decide⟩ ∧
      strncmp prefixMemory 0#64 2#64 5#64 = some 0#32 ∧
      ¬ StrncmpRight prefixMemory 0#64 2#64 5#64 ⟨[97#8], by decide⟩ ⟨[97#8, 98#8], by decide⟩ := by
  have h1 : CharString.StandsAt prefixMemory 0#64 ⟨[97#8], by decide⟩ := ⟨rfl, rfl, trivial⟩
  have h2 : CharString.StandsAt prefixMemory 2#64 ⟨[97#8, 98#8], by decide⟩ :=
    ⟨rfl, rfl, rfl, trivial⟩
  refine ⟨h1, h2, by rfl, fun hright => ?_⟩
  exact (strncmp_right_iff (h1.startsAt _) (h2.startsAt _)).mp hright (by decide)

end Kcs.Libc
