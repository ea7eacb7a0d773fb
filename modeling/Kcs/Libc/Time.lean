import Kcs.Lib.Gregorian

/-!
# Broken-down times

The runtime's {lit}`mktime` evaluates a closed formula on the fields of a `struct tm`.  The formula
expects years from the year zero and months from one; the fields are years since 1900 and months
from zero.

Main results:

- Theorem {lit}`mktime_counts`: the formula is right for years from zero and months from one.
- Theorem {lit}`mktime_never_inverts`: for the fields of a date it is never right.
- Theorem {lit}`mktime_counted_inverts`: for the fields counted as the formula expects it is.
-/

namespace Kcs.Libc

open Gregorian

/-! ## The functions -/

/-- `struct tm` -/
structure Tm where
  tmSec : BitVec 32
  tmMin : BitVec 32
  tmHour : BitVec 32
  tmMday : BitVec 32
  tmMon : BitVec 32
  tmYear : BitVec 32
  tmWday : BitVec 32
  tmYday : BitVec 32
  tmIsdst : BitVec 32

/-- The year and the month of `mktime` when it evaluates the formula. -/
def shiftedDate (tp : Tm) : BitVec 32 × BitVec 32 :=
  let mon := tp.tmMon - 2#32
  if mon.sle 0#32 then (tp.tmYear - 1#32, mon + 12#32) else (tp.tmYear, mon)

/-- The sum of `int`s in the formula of `mktime`. -/
def shiftedDays (year mon day : BitVec 32) : BitVec 32 :=
  year.sdiv 4#32 - year.sdiv 100#32 + year.sdiv 400#32 + (367#32 * mon).sdiv 12#32 + day

/-- `mktime` -/
def mktime (tp : Tm) : BitVec 64 :=
  let (year, mon) := shiftedDate tp
  let days := (shiftedDays year mon tp.tmMday).signExtend 64 + (year * 365#32).signExtend 64 -
    719499#64
  ((days * 24#64 + tp.tmHour.signExtend 64) * 60#64 + tp.tmMin.signExtend 64) * 60#64 +
    tp.tmSec.signExtend 64

/-- `__kcc_builtin_gmtime` -/
def kccBuiltinGmtime (t : Tm) : Nat → BitVec 32
  | 0 => t.tmSec
  | 1 => t.tmMin
  | 2 => t.tmHour
  | 3 => t.tmMday
  | 4 => t.tmMon
  | 5 => t.tmYear
  | 6 => t.tmWday
  | 7 => t.tmYday
  | _ => t.tmIsdst

/-- `gmtime_r` on a host with a function `gmtime`. -/
def gmtimeR (gmtime : BitVec 64 → Tm) (timer : BitVec 64) : Tm :=
  let p := gmtime timer
  { tmSec := kccBuiltinGmtime p 0
    tmMin := kccBuiltinGmtime p 1
    tmHour := kccBuiltinGmtime p 2
    tmMday := kccBuiltinGmtime p 3
    tmMon := kccBuiltinGmtime p 4
    tmYear := kccBuiltinGmtime p 5
    tmWday := kccBuiltinGmtime p 6
    tmYday := kccBuiltinGmtime p 7
    tmIsdst := kccBuiltinGmtime p 8 }

/-! ## The calendar -/

/-- The seconds from the start of 1970 to a time of a day. -/
def secondsSince1970 (year month day : Nat) (tp : Tm) : Int :=
  (((dayNumber year month day - dayNumber 1970 0 1) * 24 + tp.tmHour.toNat) * 60 +
    tp.tmMin.toNat) * 60 + tp.tmSec.toNat

/-- The calendar year of a `struct tm`. -/
def Tm.year (tp : Tm) : Nat := 1900 + tp.tmYear.toNat

/-- The fields are in their ranges, and the date is one from 1970 to 9999. -/
structure Tm.Valid (tp : Tm) : Prop where
  sec_le : tp.tmSec.toNat ≤ 60
  min_le : tp.tmMin.toNat ≤ 59
  hour_le : tp.tmHour.toNat ≤ 23
  mday_pos : 1 ≤ tp.tmMday.toNat
  mday_le : tp.tmMday.toNat ≤ monthLength tp.year tp.tmMon.toNat
  mon_le : tp.tmMon.toNat ≤ 11
  year_ge : 1970 ≤ tp.year
  year_le : tp.year ≤ 9999

/-- The seconds from the start of 1970 to a broken-down time. -/
def Tm.seconds (tp : Tm) : Int :=
  secondsSince1970 tp.year tp.tmMon.toNat tp.tmMday.toNat tp

/-! ## The formula -/

theorem sdiv_toNat {x y : BitVec 32} (hx : x.toNat < 2 ^ 31) (hy : y.toNat < 2 ^ 31) :
    (x.sdiv y).toNat = x.toNat / y.toNat := by
  have hxm : x.msb = false := by
    rw [BitVec.msb_eq_decide, decide_eq_false_iff_not]
    omega
  have hym : y.msb = false := by
    rw [BitVec.msb_eq_decide, decide_eq_false_iff_not]
    omega
  rw [BitVec.sdiv_eq, hxm, hym]
  rfl

theorem shiftedDays_toNat {year mon day : BitVec 32} (hyear : year.toNat < 10000)
    (hmon : mon.toNat ≤ 12) (hday : day.toNat ≤ 31) :
    ((shiftedDays year mon day).toNat : Int) = (year.toNat : Int) / 4 - year.toNat / 100 +
      year.toNat / 400 + 367 * (mon.toNat : Int) / 12 + day.toNat := by
  have h4 : (year.sdiv 4#32).toNat = year.toNat / 4 := sdiv_toNat (by omega) (by decide)
  have h100 : (year.sdiv 100#32).toNat = year.toNat / 100 := sdiv_toNat (by omega) (by decide)
  have h400 : (year.sdiv 400#32).toNat = year.toNat / 400 := sdiv_toNat (by omega) (by decide)
  have hmul : (367#32 * mon).toNat = 367 * mon.toNat := by
    rw [BitVec.toNat_mul]
    exact Nat.mod_eq_of_lt (show 367 * mon.toNat < 2 ^ 32 by omega)
  have h12 : ((367#32 * mon).sdiv 12#32).toNat = 367 * mon.toNat / 12 := by
    rw [← hmul]
    exact sdiv_toNat (by omega) (by decide)
  rw [shiftedDays, BitVec.toNat_add, BitVec.toNat_add, BitVec.toNat_add, BitVec.toNat_sub, h4, h100,
    h400, h12]
  omega

theorem mktime_eq (tp : Tm) : mktime tp = BitVec.ofInt 64
    ((((((shiftedDays (shiftedDate tp).1 (shiftedDate tp).2 tp.tmMday).toInt +
      ((shiftedDate tp).1 * 365#32).toInt + -719499) * 24 + tp.tmHour.toInt) * 60 +
        tp.tmMin.toInt) * 60 + tp.tmSec.toInt)) := by
  have hextend (x : BitVec 32) : x.signExtend 64 = BitVec.ofInt 64 x.toInt := rfl
  have hdays : -719499#64 = BitVec.ofInt 64 (-719499) := by decide
  have hhours : 24#64 = BitVec.ofInt 64 24 := by decide
  have hminutes : 60#64 = BitVec.ofInt 64 60 := by decide
  simp only [mktime, BitVec.sub_eq_add_neg, hdays, hhours, hminutes, hextend, BitVec.ofInt_add,
    BitVec.ofInt_mul]

/-- What the formula makes of the fields of a year and a month: the year counts from zero, the
months count from one, and month zero is the last one of the year before. -/
def countedDate (tp : Tm) : Nat × Nat :=
  if tp.tmMon.toNat = 0 then (tp.tmYear.toNat - 1, 11) else (tp.tmYear.toNat, tp.tmMon.toNat - 1)

theorem shiftedDate_toNat {tp : Tm} (hyear : 2 ≤ tp.tmYear.toNat) (hmon : tp.tmMon.toNat ≤ 12) :
    (shiftedDate tp).1.toNat = marchYear (countedDate tp).1 (countedDate tp).2 ∧
      (shiftedDate tp).2.toNat = marchMonth (countedDate tp).2 := by
  have hlt := tp.tmYear.isLt
  have hsub : (tp.tmMon - 2#32).toInt = tp.tmMon.toNat - 2 := by
    rw [BitVec.toInt_sub, BitVec.toInt_eq_toNat_of_lt (by omega)]
    rw [show (2#32).toInt = 2 from rfl, Int.bmod_def]
    omega
  have hyear1 : (tp.tmYear - 1#32).toNat = tp.tmYear.toNat - 1 := by
    rw [BitVec.toNat_sub, show (1#32).toNat = 1 from rfl]
    omega
  have hmon10 : tp.tmMon.toNat ≤ 2 → (tp.tmMon - 2#32 + 12#32).toNat = tp.tmMon.toNat + 10 := by
    intro hle
    rw [BitVec.toNat_add, BitVec.toNat_sub, show (2#32).toNat = 2 from rfl,
      show (12#32).toNat = 12 from rfl]
    omega
  unfold shiftedDate countedDate marchYear marchMonth
  simp only [BitVec.sle, hsub, BitVec.toInt_zero, decide_eq_true_eq]
  by_cases hzero : tp.tmMon.toNat = 0
  · rw [if_pos (by omega), if_pos hzero]
    dsimp only
    rw [if_neg (by decide), if_neg (by decide), hyear1, hmon10 (by omega), hzero]
    exact ⟨rfl, rfl⟩
  · rw [if_neg hzero]
    by_cases hle : tp.tmMon.toNat ≤ 2
    · rw [if_pos (by omega), if_pos (by omega), if_pos (by omega), hyear1, hmon10 hle]
      exact ⟨rfl, by omega⟩
    · rw [if_neg (by omega), if_neg (by omega), if_neg (by omega), BitVec.toNat_sub,
        show (2#32).toNat = 2 from rfl]
      exact ⟨rfl, by omega⟩

/-- The formula is right for years from zero and months from one. -/
theorem mktime_counts {tp : Tm} (hyear : 2 ≤ tp.tmYear.toNat) (hyear' : tp.tmYear.toNat < 10000)
    (hmon : tp.tmMon.toNat ≤ 12) (hday : tp.tmMday.toNat ≤ 31) (hhour : tp.tmHour.toNat ≤ 23)
    (hmin : tp.tmMin.toNat ≤ 59) (hsec : tp.tmSec.toNat ≤ 60) :
    mktime tp = BitVec.ofInt 64
      (secondsSince1970 (countedDate tp).1 (countedDate tp).2 tp.tmMday.toNat tp) := by
  have hcounted : 0 < (countedDate tp).1 ∧ (countedDate tp).1 < 10000 ∧
      (countedDate tp).2 < 12 := by
    unfold countedDate
    split
    · dsimp only
      omega
    · dsimp only
      omega
  rcases shiftedDate_toNat hyear hmon with ⟨hshifted, hmarch⟩
  have hmarchYear : marchYear (countedDate tp).1 (countedDate tp).2 < 10000 := by
    unfold marchYear
    split <;> omega
  have hmarchMonth : marchMonth (countedDate tp).2 ≤ 12 := by
    unfold marchMonth
    split <;> omega
  have hnumber := dayNumber_eq_march hcounted.1 hcounted.2.2 tp.tmMday.toNat
  have hsum := @shiftedDays_toNat (shiftedDate tp).1 (shiftedDate tp).2 tp.tmMday (by omega)
    (by omega) hday
  have hyears : ((shiftedDate tp).1 * 365#32).toNat =
      marchYear (countedDate tp).1 (countedDate tp).2 * 365 := by
    rw [BitVec.toNat_mul, hshifted]
    exact Nat.mod_eq_of_lt (by simp only [BitVec.toNat_ofNat]; omega)
  have hepoch : dayNumber 1970 0 1 = 719528 := by
    rw [dayNumber_eq_march (by decide) (by decide)]
    decide
  rw [mktime_eq, secondsSince1970, hepoch, hnumber]
  rw [hshifted, hmarch] at hsum
  rw [BitVec.toInt_eq_toNat_of_lt (x := tp.tmHour) (by omega),
    BitVec.toInt_eq_toNat_of_lt (x := tp.tmMin) (by omega),
    BitVec.toInt_eq_toNat_of_lt (x := tp.tmSec) (by omega),
    BitVec.toInt_eq_toNat_of_lt (x := (shiftedDate tp).1 * 365#32) (by omega),
    BitVec.toInt_eq_toNat_of_lt (x := shiftedDays _ _ _) (by omega), hsum, hyears]
  refine congrArg (BitVec.ofInt 64) ?_
  push_cast
  ring

/-! ## Dates -/

theorem dayNumber_gap {y y' m m' : Nat} (hy : 0 < y) (hm : m < 12) (hm' : m' < 12)
    (hlo : y + 1899 ≤ y') (hhi : y' ≤ y + 1901) (d : Nat) :
    dayNumber y m d < dayNumber y' m' d ∧ dayNumber y' m' d < dayNumber y m d + 10 ^ 6 := by
  have hleft : y ≤ marchYear y m + 1 ∧ marchYear y m ≤ y ∧ marchMonth m ≤ 12 := by
    unfold marchYear marchMonth
    split <;> omega
  have hright : y' ≤ marchYear y' m' + 1 ∧ marchYear y' m' ≤ y' ∧ marchMonth m' ≤ 12 := by
    unfold marchYear marchMonth
    split <;> omega
  rw [dayNumber_eq_march hy hm, dayNumber_eq_march (by omega) hm']
  omega

theorem ofInt_ne {a b : Int} (hlt : a < b) (hle : b < a + 2 ^ 64) :
    BitVec.ofInt 64 a ≠ BitVec.ofInt 64 b := by
  intro heq
  have hnat := congrArg BitVec.toNat heq
  rw [BitVec.toNat_ofInt, BitVec.toNat_ofInt] at hnat
  omega

theorem monthLength_le (y m : Nat) : monthLength y m ≤ 31 := by
  unfold monthLength
  split
  · split <;> decide
  · decide
  · decide
  · decide
  · decide
  · exact le_refl _

theorem mktime_ne_seconds {tp : Tm} (h : tp.Valid) : mktime tp ≠ BitVec.ofInt 64 tp.seconds := by
  have hyear := h.year_ge
  have hyear' := h.year_le
  have hmon := h.mon_le
  have hday := h.mday_le.trans (monthLength_le _ _)
  unfold Tm.year at hyear hyear'
  rw [mktime_counts (by omega) (by omega) (by omega) hday h.hour_le h.min_le h.sec_le]
  have hcounted : 0 < (countedDate tp).1 ∧ (countedDate tp).2 < 12 ∧
      (countedDate tp).1 + 1899 ≤ tp.year ∧ tp.year ≤ (countedDate tp).1 + 1901 := by
    unfold countedDate Tm.year
    split
    · dsimp only
      omega
    · dsimp only
      omega
  have hgap := dayNumber_gap hcounted.1 hcounted.2.1 (show tp.tmMon.toNat < 12 by omega)
    hcounted.2.2.1 hcounted.2.2.2 tp.tmMday.toNat
  unfold Tm.seconds secondsSince1970
  exact ofInt_ne (by omega) (by omega)

/-- What the documentation of `gmtime` says of a time: the fields are those of its date. -/
def GivesFields (gmtime : BitVec 64 → Tm) (t : BitVec 64) : Prop :=
  (gmtime t).Valid ∧ (gmtime t).seconds = t.toNat

/-- `mktime` is right for no date from 1970 to 9999, and the inverse of `gmtime` nowhere. -/
theorem mktime_never_inverts (tp : Tm) (gmtime : BitVec 64 → Tm) (t : BitVec 64) :
    (tp.Valid → mktime tp ≠ BitVec.ofInt 64 tp.seconds) ∧
      (GivesFields gmtime t → mktime (gmtimeR gmtime t) ≠ t) := by
  refine ⟨mktime_ne_seconds, fun h heq => ?_⟩
  have hne := mktime_ne_seconds h.1
  rw [h.2, BitVec.ofInt_natCast, BitVec.ofNat_toNat, BitVec.setWidth_eq] at hne
  exact hne heq

/-- The start of 1970, a Thursday. -/
def startOf1970 : Tm := ⟨0, 0, 0, 1, 0, 70, 4, 0, 0⟩

/-- The start of 1970 is taken for a day of the year 69. -/
theorem mktime_startOf1970 : startOf1970.Valid ∧ startOf1970.seconds = 0 ∧
    mktime startOf1970 = BitVec.ofInt 64 (-59960822400) ∧
    mktime startOf1970 ≠ BitVec.ofInt 64 startOf1970.seconds := by
  have hvalid : startOf1970.Valid :=
    ⟨by decide, by decide, by decide, by decide, by decide, by decide, by decide, by decide⟩
  have hzero : startOf1970.seconds = 0 := by
    rw [Tm.seconds, secondsSince1970, show startOf1970.year = 1970 from rfl,
      show startOf1970.tmMon.toNat = 0 from rfl, show startOf1970.tmMday.toNat = 1 from rfl,
      sub_self]
    rfl
  have hvalue : mktime startOf1970 = BitVec.ofInt 64 (-59960822400) := by decide
  refine ⟨hvalid, hzero, hvalue, ?_⟩
  rw [hvalue, hzero]
  decide

/-! ## The inverse -/

/-- The fields with the year and the month that the formula expects. -/
def Tm.counted (tp : Tm) : Tm :=
  { tp with tmYear := tp.tmYear + 1900#32, tmMon := tp.tmMon + 1#32 }

theorem Tm.Valid.countedDate_eq {tp : Tm} (h : tp.Valid) :
    tp.counted.tmYear.toNat = tp.year ∧ tp.counted.tmMon.toNat = tp.tmMon.toNat + 1 ∧
      countedDate tp.counted = (tp.year, tp.tmMon.toNat) := by
  have hyear := h.year_le
  have hmon := h.mon_le
  unfold Tm.year at hyear
  have hy : tp.counted.tmYear.toNat = tp.year := by
    rw [Tm.counted, BitVec.toNat_add, show (1900#32).toNat = 1900 from rfl, Tm.year]
    omega
  have hm : tp.counted.tmMon.toNat = tp.tmMon.toNat + 1 := by
    rw [Tm.counted, BitVec.toNat_add, show (1#32).toNat = 1 from rfl]
    omega
  refine ⟨hy, hm, ?_⟩
  rw [countedDate, if_neg (by omega), hy, hm, Nat.add_sub_cancel]

/-- With years from the year zero and months from one in the fields of `gmtime`, `mktime` gives the
time back. -/
theorem mktime_counted_inverts (gmtime : BitVec 64 → Tm) (t : BitVec 64)
    (h : GivesFields gmtime t) : mktime (gmtimeR gmtime t).counted = t := by
  change mktime (gmtime t).counted = t
  rcases h with ⟨hvalid, hseconds⟩
  rcases hvalid.countedDate_eq with ⟨hy, hm, hdate⟩
  have hyear := hvalid.year_ge
  have hyear' := hvalid.year_le
  have hmon := hvalid.mon_le
  have hvalue : mktime (gmtime t).counted = _ :=
    mktime_counts (by omega) (by omega) (by omega) (hvalid.mday_le.trans (monthLength_le _ _))
      hvalid.hour_le hvalid.min_le hvalid.sec_le
  have hsame : secondsSince1970 (gmtime t).year (gmtime t).tmMon.toNat
      (gmtime t).counted.tmMday.toNat (gmtime t).counted = t.toNat := hseconds
  rw [hvalue, hdate, hsame, BitVec.ofInt_natCast, BitVec.ofNat_toNat, BitVec.setWidth_eq]

theorem mktime_counted_startOf1970 :
    mktime (gmtimeR (fun _ => startOf1970) 0#64).counted = 0#64 := by
  refine mktime_counted_inverts _ _ ⟨⟨by decide, by decide, by decide, by decide, by decide,
    by decide, by decide, by decide⟩, ?_⟩
  have hyear : startOf1970.year = 1970 := rfl
  have hmon : startOf1970.tmMon.toNat = 0 := rfl
  have hday : startOf1970.tmMday.toNat = 1 := rfl
  rw [Tm.seconds, secondsSince1970, hyear, hmon, hday, sub_self]
  rfl

end Kcs.Libc
