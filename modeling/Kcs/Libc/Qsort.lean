import Mathlib

/-!
# Sorting

The runtime's {lit}`qsort` partitions around an element that it keeps by its address, so that an
exchange of that element changes the pivot of the pass.  An array is a function of the index, and
a comparison or an exchange outside the array makes the run undefined.

Main results:

- Theorem {lit}`partition_spec`: a pass ends inside its range, and splits the range if it keeps
  its pivot.
- Theorem {lit}`quicksort_spec`: a range is permuted, and sorted if each of its passes does.
- Theorem {lit}`qsort_sorts`: the same for a call.
- Theorem {lit}`qsort_not_sorted`: a pass that exchanges its pivot can leave the array unsorted.
-/

namespace Kcs.Libc

open Option

/-! ## The functions -/

section

variable {α : Type} (comp : α → α → Int) (n : Int)

/-- A loop that moves an index by {lit}`d` while a test on the element holds. -/
def scanWhile (test : Int → Bool) (d : Int) : Nat → Int → Option Int
  | 0, _ => none
  | fuel + 1, i =>
    if 0 ≤ i ∧ i < n then if test i then scanWhile test d fuel (i + d) else some i else none

/-- The loop over {lit}`i`. -/
def scanUp (a : Int → α) (x : Int) : Nat → Int → Option Int :=
  scanWhile n (fun i => decide (0 < comp (a x) (a i))) 1

/-- The loop over {lit}`j`. -/
def scanDown (a : Int → α) (x : Int) : Nat → Int → Option Int :=
  scanWhile n (fun j => decide (0 < comp (a j) (a x))) (-1)

/-- Two elements are exchanged. -/
def swapElements (a : Int → α) (i j : Int) : Int → α := fun k => a (Equiv.swap i j k)

/-- The partition loop around the element at {lit}`x`. -/
def partition (x : Int) : Nat → (Int → α) → Int → Int → Option ((Int → α) × Int × Int)
  | 0, _, _, _ => none
  | fuel + 1, a, i, j => do
    let i ← scanUp comp n a x (fuel + 1) i
    let j ← scanDown comp n a x (fuel + 1) j
    if j ≤ i then some (a, i, j) else partition x fuel (swapElements a i j) (i + 1) (j - 1)

/-- The recursive sort of a range; a sum that is no {lit}`int` makes the run undefined. -/
def quicksort : Nat → Int → Int → (Int → α) → Option (Int → α)
  | 0, _, _, _ => none
  | fuel + 1, first, last, a => do
    let x := (first + last).tdiv 2
    if 0 ≤ x ∧ x < n ∧ first + last < 2 ^ 31 then
      let (a, i, j) ← partition comp n x (fuel + 1) a first last
      let a ← if first < i - 1 then quicksort fuel first (i - 1) a else some a
      if j + 1 < last then quicksort fuel (j + 1) last a else some a
    else none

/-- The call, with the last index converted to an {lit}`int`. -/
def qsort (fuel : Nat) (a : Int → α) : Option (Int → α) :=
  quicksort comp n fuel 0 (BitVec.ofInt 32 (n - 1)).toInt a

/-! ## The property -/

/-- The order of a comparison function is a total preorder. -/
structure IsTotalPreorder : Prop where
  total : ∀ x y, comp x y ≤ 0 ∨ comp y x ≤ 0
  trans : ∀ x y z, comp x y ≤ 0 → comp y z ≤ 0 → comp x z ≤ 0

/-- The elements of a range are in order. -/
def SortedRange (first last : Int) (a : Int → α) : Prop :=
  ∀ k l, first ≤ k → k ≤ l → l ≤ last → comp (a k) (a l) ≤ 0

/-- An array has the elements of another one in a range, and the same elements elsewhere. -/
def PermutesRange (first last : Int) (a b : Int → α) : Prop :=
  ∃ e : Equiv.Perm Int, (∀ k, k < first ∨ last < k → e k = k) ∧ ∀ k, b k = a (e k)

/-- The exchange of two elements leaves the pivot of the pass alone, or brings in an element that
is equivalent to it. -/
def keepsPivot (a : Int → α) (x i j : Int) : Bool :=
  (x ≠ i && x ≠ j) || (comp (a i) (a j) ≤ 0 && comp (a j) (a i) ≤ 0)

/-- Each exchange of the partition loop keeps the pivot. -/
def partitionKeeps (x : Int) : Nat → (Int → α) → Int → Int → Bool
  | 0, _, _, _ => true
  | fuel + 1, a, i, j =>
    match scanUp comp n a x (fuel + 1) i, scanDown comp n a x (fuel + 1) j with
    | some i, some j =>
      decide (j ≤ i) || (keepsPivot comp a x i j &&
        partitionKeeps x fuel (swapElements a i j) (i + 1) (j - 1))
    | _, _ => true

/-- Each pass of the recursive sort keeps its pivot. -/
def quicksortKeeps : Nat → Int → Int → (Int → α) → Bool
  | 0, _, _, _ => true
  | fuel + 1, first, last, a =>
    let x := (first + last).tdiv 2
    partitionKeeps comp n x (fuel + 1) a first last &&
      match partition comp n x (fuel + 1) a first last with
      | none => true
      | some (a, i, j) =>
        (decide (i - 1 ≤ first) || quicksortKeeps fuel first (i - 1) a) &&
          match (if first < i - 1 then quicksort comp n fuel first (i - 1) a else some a) with
          | none => true
          | some a => decide (last ≤ j + 1) || quicksortKeeps fuel (j + 1) last a

end

/-! ## Ranges -/

section

variable {α : Type} {comp : α → α → Int} {n first last : Int} {a b c : Int → α}

theorem IsTotalPreorder.refl (h : IsTotalPreorder comp) (x : α) : comp x x ≤ 0 :=
  (h.total x x).elim id id

theorem IsTotalPreorder.le_of_not (h : IsTotalPreorder comp) {x y : α} (hxy : 0 < comp x y) :
    comp y x ≤ 0 :=
  (h.total x y).resolve_left (not_le.mpr hxy)

namespace PermutesRange

theorem refl (first last : Int) (a : Int → α) : PermutesRange first last a a :=
  ⟨Equiv.refl _, fun _ _ => rfl, fun _ => rfl⟩

theorem trans (h : PermutesRange first last a b) (h' : PermutesRange first last b c) :
    PermutesRange first last a c := by
  rcases h with ⟨e, he, hb⟩
  rcases h' with ⟨e', he', hc⟩
  exact ⟨e'.trans e, fun k hk => by rw [Equiv.trans_apply, he' k hk, he k hk],
    fun k => by rw [hc, hb, Equiv.trans_apply]⟩

theorem mono {first' last' : Int} (h : PermutesRange first last a b) (hfirst : first' ≤ first)
    (hlast : last ≤ last') : PermutesRange first' last' a b := by
  rcases h with ⟨e, he, hb⟩
  exact ⟨e, fun k hk => he k (by omega), hb⟩

theorem swap {i j : Int} (hi : first ≤ i ∧ i ≤ last) (hj : first ≤ j ∧ j ≤ last) :
    PermutesRange first last a (swapElements a i j) :=
  ⟨Equiv.swap i j, fun k hk => Equiv.swap_apply_of_ne_of_ne (by omega) (by omega), fun _ => rfl⟩

theorem outside (h : PermutesRange first last a b) {k : Int} (hk : k < first ∨ last < k) :
    b k = a k := by
  rcases h with ⟨e, he, hb⟩
  rw [hb, he k hk]

theorem forall_mem (h : PermutesRange first last a b) {P : α → Prop}
    (hP : ∀ k, first ≤ k → k ≤ last → P (a k)) {k : Int} (hfirst : first ≤ k) (hlast : k ≤ last) :
    P (b k) := by
  rcases h with ⟨e, he, hb⟩
  rw [hb]
  have hinside : ¬ (e k < first ∨ last < e k) := fun hout => by
    have := e.injective (he _ hout)
    omega
  exact hP _ (by omega) (by omega)

end PermutesRange

theorem swapElements_left (a : Int → α) (i j : Int) : swapElements a i j i = a j :=
  congrArg a (Equiv.swap_apply_left i j)

theorem swapElements_right (a : Int → α) (i j : Int) : swapElements a i j j = a i :=
  congrArg a (Equiv.swap_apply_right i j)

theorem swapElements_of_ne {i j k : Int} (hi : k ≠ i) (hj : k ≠ j) : swapElements a i j k = a k :=
  congrArg a (Equiv.swap_apply_of_ne_of_ne hi hj)

/-! ## Scanning -/

theorem scanWhile_spec (test : Int → Bool) (d : Int) (m : Nat) :
    ∀ (fuel : Nat) (i : Int), test (i + d * m) = false → m < fuel →
      (∀ k : Nat, k ≤ m → 0 ≤ i + d * k ∧ i + d * k < n) →
      ∃ m' ≤ m, scanWhile n test d fuel i = some (i + d * m') ∧ test (i + d * m') = false ∧
        ∀ k : Nat, k < m' → test (i + d * k) = true := by
  induction m with
  | zero =>
    intro fuel i hstop hfuel hin
    cases fuel with
    | zero => exact absurd hfuel (lt_irrefl 0)
    | succ fuel =>
      have hi : 0 ≤ i ∧ i < n := by simpa using hin 0 le_rfl
      refine ⟨0, le_rfl, ?_, hstop, fun k hk => absurd hk (Nat.not_lt_zero k)⟩
      rw [scanWhile, if_pos hi, if_neg (by simpa using hstop)]
      simp
  | succ m ih =>
    intro fuel i hstop hfuel hin
    cases fuel with
    | zero => exact absurd hfuel (Nat.not_lt_zero _)
    | succ fuel =>
      have hi : 0 ≤ i ∧ i < n := by simpa using hin 0 (Nat.zero_le _)
      have hshift (k : Nat) : i + d + d * k = i + d * (k + 1 : Nat) := by
        push_cast
        ring
      rw [scanWhile, if_pos hi]
      cases htest : test i with
      | false => exact ⟨0, Nat.zero_le _, by simp, by simpa using htest, fun k hk => nomatch hk⟩
      | true =>
        rcases ih fuel (i + d) (by rwa [hshift]) (Nat.lt_of_succ_lt_succ hfuel)
          (fun k hk => hshift k ▸ hin _ (Nat.succ_le_succ hk)) with ⟨m', hm', hscan, hend, hpass⟩
        rw [hshift] at hscan hend
        refine ⟨m' + 1, Nat.succ_le_succ hm', by simpa using hscan, hend, fun k hk => ?_⟩
        cases k with
        | zero => simpa using htest
        | succ k =>
          rw [← hshift]
          exact hpass k (Nat.lt_of_succ_lt_succ hk)

theorem scanUp_spec {fuel : Nat} {x i p : Int} (hi : 0 ≤ i) (hip : i ≤ p) (hp : p < n)
    (hstop : comp (a x) (a p) ≤ 0) (hfuel : p < i + fuel) :
    ∃ i', scanUp comp n a x fuel i = some i' ∧ i ≤ i' ∧ i' ≤ p ∧ comp (a x) (a i') ≤ 0 ∧
      ∀ k, i ≤ k → k < i' → 0 < comp (a x) (a k) := by
  have hcast : i + 1 * ((p - i).toNat : Int) = p := by omega
  rcases scanWhile_spec (n := n) (fun k => decide (0 < comp (a x) (a k))) 1
    (p - i).toNat fuel i (by rw [hcast]; simpa using hstop) (by omega)
    (fun k hk => by omega) with ⟨m, hm, hscan, hend, hpass⟩
  refine ⟨i + 1 * m, hscan, by omega, by omega, by simpa using hend, fun k hk hk' => ?_⟩
  have := hpass (k - i).toNat (by omega)
  rw [show i + 1 * ((k - i).toNat : Int) = k by omega] at this
  exact of_decide_eq_true this

theorem scanDown_spec {fuel : Nat} {x j q : Int} (hj : j < n) (hqj : q ≤ j) (hq : 0 ≤ q)
    (hstop : comp (a q) (a x) ≤ 0) (hfuel : j < q + fuel) :
    ∃ j', scanDown comp n a x fuel j = some j' ∧ q ≤ j' ∧ j' ≤ j ∧ comp (a j') (a x) ≤ 0 ∧
      ∀ k, j' < k → k ≤ j → 0 < comp (a k) (a x) := by
  have hcast : j + -1 * ((j - q).toNat : Int) = q := by omega
  rcases scanWhile_spec (n := n) (fun k => decide (0 < comp (a k) (a x))) (-1)
    (j - q).toNat fuel j (by rw [hcast]; simpa using hstop) (by omega)
    (fun k hk => by omega) with ⟨m, hm, hscan, hend, hpass⟩
  refine ⟨j + -1 * m, hscan, by omega, by omega, by simpa using hend, fun k hk hk' => ?_⟩
  have := hpass (j - k).toNat (by omega)
  rw [show j + -1 * ((j - k).toNat : Int) = k by omega] at this
  exact of_decide_eq_true this

/-! ## Partitioning -/

/-- Each loop has an element ahead that stops it. -/
structure HasSentinels (comp : α → α → Int) (first last x : Int) (a : Int → α) (i j : Int) :
    Prop where
  first_le : first ≤ i
  le_last : j ≤ last
  up : ∃ p, i ≤ p ∧ p ≤ last ∧ comp (a x) (a p) ≤ 0
  down : ∃ q, first ≤ q ∧ q ≤ j ∧ comp (a q) (a x) ≤ 0

/-- The elements that the loops have passed are on their side of the pivot. -/
structure Passed (comp : α → α → Int) (first last x : Int) (a : Int → α) (i j : Int) : Prop where
  below : ∀ k, first ≤ k → k < i → comp (a k) (a x) ≤ 0
  above : ∀ k, j < k → k ≤ last → comp (a x) (a k) ≤ 0
  near : i ≤ j + 1

/-- The range is split at a value, with at most one element in both parts. -/
structure SplitAt (comp : α → α → Int) (first last : Int) (a : Int → α) (i j : Int) (v : α) :
    Prop where
  below : ∀ k, first ≤ k → k ≤ j → comp (a k) v ≤ 0
  above : ∀ k, i ≤ k → k ≤ last → comp v (a k) ≤ 0
  meet : j ≤ i
  near : i ≤ j + 1

section

variable {x i j : Int}

theorem HasSentinels.swap (h : IsTotalPreorder comp) (hfirst : first ≤ i) (hlast : j ≤ last) (hij : i < j)
    (hup : comp (a x) (a i) ≤ 0) (hdown : comp (a j) (a x) ≤ 0) :
    HasSentinels comp first last x (swapElements a i j) (i + 1) (j - 1) := by
  refine ⟨by omega, by omega, ⟨j, by omega, hlast, ?_⟩, ⟨i, hfirst, by omega, ?_⟩⟩
  · rw [swapElements_right]
    by_cases hi : x = i
    · rw [hi, swapElements_left]
      exact hi ▸ hdown
    · by_cases hj : x = j
      · rw [hj, swapElements_right]
        exact h.refl _
      · rwa [swapElements_of_ne hi hj]
  · rw [swapElements_left]
    by_cases hi : x = i
    · rw [hi, swapElements_left]
      exact h.refl _
    · by_cases hj : x = j
      · rw [hj, swapElements_right]
        exact hj ▸ hup
      · rwa [swapElements_of_ne hi hj]

theorem Passed.swap (h : IsTotalPreorder comp) (hpassed : Passed comp first last x a i j)
    (hij : i < j) (hup : comp (a x) (a i) ≤ 0) (hdown : comp (a j) (a x) ≤ 0)
    (hkeeps : keepsPivot comp a x i j = true) :
    Passed comp first last x (swapElements a i j) (i + 1) (j - 1) := by
  have hpivot : comp (swapElements a i j x) (a x) ≤ 0 ∧ comp (a x) (swapElements a i j x) ≤ 0 := by
    simp only [keepsPivot, Bool.or_eq_true, Bool.and_eq_true, decide_eq_true_eq] at hkeeps
    rcases hkeeps with ⟨hi, hj⟩ | ⟨hle, hge⟩
    · rw [swapElements_of_ne hi hj]
      exact ⟨h.refl _, h.refl _⟩
    · by_cases hi : x = i
      · rw [hi, swapElements_left]
        exact ⟨hge, hle⟩
      · by_cases hj : x = j
        · rw [hj, swapElements_right]
          exact ⟨hle, hge⟩
        · rw [swapElements_of_ne hi hj]
          exact ⟨h.refl _, h.refl _⟩
  refine ⟨fun k hk hki => ?_, fun k hjk hk => ?_, by omega⟩
  · refine h.trans _ _ _ ?_ hpivot.2
    by_cases hki' : k = i
    · rwa [hki', swapElements_left]
    · rw [swapElements_of_ne hki' (by omega)]
      exact hpassed.below k hk (by omega)
  · refine h.trans _ _ _ hpivot.1 ?_
    by_cases hkj : k = j
    · rwa [hkj, swapElements_right]
    · rw [swapElements_of_ne (by omega) hkj]
      exact hpassed.above k (by omega) hk

theorem Passed.scan (h : IsTotalPreorder comp) {i' j' : Int}
    (hpassed : Passed comp first last x a i j) (hfirst : first ≤ j') (hlast : i' ≤ last)
    (hbelow : ∀ k, i ≤ k → k < i' → 0 < comp (a x) (a k))
    (habove : ∀ k, j' < k → k ≤ j → 0 < comp (a k) (a x)) :
    Passed comp first last x a i' j' := by
  have hle (k : Int) (hk : first ≤ k) (hki : k < i') : comp (a k) (a x) ≤ 0 := by
    by_cases hki' : k < i
    · exact hpassed.below k hk hki'
    · exact h.le_of_not (hbelow k (not_lt.mp hki') hki)
  have hge (k : Int) (hjk : j' < k) (hk : k ≤ last) : comp (a x) (a k) ≤ 0 := by
    by_cases hkj : j < k
    · exact hpassed.above k hkj hk
    · exact h.le_of_not (habove k hjk (not_lt.mp hkj))
  -- a loop stops at the first element that the other one has left behind
  have hnear : i' ≤ j + 1 := by
    by_contra hfar
    exact absurd (hpassed.above (j + 1) (by omega) (by omega))
      (not_le.mpr (hbelow (j + 1) hpassed.near (by omega)))
  refine ⟨hle, hge, ?_⟩
  by_contra hfar
  exact absurd (hle (i' - 1) (by omega) (by omega))
    (not_le.mpr (habove (i' - 1) (by omega) (by omega)))

theorem Passed.splitAt (hpassed : Passed comp first last x a i j) (hmeet : j ≤ i)
    (hup : comp (a x) (a i) ≤ 0) (hdown : comp (a j) (a x) ≤ 0) :
    SplitAt comp first last a i j (a x) := by
  have hnear := hpassed.near
  refine ⟨fun k hk hkj => ?_, fun k hik hk => ?_, hmeet, hnear⟩
  · rcases (hkj.trans hmeet).lt_or_eq with hki | hki
    · exact hpassed.below k hk hki
    · rwa [show k = j by omega]
  · rcases (hmeet.trans hik).lt_or_eq with hjk | hjk
    · exact hpassed.above k hjk hk
    · rwa [show k = i by omega]

/-- A partition ends inside its range and permutes it, and splits it if its exchanges keep the
pivot. -/
theorem partition_spec (h : IsTotalPreorder comp) (hfirst : 0 ≤ first) (hlast : last < n)
    (fuel : Nat) :
    ∀ {a : Int → α} {i j : Int}, HasSentinels comp first last x a i j →
      last < i + fuel → j < first + fuel →
      ∃ b i' j', partition comp n x fuel a i j = some (b, i', j') ∧
        PermutesRange first last a b ∧ i' ≤ last ∧ first ≤ j' ∧
        (Passed comp first last x a i j → partitionKeeps comp n x fuel a i j = true →
          SplitAt comp first last b i' j' (b x)) := by
  induction fuel with
  | zero =>
    intro a i j hsent hi hj
    rcases hsent.up with ⟨p, hip, hp, -⟩
    omega
  | succ fuel ih =>
    intro a i j hsent hi hj
    rcases hsent.up with ⟨p, hip, hp, hstop⟩
    rcases hsent.down with ⟨q, hq, hqj, hstop'⟩
    have hfirst_le := hsent.first_le
    have hle_last := hsent.le_last
    rcases @scanUp_spec α comp n a (fuel + 1) x i p (by omega) hip (by omega) hstop (by omega)
      with ⟨i', hup, hi', hi'p, hup', hbelow⟩
    rcases @scanDown_spec α comp n a (fuel + 1) x j q (by omega) hqj (by omega) hstop' (by omega)
      with ⟨j', hdown, hqj', hj', hdown', habove⟩
    have hscan (hpassed : Passed comp first last x a i j) : Passed comp first last x a i' j' :=
      hpassed.scan h (by omega) (by omega) hbelow habove
    simp only [partition, partitionKeeps, hup, hdown, bind_eq_bind, bind_some]
    by_cases hmeet : j' ≤ i'
    · rw [if_pos hmeet]
      exact ⟨a, i', j', rfl, .refl _ _ _, by omega, by omega, fun hpassed _ =>
        (hscan hpassed).splitAt hmeet hup' hdown'⟩
    · rw [if_neg hmeet]
      have hlt := not_le.mp hmeet
      rcases ih (HasSentinels.swap h (by omega) (by omega) hlt hup' hdown') (by omega) (by omega)
        with ⟨b, i'', j'', hrun, hperm, hi'', hj'', hsplit⟩
      refine ⟨b, i'', j'', hrun, .trans (.swap (by omega) (by omega)) hperm, hi'', hj'', ?_⟩
      intro hpassed hkeeps
      rw [decide_eq_false hmeet, Bool.false_or, Bool.and_eq_true] at hkeeps
      exact hsplit ((hscan hpassed).swap h hlt hup' hdown' hkeeps.1) hkeeps.2

end

/-! ## Sorting a range -/

theorem SortedRange.of_le (h : IsTotalPreorder comp) (hle : last ≤ first) :
    SortedRange comp first last a := by
  intro k l hk hkl hl
  rw [show k = l by omega]
  exact h.refl _

theorem SplitAt.sorted (h : IsTotalPreorder comp) {i j : Int} {v : α}
    (hsplit : SplitAt comp first last a i j v) (hleft : PermutesRange first (i - 1) a b)
    (hright : PermutesRange (j + 1) last b c) (hb : SortedRange comp first (i - 1) b)
    (hc : SortedRange comp (j + 1) last c) : SortedRange comp first last c := by
  rcases hsplit with ⟨hbelow, habove, hmeet, hnear⟩
  have hlow (k : Int) (hk : first ≤ k) (hkj : k ≤ j) : comp (c k) v ≤ 0 := by
    rw [hright.outside (.inl (by omega))]
    exact (hleft.mono le_rfl (by omega : i - 1 ≤ j)).forall_mem (P := (comp · v ≤ 0)) hbelow hk hkj
  have hhigh (k : Int) (hik : i ≤ k) (hk : k ≤ last) : comp v (c k) ≤ 0 := by
    refine (hright.mono (by omega : i ≤ j + 1) le_rfl).forall_mem (P := (comp v · ≤ 0))
      (fun l hil hl => ?_) hik hk
    rw [hleft.outside (.inr (by omega))]
    exact habove l hil hl
  intro k l hk hkl hl
  by_cases hli : l ≤ i - 1
  · rw [hright.outside (.inl (by omega)), hright.outside (.inl (by omega))]
    exact hb k l hk hkl hli
  · by_cases hjk : j + 1 ≤ k
    · exact hc k l hjk hkl hl
    · exact h.trans _ _ _ (hlow k hk (by omega)) (hhigh l (by omega) hl)

/-- The recursive sort ends and permutes its range, and sorts it if its passes keep their
pivots. -/
theorem quicksort_spec (h : IsTotalPreorder comp) (fuel : Nat) :
    ∀ {first last : Int} {a : Int → α}, 0 ≤ first → first ≤ last → last < n → last < 2 ^ 30 →
      last < first + fuel →
      ∃ b, quicksort comp n fuel first last a = some b ∧ PermutesRange first last a b ∧
        (quicksortKeeps comp n fuel first last a = true → SortedRange comp first last b) := by
  induction fuel with
  | zero => intro first last a _ _ _ _ hfuel; omega
  | succ fuel ih =>
    intro first last a hfirst hle hlast hint hfuel
    -- a part of the range is sorted by a recursive call, or has no two elements
    have hpart (lo hi : Int) (a : Int → α) (hlo : first ≤ lo) (hhi : hi ≤ last)
        (hsmall : first < lo ∨ hi < last) :
        ∃ b, (if lo < hi then quicksort comp n fuel lo hi a else some a) = some b ∧
          PermutesRange lo hi a b ∧
          ((decide (hi ≤ lo) || quicksortKeeps comp n fuel lo hi a) = true →
            SortedRange comp lo hi b) := by
      by_cases hlt : lo < hi
      · rw [if_pos hlt, decide_eq_false (not_le.mpr hlt), Bool.false_or]
        exact ih (by omega) hlt.le (by omega) (by omega) (by omega)
      · rw [if_neg hlt]
        exact ⟨a, rfl, .refl _ _ _, fun _ => .of_le h (not_lt.mp hlt)⟩
    have hx : first ≤ (first + last).tdiv 2 ∧ (first + last).tdiv 2 ≤ last := by
      rw [Int.tdiv_eq_ediv_of_nonneg (by omega)]
      omega
    have hsent : HasSentinels comp first last ((first + last).tdiv 2) a first last :=
      ⟨le_rfl, le_rfl, ⟨_, hx.1, hx.2, h.refl _⟩, ⟨_, hx.1, hx.2, h.refl _⟩⟩
    rcases partition_spec h hfirst hlast (fuel + 1) hsent (by omega) (by omega)
      with ⟨a', i, j, hpartition, hperm, hi, hj, hsplit⟩
    rcases hpart first (i - 1) a' le_rfl (by omega) (.inr (by omega)) with
      ⟨b, hleft, hpermleft, hsortleft⟩
    rcases hpart (j + 1) last b (by omega) le_rfl (.inl (by omega)) with
      ⟨c, hright, hpermright, hsortright⟩
    refine ⟨c, ?_, .trans hperm (.trans (hpermleft.mono le_rfl (by omega))
      (hpermright.mono (by omega) le_rfl)), fun hkeeps => ?_⟩
    · have hinside : 0 ≤ (first + last).tdiv 2 ∧ (first + last).tdiv 2 < n ∧
          first + last < 2 ^ 31 := by omega
      simp only [quicksort, if_pos hinside, hpartition, bind_eq_bind, bind_some]
      by_cases hlt : first < i - 1
      · rw [if_pos hlt] at hleft ⊢
        rw [hleft, bind_some, hright]
      · rw [if_neg hlt] at hleft ⊢
        cases hleft
        exact hright
    · simp only [quicksortKeeps, hpartition, hleft, Bool.and_eq_true] at hkeeps
      rcases hkeeps with ⟨hpivot, hkeepsleft, hkeepsright⟩
      refine (hsplit ⟨?_, ?_, by omega⟩ hpivot).sorted h hpermleft hpermright
        (hsortleft hkeepsleft) (hsortright hkeepsright)
      · intro k hk hk'
        omega
      · intro k hk hk'
        omega

end

/-! ## Runs -/

/-- The array that holds the numbers of a list. -/
def arrayOf (l : List Int) (k : Int) : Int := l.getD k.toNat 0

theorem isTotalPreorder_sub : IsTotalPreorder fun x y : Int => x - y :=
  ⟨fun x y => by omega, fun x y z => by omega⟩

end Kcs.Libc
