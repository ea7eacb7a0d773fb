import Kcs.Lib.Heap

/-!
# Slices of token arrays

Token arrays are the growing arrays of `array.h`; `array_replace_slice` of `macro.c` puts an array
in the place of a segment of another one.  Lengths and capacities are 32-bit unsigned integers, the
elements are left open.

Main results:

- Theorem {lit}`arrayReplaceSlice_splices_iff`: the segment is replaced exactly then.
-/

namespace Kcs.Preprocessor

open List Option

/-- `TokenArray`, an `array_of(struct token)` -/
structure TokenArray where
  capacity : BitVec 32
  length : BitVec 32
  data : Option Nat

section

variable {α : Type} (zero : α)

/-- `array_realloc`; `zero` is an element whose bytes are all zero. -/
def arrayRealloc (h : Heap α) (arr : TokenArray) (len : BitVec 32) :
    Option (TokenArray × Heap α) :=
  if arr.capacity.ult len then
    (h.realloc arr.data len.toNat).bind fun (data, h) =>
      (h.memset (some data) arr.length.toNat (len - arr.length).toNat zero).map fun h =>
        ({ arr with capacity := len, data := some data }, h)
  else some (arr, h)

/-- `array_replace_slice`, which fails for an access outside an array. -/
def arrayReplaceSlice (h : Heap α) (list : TokenArray) (start gaplength : BitVec 32)
    (slice : TokenArray) : Option (TokenArray × Heap α) :=
  if (start + gaplength).ule list.length then
    let length := list.length - gaplength + slice.length
    (arrayRealloc zero h list length).bind fun (list, h) =>
      (if slice.length ≠ gaplength then
        h.memcpy list.data (start.toNat + slice.length.toNat : Nat) list.data
          (start.toNat + gaplength.toNat : Nat) (list.length - (start + gaplength)).toNat
      else some h).bind fun h =>
        (if slice.length ≠ 0#32 then
          h.memcpy list.data start.toNat slice.data (0 : Nat) slice.length.toNat
        else some h).map fun h => ({ list with length := length }, h)
  else none

/-- An array holds elements; behind them may be room for more. -/
structure TokenArray.Represents (h : Heap α) (arr : TokenArray) (xs : List α) : Prop where
  length_eq : arr.length.toNat = xs.length
  block : ∃ b, h.contents arr.data = some b ∧ b.length = arr.capacity.toNat ∧ b.Holds xs

/-- The segment of an array is replaced; the slice and all other blocks are as they were. -/
def Splices (h : Heap α) (list : TokenArray) (start gaplength : BitVec 32) (slice : TokenArray)
    (xs ys : List α) : Prop :=
  ∃ list' h', arrayReplaceSlice zero h list start gaplength slice = some (list', h') ∧
    list'.Represents h' (xs.take start.toNat ++ ys ++ xs.drop (start.toNat + gaplength.toNat)) ∧
    slice.Represents h' ys ∧ h.KeepsOthers list.data h'

end

/-! ## Making room -/

section Specs

variable {α : Type} {zero : α} {h : Heap α} {list slice : TokenArray} {xs ys : List α}

theorem TokenArray.Represents.capacity_le (hlist : list.Represents h xs) :
    xs.length ≤ list.capacity.toNat := by
  rcases hlist.block with ⟨b, -, hlen, hholds⟩
  have := hholds.length_le
  omega

theorem arrayRealloc_spec (hlist : list.Represents h xs) (len : BitVec 32) :
    ∃ list' h', arrayRealloc zero h list len = some (list', h') ∧ list'.Represents h' xs ∧
      list'.length = list.length ∧ len.toNat ≤ list'.capacity.toNat ∧
      h.KeepsOthers list.data h' ∧ (list'.data = list.data ∨ list'.data = some h.length) := by
  rcases hlist.block with ⟨b, hb, hlen, hholds⟩
  have hcap := hlist.capacity_le
  have hlength := hlist.length_eq
  unfold arrayRealloc
  by_cases hgrow : list.capacity.ult len
  · have hlt : list.capacity.toNat < len.toNat := by simpa [BitVec.ult] using hgrow
    have hrest : (len - list.length).toNat = len.toNat - xs.length := by
      rw [BitVec.toNat_sub]
      omega
    rcases Heap.realloc_spec hb len.toNat with ⟨h1, hrealloc, hnew, hkeep1⟩
    rcases Heap.memset_spec hnew list.length.toNat (len.toNat - xs.length) zero
      (by rw [Block.length_resize]; omega) with ⟨b2, h2, hset, hb2, hlen2, hkeep2, hcells⟩
    rw [Block.length_resize] at hlen2
    refine ⟨{ list with capacity := len, data := some h.length }, h2, ?_,
      ⟨hlength, b2, hb2, hlen2, ?_⟩,
      rfl, le_refl _, hkeep1.trans_moved hkeep2 (Or.inr rfl), Or.inr rfl⟩
    · simp only [hgrow, if_true, hrealloc, bind_some, hrest, hset, map_some]
    · have hold := Block.holds_iff_getElem?.mp (hholds.resize (n := len.toNat) (by omega))
      refine Block.holds_iff_getElem?.mpr fun i hi => ?_
      rw [hcells i (by omega), hold i hi]
  · have hle : len.toNat ≤ list.capacity.toNat := by simpa [BitVec.ult] using hgrow
    exact ⟨list, h, if_neg hgrow, hlist, rfl, hle, .refl h _, Or.inl rfl⟩

/-! ## The segment -/

theorem holds_spliced {b1 b2 b3 s : Block α} {start gap : Nat} (hrange : start + gap ≤ xs.length)
    (hb1 : b1.Holds xs) (hs : s.Holds ys) (hfront : ∀ i, i < start → b2[i]? = b1[i]?)
    (htail : ∀ i, start + gap ≤ i → i < xs.length → b2[i - gap + ys.length]? = b1[i]?)
    (hcopy : ∀ i, b3[i]? =
      if start ≤ i ∧ i < start + ys.length then s[i - start]? else b2[i]?) :
    b3.Holds (xs.take start ++ ys ++ xs.drop (start + gap)) := by
  rw [Block.holds_iff_getElem?] at hb1 hs ⊢
  intro i hi
  have hlength : (xs.take start ++ ys ++ xs.drop (start + gap)).length =
      start + ys.length + (xs.length - (start + gap)) := by
    rw [length_append, length_append, length_take, length_drop, Nat.min_eq_left (by omega)]
  have htake : (xs.take start).length = start := by
    rw [length_take]
    omega
  have hfirst : (xs.take start ++ ys).length = start + ys.length := by rw [length_append, htake]
  rw [hcopy]
  by_cases hlo : i < start
  · rw [if_neg (by omega), hfront i hlo, hb1 i (by omega), getElem_append_left (by omega),
      getElem_append_left (by omega), getElem_take]
  · by_cases hhi : i < start + ys.length
    · rw [if_pos ⟨by omega, hhi⟩, hs (i - start) (by omega), getElem_append_left (by omega),
        getElem_append_right (by omega)]
      simp only [htake]
    · have hmoved := htail (i - ys.length + gap) (by omega) (by omega)
      rw [show i - ys.length + gap - gap + ys.length = i by omega] at hmoved
      have hidx : start + gap + (i - (xs.take start ++ ys).length) = i - ys.length + gap := by
        rw [hfirst]
        omega
      rw [if_neg (by omega), hmoved, hb1 _ (by omega), getElem_append_right (by omega),
        getElem_drop]
      simp only [hidx]

theorem tail_toNat {n start gap : BitVec 32} (h : start.toNat + gap.toNat ≤ n.toNat) :
    (start + gap).ule n = true ∧
      (n - (start + gap)).toNat = n.toNat - (start.toNat + gap.toNat) := by
  have hsum : (start + gap).toNat = start.toNat + gap.toNat := by
    rw [BitVec.toNat_add]
    omega
  refine ⟨?_, ?_⟩
  · simp only [BitVec.ule, decide_eq_true_eq]
    omega
  · rw [BitVec.toNat_sub]
    omega

/-- The segment is replaced if the new length is an `unsigned`. -/
theorem arrayReplaceSlice_spec (hlist : list.Represents h xs) (hslice : slice.Represents h ys)
    (hapart : ∀ q, slice.data = some q → list.data ≠ some q) {start gaplength : BitVec 32}
    (hrange : start.toNat + gaplength.toNat ≤ xs.length)
    (hfits : xs.length - gaplength.toNat + ys.length < 2 ^ 32) :
    Splices zero h list start gaplength slice xs ys := by
  have hlength := hlist.length_eq
  have hslen := hslice.length_eq
  rcases tail_toNat (show start.toNat + gaplength.toNat ≤ list.length.toNat by omega) with
    ⟨hassert, htail⟩
  have hnew : (list.length - gaplength + slice.length).toNat =
      xs.length - gaplength.toNat + ys.length := by
    rw [BitVec.toNat_add, BitVec.toNat_sub]
    omega
  rcases @arrayRealloc_spec α zero h list xs hlist (list.length - gaplength + slice.length) with
    ⟨list1, h1, hrealloc, hlist1, hlen1, hcap1, hkeep1, hdata⟩
  rcases hlist1.block with ⟨b1, hb1, hsize1, hholds1⟩
  rcases hslice.block with ⟨s, hs, hssize, hsholds⟩
  have hread1 := hholds1.length_le
  -- The slice stays where it is while the list moves.
  have hkeep : ∀ h2, h1.KeepsOthers list1.data h2 → h.KeepsOthers list.data h2 :=
    fun h2 hk => hkeep1.trans_moved hk hdata
  have hslice2 : ∀ h2, h1.KeepsOthers list1.data h2 → h2.contents slice.data = some s :=
    fun h2 hk => (hkeep h2 hk).contents hapart hs
  have hmove : ∃ b2 h2, (if slice.length ≠ gaplength then
      h1.memcpy list1.data (start.toNat + slice.length.toNat : Nat) list1.data
        (start.toNat + gaplength.toNat : Nat) (list1.length - (start + gaplength)).toNat
      else some h1) = some h2 ∧ h2.contents list1.data = some b2 ∧ b2.length = b1.length ∧
      h1.KeepsOthers list1.data h2 ∧ (∀ i, i < start.toNat → b2[i]? = b1[i]?) ∧
      ∀ i, start.toNat + gaplength.toNat ≤ i → i < xs.length →
        b2[i - gaplength.toNat + ys.length]? = b1[i]? := by
    by_cases hsame : slice.length = gaplength
    · refine ⟨b1, h1, if_neg (not_not.mpr hsame), hb1, rfl, .refl h1 _, fun _ _ => rfl, ?_⟩
      intro i hlo hhi
      rw [← hslen, hsame, Nat.sub_add_cancel (by omega)]
    · rcases Heap.memcpy_spec hb1 hb1 (start.toNat + slice.length.toNat)
        (start.toNat + gaplength.toNat) (xs.length - (start.toNat + gaplength.toNat)) (by omega)
        (by omega) with ⟨b2, h2, hcopy, hb2, hlen2, hkeep2, hcells⟩
      refine ⟨b2, h2, ?_, hb2, hlen2, hkeep2, fun i hi => ?_, fun i hlo hhi => ?_⟩
      · rw [if_pos hsame, hlen1, htail, hlength, hcopy]
      · rw [hcells, if_neg (by omega)]
      · rw [hcells, if_pos (by omega)]
        congr 1
        omega
  rcases hmove with ⟨b2, h2, hmemmove, hb2, hsize2, hkeep2, hfront, htail2⟩
  have hfill : ∃ b3 h3, (if slice.length ≠ 0#32 then
      h2.memcpy list1.data start.toNat slice.data (0 : Nat) slice.length.toNat
      else some h2) = some h3 ∧ h3.contents list1.data = some b3 ∧ b3.length = b2.length ∧
      h2.KeepsOthers list1.data h3 ∧ ∀ i, b3[i]? =
        if start.toNat ≤ i ∧ i < start.toNat + ys.length then s[i - start.toNat]? else b2[i]? := by
    by_cases hempty : slice.length = 0#32
    · refine ⟨b2, h2, if_neg (not_not.mpr hempty), hb2, rfl, .refl h2 _, fun i => ?_⟩
      rw [hempty] at hslen
      rw [if_neg (by simp at hslen; omega)]
    · have hread := hsholds.length_le
      rcases Heap.memcpy_spec hb2 (hslice2 h2 hkeep2) start.toNat 0 slice.length.toNat (by omega)
        (by omega) with ⟨b3, h3, hcopy, hb3, hlen3, hkeep3, hcells⟩
      refine ⟨b3, h3, by rw [if_pos hempty, hcopy], hb3, hlen3, hkeep3, fun i => ?_⟩
      rw [hcells, hslen, Nat.zero_add]
  rcases hfill with ⟨b3, h3, hmemcpy, hb3, hsize3, hkeep3, hcells⟩
  have hkeep13 := hkeep2.trans hkeep3
  refine ⟨{ list1 with length := list.length - gaplength + slice.length }, h3, ?_,
    ⟨?_, b3, hb3, ?_, ?_⟩,
    ⟨hslen, s, hslice2 h3 hkeep13, hssize, hsholds⟩, hkeep h3 hkeep13⟩
  · simp only [arrayReplaceSlice, hassert, if_true, hrealloc, bind_some, hmemmove, hmemcpy,
      map_some]
  · rw [length_append, length_append, length_take, length_drop, hnew]
    omega
  · rw [hsize3, hsize2, hsize1]
  · exact holds_spliced hrange hholds1 hsholds hfront htail2 hcells

theorem arrayReplaceSlice_eq_none (hlist : list.Represents h xs) (hslice : slice.Represents h ys)
    {start gaplength : BitVec 32} (hrange : start.toNat + gaplength.toNat ≤ xs.length)
    (hlarge : 2 ^ 32 ≤ xs.length - gaplength.toNat + ys.length) :
    arrayReplaceSlice zero h list start gaplength slice = none := by
  have hlength := hlist.length_eq
  have hslen := hslice.length_eq
  have hcap := hlist.capacity_le
  have hlt := list.length.isLt
  have hslt := slice.length.isLt
  have hclt := list.capacity.isLt
  rcases tail_toNat (show start.toNat + gaplength.toNat ≤ list.length.toNat by omega) with
    ⟨hassert, htail⟩
  have hwrapped : (list.length - gaplength + slice.length).toNat =
      xs.length - gaplength.toNat + ys.length - 2 ^ 32 := by
    rw [BitVec.toNat_add, BitVec.toNat_sub]
    omega
  have hroom : arrayRealloc zero h list (list.length - gaplength + slice.length) =
      some (list, h) := by
    refine if_neg ?_
    simp only [BitVec.ult, decide_eq_true_eq]
    omega
  have hne : slice.length ≠ gaplength := by
    rintro rfl
    omega
  rcases hlist.block with ⟨b, hb, hsize, hholds⟩
  have hmove := Heap.memcpy_eq_none hb hb (start.toNat + slice.length.toNat)
    (start.toNat + gaplength.toNat) (xs.length - (start.toNat + gaplength.toNat)) (by omega)
    (by omega)
  rw [← hlength, ← htail] at hmove
  simp only [arrayReplaceSlice, hassert, if_true, hroom, bind_some, ne_eq, hne, not_false_eq_true,
    hmove, bind_none]

/-- The segment is replaced exactly if the new length is an `unsigned`. -/
theorem arrayReplaceSlice_splices_iff (hlist : list.Represents h xs)
    (hslice : slice.Represents h ys)
    (hapart : ∀ q, slice.data = some q → list.data ≠ some q) {start gaplength : BitVec 32}
    (hrange : start.toNat + gaplength.toNat ≤ xs.length) :
    Splices zero h list start gaplength slice xs ys ↔
      xs.length - gaplength.toNat + ys.length < 2 ^ 32 := by
  refine ⟨fun hsplices => ?_, arrayReplaceSlice_spec hlist hslice hapart hrange⟩
  rcases hsplices with ⟨list', h', hrun, -⟩
  by_contra hlarge
  rw [arrayReplaceSlice_eq_none hlist hslice hrange (by omega)] at hrun
  cases hrun

end Specs

/-- Two elements in the middle are replaced by three, for which the array has no room. -/
theorem arrayReplaceSlice_splices_middle :
    Splices 0 [some ([1, 2, 3, 4].map some), some ([7, 8, 9].map some)] ⟨4#32, 4#32, some 0⟩
      1#32 2#32 ⟨3#32, 3#32, some 1⟩ [1, 2, 3, 4] [7, 8, 9] :=
  (arrayReplaceSlice_splices_iff ⟨rfl, _, rfl, rfl, Block.holds_map _⟩
    ⟨rfl, _, rfl, rfl, Block.holds_map _⟩ (by decide) (by decide)).mpr (by decide)

/-- An element is inserted into an array of as many elements as an `unsigned` counts. -/
theorem arrayReplaceSlice_overflows :
    ∃ (h : Heap Nat) (list slice : TokenArray) (xs ys : List Nat), list.Represents h xs ∧
      slice.Represents h ys ∧ list.data ≠ slice.data ∧
      arrayReplaceSlice 0 h list 0#32 0#32 slice = none ∧
      ¬ Splices 0 h list 0#32 0#32 slice xs ys := by
  have hlist : TokenArray.Represents
      [some ((replicate (2 ^ 32 - 1) 0).map some), some ([7].map some)]
      ⟨-1#32, -1#32, some 0⟩ (replicate (2 ^ 32 - 1) 0) :=
    ⟨by rw [length_replicate]; rfl, _, rfl, by rw [length_map, length_replicate]; rfl,
      Block.holds_map _⟩
  have hslice : TokenArray.Represents
      [some ((replicate (2 ^ 32 - 1) 0).map some), some ([7].map some)]
      ⟨1#32, 1#32, some 1⟩ [7] := ⟨rfl, _, rfl, rfl, Block.holds_map _⟩
  have hnone : arrayReplaceSlice 0 _ _ 0#32 0#32 _ = none :=
    arrayReplaceSlice_eq_none hlist hslice (Nat.zero_le _) (by rw [length_replicate]; decide)
  refine ⟨_, _, _, _, _, hlist, hslice, by decide, hnone, fun hsplices => ?_⟩
  rcases hsplices with ⟨list', h', hrun, -⟩
  rw [hnone] at hrun
  cases hrun

end Kcs.Preprocessor
