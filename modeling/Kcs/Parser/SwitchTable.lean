import Kcs.Parser.Switch

/-!
# Jump tables of switch statements

When a jump table is used for the sorted cases, and what its entries are.

Main results:

- Theorem {lit}`tableSelection_sound_iff`: the difference of two neighbouring constants is computed
  as an `int`, so that a great one may be taken for a negative one.
-/

namespace Kcs

open List IntFormat

/-! ## Constants as integers -/

/-- The constants of the cases increase strictly. -/
def Increasing (sorted : List SwitchCase) : Prop :=
  sorted.Pairwise fun p q => p.int < q.int

/-- The block that is selected by comparing the value with every constant in turn. -/
def switchLabel (sorted : List SwitchCase) (last : BlockId) (x : Int) : BlockId :=
  ((sorted.find? fun sc => sc.int = x).map (·.label)).getD last

/-- The differences of neighbouring constants. -/
def differences : List SwitchCase → List Int
  | p :: n :: rest => (n.int - p.int) :: differences (n :: rest)
  | _ => []

section Constants

variable {n x : Int} {sc p : SwitchCase} {sorted rest : List SwitchCase} {last : BlockId}

theorem int32_eq (h : -2 ^ 31 ≤ n) (h' : n < 2 ^ 31) : int32 n = n :=
  (inRange_signed_iff (f := .bits32 true) rfl n).mpr ⟨h, h'⟩

theorem int32_overflow (h : 2 ^ 31 ≤ n) (h' : n < 2 ^ 32) : int32 n = n - 2 ^ 32 := by
  have hcongr : int32 n = int32 (n - 2 ^ 32) := by
    refine wrap_congr (f := .bits32 true) ?_
    exact (Int.sub_emod_right n (2 ^ 32)).symm
  rw [hcongr, int32_eq (by omega) (by omega)]

theorem int32_underflow (h : -2 ^ 32 ≤ n) (h' : n < -2 ^ 31) : int32 n = n + 2 ^ 32 := by
  have hcongr : int32 n = int32 (n + 2 ^ 32) := by
    refine wrap_congr (f := .bits32 true) ?_
    exact (Int.add_emod_right n (2 ^ 32)).symm
  rw [hcongr, int32_eq (by omega) (by omega)]

theorem SwitchCase.int_bounds (sc : SwitchCase) : -2 ^ 31 ≤ sc.int ∧ sc.int < 2 ^ 31 :=
  (inRange_signed_iff (f := .bits32 true) rfl _).mp (inRange_wrap _)

theorem switchLabel_cons (sc : SwitchCase) (rest : List SwitchCase) (last : BlockId) (x : Int) :
    switchLabel (sc :: rest) last x = if sc.int = x then sc.label else switchLabel rest last x := by
  unfold switchLabel
  by_cases h : sc.int = x
  · rw [if_pos h, find?_cons_of_pos (by simpa using h)]
    rfl
  · rw [if_neg h, find?_cons_of_neg (by simpa using h)]

theorem switchLabel_of_forall_ne (h : ∀ sc ∈ sorted, sc.int ≠ x) :
    switchLabel sorted last x = last := by
  induction sorted with
  | nil => rfl
  | cons sc rest ih =>
    rw [switchLabel_cons, if_neg (h sc mem_cons_self)]
    exact ih fun p hp => h p (mem_cons_of_mem sc hp)

theorem switchLabel_of_mem (h : Increasing sorted) (hsc : sc ∈ sorted) :
    switchLabel sorted last sc.int = sc.label := by
  induction sorted with
  | nil => cases hsc
  | cons p rest ih =>
    rw [Increasing, pairwise_cons] at h
    rw [switchLabel_cons]
    rcases mem_cons.mp hsc with rfl | hmem
    · rw [if_pos rfl]
    · rw [if_neg (ne_of_lt (h.1 sc hmem))]
      exact ih h.2 hmem

/-! ## Selection of a table -/

theorem Increasing.differences_bounds (h : Increasing sorted) {d : Int}
    (hd : d ∈ differences sorted) : 0 < d ∧ d < 2 ^ 32 := by
  induction sorted with
  | nil => cases hd
  | cons p rest ih =>
    cases rest with
    | nil => cases hd
    | cons n rest =>
      rw [Increasing, pairwise_cons] at h
      rcases mem_cons.mp hd with rfl | hmem
      · have hlt := h.1 n mem_cons_self
        have hp := p.int_bounds
        have hn := n.int_bounds
        omega
      · exact ih h.2 hmem

theorem maxDifference_lt_iff (p : SwitchCase) (rest : List SwitchCase) :
    maxDifference p.int rest < jumptableThreshold ↔
      ∀ d ∈ differences (p :: rest), int32 d < jumptableThreshold := by
  induction rest generalizing p with
  | nil =>
    have hzero : maxDifference p.int [] < jumptableThreshold := (by decide : (0 : Int) < 16)
    constructor
    · rintro - d hd
      cases hd
    · exact fun _ => hzero
  | cons n rest ih =>
    rw [maxDifference, max_lt_iff, ih n, differences, forall_mem_cons]

theorem useJumpTable_iff (h : Increasing sorted) (hne : sorted ≠ []) :
    (useJumpTableForSwitchCase sorted).isSome ↔
      ∀ d ∈ differences sorted, d < jumptableThreshold ∨ 2 ^ 31 ≤ d := by
  cases sorted with
  | nil => exact absurd rfl hne
  | cons p rest =>
    have hsmall : (useJumpTableForSwitchCase (p :: rest)).isSome ↔
        maxDifference p.int rest < jumptableThreshold := by
      simp only [useJumpTableForSwitchCase]
      split <;> simp [*]
    rw [hsmall, maxDifference_lt_iff]
    refine forall₂_congr fun d hd => ?_
    rcases h.differences_bounds hd with ⟨hpos, hlt⟩
    have hthreshold : jumptableThreshold = 16 := rfl
    by_cases hwrap : d < 2 ^ 31
    · rw [int32_eq (by omega) hwrap]
      omega
    · rw [int32_overflow (by omega) hlt]
      omega

end Constants

/-! ## Entries -/

section Entries

variable {sorted rest : List SwitchCase} {sc : SwitchCase} {last : BlockId} {minv v x : Int}

/-- The entry of a table for a value. -/
def tableEntry (sorted : List SwitchCase) (last : BlockId) (minv x : Int) : JumpPair :=
  { value := int32 (x - minv), label := switchLabel sorted last x }

/-- The value after the last entry of a table that begins at a value. -/
def tableEnd : Int → List SwitchCase → Int
  | v, [] => v
  | _, sc :: rest => tableEnd (sc.int + 1) rest

/-- The entries for an interval of values. -/
def entriesFrom (sorted : List SwitchCase) (last : BlockId) (minv v : Int) (n : Nat) :
    List JumpPair :=
  (List.range n).map fun i : Nat => tableEntry sorted last minv (v + i)

theorem entriesFrom_add (sorted : List SwitchCase) (last : BlockId) (minv v : Int) (a b : Nat) :
    entriesFrom sorted last minv v (a + b) =
      entriesFrom sorted last minv v a ++ entriesFrom sorted last minv (v + a) b := by
  rw [entriesFrom, range_add, map_append, map_map]
  congr 1
  refine map_congr_left fun i _ => ?_
  rw [Function.comp_apply]
  push_cast
  rw [add_assoc]

theorem le_tableEnd (h : Increasing sorted) (hv : ∀ sc ∈ sorted, v ≤ sc.int) :
    v ≤ tableEnd v sorted := by
  induction sorted generalizing v with
  | nil => exact le_refl v
  | cons sc rest ih =>
    rw [Increasing, pairwise_cons] at h
    have hrest := ih h.2 fun p hp => Int.add_one_le_of_lt (h.1 p hp)
    have hsc := hv sc mem_cons_self
    rw [tableEnd]
    omega

theorem tableEnd_eq (v : Int) (sorted : List SwitchCase) (hne : sorted ≠ []) :
    tableEnd v sorted = (sorted.getLast hne).int + 1 := by
  induction sorted generalizing v with
  | nil => exact absurd rfl hne
  | cons sc rest ih =>
    cases rest with
    | nil => rfl
    | cons n rest =>
      rw [tableEnd, ih _ (cons_ne_nil n rest), getLast_cons (cons_ne_nil n rest)]

theorem entriesFrom_gap (hrest : ∀ p ∈ rest, sc.int < p.int) (hv : v ≤ sc.int) :
    entriesFrom (sc :: rest) last minv v (sc.int - v).toNat =
      (List.range (sc.int - v).toNat).map
        fun i => { value := int32 (v + i - minv), label := last } := by
  refine map_congr_left fun i hi => ?_
  have hlt := mem_range.mp hi
  have hlabel : switchLabel (sc :: rest) last (v + i) = last := by
    refine switchLabel_of_forall_ne fun p hp => ?_
    rcases mem_cons.mp hp with rfl | hmem
    · omega
    · have hp := hrest p hmem
      omega
  rw [tableEntry, hlabel]

theorem entriesFrom_rest (n : Nat) :
    entriesFrom (sc :: rest) last minv (sc.int + 1) n =
      entriesFrom rest last minv (sc.int + 1) n := by
  refine map_congr_left fun i _ => ?_
  rw [tableEntry, switchLabel_cons, if_neg (by omega), tableEntry]

theorem jumpTableEntries_eq (h : Increasing sorted) (hv : ∀ sc ∈ sorted, v ≤ sc.int) :
    jumpTableEntries minv last v sorted =
      entriesFrom sorted last minv v (tableEnd v sorted - v).toNat := by
  induction sorted generalizing v with
  | nil =>
    rw [tableEnd, sub_self]
    rfl
  | cons sc rest ih =>
    rw [Increasing, pairwise_cons] at h
    have hsc := hv sc mem_cons_self
    have hrest : ∀ p ∈ rest, sc.int + 1 ≤ p.int := fun p hp => Int.add_one_le_of_lt (h.1 p hp)
    have hend := le_tableEnd h.2 hrest
    -- The cursor may wrap only behind the last case.
    have hnext : jumpTableEntries minv last (int32 (max v sc.int + 1)) rest =
        jumpTableEntries minv last (sc.int + 1) rest := by
      cases rest with
      | nil => rfl
      | cons n rest =>
        have hn := hrest n mem_cons_self
        have hbound := n.int_bounds
        have hlow := sc.int_bounds
        rw [max_eq_right hsc, int32_eq (by omega) (by omega)]
    have hsplit : (tableEnd v (sc :: rest) - v).toNat =
        (sc.int - v).toNat + (1 + (tableEnd (sc.int + 1) rest - (sc.int + 1)).toNat) := by
      rw [tableEnd]
      omega
    have hstart : v + ((sc.int - v).toNat : Int) = sc.int := by omega
    have hone : entriesFrom (sc :: rest) last minv sc.int 1 =
        [{ value := int32 (sc.int - minv), label := sc.label }] := by
      rw [entriesFrom, range_one, map_singleton, tableEntry, switchLabel_cons,
        Nat.cast_zero, add_zero, if_pos rfl]
    rw [jumpTableEntries, hnext, ih h.2 hrest, hsplit, entriesFrom_add, hstart, entriesFrom_add,
      entriesFrom_gap (fun p hp => h.1 p hp) hsc, hone, Nat.cast_one, entriesFrom_rest]
    rfl

end Entries

/-! ## Soundness of the selection -/

section Selection

variable {sorted : List SwitchCase}

/-- A table is selected when all differences are small, and then it has few entries. -/
structure TableSelectionSound (sorted : List SwitchCase) (last : BlockId) : Prop where
  selected : (useJumpTableForSwitchCase sorted).isSome ↔
    ∀ d ∈ differences sorted, d < jumptableThreshold
  bounded : ∀ minv maxv, useJumpTableForSwitchCase sorted = some (minv, maxv) →
    ((jumpTableEntries minv last minv sorted).length : Int) ≤
      (sorted.length - 1) * (jumptableThreshold - 1) + 1

theorem tableEnd_le (sc : SwitchCase) (rest : List SwitchCase) (v : Int)
    (hsmall : ∀ d ∈ differences (sc :: rest), d < jumptableThreshold) :
    tableEnd v (sc :: rest) - sc.int ≤ rest.length * (jumptableThreshold - 1) + 1 := by
  have hthreshold : jumptableThreshold = 16 := rfl
  induction rest generalizing sc v with
  | nil =>
    rw [tableEnd, tableEnd]
    simp
  | cons n rest ih =>
    rw [differences, forall_mem_cons] at hsmall
    have hrest := ih n (sc.int + 1) hsmall.2
    rw [hthreshold] at hrest hsmall ⊢
    rw [tableEnd, length_cons]
    push_cast
    omega

theorem useJumpTable_eq {sc : SwitchCase} {rest : List SwitchCase} {minv maxv : Int}
    (h : useJumpTableForSwitchCase (sc :: rest) = some (minv, maxv)) :
    minv = sc.int ∧ maxv = ((sc :: rest).getLast (cons_ne_nil sc rest)).int := by
  rw [useJumpTableForSwitchCase] at h
  split at h
  · cases h
    exact ⟨rfl, rfl⟩
  · cases h

/-- The selection is sound when no difference leaves the range of `int`, or when another one is
too great for a table. -/
theorem tableSelection_sound_iff (sorted : List SwitchCase) (last : BlockId)
    (hne : sorted ≠ []) (h : Increasing sorted) :
    TableSelectionSound sorted last ↔ (∀ d ∈ differences sorted, d < 2 ^ 31) ∨
      ∃ d ∈ differences sorted, jumptableThreshold ≤ d ∧ d < 2 ^ 31 := by
  have hthreshold : jumptableThreshold = 16 := rfl
  have hselected := useJumpTable_iff h hne
  constructor
  · intro hsound
    rw [hsound.selected] at hselected
    by_contra hno
    rw [not_or] at hno
    rcases hno with ⟨hwide, hnone⟩
    push Not at hwide hnone
    rcases hwide with ⟨d, hd, hdwide⟩
    have hall := hselected.mpr fun d' hd' => by
      by_cases hsmall : d' < jumptableThreshold
      · exact Or.inl hsmall
      · exact Or.inr (hnone d' hd' (not_lt.mp hsmall))
    have hdsmall := hall d hd
    omega
  · intro hcases
    have hiff : (useJumpTableForSwitchCase sorted).isSome ↔
        ∀ d ∈ differences sorted, d < jumptableThreshold := by
      rw [hselected]
      constructor
      · intro hall d hd
        rcases hcases with hnarrow | ⟨d', hd', hlo, hhi⟩
        · have hd' := hnarrow d hd
          rcases hall d hd with hsmall | hwide
          · exact hsmall
          · omega
        · rcases hall d' hd' with hsmall | hwide
          · omega
          · omega
      · exact fun hall d hd => Or.inl (hall d hd)
    refine ⟨hiff, fun minv maxv huse => ?_⟩
    have hsmall := hiff.mp (by rw [huse]; rfl)
    cases sorted with
    | nil => exact absurd rfl hne
    | cons sc rest =>
      rcases useJumpTable_eq huse with ⟨rfl, -⟩
      have hle : ∀ p ∈ sc :: rest, sc.int ≤ p.int := by
        intro p hp
        rcases mem_cons.mp hp with rfl | hmem
        · exact le_refl _
        · exact le_of_lt ((pairwise_cons.mp h).1 p hmem)
      have hend := tableEnd_le sc rest sc.int hsmall
      have hstart := le_tableEnd h hle
      rw [jumpTableEntries_eq h hle, entriesFrom, length_map, length_range, length_cons]
      rw [hthreshold] at hend ⊢
      push_cast
      omega

/-- A case with a constant of type `int`. -/
def intCase (n : Int) (label : BlockId) : SwitchCase := { label := label, value := varInt n }

/-- A gap of almost all integers is taken for a negative difference. -/
theorem not_tableSelection_sound :
    ¬ TableSelectionSound [intCase (-2147483648) 0, intCase (-2147483647) 1,
      intCase (-2147483646) 2, intCase 2147483646 3, intCase 2147483647 4] 5 := by
  intro h
  have hall := h.selected.mp (by decide) 4294967292 (by decide)
  exact absurd hall (by decide)

/-- Five neighbouring constants. -/
theorem tableSelection_sound_near :
    TableSelectionSound [intCase (-2) 0, intCase (-1) 1, intCase 0 2, intCase 5 3, intCase 6 4] 5 :=
  (tableSelection_sound_iff _ 5 (by decide) (by unfold Increasing; decide)).mpr
    (Or.inl (by decide))

end Selection

end Kcs
