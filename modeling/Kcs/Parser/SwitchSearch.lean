import Kcs.Parser.SwitchRun
import Kcs.Parser.SwitchTable

/-!
# Binary search of switch statements

The tree of comparisons that `link_switch_case_bsearch_item` builds is followed with a value.  A
single case between two constants that differ by two is taken without a comparison.  In a range of
two cases only the equality with the greater one is tested, so that greater values are not excluded.

Main results:

- Theorem {lit}`bsearchItem_right_iff`: the same for the blocks that are built.
-/

namespace Kcs

open List

/-! ## The search -/

/-- The single case of a range is taken without a comparison. -/
def skipsComparison (sorted : List SwitchCase) (start stop : Nat) : Bool :=
  stop - start = 1 && 0 < start &&
    match sorted[start - 1]?, sorted[stop]? with
    | some p, some n => p.int + 2 = n.int
    | _, _ => false

/-- The block to which the comparisons in a range of cases lead. -/
def searchLabel (sorted : List SwitchCase) (last : BlockId) (x : Int) :
    Nat → Nat → Nat → BlockId
  | 0, _, _ => last
  | fuel + 1, start, stop =>
    if stop ≤ start then last
    else
      let center := (start + stop) / 2
      match sorted[center]? with
      | none => last
      | some sc =>
        if skipsComparison sorted start stop then sc.label
        else if sc.int = x then sc.label
        else if stop - start = 1 then last
        else if stop - start = 2 then searchLabel sorted last x fuel start center
        else if x < sc.int then searchLabel sorted last x fuel start center
        else searchLabel sorted last x fuel (center + 1) stop

/-- The ranges of two cases that the search comes to, by their first case. -/
def pairRanges : Nat → Nat → Nat → List Nat
  | 0, _, _ => []
  | fuel + 1, start, stop =>
    if stop - start = 2 then [start]
    else if 2 < stop - start then
      pairRanges fuel start ((start + stop) / 2) ++ pairRanges fuel ((start + stop) / 2 + 1) stop
    else []

/-- There is no value between a constant and the next one, or the greatest `int`. -/
def NoneBetween (n : SwitchCase) (next : Option SwitchCase) : Prop :=
  match next with
  | some q => q.int = n.int + 1
  | none => n.int = 2 ^ 31 - 1

/-- In a range of two cases that begins behind the first case, the first one may be taken without a
comparison only if no other value is left. -/
def PairCovered (sorted : List SwitchCase) (last : BlockId) (i : Nat) : Prop :=
  ∀ p c n, 0 < i → sorted[i - 1]? = some p → sorted[i]? = some c → sorted[i + 1]? = some n →
    p.int + 2 = n.int → c.label = last ∨ NoneBetween n sorted[i + 2]?

/-- No range of two cases catches other values. -/
def SearchCovered (sorted : List SwitchCase) (last : BlockId) : Prop :=
  ∀ i ∈ pairRanges (sorted.length + 1) 0 sorted.length, PairCovered sorted last i

section Search

variable {sorted : List SwitchCase} {last : BlockId} {x : Int} {fuel start stop i j : Nat}
  {sc p c n : SwitchCase}

theorem pairRanges_bounds (h : i ∈ pairRanges fuel start stop) : start ≤ i ∧ i + 2 ≤ stop := by
  induction fuel generalizing start stop with
  | zero => cases h
  | succ fuel ih =>
    rw [pairRanges] at h
    split at h
    · rw [mem_singleton] at h
      omega
    · split at h
      · rcases mem_append.mp h with h | h
        · have hbounds := ih h
          omega
        · have hbounds := ih h
          omega
      · cases h

theorem exists_getElem? (sorted : List SwitchCase) (h : i < sorted.length) :
    ∃ sc, sorted[i]? = some sc :=
  ⟨_, getElem?_eq_getElem h⟩

theorem Increasing.lt (h : Increasing sorted) (hij : i < j) (hp : sorted[i]? = some p)
    (hn : sorted[j]? = some n) : p.int < n.int := by
  rcases List.getElem?_eq_some_iff.mp hp with ⟨hi, rfl⟩
  rcases List.getElem?_eq_some_iff.mp hn with ⟨hj, rfl⟩
  exact pairwise_iff_getElem.mp h i j hi hj hij

/-- The constants before a range are smaller than the value, and those behind it are not the
value. -/
structure Outside (sorted : List SwitchCase) (x : Int) (start stop : Nat) : Prop where
  below : ∀ i p, i < start → sorted[i]? = some p → p.int < x
  behind : ∀ i p, stop ≤ i → sorted[i]? = some p → p.int ≠ x

theorem Outside.switchLabel_eq (h : Outside sorted x start stop)
    (hin : ∀ i p, start ≤ i → i < stop → sorted[i]? = some p → p.int ≠ x) :
    switchLabel sorted last x = last := by
  refine switchLabel_of_forall_ne fun p hp => ?_
  rcases mem_iff_getElem?.mp hp with ⟨i, hi⟩
  by_cases hlo : i < start
  · exact ne_of_lt (h.below i p hlo hi)
  · by_cases hhi : i < stop
    · exact hin i p (not_lt.mp hlo) hhi hi
    · exact h.behind i p (not_lt.mp hhi) hi

theorem switchLabel_of_getElem? (h : Increasing sorted) (hsc : sorted[i]? = some sc)
    (hx : sc.int = x) : switchLabel sorted last x = sc.label := by
  rw [← hx]
  exact switchLabel_of_mem h (mem_of_getElem? hsc)

theorem skipsComparison_iff : skipsComparison sorted start stop = true ↔
    stop - start = 1 ∧ 0 < start ∧ ∃ p n, sorted[start - 1]? = some p ∧ sorted[stop]? = some n ∧
      p.int + 2 = n.int := by
  unfold skipsComparison
  cases sorted[start - 1]? <;> cases sorted[stop]? <;> simp [and_assoc]

theorem searchLabel_single (hsc : sorted[start]? = some sc)
    (hskip : skipsComparison sorted start (start + 1) = false) :
    searchLabel sorted last x (fuel + 1) start (start + 1) =
      if sc.int = x then sc.label else last := by
  have hcenter : (start + (start + 1)) / 2 = start := by omega
  rw [searchLabel, if_neg (by omega)]
  simp only [hcenter, hsc, hskip, Bool.false_eq_true, if_false]
  split
  · rfl
  · rw [if_pos (by omega)]

theorem searchLabel_skipped (hsc : sorted[start]? = some sc)
    (hskip : skipsComparison sorted start (start + 1) = true) :
    searchLabel sorted last x (fuel + 1) start (start + 1) = sc.label := by
  have hcenter : (start + (start + 1)) / 2 = start := by omega
  rw [searchLabel, if_neg (by omega)]
  simp only [hcenter, hsc, hskip, if_true]

theorem searchLabel_many (hlen : 2 ≤ stop - start) (hsc : sorted[(start + stop) / 2]? = some sc) :
    searchLabel sorted last x (fuel + 1) start stop =
      if sc.int = x then sc.label
      else if stop - start = 2 then searchLabel sorted last x fuel start ((start + stop) / 2)
      else if x < sc.int then searchLabel sorted last x fuel start ((start + stop) / 2)
      else searchLabel sorted last x fuel ((start + stop) / 2 + 1) stop := by
  have hskip : skipsComparison sorted start stop = false := by
    rw [Bool.eq_false_iff, ne_eq, skipsComparison_iff]
    omega
  rw [searchLabel, if_neg (by omega)]
  simp only [hsc, hskip, Bool.false_eq_true, if_false, if_neg (show ¬ stop - start = 1 by omega)]

theorem searchLabel_first (h : Increasing sorted) (hout : Outside sorted x start (start + 1))
    (hx : x < 2 ^ 31) (habove : ∀ j q, start + 2 ≤ j → sorted[j]? = some q → x < q.int)
    (hcovered : PairCovered sorted last start) (hlen : start + 1 < sorted.length) :
    searchLabel sorted last x (fuel + 1) start (start + 1) = switchLabel sorted last x := by
  have hsc : sorted[start]? = some sorted[start] := getElem?_eq_getElem (by omega)
  have hnone : sorted[start].int ≠ x → switchLabel sorted last x = last := fun hne =>
    hout.switchLabel_eq fun i p hlo hhi hp => by
      have hi : i = start := by omega
      subst hi
      rw [hsc] at hp
      cases hp
      exact hne
  by_cases heq : sorted[start].int = x
  · rw [switchLabel_of_getElem? h hsc heq]
    cases hskip : skipsComparison sorted start (start + 1) with
    | true => exact searchLabel_skipped hsc hskip
    | false => rw [searchLabel_single hsc hskip, if_pos heq]
  · rw [hnone heq]
    cases hskip : skipsComparison sorted start (start + 1) with
    | false => rw [searchLabel_single hsc hskip, if_neg heq]
    | true =>
      rcases skipsComparison_iff.mp hskip with ⟨-, hpos, p, n, hp, hn, hpn⟩
      have hpx := hout.below (start - 1) p (by omega) hp
      have hpc := h.lt (by omega) hp hsc
      have hcn := h.lt (by omega) hsc hn
      have hnx := hout.behind (start + 1) n (le_refl _) hn
      rw [searchLabel_skipped hsc hskip]
      rcases hcovered p _ n hpos hp hsc hn hpn with hlabel | hbetween
      · exact hlabel
      · -- The value is greater than the second constant, but there is no such value.
        exfalso
        unfold NoneBetween at hbetween
        split at hbetween
        · rename_i q hq
          have hxq := habove (start + 2) q (le_refl _) hq
          omega
        · omega

/-- The search is right where no range of two cases catches other values. -/
theorem searchLabel_right (h : Increasing sorted) (hx : x < 2 ^ 31) :
    ∀ {fuel start stop : Nat}, stop - start < fuel → stop ≤ sorted.length →
      Outside sorted x start stop → (∀ j q, stop ≤ j → sorted[j]? = some q → x < q.int) →
      (∀ i ∈ pairRanges fuel start stop, PairCovered sorted last i) →
      searchLabel sorted last x fuel start stop = switchLabel sorted last x := by
  intro fuel
  induction fuel with
  | zero =>
    intro start stop hfuel
    omega
  | succ fuel ih =>
    intro start stop hfuel hstop hout habove hcovered
    by_cases hempty : stop ≤ start
    · rw [searchLabel, if_pos hempty]
      exact (hout.switchLabel_eq fun i p hlo hhi => by omega).symm
    have hcenter : (start + stop) / 2 < sorted.length := by omega
    rcases exists_getElem? sorted hcenter with ⟨sc, hsc⟩
    by_cases hone : stop - start = 1
    · have hstop' : stop = start + 1 := by omega
      subst hstop'
      have hsc' : sorted[start]? = some sorted[start] := getElem?_eq_getElem (by omega)
      cases hskip : skipsComparison sorted start (start + 1) with
      | true =>
        rcases skipsComparison_iff.mp hskip with ⟨-, hpos, p, n, hp, hn, hpn⟩
        have hpx := hout.below (start - 1) p (by omega) hp
        have hxn := habove (start + 1) n (le_refl _) hn
        have hpc := h.lt (by omega) hp hsc'
        have hcn := h.lt (by omega) hsc' hn
        rw [searchLabel_skipped hsc' hskip, switchLabel_of_getElem? h hsc' (by omega)]
      | false =>
        rw [searchLabel_single hsc' hskip]
        split
        · rename_i heq
          exact (switchLabel_of_getElem? h hsc' heq).symm
        · rename_i hne
          refine (hout.switchLabel_eq fun i p hlo hhi hp => ?_).symm
          have hi : i = start := by omega
          subst hi
          rw [hsc'] at hp
          cases hp
          exact hne
    · rw [searchLabel_many (by omega) hsc]
      by_cases heq : sc.int = x
      · rw [if_pos heq, switchLabel_of_getElem? h hsc heq]
      · rw [if_neg heq]
        by_cases htwo : stop - start = 2
        · rw [if_pos htwo]
          have hstop' : (start + stop) / 2 = start + 1 := by omega
          have hmem : start ∈ pairRanges (fuel + 1) start stop := by
            rw [pairRanges, if_pos htwo]
            exact mem_singleton_self start
          rw [hstop'] at hsc
          have hbehind : Outside sorted x start (start + 1) := by
            refine ⟨hout.below, fun i p hi hp => ?_⟩
            by_cases hi' : i = start + 1
            · subst hi'
              rw [hsc] at hp
              cases hp
              exact heq
            · exact hout.behind i p (by omega) hp
          cases fuel with
          | zero => omega
          | succ fuel =>
            rw [hstop']
            exact searchLabel_first h hbehind hx (fun j q hj => habove j q (by omega))
              (hcovered start hmem) (by omega)
        · rw [if_neg htwo]
          have hmany : 2 < stop - start := by omega
          rw [pairRanges, if_neg htwo, if_pos hmany, forall_mem_append] at hcovered
          by_cases hlt : x < sc.int
          · have habove' : ∀ j q, (start + stop) / 2 ≤ j → sorted[j]? = some q → x < q.int := by
              intro j q hj hq
              by_cases hj' : j = (start + stop) / 2
              · subst hj'
                rw [hsc] at hq
                cases hq
                exact hlt
              · exact lt_trans hlt (h.lt (by omega) hsc hq)
            rw [if_pos hlt]
            exact ih (by omega) (by omega)
              ⟨hout.below, fun i p hi hp => ne_of_gt (habove' i p hi hp)⟩ habove' hcovered.1
          · have hbelow : ∀ i p, i < (start + stop) / 2 + 1 → sorted[i]? = some p → p.int < x := by
              intro i p hi hp
              by_cases hi' : i = (start + stop) / 2
              · subst hi'
                rw [hsc] at hp
                cases hp
                omega
              · have := h.lt (by omega) hp hsc
                omega
            rw [if_neg hlt]
            exact ih (by omega) hstop ⟨hbelow, hout.behind⟩ habove hcovered.2

theorem searchLabel_misled (h : Increasing sorted) (hc : sorted[i]? = some c)
    (hn : sorted[i + 1]? = some n) (hskip : skipsComparison sorted i (i + 1) = true)
    (hnx : n.int < x) (habove : ∀ j q, i + 2 ≤ j → sorted[j]? = some q → x < q.int) :
    ∀ {fuel start stop : Nat}, stop - start < fuel → stop ≤ sorted.length →
      i ∈ pairRanges fuel start stop →
      searchLabel sorted last x fuel start stop = c.label := by
  intro fuel
  induction fuel with
  | zero =>
    intro start stop hfuel
    omega
  | succ fuel ih =>
    intro start stop hfuel hstop hi
    rw [pairRanges] at hi
    split at hi
    · rename_i htwo
      rw [mem_singleton] at hi
      subst hi
      have hcenter : (i + stop) / 2 = i + 1 := by omega
      have hn' : sorted[(i + stop) / 2]? = some n := by
        rw [hcenter]
        exact hn
      rw [searchLabel_many (by omega) hn', if_neg (by omega), if_pos htwo, hcenter]
      cases fuel with
      | zero => omega
      | succ fuel => exact searchLabel_skipped hc hskip
    · rename_i htwo
      split at hi
      · rename_i hmany
        have hcenter : (start + stop) / 2 < sorted.length := by omega
        have hsc : sorted[(start + stop) / 2]? = some sorted[(start + stop) / 2] :=
          getElem?_eq_getElem hcenter
        rw [searchLabel_many (by omega) hsc]
        rcases mem_append.mp hi with hi | hi
        · have hbounds := pairRanges_bounds hi
          have hxc := habove _ _ (by omega) hsc
          rw [if_neg (by omega), if_neg htwo, if_pos hxc]
          exact ih (by omega) (by omega) hi
        · have hbounds := pairRanges_bounds hi
          have hcn := h.lt (by omega) hsc hn
          rw [if_neg (by omega), if_neg htwo, if_neg (by omega)]
          exact ih (by omega) hstop hi
      · cases hi

/-- The search is right for all values exactly when no range of two cases catches other ones. -/
theorem searchLabel_right_iff (h : Increasing sorted) :
    (∀ x, -2 ^ 31 ≤ x → x < 2 ^ 31 →
      searchLabel sorted last x (sorted.length + 1) 0 sorted.length = switchLabel sorted last x) ↔
    SearchCovered sorted last := by
  constructor
  · intro hright i hi p c n hpos hp hc hn hpn
    by_contra hno
    rw [not_or] at hno
    rcases hno with ⟨hlabel, hbetween⟩
    have hskip : skipsComparison sorted i (i + 1) = true :=
      skipsComparison_iff.mpr ⟨by omega, hpos, p, n, hp, hn, hpn⟩
    have hbounds := n.int_bounds
    have hnlt : n.int + 1 < 2 ^ 31 := by
      cases hq : sorted[i + 2]? with
      | none =>
        simp only [NoneBetween, hq] at hbetween
        omega
      | some q =>
        have hlt := h.lt (by omega) hn hq
        have hq' := q.int_bounds
        omega
    have habove : ∀ j q, i + 2 ≤ j → sorted[j]? = some q → n.int + 1 < q.int := by
      intro j q hj hq
      have hlen : i + 2 < sorted.length := by
        have := (List.getElem?_eq_some_iff.mp hq).1
        omega
      have hnext : sorted[i + 2]? = some sorted[i + 2] := getElem?_eq_getElem hlen
      have hlt := h.lt (by omega) hn hnext
      simp only [NoneBetween, hnext] at hbetween
      by_cases hj' : j = i + 2
      · subst hj'
        rw [hnext] at hq
        cases hq
        omega
      · have := h.lt (by omega) hnext hq
        omega
    have hsearch := hright (n.int + 1) (by omega) hnlt
    have hwrong : searchLabel sorted last (n.int + 1) (sorted.length + 1) 0 sorted.length =
        c.label :=
      searchLabel_misled h hc hn hskip (by omega) habove (by omega) (le_refl _) hi
    have hlast : switchLabel sorted last (n.int + 1) = last := by
      refine switchLabel_of_forall_ne fun q hq => ?_
      rcases mem_iff_getElem?.mp hq with ⟨j, hj⟩
      by_cases hji : j = i + 1
      · subst hji
        rw [hn] at hj
        cases hj
        omega
      · by_cases hlt : j < i + 1
        · have := h.lt hlt hj hn
          omega
        · have := habove j q (by omega) hj
          omega
    exact hlabel (by rw [← hwrong, hsearch, hlast])
  · intro hcovered x hlo hhi
    refine searchLabel_right h hhi (by omega) (le_refl _) ⟨?_, ?_⟩ ?_ hcovered
    · intro i p hi
      omega
    · intro i p hi hp
      have := (List.getElem?_eq_some_iff.mp hp).1
      omega
    · intro j q hj hq
      have := (List.getElem?_eq_some_iff.mp hq).1
      omega

end Search

/-! ## The blocks of the search -/

section Blocks

variable [HostFloat] [LawfulHostFloat] {env : RunEnv} {R : Nat → Prop} {m0 : Memory}
  {sorted : List SwitchCase} {last : BlockId} {value : Var} {x : Int} {N : Nat}

/-- The cases have different constants of type `int`, and their labels exist. -/
structure IntCases (sorted : List SwitchCase) (N : Nat) : Prop where
  increasing : Increasing sorted
  constant : ∀ sc ∈ sorted, IsInteger sc.value .int sc.int
  plain : ∀ sc ∈ sorted, sc.value.type.Plain
  label : ∀ sc ∈ sorted, sc.label < N

omit [HostFloat] [LawfulHostFloat] in
theorem betweenNeighbours_eq (h : IntCases sorted N) {start stop : Nat} {sc : SwitchCase}
    (hlen : start < stop)
    (hsc : sorted[(start + stop) / 2]? = some sc) (s : EvalState) :
    betweenNeighbours sorted start stop sc s = .ok (skipsComparison sorted start stop, s) := by
  unfold betweenNeighbours
  by_cases hone : stop - start = 1 ∧ 0 < start ∧ stop < sorted.length
  · rcases hone with ⟨hone, hpos, hlt⟩
    have hcenter : (start + stop) / 2 = start := by omega
    rw [hcenter] at hsc
    rcases exists_getElem? sorted (Nat.lt_of_le_of_lt (Nat.sub_le start 1) (by omega)) with ⟨p, hp⟩
    rcases exists_getElem? sorted hlt with ⟨n, hn⟩
    have hpc := h.increasing.lt (by omega) hp hsc
    have hcn := h.increasing.lt (by omega) hsc hn
    have hpb := p.int_bounds
    have hcb := sc.int_bounds
    have hnb := n.int_bounds
    have himm : sc.value.imm.i = sc.int := by
      have hc := h.constant sc (mem_of_getElem? hsc)
      rw [Value.i, hc.word]
      exact IntFormat.toInt_ofInt (f := .bits32 true) rfl hc.inRange
    have hskip : skipsComparison sorted start stop = decide (p.int + 2 = n.int) := by
      simp [skipsComparison, hone, hpos, hp, hn]
    have hwrap : int32 (n.int - 2) = n.int - 2 := int32_eq (by omega) (by omega)
    simp only [hone, hpos, hlt, hp, hn, decide_true, Bool.and_true, if_true, hwrap, himm, hskip]
    by_cases heq : p.int = n.int - 2
    · rw [if_pos heq, int32_eq (by omega) (by omega), int32_eq (by omega) (by omega)]
      have h1 : p.int + 1 = sc.int := by omega
      have h2 : n.int - 1 = sc.int := by omega
      have h3 : p.int + 2 = n.int := by omega
      simp [h1, h2, h3]
      rfl
    · rw [if_neg heq]
      have h3 : ¬ p.int + 2 = n.int := by omega
      simp [h3]
      rfl
  · have hskip : skipsComparison sorted start stop = false := by
      rw [Bool.eq_false_iff, ne_eq, skipsComparison_iff]
      rintro ⟨hone', hpos, p, n, hp, hn, -⟩
      exact hone ⟨hone', hpos, (List.getElem?_eq_some_iff.mp hn).1⟩
    rw [hskip, if_neg (by simpa [and_assoc] using hone)]
    rfl

/-- What is known when the search for a value begins in a range. -/
structure SearchReady (env : RunEnv) (R : Nat → Prop) (m0 : Memory) (sorted : List SwitchCase)
    (last : BlockId) (value : Var) (x : Int) (N : Nat) (s : EvalState) : Prop where
  cases : IntCases sorted N
  last : last < N
  held : Held env R m0 value x
  type : value.type.cInteger = some .int
  inRange : (CInteger.format .int).InRange x
  room : Room env s.symbols.length
  temporaries : ∀ id, s.symbols.length ≤ id → R id
  size : N ≤ s.blocks.length

omit [LawfulHostFloat] [HostFloat] in
theorem SearchReady.grown {s s' : EvalState}
    (h : SearchReady env R m0 sorted last value x N s) (hs : Grown s s') :
    SearchReady env R m0 sorted last value x N s' :=
  ⟨h.cases, h.last, h.held, h.type, h.inRange, h.room.mono hs.symbols,
    fun id hid => h.temporaries id (hs.symbols.trans hid), h.size.trans hs.size⟩

/-- The result of linking: new blocks that lead from the returned block to a label. -/
structure Searches (env : RunEnv) (R : Nat → Prop) (m0 : Memory) (N : Nat) (s s' : EvalState)
    (b target : BlockId) : Prop where
  grown : Grown s s'
  leads : LeadsOut env R m0 s'.blocks s.blocks.length b target
  place : b < N ∨ s.blocks.length ≤ b

theorem compareBlock_spec {o : CInteger.BinaryOp} (ho : o = .eq ∨ o = .gt) {s : EvalState}
    {sc : SwitchCase} {b : BlockId} {blk : Block}
    (h : SearchReady env R m0 sorted last value x N s) (hsc : sc ∈ sorted)
    (hblk : s.blocks[b]? = some blk) :
    ∃ s' code e, setComparison b (opType o) sc.value value s = .ok ((), s') ∧
      s'.types = s.types ∧ s.symbols.length ≤ s'.symbols.length ∧
      s'.blocks = s.blocks.modify b
        (fun blk => { blk with code := blk.code ++ code, expr := e }) ∧
      ComparesTo env R m0 code e (comparisonHolds o sc.int x) := by
  have hc := h.cases.constant sc hsc
  have hheld : Held env R m0 sc.value sc.int :=
    fun _ _ _ _ => hc.standsFor (h.cases.plain sc hsc)
  exact setComparison_spec ho hheld h.held hc.type h.type hc.inRange h.inRange h.room
    h.temporaries hblk

omit [LawfulHostFloat] in
theorem LeadsOut.comparison {g : Graph} {first : Nat} {b rest target : BlockId} {blk : Block}
    {sc : SwitchCase} (hb : first ≤ b) (hblk : g[b]? = some blk)
    (htable : blk.hasJumpTable = false) (h0 : blk.jump0 = some rest)
    (h1 : blk.jump1 = some sc.label) (hlabel : sc.label < first)
    (hcompare : ComparesTo env R m0 blk.code blk.expr (comparisonHolds .eq sc.int x))
    (hrest : LeadsOut env R m0 g first rest target) :
    LeadsOut env R m0 g first b (if sc.int = x then sc.label else target) := by
  refine LeadsOut.branch hb hblk htable h0 h1 hcompare ?_
  have hholds : comparisonHolds .eq sc.int x = decide (sc.int = x) := rfl
  by_cases heq : sc.int = x
  · rw [hholds, if_pos heq, decide_eq_true heq, if_pos rfl]
    exact LeadsOut.stop hlabel
  · rw [hholds, if_neg heq, decide_eq_false heq, if_neg Bool.false_ne_true]
    exact hrest

omit [LawfulHostFloat] in
theorem LeadsOut.halves {g : Graph} {first : Nat} {b lower upper lo hi : BlockId} {blk : Block}
    {sc : SwitchCase} (hb : first ≤ b) (hblk : g[b]? = some blk)
    (htable : blk.hasJumpTable = false) (h0 : blk.jump0 = some upper)
    (h1 : blk.jump1 = some lower)
    (hcompare : ComparesTo env R m0 blk.code blk.expr (comparisonHolds .gt sc.int x))
    (hlower : LeadsOut env R m0 g first lower lo) (hupper : LeadsOut env R m0 g first upper hi) :
    LeadsOut env R m0 g first b (if x < sc.int then lo else hi) := by
  refine LeadsOut.branch hb hblk htable h0 h1 hcompare ?_
  have hholds : comparisonHolds .gt sc.int x = decide (x < sc.int) := rfl
  by_cases hlt : x < sc.int
  · rw [hholds, if_pos hlt, decide_eq_true hlt, if_pos rfl]
    exact hlower
  · rw [hholds, if_neg hlt, decide_eq_false hlt, if_neg Bool.false_ne_true]
    exact hupper

/-- A block that compares for the order is put before the searches in the two halves. -/
theorem halves_spec {s s3 : EvalState} {sc : SwitchCase} {comp lo hi : BlockId} {blk : Block}
    {lower upper : EvalM BlockId} (h : SearchReady env R m0 sorted last value x N s)
    (hgrown3 : Grown s s3) (hsc : sc ∈ sorted) (hcomp : s.blocks.length ≤ comp)
    (hblk : s3.blocks[comp]? = some blk) (hlo : lo < N) (hhi : hi < N)
    (hlower : ∀ s, SearchReady env R m0 sorted last value x N s →
      ∃ b s', lower s = .ok (b, s') ∧ Searches env R m0 N s s' b lo)
    (hupper : ∀ s, SearchReady env R m0 sorted last value x N s →
      ∃ b s', upper s = .ok (b, s') ∧ Searches env R m0 N s s' b hi) :
    ∃ s' left, (do
        let left ← cfgBlockInit
        setJump0 comp left
        setComparison left .gt sc.value value
        let lower ← lower
        setJump1 left lower
        let upper ← upper
        setJump0 left upper
        pure comp) s3 = .ok (comp, s') ∧
      Grown s s' ∧ s'.blocks[comp]? = some { blk with jump0 := some left } ∧
      LeadsOut env R m0 s'.blocks s.blocks.length left (if x < sc.int then lo else hi) := by
  have hlt := (List.getElem?_eq_some_iff.mp hblk).1
  have hne : comp ≠ s3.blocks.length := Nat.ne_of_lt hlt
  rw [bind_of_ok (cfgBlockInit_eq s3), bind_of_ok (setJump0_eq comp s3.blocks.length _)]
  have hgrown5 := (hgrown3.addBlock).modify hcomp
    fun blk => { blk with jump0 := some s3.blocks.length }
  have hnew5 : ((s3.blocks ++ [({} : Block)]).modify comp
      fun blk => { blk with jump0 := some s3.blocks.length })[s3.blocks.length]? = some {} :=
    (getElem?_modify_of_ne hne).trans (getElem?_addBlock s3.blocks)
  have hcomp5 : ((s3.blocks ++ [({} : Block)]).modify comp
      fun blk => { blk with jump0 := some s3.blocks.length })[comp]? =
      some { blk with jump0 := some s3.blocks.length } :=
    getElem?_modify_self ((getElem?_append_left hlt).trans hblk)
  rcases compareBlock_spec (Or.inr rfl) (h.grown hgrown5) hsc hnew5 with
    ⟨s6, code, e, hok6, htypes6, hsymbols6, hblocks6, hcmp⟩
  replace hok6 : setComparison s3.blocks.length .gt sc.value value _ = _ := hok6
  have hleft : s.blocks.length ≤ s3.blocks.length := hgrown3.size
  have hgrown6 := hgrown5.step htypes6 hsymbols6 hblocks6 hleft
  have hnew6 : s6.blocks[s3.blocks.length]? = some { code := code, expr := e } := by
    rw [hblocks6, getElem?_modify_self hnew5]
    rfl
  have hcomp6 : s6.blocks[comp]? = some { blk with jump0 := some s3.blocks.length } := by
    rw [hblocks6, getElem?_modify_of_ne hne.symm]
    exact hcomp5
  rw [bind_of_ok hok6]
  -- The smaller values.
  rcases hlower s6 (h.grown hgrown6) with ⟨b7, s7, hok7, hsearch7⟩
  rw [bind_of_ok hok7, bind_of_ok (setJump1_eq s3.blocks.length b7 s7)]
  have hgrown8 := (hgrown6.trans hsearch7.grown).modify hleft
    fun blk => { blk with jump1 := some b7 }
  have hnew8 := getElem?_modify_self (f := fun blk => { blk with jump1 := some b7 })
    (hsearch7.grown.getElem? hnew6)
  have hcomp8 := (getElem?_modify_of_ne (f := fun blk => { blk with jump1 := some b7 })
    hne.symm).trans (hsearch7.grown.getElem? hcomp6)
  -- The greater values.
  rcases hupper _ (h.grown hgrown8) with ⟨b9, s9, hok9, hsearch9⟩
  rw [bind_of_ok hok9, bind_of_ok (setJump0_eq s3.blocks.length b9 s9)]
  have hgrown9 := hgrown8.trans hsearch9.grown
  have hleft6 := (List.getElem?_eq_some_iff.mp hnew6).1
  have hleft8 := (List.getElem?_eq_some_iff.mp hnew8).1
  refine ⟨_, s3.blocks.length, rfl, hgrown9.modify hleft _,
    (getElem?_modify_of_ne hne.symm).trans (hsearch9.grown.getElem? hcomp8), ?_⟩
  refine LeadsOut.halves hleft (getElem?_modify_self (hsearch9.grown.getElem? hnew8)) rfl rfl rfl
    hcmp ?_ ?_
  · have hrun := ((hsearch7.leads.modify hleft6
      fun blk => { blk with jump1 := some b7 }).grown hsearch9.grown).modify hleft6
        fun blk => { blk with jump0 := some b9 }
    exact hrun.lower hgrown6.size (lt_of_lt_of_le hlo h.size)
  · have hrun := hsearch9.leads.modify hleft8 fun blk => { blk with jump0 := some b9 }
    exact hrun.lower hgrown8.size (lt_of_lt_of_le hhi h.size)

omit [HostFloat] [LawfulHostFloat] in
theorem searchLabel_lt (h : IntCases sorted N) (hlast : last < N) (x : Int) (fuel : Nat) :
    ∀ start stop, searchLabel sorted last x fuel start stop < N := by
  induction fuel with
  | zero => exact fun _ _ => hlast
  | succ fuel ih =>
    intro start stop
    rw [searchLabel]
    split
    · exact hlast
    · cases hsc : sorted[(start + stop) / 2]? with
      | none =>
        simp only [hsc]
        exact hlast
      | some sc =>
        have hlabel := h.label sc (mem_of_getElem? hsc)
        simp only [hsc]
        split_ifs
        · exact hlabel
        · exact hlabel
        · exact hlast
        · exact ih _ _
        · exact ih _ _
        · exact ih _ _

/-- The blocks of the search lead to the label that the search finds. -/
theorem bsearchItem_searches (fuel : Nat) : ∀ {start stop : Nat} {s : EvalState},
    SearchReady env R m0 sorted last value x N s → stop - start < fuel →
    stop ≤ sorted.length →
    ∃ b s', linkSwitchCaseBsearchItem sorted last value fuel start stop s = .ok (b, s') ∧
      Searches env R m0 N s s' b (searchLabel sorted last x fuel start stop) := by
  induction fuel with
  | zero =>
    intro start stop s _ hfuel
    omega
  | succ fuel ih =>
    intro start stop s h hfuel hstop
    by_cases hempty : stop ≤ start
    · refine ⟨last, s, ?_, Grown.refl s, ?_, Or.inl h.last⟩
      · rw [linkSwitchCaseBsearchItem, if_pos hempty]
        rfl
      · rw [searchLabel, if_pos hempty]
        exact LeadsOut.stop (lt_of_lt_of_le h.last h.size)
    rcases exists_getElem? sorted (show (start + stop) / 2 < sorted.length by omega) with ⟨sc, hsc⟩
    have hmem := mem_of_getElem? hsc
    have hlabel := lt_of_lt_of_le (h.cases.label sc hmem) h.size
    have hbetween := betweenNeighbours_eq h.cases (not_le.mp hempty) hsc s
    rw [linkSwitchCaseBsearchItem, if_neg hempty, searchLabel, if_neg hempty]
    simp only [hsc]
    rw [bind_of_ok hbetween]
    cases hskip : skipsComparison sorted start stop with
    | true =>
      exact ⟨sc.label, s, rfl, Grown.refl s, LeadsOut.stop hlabel, Or.inl (h.cases.label sc hmem)⟩
    | false =>
      simp only [Bool.false_eq_true, if_false]
      -- The block that compares for equality.
      rw [bind_of_ok (cfgBlockInit_eq s)]
      have hgrown1 : Grown s { s with blocks := s.blocks ++ [{}] } := (Grown.refl s).addBlock
      rcases compareBlock_spec (Or.inl rfl) (h.grown hgrown1) hmem
        (getElem?_addBlock s.blocks) with ⟨s2, code, e, hok2, htypes2, hsymbols2, hblocks2, hcmp⟩
      replace hok2 : setComparison s.blocks.length .eq sc.value value _ = _ := hok2
      have hgrown2 := hgrown1.step htypes2 hsymbols2 hblocks2 (le_refl _)
      have hblk2 : s2.blocks[s.blocks.length]? = some { code := code, expr := e } := by
        rw [hblocks2, getElem?_modify_self (getElem?_addBlock s.blocks)]
        rfl
      rw [bind_of_ok hok2, bind_of_ok (setJump1_eq s.blocks.length sc.label s2)]
      have hgrown3 := hgrown2.modify (le_refl s.blocks.length)
        fun blk => { blk with jump1 := some sc.label }
      have hblk3 := getElem?_modify_self (f := fun blk => { blk with jump1 := some sc.label }) hblk2
      by_cases hone : stop - start = 1
      · rw [if_pos hone, if_pos hone, bind_of_ok (setJump0_eq s.blocks.length last _)]
        refine ⟨s.blocks.length, _, rfl, hgrown3.modify (le_refl _) _, ?_, Or.inr (le_refl _)⟩
        exact LeadsOut.comparison (le_refl _) (getElem?_modify_self hblk3) rfl rfl rfl hlabel hcmp
          (LeadsOut.stop (lt_of_lt_of_le h.last h.size))
      · rw [if_neg hone, if_neg hone]
        by_cases htwo : stop - start = 2
        · -- Only the first case is left.
          rw [if_pos htwo, if_pos htwo]
          have hfuel' : (start + stop) / 2 - start < fuel := by omega
          have hstop' : (start + stop) / 2 ≤ sorted.length := by omega
          rcases ih (h.grown hgrown3) hfuel' hstop' with ⟨rest, s4, hok4, hrest⟩
          rw [bind_of_ok hok4, bind_of_ok (setJump0_eq s.blocks.length rest s4)]
          have hgrown4 := hgrown3.trans hrest.grown
          refine ⟨s.blocks.length, _, rfl, hgrown4.modify (le_refl _) _, ?_, Or.inr (le_refl _)⟩
          refine LeadsOut.comparison (le_refl _)
            (getElem?_modify_self (hrest.grown.getElem? hblk3)) rfl rfl rfl hlabel hcmp ?_
          have hrun := hrest.leads.modify (List.getElem?_eq_some_iff.mp hblk3).1
            fun blk => { blk with jump0 := some rest }
          exact hrun.lower hgrown3.size
            (lt_of_lt_of_le (searchLabel_lt h.cases h.last x _ _ _) h.size)
        · rw [if_neg htwo, if_neg htwo]
          have hlo : (start + stop) / 2 - start < fuel := by omega
          have hhi : stop - ((start + stop) / 2 + 1) < fuel := by omega
          rcases halves_spec h hgrown3 hmem (le_refl _) hblk3
            (searchLabel_lt h.cases h.last x _ _ _) (searchLabel_lt h.cases h.last x _ _ _)
            (fun s hs => ih hs hlo (by omega)) (fun s hs => ih hs hhi hstop) with
            ⟨s', left, hok, hgrown, hblk, hleads⟩
          refine ⟨s.blocks.length, s', hok, hgrown, ?_, Or.inr (le_refl _)⟩
          exact LeadsOut.comparison (le_refl _) hblk rfl rfl rfl hlabel hcmp hleads

/-! ## Correctness -/

/-- For every value the search is built, and its new blocks lead to the block that comparing the
value with every constant in turn selects. -/
def BsearchRight (env : RunEnv) (s : EvalState) (sorted : List SwitchCase) (last : BlockId) :
    Prop :=
  ∀ (value : Var) (m : Memory) (x : Int), value.type.cInteger = some .int →
    StandsFor env s.symbols.length m value (.int x) →
    ∃ first s', linkSwitchCaseBsearchItem sorted last value (sorted.length + 1) 0 sorted.length s =
        .ok (first, s') ∧ Grown s s' ∧
      LeadsOut env (s.symbols.length ≤ ·) m s'.blocks s.blocks.length first
        (switchLabel sorted last x)

section Right

variable {s : EvalState}

omit [HostFloat] [LawfulHostFloat] in
theorem searchReady_of_standsFor (hcases : IntCases sorted s.blocks.length)
    (hlast : last < s.blocks.length) (hroom : Room env s.symbols.length) {m : Memory}
    (htype : value.type.cInteger = some .int)
    (hvalue : StandsFor env s.symbols.length m value (.int x)) :
    SearchReady env (s.symbols.length ≤ ·) m sorted last value x s.blocks.length s := by
  rcases hvalue.hasType with ⟨c, hword, hrange⟩
  rw [CType.wordType_of_cInteger htype] at hword
  cases hword
  exact ⟨hcases, hlast, hvalue.held, htype, hrange, hroom, fun _ hid => hid, le_refl _⟩

theorem bsearchRight_of_covered (hcases : IntCases sorted s.blocks.length)
    (hlast : last < s.blocks.length) (hroom : Room env s.symbols.length)
    (hcovered : SearchCovered sorted last) : BsearchRight env s sorted last := by
  intro value m x htype hvalue
  have hready := searchReady_of_standsFor hcases hlast hroom htype hvalue
  rcases (IntFormat.inRange_signed_iff (f := .bits32 true) rfl x).mp hready.inRange with ⟨hlo, hhi⟩
  rcases bsearchItem_searches (sorted.length + 1) hready (by omega) (le_refl _) with
    ⟨b, s', hok, hsearch⟩
  refine ⟨b, s', hok, hsearch.grown, ?_⟩
  rw [← (searchLabel_right_iff hcases.increasing).mpr hcovered x hlo hhi]
  exact hsearch.leads

theorem BsearchRight.covered (hcases : IntCases sorted s.blocks.length)
    (hlast : last < s.blocks.length) (hroom : Room env s.symbols.length)
    (hright : BsearchRight env s sorted last) : SearchCovered sorted last := by
  refine (searchLabel_right_iff hcases.increasing).mp fun x hlo hhi => ?_
  -- The value as a constant operand.
  have hrange : (CInteger.format .int).InRange x :=
    (IntFormat.inRange_signed_iff (f := .bits32 true) rfl x).mpr ⟨hlo, hhi⟩
  have hvalue : StandsFor env s.symbols.length (fun _ => 0) (varInt x) (.int x) :=
    (isInteger_varInt hrange).standsFor plain_int
  have hready := searchReady_of_standsFor hcases hlast hroom rfl hvalue
  rcases bsearchItem_searches (sorted.length + 1) hready (by omega) (le_refl _)
    with ⟨b, s', hok, hsearch⟩
  rcases hright (varInt x) _ x rfl hvalue with ⟨b', s'', hok', -, hleads⟩
  rw [hok] at hok'
  cases hok'
  rcases hleads _ (AgreeOutside.refl env _ _) [] [] with ⟨m1, -, hrun1⟩
  rcases hsearch.leads _ (AgreeOutside.refl env _ _) [] [] with ⟨m2, -, hrun2⟩
  exact (hrun2.unique hrun1).1

end Right

/-- The blocks of the binary search select the case with the value, for all values, exactly when
no range of two cases catches other values. -/
theorem bsearchItem_right_iff (env : RunEnv) (s : EvalState) (sorted : List SwitchCase)
    (last : BlockId) (hcases : IntCases sorted s.blocks.length) (hlast : last < s.blocks.length)
    (hroom : Room env s.symbols.length) :
    BsearchRight env s sorted last ↔ SearchCovered sorted last :=
  ⟨BsearchRight.covered hcases hlast hroom, bsearchRight_of_covered hcases hlast hroom⟩

end Blocks

/-! ## Examples -/

theorem intCases_of_forall {sorted : List SwitchCase} {N : Nat} (h : Increasing sorted)
    (hcases : ∀ sc ∈ sorted, ∃ n label, sc = intCase n label ∧
      (CInteger.format .int).InRange n ∧ label < N) : IntCases sorted N where
  increasing := h
  constant := by
    intro sc hsc
    rcases hcases sc hsc with ⟨n, label, rfl, hn, -⟩
    have hint : (intCase n label).int = int32 n := by
      show int32 (BitVec.ofInt 64 n).toInt = int32 n
      rw [IntFormat.toInt_ofInt (f := .bits32 true) rfl hn]
    have hwrap : int32 n = n := hn
    rw [hint, hwrap]
    exact isInteger_varInt hn
  plain := by
    intro sc hsc
    rcases hcases sc hsc with ⟨n, label, rfl, -, -⟩
    exact plain_int
  label := by
    intro sc hsc
    rcases hcases sc hsc with ⟨n, label, rfl, -, hlabel⟩
    exact hlabel

/-- Six blocks without code. -/
def sixBlocks : EvalState := { blocks := List.replicate 6 {} }

/-- The value 100 is given to the case 11, between 10 and 12. -/
theorem not_bsearchRight :
    ¬ @BsearchRight HostFloat.zero spacedEnv sixBlocks
      [intCase (-1000) 0, intCase (-500) 1, intCase 10 2, intCase 11 3, intCase 12 4] 5 := by
  let _ := HostFloat.zero
  have := lawful_zero
  intro h
  have hcases : IntCases [intCase (-1000) 0, intCase (-500) 1, intCase 10 2, intCase 11 3,
      intCase 12 4] sixBlocks.blocks.length :=
    intCases_of_forall (by unfold Increasing; decide) (by
      simp only [forall_mem_cons, not_mem_nil, IsEmpty.forall_iff, implies_true, and_true]
      exact ⟨⟨_, _, rfl, by decide, by decide⟩, ⟨_, _, rfl, by decide, by decide⟩,
        ⟨_, _, rfl, by decide, by decide⟩, ⟨_, _, rfl, by decide, by decide⟩,
        ⟨_, _, rfl, by decide, by decide⟩⟩)
  have hcovered := h.covered hcases (by decide) (room_spacedEnv _)
  have hpair := hcovered 3 (by decide) (intCase 10 2) (intCase 11 3) (intCase 12 4) (by decide)
    rfl rfl rfl (by decide)
  rcases hpair with hlabel | hnone
  · exact absurd hlabel (by decide)
  · exact absurd hnone (show ¬ (intCase 12 4).int = 2 ^ 31 - 1 by decide)

/-- Three constants that are far from each other. -/
theorem bsearchItem_right_far :
    @BsearchRight HostFloat.zero spacedEnv sixBlocks
      [intCase 0 0, intCase 100 1, intCase 200 2] 5 := by
  let _ := HostFloat.zero
  have := lawful_zero
  have hcases : IntCases [intCase 0 0, intCase 100 1, intCase 200 2] sixBlocks.blocks.length :=
    intCases_of_forall (by unfold Increasing; decide) (by
      simp only [forall_mem_cons, not_mem_nil, IsEmpty.forall_iff, implies_true, and_true]
      exact ⟨⟨_, _, rfl, by decide, by decide⟩, ⟨_, _, rfl, by decide, by decide⟩,
        ⟨_, _, rfl, by decide, by decide⟩⟩)
  refine (bsearchItem_right_iff spacedEnv sixBlocks _ 5 hcases (by decide)
    (room_spacedEnv _)).mpr ?_
  intro i hi
  exact absurd hi (by revert i; decide)

end Kcs
