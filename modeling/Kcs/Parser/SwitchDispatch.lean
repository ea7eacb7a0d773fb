import Kcs.Parser.SwitchRun
import Kcs.Parser.SwitchTable

/-!
# Dispatch through jump tables

The value of a `switch` is made relative to the smallest constant, compared with both ends of the
table and then taken as an index.  A difference that wraps around is not in the table.

Main results:

- Theorem {lit}`jumpTable_right`: the blocks that are built select the case with the value.
-/

namespace Kcs

open List IntFormat
open Option hiding bind_assoc

/-! ## Relative values -/

section Relative

variable {sorted : List SwitchCase} {last : BlockId} {minv maxv x : Int}

theorem int32_add_int32 (a k : Int) : int32 (a + int32 k) = int32 (a + k) := by
  refine wrap_congr (f := .bits32 true) ?_
  rw [Int.add_emod, int32, wrap_emod_width, ← Int.add_emod]

theorem relative_inside (hdiff : maxv - minv < 2 ^ 31) (hlo : minv ≤ x) (hhi : x ≤ maxv) :
    int32 (x - minv) = x - minv :=
  int32_eq (by omega) (by omega)

theorem relative_outside (hmin : -2 ^ 31 ≤ minv) (hle : minv ≤ maxv) (hmax : maxv < 2 ^ 31)
    (hdiff : maxv - minv < 2 ^ 31) (hlo : -2 ^ 31 ≤ x) (hhi : x < 2 ^ 31)
    (hout : x < minv ∨ maxv < x) : int32 (x - minv) < 0 ∨ maxv - minv < int32 (x - minv) := by
  by_cases hover : 2 ^ 31 ≤ x - minv
  · rw [int32_overflow hover (by omega)]
    omega
  · by_cases hunder : x - minv < -2 ^ 31
    · rw [int32_underflow (by omega) hunder]
      omega
    · rw [int32_eq (by omega) (by omega)]
      omega

theorem Increasing.head_le (h : Increasing sorted) (hne : sorted ≠ []) :
    ∀ sc ∈ sorted, (sorted.head hne).int ≤ sc.int := by
  cases sorted with
  | nil => exact absurd rfl hne
  | cons p rest =>
    intro sc hsc
    rcases mem_cons.mp hsc with rfl | hmem
    · exact le_refl _
    · exact le_of_lt ((pairwise_cons.mp h).1 sc hmem)

theorem Increasing.le_getLast (h : Increasing sorted) (hne : sorted ≠ []) :
    ∀ sc ∈ sorted, sc.int ≤ (sorted.getLast hne).int := by
  induction sorted with
  | nil => exact absurd rfl hne
  | cons p rest ih =>
    intro sc hsc
    rw [Increasing, pairwise_cons] at h
    cases rest with
    | nil =>
      rw [mem_singleton] at hsc
      subst hsc
      exact le_refl _
    | cons n rest =>
      have hrest := ih h.2 (cons_ne_nil n rest)
      rw [getLast_cons (cons_ne_nil n rest)]
      rcases mem_cons.mp hsc with rfl | hmem
      · exact (le_of_lt (h.1 n mem_cons_self)).trans (hrest n mem_cons_self)
      · exact hrest sc hmem

theorem switchLabel_outside (h : Increasing sorted) (hne : sorted ≠ [])
    (hout : x < (sorted.head hne).int ∨ (sorted.getLast hne).int < x) :
    switchLabel sorted last x = last := by
  refine switchLabel_of_forall_ne fun sc hsc => ?_
  have hlo := h.head_le hne sc hsc
  have hhi := h.le_getLast hne sc hsc
  omega

theorem switchLabel_lt {N : Nat} (hlabels : ∀ sc ∈ sorted, sc.label < N) (hlast : last < N)
    (x : Int) : switchLabel sorted last x < N := by
  induction sorted with
  | nil => exact hlast
  | cons sc rest ih =>
    rw [forall_mem_cons] at hlabels
    rw [switchLabel_cons]
    split
    · exact hlabels.1
    · exact ih hlabels.2

theorem length_jumpTableEntries (h : Increasing sorted) (hne : sorted ≠ [])
    (hmin : minv = (sorted.head hne).int) (hmax : maxv = (sorted.getLast hne).int) :
    ((jumpTableEntries minv last minv sorted).length : Int) = maxv - minv + 1 := by
  have hle : minv ≤ maxv := by
    rw [hmin, hmax]
    exact h.head_le hne _ (getLast_mem hne)
  have hstart : ∀ sc ∈ sorted, minv ≤ sc.int := hmin ▸ h.head_le hne
  rw [jumpTableEntries_eq h hstart, tableEnd_eq minv sorted hne, entriesFrom, length_map,
    length_range, ← hmax]
  omega

theorem jumpTableEntries_getElem? (last : BlockId) (h : Increasing sorted) (hne : sorted ≠ [])
    (hmin : minv = (sorted.head hne).int) (hmax : maxv = (sorted.getLast hne).int)
    (hdiff : maxv - minv < 2 ^ 31) {k : Nat} (hk : (k : Int) ≤ maxv - minv) :
    (jumpTableEntries minv last minv sorted)[k]? =
      some { value := k, label := switchLabel sorted last (minv + k) } := by
  have hstart : ∀ sc ∈ sorted, minv ≤ sc.int := hmin ▸ h.head_le hne
  have hlt : k < (tableEnd minv sorted - minv).toNat := by
    rw [tableEnd_eq minv sorted hne, ← hmax]
    omega
  have hvalue : int32 (minv + k - minv) = k := by
    rw [add_sub_cancel_left]
    exact int32_eq (by omega) (by omega)
  rw [jumpTableEntries_eq h hstart, entriesFrom, getElem?_map, getElem?_range hlt,
    map_some, tableEntry, hvalue]

end Relative

/-! ## The checked value -/

/-- An operand of type `int` and its value. -/
structure HoldsInt (env : RunEnv) (n : Nat) (m : Memory) (v : Var) (x : Int) : Prop where
  standsFor : StandsFor env n m v (.int x)
  type : v.type.cInteger = some .int

theorem CType.Like.cInteger {t t' : CType} (h : t.Like t') : t.cInteger = t'.cInteger := by
  rw [CType.cInteger, CType.cInteger, h.typeOf, h.unsigned]

section Check

variable {env : RunEnv} {n : Nat} {s : EvalState} {m : Memory} {b : BlockId} {v : Var}
  {x a k minv maxv : Int}

theorem HoldsInt.inRange (h : HoldsInt env n m v x) : (CInteger.format .int).InRange x := by
  rcases h.standsFor.hasType with ⟨c, hword, hrange⟩
  rw [CType.wordType_of_cInteger h.type] at hword
  cases hword
  exact hrange

theorem HoldsInt.bounds (h : HoldsInt env n m v x) : -2 ^ 31 ≤ x ∧ x < 2 ^ 31 :=
  (inRange_signed_iff (f := .bits32 true) rfl x).mp h.inRange

theorem holdsInt_varInt (hx : (CInteger.format .int).InRange x) :
    HoldsInt env n m (varInt x) x :=
  ⟨(isInteger_varInt hx).standsFor plain_int, rfl⟩

variable [HostFloat] [LawfulHostFloat]

theorem sum_emits {o : CInteger.BinaryOp} (ho : o = .add ∨ o = .sub)
    (hv : HoldsInt env s.symbols.length m v a) (hk : (CInteger.format .int).InRange k)
    (hroom : Room env s.symbols.length) :
    Emits env b s m (do
        let e ← evalBinary (some b) (opType o) v (varInt k)
        eval (some b) e)
      fun w s' m' => HoldsInt env s'.symbols.length m' w
        (int32 (if o = .add then a + k else a - k)) := by
  have hright : HoldsInt env s.symbols.length m (varInt k) k := holdsInt_varInt hk
  have hcommon : CInteger.common .int .int = .int := by decide
  have hvalue : CInteger.binary o (CInteger.common .int .int)
      ((CInteger.common .int .int).convert a) ((CInteger.common .int .int).convert k) =
      some (int32 (if o = .add then a + k else a - k)) := by
    rw [hcommon, CInteger.convert_of_inRange hv.inRange, CInteger.convert_of_inRange hk]
    rcases ho with rfl | rfl
    · rfl
    · rfl
  have hsum := evalBinary_sum (b := b) ho hv.standsFor hright.standsFor hroom hv.type hright.type
  rw [hvalue] at hsum
  refine Emits.bind hsum fun e s' m' hle _ _ hcomputes => ?_
  refine Emits.mono (hcomputes.eval_emits (hroom.mono hle)) fun w s'' m'' hw => ⟨hw.1, ?_⟩
  rw [hw.2.cInteger, CType.cInteger_common hv.type hright.type, hcommon]

theorem jumpTableCheck_emits (hv : HoldsInt env s.symbols.length m v x) (hmin : -2 ^ 31 ≤ minv)
    (hmax : maxv < 2 ^ 31) (hle : minv ≤ maxv) (hdiff : maxv - minv < 2 ^ 31)
    (hroom : Room env s.symbols.length) :
    Emits env b s m (jumpTableCheck b v minv maxv) fun p s' m' =>
      HoldsInt env s'.symbols.length m' p.1 (int32 (x - minv)) ∧ p.2 = varInt (maxv - minv) := by
  have hwidth : int32 (maxv - minv) = maxv - minv := int32_eq (by omega) hdiff
  have hinRange : ∀ k : Int, (CInteger.format .int).InRange (int32 k) := fun k =>
    inRange_wrap k
  unfold jumpTableCheck
  by_cases hpos : minv > 0
  · rw [if_pos hpos, hwidth]
    have hk := hinRange minv
    rw [int32_eq hmin (by omega)] at hk
    have hsum := sum_emits (b := b) (Or.inr rfl) hv hk hroom
    rw [← bind_assoc]
    exact Emits.bind hsum fun w s' m' _ _ _ hw => Emits.pure ⟨hw, rfl⟩
  · rw [if_neg hpos]
    by_cases hneg : minv < 0
    · rw [if_pos hneg, hwidth]
      have hsum := sum_emits (b := b) (Or.inl rfl) hv (hinRange (-minv)) hroom
      -- The negation of the smallest `int` wraps around.
      have hvalue : int32 (x + int32 (-minv)) = int32 (x - minv) :=
        (int32_add_int32 x (-minv)).trans (by rw [← sub_eq_add_neg])
      rw [← bind_assoc]
      exact Emits.bind hsum fun w s' m' _ _ _ hw => Emits.pure ⟨hvalue ▸ hw, rfl⟩
    · have hzero : minv = 0 := by omega
      rw [if_neg hneg]
      have hx : int32 (x - minv) = x := by
        rw [hzero, sub_zero]
        exact hv.inRange
      refine Emits.pure ⟨hx.symm ▸ hv, ?_⟩
      rw [hzero, sub_zero]

end Check

/-! ## The three blocks -/

section Blocks

variable [HostFloat] {env : RunEnv} {R : Nat → Prop} {m0 : Memory} {g : Graph}
  {first : Nat} {b target : BlockId} {blk : Block} {v : Var} {x : Int}

theorem LeadsOut.table {pair : JumpPair} (hb : first ≤ b) (hblk : g[b]? = some blk)
    (hcode : blk.code = []) (hexpr : blk.expr = asExpr v) (htable : blk.hasJumpTable = true)
    (hvalue : Held env R m0 v x) (htype : v.type.cInteger = some .int) (hpos : 0 ≤ x)
    {n : Nat} (hn : ∀ id, n ≤ id → R id)
    (hentry : blk.jumpTable[x.toNat]? = some pair)
    (hnext : LeadsOut env R m0 g first pair.label target) :
    LeadsOut env R m0 g first b target := by
  intro m hm params trace
  have hholds : HoldsInt env n m v x := ⟨hvalue m hm n hn, htype⟩
  have hbounds := hholds.bounds
  have hraw : pureValue env m blk.expr = some x.toNat := by
    rw [hexpr, hholds.standsFor.pureValue_eq, encode, CType.wordType_of_cInteger htype,
      map_some, some.injEq]
    show (BitVec.ofInt 32 x).toNat = x.toNat
    rw [BitVec.toNat_ofInt]
    omega
  have hvalue : (irMachine env).value blk.expr { mem := m, params := params, trace := trace } =
      some (x.toNat, { mem := m, params := params, trace := trace }) := by
    have hop : blk.expr.op ≠ .call := by
      rw [hexpr]
      rintro ⟨⟩
    simp [irMachine, exprValue, hop, hraw]
  rcases hnext m hm params trace with ⟨m', hm', hrun⟩
  refine ⟨m', hm', .step hb ?_ hrun⟩
  simp only [blockStep, hblk, bind_some, hcode, execCode_nil, leaveBlock, htable, if_true,
    hvalue, hentry, map_some]

/-- What linking does after the value has been evaluated in a memory: code is added to the parent,
and three new blocks lead from the value to the case. -/
structure Dispatches (env : RunEnv) (s s' : EvalState) (parent last : BlockId)
    (sorted : List SwitchCase) (minv maxv : Int) (m : Memory) (x : Int) : Prop where
  table : ∃ blk, s'.blocks[s.blocks.length + 2]? = some blk ∧ blk.hasJumpTable = true ∧
    (blk.jumpTable.length : Int) = maxv - minv + 1 ∧
    ∀ k : Nat, (k : Int) ≤ maxv - minv → blk.jumpTable[k]? =
      some { value := k, label := switchLabel sorted last (minv + k) }
  run : ∃ blk code m1, s.blocks[parent]? = some blk ∧
    s'.blocks[parent]? =
      some { blk with code := blk.code ++ code, jump0 := some s.blocks.length } ∧
    (∀ params trace, execCode (irMachine env) code { mem := m, params := params, trace := trace } =
      some { mem := m1, params := params, trace := trace }) ∧
    AgreeBelow env s.symbols.length m m1 ∧
    ∀ params trace, ∃ m2, AgreeBelow env s.symbols.length m1 m2 ∧
      Through (irMachine env) s'.blocks s.blocks.length s.blocks.length
        { mem := m1, params := params, trace := trace } (switchLabel sorted last x)
        { mem := m2, params := params, trace := trace }
  old : ∀ c < s.blocks.length, c ≠ parent → s'.blocks[c]? = s.blocks[c]?

variable [LawfulHostFloat] {s : EvalState} {sorted : List SwitchCase} {parent last : BlockId}
  {m : Memory} {minv maxv : Int} {check : Var}

/-- The three blocks. -/
def linkTable (sorted : List SwitchCase) (last parent : BlockId) (minv : Int) (check maxval : Var) :
    EvalM Unit := do
  let comp1 ← cfgBlockInit
  let comp2 ← cfgBlockInit
  let jtbl ← cfgBlockInit
  setJump0 parent comp1
  setComparison comp1 .gt (varInt 0) check
  setJump0 comp1 comp2
  setJump1 comp1 last
  setComparison comp2 .gt check maxval
  setJump0 comp2 jtbl
  setJump1 comp2 last
  updateBlock jtbl fun blk =>
    { blk with expr := asExpr check, hasJumpTable := true,
               jumpTable := jumpTableEntries minv last minv sorted }

omit [HostFloat] [LawfulHostFloat] in
theorem cfgBlockInit_of_length {n : Nat} (h : s.blocks.length = n) :
    cfgBlockInit s = .ok (n, { s with blocks := s.blocks ++ [{}] }) := h ▸ rfl

omit [HostFloat] [LawfulHostFloat] in
theorem getElem?_threeBlocks (g : Graph) {k : Nat} (hk : k < 3) :
    (g ++ [({} : Block)] ++ [({} : Block)] ++ [({} : Block)])[g.length + k]? = some {} := by
  rw [append_assoc, append_assoc, getElem?_append_right (Nat.le_add_right _ _),
    Nat.add_sub_cancel_left]
  interval_cases k <;> rfl

omit [HostFloat] [LawfulHostFloat] in
theorem getElem?_before_threeBlocks {g : Graph} {c : Nat} (hc : c < g.length) :
    (g ++ [({} : Block)] ++ [({} : Block)] ++ [({} : Block)])[c]? = g[c]? := by
  rw [append_assoc, append_assoc, getElem?_append_left hc]

/-- Three empty blocks become two comparisons and a table. -/
theorem fillTable_spec (sorted : List SwitchCase) (last : BlockId) (minv : Int) {maxval : Var}
    {a d : Int} {p q r : Nat} (hpq : p ≠ q) (hpr : p ≠ r)
    (hqr : q ≠ r) (hp : s.blocks[p]? = some {}) (hq : s.blocks[q]? = some {})
    (hr : s.blocks[r]? = some {}) (hcheck : HoldsInt env s.symbols.length m check a)
    (hmaxval : HoldsInt env s.symbols.length m maxval d) (hroom : Room env s.symbols.length) :
    ∃ s' code1 e1 code2 e2, (do
        setComparison p .gt (varInt 0) check
        setJump0 p q
        setJump1 p last
        setComparison q .gt check maxval
        setJump0 q r
        setJump1 q last
        updateBlock r fun blk =>
          { blk with expr := asExpr check, hasJumpTable := true,
                     jumpTable := jumpTableEntries minv last minv sorted }) s = .ok ((), s') ∧
      s'.blocks[p]? = some
        { code := code1, expr := e1, jump0 := some q, jump1 := some last } ∧
      s'.blocks[q]? = some
        { code := code2, expr := e2, jump0 := some r, jump1 := some last } ∧
      s'.blocks[r]? = some
        { expr := asExpr check, hasJumpTable := true,
          jumpTable := jumpTableEntries minv last minv sorted } ∧
      (∀ c, c ≠ p → c ≠ q → c ≠ r → s'.blocks[c]? = s.blocks[c]?) ∧
      ComparesTo env (s.symbols.length ≤ ·) m code1 e1 (decide (a < 0)) ∧
      ComparesTo env (s.symbols.length ≤ ·) m code2 e2 (decide (d < a)) := by
  have hzero : HoldsInt env s.symbols.length m (varInt 0) 0 := holdsInt_varInt (by decide)
  -- The first comparison.
  rcases setComparison_spec (Or.inr rfl) hzero.standsFor.held hcheck.standsFor.held hzero.type
    hcheck.type hzero.inRange hcheck.inRange hroom (fun _ hid => hid) hp with
    ⟨s1, code1, e1, hok1, -, hsymbols1, hblocks1, hcmp1⟩
  replace hok1 : setComparison p .gt (varInt 0) check s = _ := hok1
  rw [bind_of_ok hok1, bind_of_ok (setJump0_eq p q s1), bind_of_ok (setJump1_eq p last _)]
  -- The second comparison.
  have hq1 : ((s1.blocks.modify p fun blk => { blk with jump0 := some q }).modify p
      fun blk => { blk with jump1 := some last })[q]? = some {} := by
    rw [getElem?_modify_of_ne hpq, getElem?_modify_of_ne hpq, hblocks1,
      getElem?_modify_of_ne hpq, hq]
  rcases setComparison_spec (Or.inr rfl) hcheck.standsFor.held hmaxval.standsFor.held hcheck.type
    hmaxval.type hcheck.inRange hmaxval.inRange 
    (s := { s1 with
      blocks := (s1.blocks.modify p fun blk => { blk with jump0 := some q }).modify p
        fun blk => { blk with jump1 := some last } })
    (hroom.mono hsymbols1) (fun _ hid => hsymbols1.trans hid) hq1 with
    ⟨s2, code2, e2, hok2, -, -, hblocks2, hcmp2⟩
  replace hok2 : setComparison q .gt check maxval _ = _ := hok2
  rw [bind_of_ok hok2, bind_of_ok (setJump0_eq q r s2), bind_of_ok (setJump1_eq q last _),
    updateBlock_eq]
  refine ⟨_, code1, e1, code2, e2, rfl, ?_, ?_, ?_, ?_, hcmp1, hcmp2⟩
  · have hp1 : s1.blocks[p]? = some { code := code1, expr := e1 } := by
      rw [hblocks1, getElem?_modify_self hp]
      rfl
    show (((s2.blocks.modify q _).modify q _).modify r _)[p]? = _
    rw [getElem?_modify_of_ne hpr.symm, getElem?_modify_of_ne hpq.symm,
      getElem?_modify_of_ne hpq.symm, hblocks2, getElem?_modify_of_ne hpq.symm]
    exact getElem?_modify_self (getElem?_modify_self hp1)
  · have hq2 : s2.blocks[q]? = some { code := code2, expr := e2 } := by
      rw [hblocks2, getElem?_modify_self hq1]
      rfl
    show (((s2.blocks.modify q _).modify q _).modify r _)[q]? = _
    rw [getElem?_modify_of_ne hqr.symm]
    exact getElem?_modify_self (getElem?_modify_self hq2)
  · have hr1 : s2.blocks[r]? = some {} := by
      rw [hblocks2, getElem?_modify_of_ne hqr]
      show ((s1.blocks.modify p _).modify p _)[r]? = _
      rw [getElem?_modify_of_ne hpr, getElem?_modify_of_ne hpr, hblocks1,
        getElem?_modify_of_ne hpr, hr]
    exact getElem?_modify_self
      ((getElem?_modify_of_ne hqr).trans ((getElem?_modify_of_ne hqr).trans hr1))
  · intro c hcp hcq hcr
    show (((s2.blocks.modify q _).modify q _).modify r _)[c]? = _
    rw [getElem?_modify_of_ne hcr.symm, getElem?_modify_of_ne hcq.symm,
      getElem?_modify_of_ne hcq.symm, hblocks2, getElem?_modify_of_ne hcq.symm]
    show ((s1.blocks.modify p _).modify p _)[c]? = _
    rw [getElem?_modify_of_ne hcp.symm, getElem?_modify_of_ne hcp.symm, hblocks1,
      getElem?_modify_of_ne hcp.symm]

theorem linkTable_blocks (sorted : List SwitchCase) (last : BlockId) (minv : Int) {maxval : Var}
    {a d : Int} (hlt : parent < s.blocks.length)
    (hcheck : HoldsInt env s.symbols.length m check a)
    (hmaxval : HoldsInt env s.symbols.length m maxval d) (hroom : Room env s.symbols.length) :
    ∃ s' code1 e1 code2 e2, linkTable sorted last parent minv check maxval s = .ok ((), s') ∧
      s'.blocks[s.blocks.length]? = some
        { code := code1, expr := e1, jump0 := some (s.blocks.length + 1), jump1 := some last } ∧
      s'.blocks[s.blocks.length + 1]? = some
        { code := code2, expr := e2, jump0 := some (s.blocks.length + 2), jump1 := some last } ∧
      s'.blocks[s.blocks.length + 2]? = some
        { expr := asExpr check, hasJumpTable := true,
          jumpTable := jumpTableEntries minv last minv sorted } ∧
      (∀ c < s.blocks.length, s'.blocks[c]? = (s.blocks.modify parent fun blk =>
        { blk with jump0 := some s.blocks.length })[c]?) ∧
      ComparesTo env (s.symbols.length ≤ ·) m code1 e1 (decide (a < 0)) ∧
      ComparesTo env (s.symbols.length ≤ ·) m code2 e2 (decide (d < a)) := by
  have hne : ∀ k, parent ≠ s.blocks.length + k := fun k =>
    Nat.ne_of_lt (Nat.lt_add_right k hlt)
  have h1 : (s.blocks ++ [({} : Block)]).length = s.blocks.length + 1 := length_append
  have h2 : (s.blocks ++ [({} : Block)] ++ [({} : Block)]).length = s.blocks.length + 2 := by
    rw [length_append, h1]
    rfl
  rw [linkTable, bind_of_ok (cfgBlockInit_eq s), bind_of_ok (cfgBlockInit_of_length h1),
    bind_of_ok (cfgBlockInit_of_length h2), bind_of_ok (setJump0_eq parent s.blocks.length _)]
  have hempty : ∀ k < 3, ((s.blocks ++ [({} : Block)] ++ [({} : Block)] ++ [({} : Block)]).modify
      parent fun blk => { blk with jump0 := some s.blocks.length })[s.blocks.length + k]? =
      some {} := fun k hk =>
    (getElem?_modify_of_ne (hne k)).trans (getElem?_threeBlocks s.blocks hk)
  rcases fillTable_spec sorted last minv
    (s := { s with blocks := (s.blocks ++ [({} : Block)] ++ [({} : Block)] ++
      [({} : Block)]).modify parent fun blk => { blk with jump0 := some s.blocks.length } })
    (by omega) (by omega) (by omega) (hempty 0 (by omega)) (hempty 1 (by omega))
    (hempty 2 (by omega)) hcheck hmaxval hroom with
    ⟨s', code1, e1, code2, e2, hok, hp, hq, hr, hold, hcmp1, hcmp2⟩
  refine ⟨s', code1, e1, code2, e2, hok, hp, hq, hr, fun c hc => ?_, hcmp1, hcmp2⟩
  rw [hold c (by omega) (by omega) (by omega)]
  show ((s.blocks ++ _ ++ _ ++ _).modify parent _)[c]? = _
  rw [getElem?_modify, getElem?_modify, getElem?_before_threeBlocks hc]

/-- The three blocks select the case. -/
theorem linkTable_spec (last : BlockId) (hne : sorted ≠ []) (h : Increasing sorted)
    (hmin : minv = (sorted.head hne).int) (hmax : maxv = (sorted.getLast hne).int)
    (hdiff : maxv - minv < 2 ^ 31) (hx : -2 ^ 31 ≤ x ∧ x < 2 ^ 31)
    (hlabels : ∀ sc ∈ sorted, sc.label < s.blocks.length) (hlast : last < s.blocks.length)
    (hlt : parent < s.blocks.length)
    (hcheck : HoldsInt env s.symbols.length m check (int32 (x - minv)))
    (hroom : Room env s.symbols.length) :
    ∃ s', linkTable sorted last parent minv check (varInt (maxv - minv)) s = .ok ((), s') ∧
      (∃ jtbl, s'.blocks[s.blocks.length + 2]? = some jtbl ∧ jtbl.hasJumpTable = true ∧
        jtbl.jumpTable = jumpTableEntries minv last minv sorted) ∧
      (∀ c < s.blocks.length, s'.blocks[c]? = (s.blocks.modify parent fun blk =>
        { blk with jump0 := some s.blocks.length })[c]?) ∧
      LeadsOut env (s.symbols.length ≤ ·) m s'.blocks s.blocks.length s.blocks.length
        (switchLabel sorted last x) := by
  have hminb := (sorted.head hne).int_bounds
  have hmaxb := (sorted.getLast hne).int_bounds
  have hle : minv ≤ maxv := by
    rw [hmin, hmax]
    exact h.head_le hne _ (getLast_mem hne)
  have hwidth : (CInteger.format .int).InRange (maxv - minv) :=
    (inRange_signed_iff (f := .bits32 true) rfl _).mpr
      ⟨by show -2 ^ 31 ≤ _; omega, hdiff⟩
  rcases linkTable_blocks sorted last minv hlt hcheck
    (holdsInt_varInt hwidth) hroom with
    ⟨s', code1, e1, code2, e2, hok, h1, h2, h3, hold, hcmp1, hcmp2⟩
  refine ⟨s', hok, ⟨_, h3, rfl, rfl⟩, hold, ?_⟩
  -- Values outside of the table go to the last block, by one of the comparisons.
  refine LeadsOut.branch (le_refl _) h1 rfl rfl rfl hcmp1 ?_
  by_cases hneg : int32 (x - minv) < 0
  · have hout : x < minv ∨ maxv < x := by
      by_contra hin
      have hinside := relative_inside (x := x) hdiff (by omega) (by omega)
      omega
    rw [decide_eq_true hneg, if_pos rfl, switchLabel_outside h hne (hmin ▸ hmax ▸ hout)]
    exact LeadsOut.stop hlast
  rw [decide_eq_false hneg, if_neg Bool.false_ne_true]
  refine LeadsOut.branch (Nat.le_succ _) h2 rfl rfl rfl hcmp2 ?_
  by_cases hgt : maxv - minv < int32 (x - minv)
  · have hout : x < minv ∨ maxv < x := by
      by_contra hin
      have hinside := relative_inside (x := x) hdiff (by omega) (by omega)
      omega
    rw [decide_eq_true hgt, if_pos rfl, switchLabel_outside h hne (hmin ▸ hmax ▸ hout)]
    exact LeadsOut.stop hlast
  rw [decide_eq_false hgt, if_neg Bool.false_ne_true]
  have hin : minv ≤ x ∧ x ≤ maxv := by
    by_contra hno
    have hout := relative_outside (x := x) (by omega) hle (by omega) hdiff hx.1 hx.2 (by omega)
    omega
  have hinside := relative_inside hdiff hin.1 hin.2
  have hentry := jumpTableEntries_getElem? last h hne hmin hmax hdiff
    (k := (int32 (x - minv)).toNat) (by omega)
  have hindex : minv + ((int32 (x - minv)).toNat : Int) = x := by omega
  rw [hindex] at hentry
  refine LeadsOut.table (Nat.le_add_right _ _) h3 rfl rfl rfl hcheck.standsFor.held hcheck.type
    (not_lt.mp hneg) (fun _ hid => hid) hentry (LeadsOut.stop ?_)
  exact switchLabel_lt hlabels hlast x

end Blocks

/-! ## Example -/

/-- A `switch` over eleven in the last of four blocks. -/
def elevenState : EvalState := { blocks := [{}, {}, {}, { expr := asExpr (varInt 11) }] }

end Kcs
