import Kcs.Optimizer.Liveness

/-!
# Iteration of the liveness analysis

The passes over all blocks come to rest when every symbol that passes through a block, of those
that its children need, is in the set before it.  This holds at the start, when all sets are empty,
and after a rewriting that lets no other symbols pass.

Main results:

- Theorem {lit}`executeIterativeDataflow_isSome`: the passes come to rest.
- Theorem {lit}`Consistent.sound`: the sets contain all symbols that a path can read.
-/

namespace Kcs

open Option List Function

variable (env : LiveEnv) {g g' : LiveGraph} {b c : BlockId} {l : List BlockId} {blk : LiveBlock}
  {k : Fin 64}

/-! ## Passes over the blocks -/

/-- The blocks without liveness. -/
def programOf (g : LiveGraph) : Graph := g.map (·.toBlock)

/-- The sets before all blocks. -/
def liveSets (g : LiveGraph) (b : BlockId) : Set (Fin 64) := bitSet (liveInOf g b)

section

variable (hblk : g[b]? = some blk)
include hblk

theorem getElem?_program : (programOf g)[b]? = some blk.toBlock := by
  rw [programOf, getElem?_map, hblk, map_some]

theorem liveInOf_of_getElem? : liveInOf g b = blk.liveIn := by
  rw [liveInOf, hblk, elim_some]

theorem liveVariableAnalysis_eq :
    liveVariableAnalysis env g b = (g.set b (analyseBlock env (liveInOf g) blk),
      if blk.liveIn = (analyseBlock env (liveInOf g) blk).liveIn then 0 else 1) := by
  simp only [liveVariableAnalysis, hblk]

theorem program_analysis :
    programOf (g.set b (analyseBlock env (liveInOf g) blk)) = programOf g := by
  apply ext_getElem?
  intro c
  rw [programOf, programOf, getElem?_map, getElem?_map, getElem?_set]
  by_cases hbc : b = c
  · subst hbc
    rw [if_pos rfl, if_pos (List.getElem?_eq_some_iff.mp hblk).1, hblk, map_some,
      map_some, toBlock_analyseBlock]
  · rw [if_neg hbc]

theorem liveSets_analysis :
    liveSets (g.set b (analyseBlock env (liveInOf g) blk)) =
      Function.update (liveSets g) b (transfer env (programOf g) b (liveSets g)) := by
  funext c
  by_cases hcb : c = b
  · subst hcb
    have hnew : (g.set c (analyseBlock env (liveInOf g) blk))[c]? =
        some (analyseBlock env (liveInOf g) blk) := by
      rw [getElem?_set_self (List.getElem?_eq_some_iff.mp hblk).1]
    rw [update_self, liveSets, liveInOf_of_getElem? hnew]
    exact bitSet_analyseBlock (liveInOf g) (getElem?_program hblk)
  · rw [update_of_ne hcb, liveSets, liveSets, liveInOf, liveInOf, getElem?_set_ne (Ne.symm hcb)]

end

theorem traverse_analysis (hl : ∀ b ∈ l, b < g.length) :
    programOf (traverseBlocks (liveVariableAnalysis env) l g).1 = programOf g ∧
    liveSets (traverseBlocks (liveVariableAnalysis env) l g).1 =
      sweep (transfer env (programOf g)) l (liveSets g) := by
  induction l generalizing g with
  | nil => exact ⟨rfl, rfl⟩
  | cons b l ih =>
    rw [forall_mem_cons] at hl
    have hblk : g[b]? = some (g.get ⟨b, hl.1⟩) := getElem?_eq_getElem hl.1
    rw [traverseBlocks, liveVariableAnalysis_eq env hblk]
    have hprogram := program_analysis env hblk
    rcases ih (g := g.set b (analyseBlock env (liveInOf g) (g.get ⟨b, hl.1⟩)))
      (by rw [length_set]; exact hl.2) with ⟨hrest, hsets⟩
    refine ⟨hrest.trans hprogram, ?_⟩
    rw [hprogram, liveSets_analysis env hblk] at hsets
    exact hsets

theorem traverse_analysis_zero (hnodup : l.Nodup) (hl : ∀ b ∈ l, b < g.length)
    (hfixed : sweep (transfer env (programOf g)) l (liveSets g) = liveSets g) :
    (traverseBlocks (liveVariableAnalysis env) l g).2 = 0 := by
  induction l generalizing g with
  | nil => rfl
  | cons b l ih =>
    rw [forall_mem_cons] at hl
    rw [nodup_cons] at hnodup
    have hblk : g[b]? = some (g.get ⟨b, hl.1⟩) := getElem?_eq_getElem hl.1
    -- The set before the first block is not changed later.
    have hself : transfer env (programOf g) b (liveSets g) = liveSets g b := by
      have hb := congrFun hfixed b
      rw [sweep, sweep_of_not_mem hnodup.1, update_self] at hb
      exact hb
    have hsets : liveSets (g.set b (analyseBlock env (liveInOf g) (g.get ⟨b, hl.1⟩))) =
        liveSets g := by
      rw [liveSets_analysis env hblk, hself, update_eq_self]
    have hsame : (g.get ⟨b, hl.1⟩).liveIn =
        (analyseBlock env (liveInOf g) (g.get ⟨b, hl.1⟩)).liveIn := by
      apply bitSet_injective
      rw [bitSet_analyseBlock (liveInOf g) (getElem?_program hblk)]
      refine Eq.trans ?_ hself.symm
      rw [liveSets, liveInOf_of_getElem? hblk]
    have hprogram := program_analysis env hblk
    have hrest := ih (g := g.set b (analyseBlock env (liveInOf g) (g.get ⟨b, hl.1⟩))) hnodup.2
      (by rw [length_set]; exact hl.2) (by
        rw [hprogram, hsets]
        rw [sweep, hself, update_eq_self] at hfixed
        exact hfixed)
    rw [traverseBlocks, liveVariableAnalysis_eq env hblk, if_pos hsame]
    show 0 + _ = 0
    rw [hrest]

theorem length_traverse_analysis (hl : ∀ b ∈ l, b < g.length) :
    (traverseBlocks (liveVariableAnalysis env) l g).1.length = g.length := by
  have h := congrArg List.length (traverse_analysis env hl).1
  rwa [programOf, programOf, length_map, length_map] at h

/-- Symbols that pass through a block are in the set before it. -/
def PassesThrough (l : List BlockId) (g : LiveGraph) : Prop :=
  ∀ b ∈ l, passes env (programOf g) b (liveSets g) ≤ liveSets g b

/-- The passes come to rest. -/
theorem executeIterativeDataflow_isSome (hnodup : l.Nodup) (hl : ∀ b ∈ l, b < g.length)
    (hpasses : PassesThrough env l g) :
    ∃ fuel g', executeIterativeDataflow env l fuel g = some g' := by
  have hstable : ∃ n, sweep (transfer env (programOf g)) l
      ((sweep (transfer env (programOf g)) l)^[n] (liveSets g)) =
        (sweep (transfer env (programOf g)) l)^[n] (liveSets g) := by
    have hbot : liveSets g = liveSets g ⊔ ⊥ := (sup_bot_eq _).symm
    rw [hbot]
    exact exists_stable_of_sup (transfer_sup (programOf g)) (passes_mono (programOf g))
      (transfer_mono (programOf g)) hpasses fun _ _ => bot_le
  rcases hstable with ⟨n, hn⟩
  clear hpasses
  induction n generalizing g with
  | zero =>
    refine ⟨1, (traverseBlocks (liveVariableAnalysis env) l g).1, ?_⟩
    rw [executeIterativeDataflow]
    simp only [traverse_analysis_zero env hnodup hl hn, if_true]
  | succ n ih =>
    by_cases hzero : (traverseBlocks (liveVariableAnalysis env) l g).2 = 0
    · refine ⟨1, (traverseBlocks (liveVariableAnalysis env) l g).1, ?_⟩
      rw [executeIterativeDataflow]
      simp only [hzero, if_true]
    · rcases traverse_analysis env hl with ⟨hprogram, hsets⟩
      have hlength := length_traverse_analysis env hl
      rcases ih (g := (traverseBlocks (liveVariableAnalysis env) l g).1) (hlength.symm ▸ hl) (by
        rw [hprogram, hsets, ← iterate_succ_apply]
        exact hn) with ⟨fuel, g', h⟩
      refine ⟨fuel + 1, g', ?_⟩
      rw [executeIterativeDataflow]
      simp only [hzero, if_false]
      exact h

/-! ## Consistent sets -/

/-- The analysis of each block gives the sets that are there. -/
def Consistent (l : List BlockId) (g : LiveGraph) : Prop :=
  ∀ b ∈ l, ∀ blk, g[b]? = some blk → analyseBlock env (liveInOf g) blk = blk

theorem scanCode_idem (code : List LiveStatement) (o : BitVec 64) :
    scanCode env (scanCode env code o).1 o = scanCode env code o := by
  induction code with
  | nil => rfl
  | cons s code ih =>
    simp only [scanCode, ih]

theorem analyseBlock_idem (x : BlockId → BitVec 64) (blk : LiveBlock) :
    analyseBlock env x (analyseBlock env x blk) = analyseBlock env x blk := by
  have hbranch : branchUse env (analyseBlock env x blk).toBlock = branchUse env blk.toBlock := by
    rw [toBlock_analyseBlock]
  show ({ analyseBlock env x blk with
    code := (scanCode env (analyseBlock env x blk).code
      (childrenIn x blk ||| branchUse env (analyseBlock env x blk).toBlock)).1
    liveIn := (scanCode env (analyseBlock env x blk).code
      (childrenIn x blk ||| branchUse env (analyseBlock env x blk).toBlock)).2
    out := childrenIn x blk } : LiveBlock) = _
  rw [hbranch]
  have hscan := scanCode_idem env blk.code (childrenIn x blk ||| branchUse env blk.toBlock)
  simp only [analyseBlock, hscan]

theorem traverse_analysis_consistent {d : List BlockId} (hl : ∀ b ∈ l, b < g.length)
    (hd : Consistent env d g) (hzero : (traverseBlocks (liveVariableAnalysis env) l g).2 = 0) :
    Consistent env (d ++ l) (traverseBlocks (liveVariableAnalysis env) l g).1 := by
  induction l generalizing g d with
  | nil =>
    rw [append_nil]
    exact hd
  | cons b l ih =>
    rw [forall_mem_cons] at hl
    have hblk : g[b]? = some (g.get ⟨b, hl.1⟩) := getElem?_eq_getElem hl.1
    rw [traverseBlocks, liveVariableAnalysis_eq env hblk] at hzero ⊢
    replace hzero := Nat.add_eq_zero_iff.mp hzero
    have hsame : (g.get ⟨b, hl.1⟩).liveIn =
        (analyseBlock env (liveInOf g) (g.get ⟨b, hl.1⟩)).liveIn := by
      by_contra hne
      have hone := hzero.1
      rw [if_neg hne] at hone
      omega
    have hins : liveInOf (g.set b (analyseBlock env (liveInOf g) (g.get ⟨b, hl.1⟩))) =
        liveInOf g := by
      funext c
      by_cases hcb : c = b
      · subst hcb
        rw [liveInOf_of_getElem? (getElem?_set_self hl.1), liveInOf_of_getElem? hblk, hsame]
      · rw [liveInOf, liveInOf, getElem?_set_ne (Ne.symm hcb)]
    have hd' : Consistent env (d ++ [b])
        (g.set b (analyseBlock env (liveInOf g) (g.get ⟨b, hl.1⟩))) := by
      intro c hc blk hblk'
      rw [hins]
      by_cases hcb : c = b
      · subst hcb
        rw [getElem?_set_self hl.1, some.injEq] at hblk'
        rw [← hblk', analyseBlock_idem]
      · rw [getElem?_set_ne (Ne.symm hcb)] at hblk'
        rcases mem_append.mp hc with hc | hc
        · exact hd c hc blk hblk'
        · exact absurd (mem_singleton.mp hc) hcb
    have hrest := ih (by rw [length_set]; exact hl.2) hd' hzero.2
    rwa [append_assoc, singleton_append] at hrest

theorem executeIterativeDataflow_consistent {fuel : Nat} (hl : ∀ b ∈ l, b < g.length)
    (h : executeIterativeDataflow env l fuel g = some g') :
    programOf g' = programOf g ∧ Consistent env l g' := by
  induction fuel generalizing g with
  | zero => cases h
  | succ fuel ih =>
    rw [executeIterativeDataflow] at h
    by_cases hzero : (traverseBlocks (liveVariableAnalysis env) l g).2 = 0
    · simp only [hzero, if_true, some.injEq] at h
      subst h
      have hconsistent := traverse_analysis_consistent env (d := []) hl
        (fun _ hb => nomatch hb) hzero
      exact ⟨(traverse_analysis env hl).1, hconsistent⟩
    · simp only [hzero, if_false] at h
      have hlength := length_traverse_analysis env hl
      rcases ih (hlength.symm ▸ hl) h with ⟨hprogram, hconsistent⟩
      exact ⟨hprogram.trans (traverse_analysis env hl).1, hconsistent⟩

/-! ## Soundness -/

/-- Some path from a place in a block reaches a use of a symbol before a definition of it.  The
place is given by the statements that follow. -/
inductive LiveBefore (program : Graph) (k : Fin 64) : BlockId → List Statement → Prop
  | use {b : BlockId} {s : Statement} {rest : List Statement} (huse : k ∈ bitSet (uses env s)) :
      LiveBefore program k b (s :: rest)
  | skip {b : BlockId} {s : Statement} {rest : List Statement} (hdef : k ∉ bitSet (defs env s))
      (hrest : LiveBefore program k b rest) : LiveBefore program k b (s :: rest)
  | branch {b : BlockId} {blk : Block} (hblk : program[b]? = some blk)
      (huse : k ∈ bitSet (branchUse env blk)) : LiveBefore program k b []
  | jump {b c : BlockId} {blk blk' : Block} (hblk : program[b]? = some blk) (hc : c ∈ blk.edges)
      (hblk' : program[c]? = some blk') (hrest : LiveBefore program k c blk'.code) :
      LiveBefore program k b []

/-- Some path from the end of a block reaches a use of a symbol before a definition of it. -/
def LiveAfter (program : Graph) (k : Fin 64) (b : BlockId) : Prop :=
  ∃ blk c blk', program[b]? = some blk ∧ c ∈ blk.edges ∧ program[c]? = some blk' ∧
    LiveBefore env program k c blk'.code

/-- The set behind each block contains all symbols that a path from its end can read. -/
def SoundSets (l : List BlockId) (g : LiveGraph) : Prop :=
  ∀ b ∈ l, ∀ blk, g[b]? = some blk → ∀ k, LiveAfter env (programOf g) k b → k ∈ bitSet blk.out

variable {env}

theorem Consistent.out_eq (h : Consistent env l g) (hb : b ∈ l) (hblk : g[b]? = some blk) :
    blk.out = childrenIn (liveInOf g) blk :=
  (congrArg LiveBlock.out (h b hb blk hblk)).symm

theorem Consistent.mem_liveIn_iff (h : Consistent env l g) (hb : b ∈ l)
    (hblk : g[b]? = some blk) : k ∈ bitSet blk.liveIn ↔
      k ∈ usedFirst env blk.toBlock.code ∨ (k ∉ killed env blk.toBlock.code ∧
        (k ∈ bitSet blk.out ∨ k ∈ bitSet (branchUse env blk.toBlock))) := by
  have hin : blk.liveIn = (scanCode env blk.code
      (childrenIn (liveInOf g) blk ||| branchUse env blk.toBlock)).2 :=
    (congrArg LiveBlock.liveIn (h b hb blk hblk)).symm
  rw [hin, mem_codeIn_iff, mem_bitSet_or, h.out_eq hb hblk]
  rfl

theorem getElem?_of_program {old : Block} (h : (programOf g)[b]? = some old) :
    ∃ blk, g[b]? = some blk ∧ blk.toBlock = old := by
  rw [programOf, getElem?_map, map_eq_some_iff] at h
  exact h

/-- Jumps of listed blocks lead to listed blocks. -/
def ClosedList (l : List BlockId) (program : Graph) : Prop :=
  ∀ b ∈ l, ∀ blk, program[b]? = some blk → ∀ c ∈ blk.edges, c ∈ l

theorem Consistent.mem_of_liveBefore (h : Consistent env l g)
    (hclosed : ClosedList l (programOf g)) {stmts : List Statement}
    (hlive : LiveBefore env (programOf g) k b stmts) (hb : b ∈ l) (hblk : g[b]? = some blk) :
    k ∈ usedFirst env stmts ∨ (k ∉ killed env stmts ∧
      (k ∈ bitSet blk.out ∨ k ∈ bitSet (branchUse env blk.toBlock))) := by
  induction hlive generalizing blk with
  | use huse => exact Or.inl (Or.inl huse)
  | skip hdef _ ih =>
    rcases ih hb hblk with hused | ⟨hkill, hend⟩
    · exact Or.inl (Or.inr ⟨hdef, hused⟩)
    · refine Or.inr ⟨?_, hend⟩
      rw [mem_killed_cons, not_or]
      exact ⟨hdef, hkill⟩
  | branch hold huse =>
    rw [getElem?_program hblk, some.injEq] at hold
    subst hold
    exact Or.inr ⟨by simp [killed], Or.inr huse⟩
  | @jump b c old old' hold hc hold' _ ih =>
    have hcl := hclosed b hb old hold c hc
    rw [getElem?_program hblk, some.injEq] at hold
    subst hold
    rcases getElem?_of_program hold' with ⟨blk', hblk', rfl⟩
    have hin := (h.mem_liveIn_iff hcl hblk').mpr (ih hcl hblk')
    refine Or.inr ⟨by simp [killed], Or.inl ?_⟩
    rw [h.out_eq hb hblk, mem_childrenIn_iff]
    exact ⟨c, hc, by rwa [liveInOf_of_getElem? hblk']⟩

/-- Consistent sets are sound. -/
theorem Consistent.sound (h : Consistent env l g) (hclosed : ClosedList l (programOf g)) :
    SoundSets env l g := by
  rintro b hb blk hblk k ⟨old, c, old', hold, hc, hold', hlive⟩
  have hcl := hclosed b hb old hold c hc
  rw [getElem?_program hblk, some.injEq] at hold
  subst hold
  rcases getElem?_of_program hold' with ⟨blk', hblk', rfl⟩
  have hin := (h.mem_liveIn_iff hcl hblk').mpr (h.mem_of_liveBefore hclosed hlive hcl hblk')
  rw [h.out_eq hb hblk, mem_childrenIn_iff]
  exact ⟨c, hc, by rwa [liveInOf_of_getElem? hblk']⟩

end Kcs
