import Kcs.Optimizer.Iterate

/-!
# Rewriting with liveness

Assignments to symbols that are not read any more are removed, and an assignment that only passes
the value of the one before it on is merged with it.  Both leave the liveness sets as they were, and
the analysis is started again from them.

Main results:

- Theorem {lit}`analysis_right`: the analysis ends with sound sets at first and after each
  rewriting.
-/

namespace Kcs

open Option List

section Definitions

variable (env : LiveEnv)

/-- `is_live_after`, with optimization turned on. -/
def isLiveAfter (sym : Symbol) (st : LiveStatement) : Bool :=
  if sym.type.isObject then decide (st.out &&& symbolBit env sym ≠ 0) else true

/-- The test of `dead_store_elimination`. -/
def isDeadStore (st : LiveStatement) : Bool :=
  st.st = .assign && st.t.kind = .direct &&
    st.t.symbol.any fun sym => !isLiveAfter env sym st && sym.linkage = .none

/-- `dead_store_elimination` on the code of a block: what is left, and the number of changes. -/
def eliminateDeadStores : List LiveStatement → List LiveStatement × Nat
  | [] => ([], 0)
  | st :: rest =>
    let (rest', c) := eliminateDeadStores rest
    if isDeadStore env st then
      if st.expr.hasSideEffects then ({ st with st := .expr } :: rest', c + 1)
      else (rest', c + 1)
    else (st :: rest', c)

/-- `dead_store_elimination` -/
def deadStoreElimination (g : LiveGraph) (b : BlockId) : LiveGraph × Nat :=
  (g.modify b fun blk => { blk with code := (eliminateDeadStores env blk.code).1 },
    (g[b]?).elim 0 fun blk => (eliminateDeadStores env blk.code).2)

/-- `var_equal` -/
def varEqual (a b : Var) : Bool :=
  typeEqual env.types a.type b.type = some true &&
    a.symbol.map (·.id) = b.symbol.map (·.id) && a.kind = b.kind &&
    a.fieldWidth = b.fieldWidth && a.fieldOffset = b.fieldOffset && a.offset = b.offset

/-- `is_identity` -/
def Expression.isIdentityIn (types : TypeTable) (e : Expression) : Bool :=
  e.op = .cast && typeEqual types e.type e.l.type = some true

/-- `can_merge` -/
def canMerge (s1 s2 : LiveStatement) : Bool :=
  s1.st = .assign && s2.st = .assign && s2.expr.isIdentityIn env.types &&
    varEqual env s1.t s2.expr.l && typeEqual env.types s1.t.type s2.t.type = some true &&
    s1.t.kind = .direct &&
    s1.t.symbol.any fun sym => sym.linkage = .none && !isLiveAfter env sym s2

/-- The loop of `merge_chained_assignment`, from a statement on. -/
def mergeChained (s1 : LiveStatement) : List LiveStatement → List LiveStatement
  | [] => [s1]
  | s2 :: rest =>
    if canMerge env s1 s2 then mergeChained { s1 with t := s2.t } rest
    else s1 :: mergeChained s2 rest

/-- `merge_chained_assignment` on the code of a block. -/
def mergeCode : List LiveStatement → List LiveStatement
  | [] => []
  | s1 :: rest => mergeChained env s1 rest

/-- `merge_chained_assignment`, which never reports a change. -/
def mergeChainedAssignment (g : LiveGraph) (b : BlockId) : LiveGraph × Nat :=
  (g.modify b fun blk => { blk with code := mergeCode env blk.code }, 0)

end Definitions

/-! ## Symbols that pass through code -/

section Flow

variable {env : LiveEnv} {code rest : List LiveStatement} {s s1 s2 : LiveStatement}
  {before before' behind : Set (Fin 64)} {k : Fin 64}

/-- The sets of the statements of a block fit together: what a statement does not define is in the
set before it. -/
def Flow (env : LiveEnv) (behind : Set (Fin 64)) : List LiveStatement → Set (Fin 64) → Prop
  | [], before => behind ⊆ before
  | s :: rest, before =>
    (∀ k ∈ bitSet s.out, k ∉ bitSet (defs env s.toStatement) → k ∈ before) ∧
      Flow env behind rest (bitSet s.out)

/-- What the code does not define is in the set before it. -/
def Survives (env : LiveEnv) (behind : Set (Fin 64)) (code : List LiveStatement)
    (before : Set (Fin 64)) : Prop :=
  ∀ k ∈ behind, k ∉ killed env (code.map (·.toStatement)) → k ∈ before

theorem Flow.mono (h : Flow env behind code before) (hsub : before ⊆ before') :
    Flow env behind code before' := by
  cases code with
  | nil => exact Set.Subset.trans h hsub
  | cons s rest => exact ⟨fun k hk hdef => hsub (h.1 k hk hdef), h.2⟩

theorem Flow.survives (h : Flow env behind code before) : Survives env behind code before := by
  induction code generalizing before with
  | nil => exact fun k hk _ => h hk
  | cons s rest ih =>
    intro k hk hkill
    rw [map_cons, mem_killed_cons, not_or] at hkill
    exact h.1 k (ih h.2 k hk hkill.2) hkill.1

theorem flow_scanCode (code : List LiveStatement) {o : BitVec 64} (hsub : behind ⊆ bitSet o) :
    Flow env behind (scanCode env code o).1 (bitSet (scanCode env code o).2) := by
  induction code with
  | nil => exact hsub
  | cons s code ih =>
    refine ⟨fun k hk hdef => ?_, ih⟩
    show k ∈ bitSet (((scanCode env code o).2 &&& ~~~defs env s.toStatement) |||
      uses env s.toStatement)
    rw [mem_bitSet_or, mem_bitSet_and_not]
    exact Or.inl ⟨hk, hdef⟩

theorem not_mem_of_not_isLiveAfter {sym : Symbol} (h : isLiveAfter env sym s = false)
    (hk : k ∈ bitSet (symbolBit env sym)) : k ∉ bitSet s.out := by
  unfold isLiveAfter at h
  split at h
  · rw [decide_eq_false_iff_not, not_not] at h
    intro hout
    have hboth : k ∈ bitSet (s.out &&& symbolBit env sym) := by
      simp only [bitSet, Set.mem_ofPred_eq, BitVec.getLsbD_and, Bool.and_eq_true] at hk hout ⊢
      exact ⟨hout, hk⟩
    rw [h] at hboth
    exact not_mem_bitSet_zero hboth
  · cases h

theorem mem_defs_of_direct {sym : Symbol} (hsym : s.t.symbol = some sym)
    (hk : k ∈ bitSet (defs env s.toStatement)) : k ∈ bitSet (symbolBit env sym) := by
  unfold defs at hk
  split at hk
  · unfold setDefBit at hk
    split at hk
    · rename_i sym' _ hsym'
      rw [hsym, some.injEq] at hsym'
      subst hsym'
      split at hk
      · exact hk
      · exact absurd hk not_mem_bitSet_zero
    · exact absurd hk not_mem_bitSet_zero
  · exact absurd hk not_mem_bitSet_zero

theorem not_mem_defs_of_isDeadStore (h : isDeadStore env s = true) (hk : k ∈ bitSet s.out) :
    k ∉ bitSet (defs env s.toStatement) := by
  simp only [isDeadStore, Bool.and_eq_true, Option.any_eq_true, Bool.not_eq_true'] at h
  rcases h.2 with ⟨sym, hsym, hlive, -⟩
  exact fun hdef => not_mem_of_not_isLiveAfter hlive (mem_defs_of_direct hsym hdef) hk

theorem Flow.deadStoreElimination (h : Flow env behind code before) :
    Flow env behind (eliminateDeadStores env code).1 before := by
  induction code generalizing before with
  | nil => exact h
  | cons s rest ih =>
    have hrest := ih h.2
    by_cases hdead : isDeadStore env s = true
    · have hsub : bitSet s.out ⊆ before := fun k hk =>
        h.1 k hk (not_mem_defs_of_isDeadStore hdead hk)
      by_cases hside : s.expr.hasSideEffects = true
      · simp only [eliminateDeadStores, hdead, hside, if_true]
        exact ⟨fun k hk _ => hsub hk, hrest⟩
      · simp only [eliminateDeadStores, hdead, hside, if_true, Bool.false_eq_true, if_false]
        exact hrest.mono hsub
    · simp only [eliminateDeadStores, hdead, Bool.false_eq_true, if_false]
      exact ⟨h.1, hrest⟩

theorem defs_merge (h : canMerge env s1 s2 = true) :
    defs env ({ s1 with t := s2.t } : LiveStatement).toStatement = defs env s2.toStatement := by
  simp only [canMerge, Bool.and_eq_true, decide_eq_true_eq] at h
  have h1 : s1.st = .assign := h.1.1.1.1.1.1
  have h2 : s2.st = .assign := h.1.1.1.1.1.2
  simp only [defs, h1, h2]

theorem not_mem_defs_of_canMerge (h : canMerge env s1 s2 = true) (hk : k ∈ bitSet s2.out) :
    k ∉ bitSet (defs env s1.toStatement) := by
  simp only [canMerge, Bool.and_eq_true, Option.any_eq_true, Bool.not_eq_true'] at h
  rcases h.2 with ⟨sym, hsym, -, hlive⟩
  exact fun hdef => not_mem_of_not_isLiveAfter hlive (mem_defs_of_direct hsym hdef) hk

theorem Flow.mergeChained {middle : Set (Fin 64)} (h : Flow env behind rest middle)
    (h1 : Survives env middle [s1] before) :
    Survives env behind (mergeChained env s1 rest) before := by
  induction rest generalizing s1 middle before with
  | nil => exact fun k hk hkill => h1 k (h hk) hkill
  | cons s2 rest ih =>
    rw [Kcs.mergeChained]
    have hsecond : Survives env (bitSet s2.out) [s2] middle := by
      intro k hk hkill
      refine h.1 k hk fun hdef => hkill ?_
      exact mem_killed_cons.mpr (Or.inl hdef)
    by_cases hmerge : canMerge env s1 s2 = true
    · rw [if_pos hmerge]
      refine ih h.2 fun k hk hkill => ?_
      rw [map_cons, mem_killed_cons, not_or, defs_merge hmerge] at hkill
      refine h1 k (h.1 k hk hkill.1) ?_
      rw [map_cons, mem_killed_cons, not_or]
      exact ⟨not_mem_defs_of_canMerge hmerge hk, hkill.2⟩
    · rw [if_neg hmerge]
      intro k hk hkill
      rw [map_cons, mem_killed_cons, not_or] at hkill
      refine h1 k (ih h.2 hsecond k hk hkill.2) ?_
      rw [map_cons, mem_killed_cons, not_or]
      exact ⟨hkill.1, by simp [killed]⟩

theorem Flow.mergeCode (h : Flow env behind code before) :
    Survives env behind (mergeCode env code) before := by
  cases code with
  | nil => exact fun k hk _ => h hk
  | cons s rest =>
    refine Flow.mergeChained h.2 fun k hk hkill => ?_
    refine h.1 k hk fun hdef => hkill ?_
    exact mem_killed_cons.mpr (Or.inl hdef)

end Flow

/-! ## Rewriting the blocks -/

section Graph

variable {env : LiveEnv} {g g' : LiveGraph} {l : List BlockId} {b c : BlockId} {blk : LiveBlock}
  {f : List LiveStatement → List LiveStatement}

/-- The code of a block is changed. -/
def rewriteCode (f : List LiveStatement → List LiveStatement) (g : LiveGraph) (b : BlockId) :
    LiveGraph :=
  g.modify b fun blk => { blk with code := f blk.code }

theorem getElem?_rewriteCode : (rewriteCode f g b)[c]? =
    if b = c then (g[c]?).map fun blk => { blk with code := f blk.code } else g[c]? := by
  rw [rewriteCode, getElem?_modify]
  by_cases hbc : b = c
  · subst hbc
    cases g[b]? <;> simp
  · simp [hbc]

theorem length_rewriteCode : (rewriteCode f g b).length = g.length := length_modify _ _ _

theorem liveInOf_rewriteCode : liveInOf (rewriteCode f g b) = liveInOf g := by
  funext c
  rw [liveInOf, liveInOf, getElem?_rewriteCode]
  split
  · cases g[c]? <;> rfl
  · rfl

/-- The symbols that the children of a block need. -/
def childSets (g : LiveGraph) (blk : LiveBlock) : Set (Fin 64) :=
  {k | ∃ c ∈ blk.edges, k ∈ liveSets g c}

/-- The sets of a block fit together. -/
def FlowAt (env : LiveEnv) (g : LiveGraph) (b : BlockId) : Prop :=
  ∀ blk, g[b]? = some blk → Flow env (childSets g blk) blk.code (bitSet blk.liveIn)

/-- The symbols that pass through a block are in the set before it. -/
def SurvivesAt (env : LiveEnv) (g : LiveGraph) (b : BlockId) : Prop :=
  ∀ blk, g[b]? = some blk → Survives env (childSets g blk) blk.code (bitSet blk.liveIn)

theorem childSets_rewriteCode : childSets (rewriteCode f g b) blk = childSets g blk := by
  rw [childSets, childSets]
  unfold liveSets
  rw [liveInOf_rewriteCode]

theorem FlowAt.rewriteCode_of_ne (h : FlowAt env g c) (hbc : b ≠ c) :
    FlowAt env (rewriteCode f g b) c := by
  intro blk hblk
  rw [getElem?_rewriteCode, if_neg hbc] at hblk
  rw [childSets_rewriteCode]
  exact h blk hblk

theorem SurvivesAt.rewriteCode_of_ne (h : SurvivesAt env g c) (hbc : b ≠ c) :
    SurvivesAt env (rewriteCode f g b) c := by
  intro blk hblk
  rw [getElem?_rewriteCode, if_neg hbc] at hblk
  rw [childSets_rewriteCode]
  exact h blk hblk

theorem getElem?_rewriteCode_self {new : LiveBlock} (h : (rewriteCode f g b)[b]? = some new) :
    ∃ blk, g[b]? = some blk ∧ new = { blk with code := f blk.code } := by
  rw [getElem?_rewriteCode, if_pos rfl, map_eq_some_iff] at h
  rcases h with ⟨blk, hblk, hnew⟩
  exact ⟨blk, hblk, hnew.symm⟩

theorem FlowAt.rewriteCode_self (h : FlowAt env g b)
    (hf : ∀ behind before code, Flow env behind code before → Flow env behind (f code) before) :
    FlowAt env (rewriteCode f g b) b := by
  intro new hnew
  rcases getElem?_rewriteCode_self hnew with ⟨blk, hblk, rfl⟩
  rw [childSets_rewriteCode]
  exact hf _ _ _ (h blk hblk)

theorem FlowAt.survivesAt_rewriteCode (h : FlowAt env g b)
    (hf : ∀ behind before code, Flow env behind code before →
      Survives env behind (f code) before) : SurvivesAt env (rewriteCode f g b) b := by
  intro new hnew
  rcases getElem?_rewriteCode_self hnew with ⟨blk, hblk, rfl⟩
  rw [childSets_rewriteCode]
  exact hf _ _ _ (h blk hblk)

/-- The jumps of all blocks. -/
def edgesOf (g : LiveGraph) : List (List BlockId) := g.map (·.edges)

theorem edgesOf_rewriteCode : edgesOf (rewriteCode f g b) = edgesOf g := by
  apply ext_getElem?
  intro c
  rw [edgesOf, edgesOf, getElem?_map, getElem?_map, getElem?_rewriteCode]
  split
  · cases g[c]? <;> rfl
  · rfl

theorem ClosedList.congr (h : ClosedList l (programOf g)) (hedges : edgesOf g' = edgesOf g) :
    ClosedList l (programOf g') := by
  intro b hb new hnew d hd
  rcases getElem?_of_program hnew with ⟨blk', hblk', rfl⟩
  have hget := congrArg (·[b]?) hedges
  simp only [edgesOf, getElem?_map, hblk', map_some] at hget
  rcases map_eq_some_iff.mp hget.symm with ⟨blk, hblk, hsame⟩
  refine h b hb _ (getElem?_program hblk) d ?_
  show d ∈ blk.edges
  rw [hsame]
  exact hd

theorem traverse_rewriteCode {callback : LiveGraph → BlockId → LiveGraph × Nat}
    (hcallback : ∀ g b, (callback g b).1 = rewriteCode f g b) (l : List BlockId)
    (g : LiveGraph) : (traverseBlocks callback l g).1 = l.foldl (rewriteCode f) g := by
  induction l generalizing g with
  | nil => rfl
  | cons b l ih =>
    show (traverseBlocks callback l (callback g b).1).1 = _
    rw [ih, hcallback, foldl_cons]

theorem foldl_rewriteCode_spec (f : List LiveStatement → List LiveStatement) (l : List BlockId)
    (g : LiveGraph) : (l.foldl (rewriteCode f) g).length = g.length ∧
      edgesOf (l.foldl (rewriteCode f) g) = edgesOf g := by
  induction l generalizing g with
  | nil => exact ⟨rfl, rfl⟩
  | cons b l ih =>
    rcases ih (rewriteCode f g b) with ⟨hlength, hedges⟩
    exact ⟨hlength.trans length_rewriteCode, hedges.trans edgesOf_rewriteCode⟩

theorem FlowAt.foldl_eliminate (l : List BlockId) (h : FlowAt env g b) :
    FlowAt env (l.foldl (rewriteCode fun code => (eliminateDeadStores env code).1) g) b := by
  induction l generalizing g with
  | nil => exact h
  | cons c l ih =>
    refine ih ?_
    by_cases hcb : c = b
    · subst hcb
      exact h.rewriteCode_self fun _ _ _ hflow => hflow.deadStoreElimination
    · exact h.rewriteCode_of_ne hcb

theorem SurvivesAt.foldl_rewriteCode (hb : b ∉ l) (h : SurvivesAt env g b) :
    SurvivesAt env (l.foldl (rewriteCode f) g) b := by
  induction l generalizing g with
  | nil => exact h
  | cons c l ih =>
    rw [mem_cons, not_or] at hb
    exact ih hb.2 (h.rewriteCode_of_ne (Ne.symm hb.1))

theorem FlowAt.foldl_merge (hnodup : l.Nodup) (h : FlowAt env g b) :
    SurvivesAt env (l.foldl (rewriteCode (mergeCode env)) g) b := by
  induction l generalizing g with
  | nil => exact fun blk hblk => (h blk hblk).survives
  | cons c l ih =>
    rw [nodup_cons] at hnodup
    by_cases hcb : c = b
    · subst hcb
      have hfirst : SurvivesAt env (rewriteCode (mergeCode env) g c) c :=
        h.survivesAt_rewriteCode fun _ _ _ hcode => hcode.mergeCode
      rw [foldl_cons]
      exact hfirst.foldl_rewriteCode hnodup.1
    · exact ih hnodup.2 (h.rewriteCode_of_ne hcb)

theorem Consistent.flowAt (h : Consistent env l g) (hb : b ∈ l) : FlowAt env g b := by
  intro blk hblk
  have hsame := h b hb blk hblk
  have hcode : (scanCode env blk.code
      (childrenIn (liveInOf g) blk ||| branchUse env blk.toBlock)).1 = blk.code :=
    congrArg LiveBlock.code hsame
  have hin : (scanCode env blk.code
      (childrenIn (liveInOf g) blk ||| branchUse env blk.toBlock)).2 = blk.liveIn :=
    congrArg LiveBlock.liveIn hsame
  have hsub : childSets g blk ⊆
      bitSet (childrenIn (liveInOf g) blk ||| branchUse env blk.toBlock) := by
    intro k hk
    rw [mem_bitSet_or, mem_childrenIn_iff]
    exact Or.inl hk
  have hflow : Flow env (childSets g blk) (scanCode env blk.code _).1
      (bitSet (scanCode env blk.code _).2) := flow_scanCode blk.code hsub
  rwa [hcode, hin] at hflow

theorem passesThrough_of_survivesAt (h : ∀ b ∈ l, SurvivesAt env g b) :
    PassesThrough env l g := by
  rintro b hb k ⟨old, hold, hkill, c, hc, hk⟩
  rcases getElem?_of_program hold with ⟨blk, hblk, rfl⟩
  have hin := h b hb blk hblk k ⟨c, hc, hk⟩ hkill
  show k ∈ liveSets g b
  rwa [liveSets, liveInOf_of_getElem? hblk]

end Graph

/-! ## Runs of the optimizer -/

section Runs

variable {env : LiveEnv} {g g' start : LiveGraph} {l : List BlockId} {b : BlockId}

/-- The rewriting between two iterations: dead stores are removed from all blocks, assignments are
merged in all blocks, or both. -/
def Rewritten (env : LiveEnv) (l : List BlockId) (g g' : LiveGraph) : Prop :=
  g' = (traverseBlocks (deadStoreElimination env) l g).1 ∨
  g' = (traverseBlocks (mergeChainedAssignment env) l g).1 ∨
  g' = (traverseBlocks (mergeChainedAssignment env) l
    (traverseBlocks (deadStoreElimination env) l g).1).1

/-- The graphs after an iteration: the first one, and those after a rewriting. -/
inductive Analysed (env : LiveEnv) (l : List BlockId) (start : LiveGraph) : LiveGraph → Prop
  | first {g : LiveGraph} {fuel : Nat}
      (h : executeIterativeDataflow env l fuel (initializeDataflow l start) = some g) :
      Analysed env l start g
  | again {g g' g'' : LiveGraph} {fuel : Nat} (hg : Analysed env l start g)
      (hrewritten : Rewritten env l g g')
      (h : executeIterativeDataflow env l fuel g' = some g'') : Analysed env l start g''

theorem Rewritten.spec (h : Rewritten env l g g') (hnodup : l.Nodup)
    (hconsistent : Consistent env l g) :
    g'.length = g.length ∧ edgesOf g' = edgesOf g ∧ PassesThrough env l g' := by
  have hdead : ∀ g, (traverseBlocks (deadStoreElimination env) l g).1 =
      l.foldl (rewriteCode fun code => (eliminateDeadStores env code).1) g :=
    traverse_rewriteCode (fun _ _ => rfl) l
  have hmerge : ∀ g, (traverseBlocks (mergeChainedAssignment env) l g).1 =
      l.foldl (rewriteCode (mergeCode env)) g := traverse_rewriteCode (fun _ _ => rfl) l
  rcases h with rfl | rfl | rfl
  · rw [hdead]
    rcases foldl_rewriteCode_spec (fun code => (eliminateDeadStores env code).1) l g with
      ⟨hlength, hedges⟩
    refine ⟨hlength, hedges, passesThrough_of_survivesAt fun b hb blk hblk => ?_⟩
    exact ((hconsistent.flowAt hb).foldl_eliminate l blk hblk).survives
  · rw [hmerge]
    rcases foldl_rewriteCode_spec (mergeCode env) l g with ⟨hlength, hedges⟩
    refine ⟨hlength, hedges, passesThrough_of_survivesAt fun b hb => ?_⟩
    exact (hconsistent.flowAt hb).foldl_merge hnodup
  · rw [hmerge, hdead]
    rcases foldl_rewriteCode_spec (fun code => (eliminateDeadStores env code).1) l g with
      ⟨hlength, hedges⟩
    rcases foldl_rewriteCode_spec (mergeCode env) l
      (l.foldl (rewriteCode fun code => (eliminateDeadStores env code).1) g) with
      ⟨hlength', hedges'⟩
    refine ⟨hlength'.trans hlength, hedges'.trans hedges,
      passesThrough_of_survivesAt fun b hb => ?_⟩
    exact ((hconsistent.flowAt hb).foldl_eliminate l).foldl_merge hnodup

theorem programOf_initializeDataflow (l : List BlockId) (g : LiveGraph) :
    programOf (initializeDataflow l g) = programOf g := by
  induction l generalizing g with
  | nil => rfl
  | cons b l ih =>
    show programOf (initializeDataflow l (g.modify b _)) = _
    rw [ih]
    apply ext_getElem?
    intro c
    rw [programOf, programOf, getElem?_map, getElem?_map, getElem?_modify]
    by_cases hbc : b = c
    · subst hbc
      cases g[b]? with
      | none => simp
      | some blk => simp [LiveBlock.toBlock, Function.comp_def]
    · simp [hbc]

theorem liveInOf_initializeDataflow (hb : b ∈ l) : liveInOf (initializeDataflow l g) b = 0 := by
  have hkept : ∀ (l : List BlockId) (g : LiveGraph), liveInOf g b = 0 →
      liveInOf (initializeDataflow l g) b = 0 := by
    intro l
    induction l with
    | nil => exact fun _ h => h
    | cons c l ih =>
      intro g h
      refine ih _ ?_
      rw [liveInOf, getElem?_modify]
      rw [liveInOf] at h
      by_cases hcb : c = b
      · cases g[b]? <;> simp [hcb]
      · simpa [hcb] using h
  induction l generalizing g with
  | nil => cases hb
  | cons c l ih =>
    rcases mem_cons.mp hb with rfl | hb
    · refine hkept l _ ?_
      rw [liveInOf, getElem?_modify]
      cases g[b]? <;> simp
    · exact ih hb

theorem passesThrough_initializeDataflow (hclosed : ClosedList l (programOf g)) :
    PassesThrough env l (initializeDataflow l g) := by
  rintro b hb k ⟨blk, hblk, -, c, hc, hk⟩
  rw [programOf_initializeDataflow] at hblk
  rw [liveSets, liveInOf_initializeDataflow (hclosed b hb blk hblk c hc)] at hk
  exact absurd hk not_mem_bitSet_zero

theorem length_of_programOf (h : programOf g' = programOf g) : g'.length = g.length := by
  have hlength := congrArg List.length h
  rwa [programOf, programOf, length_map, length_map] at hlength

theorem Analysed.spec (h : Analysed env l start g) (hnodup : l.Nodup)
    (hl : ∀ b ∈ l, b < start.length) (hclosed : ClosedList l (programOf start)) :
    g.length = start.length ∧ ClosedList l (programOf g) ∧ Consistent env l g := by
  induction h with
  | first h =>
    have hprogram := programOf_initializeDataflow l start
    rcases executeIterativeDataflow_consistent env
      ((length_of_programOf hprogram).symm ▸ hl) h with ⟨hrest, hconsistent⟩
    refine ⟨length_of_programOf (hrest.trans hprogram), ?_, hconsistent⟩
    rw [hrest.trans hprogram]
    exact hclosed
  | again _ hrewritten h ih =>
    rcases ih with ⟨hlength, hclosed', hconsistent⟩
    rcases hrewritten.spec hnodup hconsistent with ⟨hlength', hedges, -⟩
    rcases executeIterativeDataflow_consistent env
      ((hlength'.trans hlength).symm ▸ hl) h with ⟨hprogram, hconsistent'⟩
    refine ⟨(length_of_programOf hprogram).trans (hlength'.trans hlength), ?_, hconsistent'⟩
    rw [hprogram]
    exact hclosed'.congr hedges

/-- The iteration ends at first and after every rewriting, and its sets contain all symbols that a
path from the end of a block can read. -/
theorem analysis_right (env : LiveEnv) (start : LiveGraph) (l : List BlockId) (hnodup : l.Nodup)
    (hl : ∀ b ∈ l, b < start.length) (hclosed : ClosedList l (programOf start)) :
    (∃ fuel g, executeIterativeDataflow env l fuel (initializeDataflow l start) = some g) ∧
    ∀ g, Analysed env l start g → SoundSets env l g ∧
      ∀ g', Rewritten env l g g' → ∃ fuel g'', executeIterativeDataflow env l fuel g' =
        some g'' := by
  constructor
  · have hlength := length_of_programOf (programOf_initializeDataflow l start)
    exact executeIterativeDataflow_isSome env hnodup (hlength.symm ▸ hl)
      (passesThrough_initializeDataflow hclosed)
  · intro g hg
    rcases hg.spec hnodup hl hclosed with ⟨hlength, hclosed', hconsistent⟩
    refine ⟨hconsistent.sound hclosed', fun g' hrewritten => ?_⟩
    rcases hrewritten.spec hnodup hconsistent with ⟨hlength', -, hpasses⟩
    exact executeIterativeDataflow_isSome env hnodup ((hlength'.trans hlength).symm ▸ hl) hpasses

end Runs

/-! ## Example -/

/-- `do n = n - m; while (n);`, and the return of `n`. -/
def countDown : LiveGraph :=
  let int : CType := { type := .int }
  let n : Var := { kind := .direct, type := int, symbol := some { id := 1, name := "n",
                                                                   type := int } }
  let m : Var := { kind := .direct, type := int, symbol := some { id := 2, name := "m",
                                                                   type := int } }
  [{ jump0 := some 1 },
    { code := [{ st := .assign, t := n, expr := { op := .sub, type := int, l := n, r := m } }],
      expr := { op := .cast, type := int, l := n }, jump0 := some 2, jump1 := some 1 },
    { expr := { op := .cast, type := int, l := n }, hasReturnValue := true }]

/-- The analysis of the loop. -/
theorem analysis_right_countDown :
    (∃ fuel g, executeIterativeDataflow ⟨[], id⟩ [0, 1, 2] fuel
      (initializeDataflow [0, 1, 2] countDown) = some g) ∧
    ∀ g, Analysed ⟨[], id⟩ [0, 1, 2] countDown g → SoundSets ⟨[], id⟩ [0, 1, 2] g ∧
      ∀ g', Rewritten ⟨[], id⟩ [0, 1, 2] g g' → ∃ fuel g'',
        executeIterativeDataflow ⟨[], id⟩ [0, 1, 2] fuel g' = some g'' := by
  have hedges : ∀ b ∈ [0, 1, 2], ∀ c ∈ ((programOf countDown)[b]?).elim [] Block.edges,
      c ∈ [0, 1, 2] := by decide
  refine analysis_right ⟨[], id⟩ countDown [0, 1, 2] (by decide) (by decide) ?_
  intro b hb blk hblk c hc
  refine hedges b hb c ?_
  rw [hblk]
  exact hc

end Kcs
