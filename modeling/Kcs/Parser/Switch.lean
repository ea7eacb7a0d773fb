import Kcs.Eval.Blocks
import Kcs.Eval.Operators

/-!
# Linking of switch statements

`statement.c` collects the labels of a `switch` while it reads the body and then
links the block with the controlling expression to them: by a chain of
comparisons for up to four cases, and otherwise by a binary search or a jump
table over the sorted cases.

Main results:

- Lemma {lit}`mem_sortCases`: sorting keeps the cases.
-/

namespace Kcs

/-! ## Cases -/

/-- `struct switch_case` -/
structure SwitchCase where
  label : BlockId
  value : Var
deriving DecidableEq, Repr

/-- `struct switch_context`, before the cases are sorted. -/
structure SwitchContext where
  defaultLabel : Option BlockId := none
  cases : List SwitchCase := []
deriving DecidableEq, Repr

/-- The block reached when no case matches. -/
def SwitchContext.last (ctx : SwitchContext) (next : BlockId) : BlockId :=
  ctx.defaultLabel.getD next

/-- `JUMPTABLE_THRESHOLD` -/
def jumptableThreshold : Int := 16

/-- An `int` of the compiler; overflow wraps. -/
def int32 (n : Int) : Int := (IntFormat.bits32 true).wrap n

/-- The constant of a case as an `int`. -/
def SwitchCase.int (sc : SwitchCase) : Int := int32 sc.value.imm.i

/-- Insertion of a case into the sorted list, after all that are not greater. -/
def insertCase (sc : SwitchCase) : List SwitchCase → List SwitchCase
  | [] => [sc]
  | p :: ps => if sc.value.imm.i < p.value.imm.i then sc :: p :: ps else p :: insertCase sc ps

/-- The sorted cases. -/
def sortCases (cases : List SwitchCase) : List SwitchCase :=
  cases.foldl (fun sorted sc => insertCase sc sorted) []

section Linking

variable [HostFloat]

/-! ## Binary search -/

/-- May the search stop at a single case, since both its neighbours were already
compared?  The two assertions of the source can fail. -/
def betweenNeighbours (sorted : List SwitchCase) (start stop : Nat) (sc : SwitchCase) :
    EvalM Bool :=
  if stop - start = 1 && 0 < start && stop < sorted.length then
    match sorted[start - 1]?, sorted[stop]? with
    | some p, some n =>
      if p.int = int32 (n.int - 2) then
        if int32 (p.int + 1) = sc.value.imm.i && int32 (n.int - 1) = sc.value.imm.i then pure true
        else abort
      else pure false
    | _, _ => abort
  else pure false

/-- A block branches on the comparison of two operands. -/
def setComparison (b : BlockId) (op : OpType) (l r : Var) : EvalM Unit := do
  let expr ← evalBinary (some b) op l r
  setExpr b expr

/-- `link_switch_case_bsearch_item`, with a bound on the depth of the search. -/
def linkSwitchCaseBsearchItem (sorted : List SwitchCase) (last : BlockId) (value : Var) :
    Nat → Nat → Nat → EvalM BlockId
  | 0, _, _ => abort
  | fuel + 1, start, stop =>
    if stop ≤ start then pure last
    else
      let center := (start + stop) / 2
      match sorted[center]? with
      | none => abort
      | some sc => do
        let found ← betweenNeighbours sorted start stop sc
        if found then pure sc.label
        else
          let comp ← cfgBlockInit
          setComparison comp .eq sc.value value
          setJump1 comp sc.label
          if stop - start = 1 then
            setJump0 comp last
            pure comp
          else if stop - start = 2 then
            let rest ← linkSwitchCaseBsearchItem sorted last value fuel start center
            setJump0 comp rest
            pure comp
          else
            let left ← cfgBlockInit
            setJump0 comp left
            setComparison left .gt sc.value value
            let lower ← linkSwitchCaseBsearchItem sorted last value fuel start center
            setJump1 left lower
            let upper ← linkSwitchCaseBsearchItem sorted last value fuel (center + 1) stop
            setJump0 left upper
            pure comp

/-- `link_switch_context_bsearch` -/
def linkSwitchContextBsearch (sorted : List SwitchCase) (last parent : BlockId) : EvalM Unit := do
  let expr ← blockExpr parent
  let value ← eval (some parent) expr
  let first ← linkSwitchCaseBsearchItem sorted last value (sorted.length + 1) 0 sorted.length
  setJump0 parent first

/-! ## Jump tables -/

/-- The greatest difference of consecutive cases, as `int`s. -/
def maxDifference : Int → List SwitchCase → Int
  | _, [] => 0
  | prev, sc :: rest => max (int32 (sc.int - prev)) (maxDifference sc.int rest)

/-- `use_jump_table_for_switch_case`: the smallest and the greatest case when
a table is used. -/
def useJumpTableForSwitchCase (sorted : List SwitchCase) : Option (Int × Int) :=
  match sorted with
  | [] => none
  | sc :: rest =>
    if maxDifference sc.int rest < jumptableThreshold then
      some (sc.int, ((sc :: rest).getLast (by simp)).int)
    else none

/-- The entries of the table from the value {lit}`v` on.  Gaps go to the last
block. -/
def jumpTableEntries (minv : Int) (last : BlockId) : Int → List SwitchCase → List JumpPair
  | _, [] => []
  | v, sc :: rest =>
    (List.range (sc.int - v).toNat).map (fun i => { value := int32 (v + i - minv), label := last })
      ++ { value := int32 (sc.int - minv), label := sc.label }
      :: jumpTableEntries minv last (int32 (max v sc.int + 1)) rest

/-- The value of the switch relative to the smallest case, and the greatest
relative value. -/
def jumpTableCheck (parent : BlockId) (value : Var) (minv maxv : Int) : EvalM (Var × Var) :=
  if minv > 0 then do
    let expr ← evalBinary (some parent) .sub value (varInt minv)
    let check ← eval (some parent) expr
    pure (check, varInt (int32 (maxv - minv)))
  else if minv < 0 then do
    let expr ← evalBinary (some parent) .add value (varInt (int32 (-minv)))
    let check ← eval (some parent) expr
    pure (check, varInt (int32 (maxv - minv)))
  else pure (value, varInt maxv)

/-- `link_switch_context_jump_table` -/
def linkSwitchContextJumpTable (sorted : List SwitchCase) (last parent : BlockId)
    (minv maxv : Int) : EvalM Unit := do
  let expr ← blockExpr parent
  let value ← eval (some parent) expr
  let (check, maxval) ← jumpTableCheck parent value minv maxv
  let comp1 ← cfgBlockInit
  let comp2 ← cfgBlockInit
  let jtbl ← cfgBlockInit
  setJump0 parent comp1
  setComparison comp1 .gt (varInt 0) check
  setJump0 comp1 comp2
  setJump1 comp1 last
  setComparison comp2 .gt check maxval
  setJump0 comp2 jtbl
  setJump1 comp2 last
  updateBlock jtbl fun blk =>
    { blk with expr := asExpr check, hasJumpTable := true,
               jumpTable := jumpTableEntries minv last minv sorted }

/-! ## Linking -/

/-- The checks of `link_switch_context_bsearch_or_jump_table` on each case. -/
def checkCases (cases : List SwitchCase) : EvalM Unit :=
  cases.forM fun sc =>
    if sc.value.kind ≠ .immediate then abort
    else if !sc.value.type.isInteger then
      fail "Switch expression must have integer type, was %t."
    else pure ()

/-- `link_switch_context_bsearch_or_jump_table` -/
def linkSwitchContextBsearchOrJumpTable (ctx : SwitchContext) (parent next : BlockId) :
    EvalM Unit := do
  checkCases ctx.cases
  let sorted := sortCases ctx.cases
  match useJumpTableForSwitchCase sorted with
  | some (minv, maxv) => linkSwitchContextJumpTable sorted (ctx.last next) parent minv maxv
  | none => linkSwitchContextBsearch sorted (ctx.last next) parent

/-- The loop of `link_switch_context`: the result is the last block of the
chain. -/
def linkChain (parent : BlockId) : List SwitchCase → BlockId → EvalM BlockId
  | [], cond => pure cond
  | sc :: rest, prevCond => do
    let cond ← cfgBlockInit
    let e ← blockExpr parent
    let value ← eval (some parent) e
    setComparison cond .eq sc.value value
    setJump1 cond sc.label
    setJump0 prevCond cond
    linkChain parent rest cond

/-- `link_switch_context` -/
def linkSwitchContext (ctx : SwitchContext) (parent next : BlockId) : EvalM Unit :=
  if ctx.cases.length > 4 then linkSwitchContextBsearchOrJumpTable ctx parent next
  else do
    let cond ← linkChain parent ctx.cases parent
    setJump0 cond (ctx.last next)

/-- The end of `switch_statement`, once the body has been read. -/
def linkSwitch (ctx : SwitchContext) (parent next : BlockId) : EvalM Unit :=
  if ctx.cases.isEmpty && ctx.defaultLabel.isNone then setJump0 parent next
  else linkSwitchContext ctx parent next

end Linking

/-! ## Sorting -/

section Sorting

variable {sc sc' : SwitchCase} {cases sorted : List SwitchCase}

theorem insertCase_perm (sc : SwitchCase) (sorted : List SwitchCase) :
    (insertCase sc sorted).Perm (sc :: sorted) := by
  induction sorted with
  | nil => exact List.Perm.refl _
  | cons p ps ih =>
    unfold insertCase
    split
    · exact List.Perm.refl _
    · exact (ih.cons p).trans (List.Perm.swap sc p ps)

theorem sortCases_perm (cases : List SwitchCase) : (sortCases cases).Perm cases := by
  have hfold : ∀ sorted, (cases.foldl (fun sorted sc => insertCase sc sorted) sorted).Perm
      (cases ++ sorted) := by
    induction cases with
    | nil => exact fun sorted => List.Perm.refl _
    | cons sc cases ih =>
      intro sorted
      refine (ih (insertCase sc sorted)).trans ?_
      refine ((insertCase_perm sc sorted).append_left cases).trans ?_
      exact List.perm_middle
  exact (hfold []).trans (by rw [List.append_nil])

theorem mem_sortCases : sc ∈ sortCases cases ↔ sc ∈ cases :=
  (sortCases_perm cases).mem_iff

end Sorting

end Kcs
