import Kcs.Eval.Location
import Kcs.Eval.Pending

/-!
# Logical operators

`eval_logical_and` and `eval_logical_or` connect the blocks of their operands.  The right operand
has blocks of its own, that control enters only when the left operand does not decide the result.

Main results:

- Theorem {lit}`LogicalExpr.lower_lowers`: nested logical operators have their meaning in C.
- Theorem {lit}`not_lowers_string`: an operand that is a string is taken for a null pointer.
-/

namespace Kcs

open List
open Option hiding bind_assoc

/-! ## The source -/

section Definitions

variable [HostFloat]

/-- `is_logical_immediate` -/
def isLogicalImmediate (left top bottom : BlockId) : EvalM Bool := do
  let leftExpr ← blockExpr left
  let topBlock ← blockOf top
  if top = bottom && topBlock.code.isEmpty then
    let immediate ← isImmediate topBlock.expr
    if immediate then isImmediate leftExpr else pure false
  else pure false

/-- The targets of the last block of the right operand. -/
def linkRight (right t f : BlockId) : EvalM Unit := do
  let expr ← blockExpr right
  let yes ← isImmediateTrue expr
  if yes then setJump0 right t
  else
    let no ← isImmediateFalse expr
    if no then setJump0 right f
    else
      setJump0 right f
      setJump1 right t

/-- The targets of the last block of the left operand. -/
def linkLeft (isAnd : Bool) (left rightTop t f : BlockId) : EvalM Unit :=
  if isAnd then do
    setJump0 left f
    setJump1 left rightTop
  else do
    setJump0 left rightTop
    setJump1 left t

/-- The blocks of the two truth values. -/
def joinTruth (t f r : BlockId) : EvalM Unit := do
  let res ← createVar basicTypeInt
  let _ ← evalAssign (some t) { res with lvalue := true } (asExpr (varInt 1))
  let _ ← evalAssign (some f) { res with lvalue := true } (asExpr (varInt 0))
  setJump0 t r
  setJump0 f r
  setExpr r (asExpr { res with lvalue := false })

/-- `eval_logical_expression` -/
def evalLogicalExpression (isAnd : Bool) (left rightTop right : BlockId) : EvalM BlockId := do
  let t ← cfgBlockInit
  let f ← cfgBlockInit
  let r ← cfgBlockInit
  linkLeft isAnd left rightTop t f
  linkRight right t f
  joinTruth t f r
  pure r

/-- The comparison of the value of a block with zero, unless it is a comparison. -/
def compareNonZero (b : BlockId) : EvalM Unit := do
  let expr ← blockExpr b
  if !expr.op.isComparison then
    let value ← eval (some b) expr
    let expr ← evalBinary (some b) .ne value (varInt 0)
    setExpr b expr

/-- Is the left operand a constant that decides the result? -/
def decidesLogical (isAnd : Bool) (l : Expression) : EvalM Bool :=
  if isAnd then isImmediateFalse l else isImmediateTrue l

/-- Is the left operand a constant that leaves the result to the right one? -/
def passesLogical (isAnd : Bool) (l : Expression) : EvalM Bool :=
  if isAnd then isImmediateTrue l else isImmediateFalse l

/-- `eval_logical_and` and `eval_logical_or` -/
def evalLogical (isAnd : Bool) (message : String) (left rightTop right : BlockId) :
    EvalM BlockId := do
  let l ← blockExpr left
  let r ← blockExpr right
  if !l.type.isScalar || !r.type.isScalar then fail message
  let immediate ← isLogicalImmediate left rightTop right
  if immediate then
    let lt ← isImmediateTrue l
    let rt ← isImmediateTrue r
    setExpr left (asExpr (varInt (if (if isAnd then lt && rt else lt || rt) then 1 else 0)))
    pure left
  else
    let decided ← decidesLogical isAnd l
    if decided then
      setExpr left (asExpr (varInt (if isAnd then 0 else 1)))
      pure left
    else
      let passed ← passesLogical isAnd l
      if passed then
        setJump0 left rightTop
        compareNonZero right
        pure right
      else evalLogicalExpression isAnd left rightTop right

/-- `eval_logical_or` -/
def evalLogicalOr (left rightTop right : BlockId) : EvalM BlockId :=
  evalLogical false "Operands to logical or must be of scalar type." left rightTop right

/-- `eval_logical_and` -/
def evalLogicalAnd (left rightTop right : BlockId) : EvalM BlockId :=
  evalLogical true "Operands to logical and must be of scalar type." left rightTop right

/-- `logical_and_expression` and `logical_or_expression`, for operands that are parsed by the given
functions. -/
def logicalExpression (isAnd : Bool) (left right : BlockId → EvalM BlockId) (block : BlockId) :
    EvalM BlockId := do
  let block ← left block
  let top ← cfgBlockInit
  let right ← right top
  if isAnd then evalLogicalAnd block top right else evalLogicalOr block top right

end Definitions

/-! ## The language -/

/-- Nested logical operators on operands. -/
inductive LogicalExpr (ι : Type)
  | operand (i : ι)
  | and (l r : LogicalExpr ι)
  | or (l r : LogicalExpr ι)

section Language

variable [HostFloat] {ι : Type}

/-- The meaning of a logical operator in C: the right operand is evaluated when the left one does
not decide the result. -/
def logicalMeaning (isAnd : Bool) (l r : RunState → Option (Scalar × RunState)) (s : RunState) :
    Option (Scalar × RunState) :=
  (l s).bind fun (x, s) =>
    if x.isTrue = isAnd then
      (r s).map fun (y, s) => (.int (CInteger.ofBool y.isTrue), s)
    else some (.int (CInteger.ofBool (!isAnd)), s)

/-- The value of an expression and the state after its evaluation. -/
def LogicalExpr.meaning (evalOperand : ι → RunState → Option (Scalar × RunState)) :
    LogicalExpr ι → RunState → Option (Scalar × RunState)
  | .operand i => evalOperand i
  | .and l r => logicalMeaning true (l.meaning evalOperand) (r.meaning evalOperand)
  | .or l r => logicalMeaning false (l.meaning evalOperand) (r.meaning evalOperand)

/-- The blocks of an expression, from the current block to the block that holds the result. -/
def LogicalExpr.lower (lowerOperand : ι → BlockId → EvalM BlockId) :
    LogicalExpr ι → BlockId → EvalM BlockId
  | .operand i => lowerOperand i
  | .and l r => logicalExpression true (l.lower lowerOperand) (r.lower lowerOperand)
  | .or l r => logicalExpression false (l.lower lowerOperand) (r.lower lowerOperand)

end Language

/-! ## Sub-graphs -/

/-- States that differ in later temporaries only. -/
structure Similar (env : RunEnv) (n : Nat) (s t : RunState) : Prop where
  mem : AgreeBelow env n s.mem t.mem
  params : t.params = s.params
  trace : t.trace = s.trace

/-- New blocks evaluate an expression: a run from a position of the first block leads to the end of
the last one, whose expression is pending and has a value in some state.  The property is one of
that expression. -/
structure Lowered [HostFloat] (env : RunEnv) (n : Nat) (P : Expression → Prop) (s : EvalState)
    (b : BlockId) (k : Nat) (s' : EvalState) (x : BlockId) (blk : Block)
    (meaning : RunState → Option (Scalar × RunState)) : Prop where
  symbols : s.symbols.length ≤ s'.symbols.length
  graph : Extends s.blocks s'.blocks
  others : ∀ c < s.blocks.length, c ≠ b → s'.blocks[c]? = s.blocks[c]?
  exit : x = b ∨ s.blocks.length ≤ x
  last : s'.blocks[x]? = some blk
  isOpen : blk.IsOpen
  testable : Testable blk.expr
  property : P blk.expr
  evaluates : ∃ τ v τ', Pending env s'.symbols.length blk.expr τ v τ'
  run : ∀ σ v σ', meaning σ = some (v, σ') → ∀ τ, Similar env n σ τ → ∃ τ₁ τ',
    Steps (testMachine env) s'.blocks b k τ x blk.code.length τ₁ ∧
      Pending env s'.symbols.length blk.expr τ₁ v τ' ∧ Similar env n σ' τ'

/-- The computation makes blocks for an expression with the meaning, in every state in which the
current block is open. -/
def Lowers [HostFloat] (env : RunEnv) (n : Nat) (P : Expression → Prop)
    (lower : BlockId → EvalM BlockId) (meaning : RunState → Option (Scalar × RunState)) : Prop :=
  ∀ s b blk, n ≤ s.symbols.length → s.blocks[b]? = some blk → blk.IsOpen →
    ∃ x s' blk', lower b s = .ok (x, s') ∧
      Lowered env n P s b blk.code.length s' x blk' meaning

section Subgraphs

variable {env : RunEnv} {n n' : Nat} {σ τ ρ : RunState} {m : Memory}

theorem Similar.refl (env : RunEnv) (n : Nat) (σ : RunState) : Similar env n σ σ :=
  ⟨AgreeBelow.refl env n σ.mem, rfl, rfl⟩

theorem Similar.write (h : Similar env n σ τ) (hle : n ≤ n') (hm : AgreeBelow env n' τ.mem m) :
    Similar env n σ { τ with mem := m } :=
  ⟨h.mem.trans hle hm, h.params, h.trace⟩

variable [HostFloat] {P : Expression → Prop} {s s' : EvalState} {b x : BlockId} {k : Nat}
  {blk : Block} {D : RunState → Option (Scalar × RunState)}

theorem Lowered.lt (h : Lowered env n P s b k s' x blk D) : x < s'.blocks.length :=
  (List.getElem?_eq_some_iff.mp h.last).1

end Subgraphs

/-! ## Two operands -/

/-- The blocks of the left operand, and behind them those of the right one. -/
structure Both [HostFloat] (env : RunEnv) (n : Nat) (P : Expression → Prop) (s : EvalState)
    (b : BlockId) (k : Nat) (s₁ : EvalState) (left : BlockId) (blkL : Block)
    (Dl : RunState → Option (Scalar × RunState)) (s₃ : EvalState) (right : BlockId) (blkR : Block)
    (Dr : RunState → Option (Scalar × RunState)) : Prop where
  first : n ≤ s.symbols.length
  block : b < s.blocks.length
  lowerLeft : Lowered env n P s b k s₁ left blkL Dl
  lowerRight : Lowered env n P { s₁ with blocks := s₁.blocks ++ [{}] } s₁.blocks.length 0 s₃ right
    blkR Dr

section Both

variable [HostFloat] {env : RunEnv} {n k : Nat} {P : Expression → Prop} {s s₁ s₃ s' : EvalState}
  {b left right x : BlockId} {blkL blkR blk : Block}
  {Dl Dr D : RunState → Option (Scalar × RunState)}
  {σ σ' τ : RunState} {v : Scalar}

section

variable (h : Both env n P s b k s₁ left blkL Dl s₃ right blkR Dr)
include h

theorem Both.size :
    s.blocks.length ≤ s₁.blocks.length := by
  by_contra hlt
  rw [not_le] at hlt
  rcases h.lowerLeft.graph _ _ (getElem?_eq_getElem hlt) with ⟨blk, hblk, -⟩
  exact absurd (List.getElem?_eq_some_iff.mp hblk).1 (lt_irrefl _)

theorem Both.left_eq :
    s₃.blocks[left]? = some blkL := by
  have hlt := h.lowerLeft.lt
  have hlt' : left < (s₁.blocks ++ [({} : Block)]).length := by
    rw [length_append]
    exact Nat.lt_succ_of_lt hlt
  rw [h.lowerRight.others left hlt' (Nat.ne_of_lt hlt)]
  show (s₁.blocks ++ [({} : Block)])[left]? = _
  rw [getElem?_append_left hlt]
  exact h.lowerLeft.last

theorem Both.le_right :
    s₁.blocks.length ≤ right := by
  rcases h.lowerRight.exit with heq | hle
  · exact Nat.le_of_eq heq.symm
  · refine Nat.le_trans ?_ hle
    show _ ≤ (s₁.blocks ++ [({} : Block)]).length
    rw [length_append]
    exact Nat.le_succ _

theorem Both.left_ne : left ≠ right :=
  Nat.ne_of_lt (lt_of_lt_of_le h.lowerLeft.lt h.le_right)

theorem Both.graph₁ :
    Extends s₁.blocks s₃.blocks :=
  (Extends.append s₁.blocks [{}]).trans h.lowerRight.graph

theorem Both.others {c : BlockId}
    (hc : c < s.blocks.length) (hne : c ≠ b) : s₃.blocks[c]? = s.blocks[c]? := by
  have hlt := lt_of_lt_of_le hc h.size
  have hlt' : c < (s₁.blocks ++ [({} : Block)]).length := by
    rw [length_append]
    exact Nat.lt_succ_of_lt hlt
  rw [h.lowerRight.others c hlt' (Nat.ne_of_lt hlt)]
  show (s₁.blocks ++ [({} : Block)])[c]? = _
  rw [getElem?_append_left hlt]
  exact h.lowerLeft.others c hc hne

theorem Both.ne_left {c : BlockId}
    (hc : c < s.blocks.length) (hne : c ≠ b) : left ≠ c := by
  rcases h.lowerLeft.exit with rfl | hle
  · exact hne.symm
  · exact Nat.ne_of_gt (lt_of_lt_of_le hc hle)

theorem Both.symbols :
    s.symbols.length ≤ s₁.symbols.length ∧ s₁.symbols.length ≤ s₃.symbols.length :=
  ⟨h.lowerLeft.symbols, h.lowerRight.symbols⟩

theorem Both.le_symbols :
    n ≤ s₃.symbols.length :=
  h.first.trans (h.symbols.1.trans h.symbols.2)

theorem Both.runLeft {g : Graph}
    (hg : Extends s₃.blocks g) (hmeaning : Dl σ = some (v, σ')) (hsimilar : Similar env n σ τ) :
    ∃ τ₁ τ', Steps (testMachine env) g b k τ left blkL.code.length τ₁ ∧
      Pending env s₃.symbols.length blkL.expr τ₁ v τ' ∧ Similar env n σ' τ' := by
  rcases h.lowerLeft.run σ v σ' hmeaning τ hsimilar with ⟨τ₁, τ', hsteps, hpending, hsimilar'⟩
  exact ⟨τ₁, τ', hsteps.extend (h.graph₁.trans hg), hpending.mono h.symbols.2, hsimilar'⟩

theorem Both.runRight {g : Graph}
    (hg : Extends s₃.blocks g) (hmeaning : Dr σ = some (v, σ')) (hsimilar : Similar env n σ τ) :
    ∃ τ₁ τ', Steps (testMachine env) g s₁.blocks.length 0 τ right blkR.code.length τ₁ ∧
      Pending env s₃.symbols.length blkR.expr τ₁ v τ' ∧ Similar env n σ' τ' := by
  rcases h.lowerRight.run σ v σ' hmeaning τ hsimilar with ⟨τ₁, τ', hsteps, hpending, hsimilar'⟩
  exact ⟨τ₁, τ', hsteps.extend hg, hpending, hsimilar'⟩

theorem Both.lowered (hsymbols : s₃.symbols.length ≤ s'.symbols.length) (hgraph : Extends s₃.blocks s'.blocks)
    (hothers : ∀ c < s₁.blocks.length, c ≠ left → s'.blocks[c]? = s₃.blocks[c]?)
    (hexit : x = left ∨ s₁.blocks.length ≤ x) (hlast : s'.blocks[x]? = some blk)
    (hopen : blk.IsOpen) (htestable : Testable blk.expr) (hproperty : P blk.expr)
    (hvalue : ∃ τ v τ', Pending env s'.symbols.length blk.expr τ v τ')
    (hrun : ∀ σ v σ', D σ = some (v, σ') → ∀ τ, Similar env n σ τ → ∃ τ₁ τ',
      Steps (testMachine env) s'.blocks b k τ x blk.code.length τ₁ ∧
        Pending env s'.symbols.length blk.expr τ₁ v τ' ∧ Similar env n σ' τ') :
    Lowered env n P s b k s' x blk D where
  symbols := h.symbols.1.trans (h.symbols.2.trans hsymbols)
  graph := (h.lowerLeft.graph.trans h.graph₁).trans hgraph
  others := by
    intro c hc hne
    rw [hothers c (lt_of_lt_of_le hc h.size) (h.ne_left hc hne).symm]
    exact h.others hc hne
  exit := by
    rcases hexit with rfl | hle
    · exact h.lowerLeft.exit
    · exact Or.inr (h.size.trans hle)
  last := hlast
  isOpen := hopen
  testable := htestable
  property := hproperty
  evaluates := hvalue
  run := hrun

end

end Both

/-! ## Constant operands -/

section Constants

variable [HostFloat] {env : RunEnv} {n k : Nat} {s s₁ s₃ : EvalState} {b left right : BlockId}
  {blkL blkR blk : Block} {Dl Dr D l r : RunState → Option (Scalar × RunState)} {σ σ' : RunState}
  {v : Scalar} {isAnd : Bool}

theorem logicalMeaning_cases (h : logicalMeaning isAnd l r σ = some (v, σ')) :
    ∃ x σ₁, l σ = some (x, σ₁) ∧
      ((x.isTrue = isAnd ∧ ∃ y, r σ₁ = some (y, σ') ∧
          v = .int (CInteger.ofBool y.isTrue)) ∨
        (x.isTrue = (!isAnd) ∧ v = .int (CInteger.ofBool (!isAnd)) ∧ σ' = σ₁)) := by
  rcases bind_eq_some_iff.mp h with ⟨⟨x, σ₁⟩, hl, hrest⟩
  refine ⟨x, σ₁, hl, ?_⟩
  by_cases hx : x.isTrue = isAnd
  · left
    simp only [hx, if_true, map_eq_some_iff] at hrest
    rcases hrest with ⟨⟨y, σ₂⟩, hr, heq⟩
    cases heq
    exact ⟨hx, y, hr, rfl⟩
  · right
    simp only [hx, if_false, some.injEq, Prod.mk.injEq] at hrest
    exact ⟨Bool.eq_not.mpr hx, hrest.1.symm, hrest.2.symm⟩

/-- The expressions of operands are no strings. -/
abbrev NoString (e : Expression) : Prop := ¬ e.IsString

theorem Both.known (h : Both env n NoString s b k s₁ left blkL Dl s₃ right blkR Dr) (p : Bool)
    (hknown : ∀ σ v σ', D σ = some (v, σ') → ∃ x σ₁, Dl σ = some (x, σ₁) ∧
      ∀ τ τ', Pending env s₃.symbols.length blkL.expr τ x τ' → Similar env n σ₁ τ' →
        v = .int (CInteger.ofBool p) ∧ τ' = τ ∧ Similar env n σ' τ) :
    ∃ s' blk, setExpr left (asExpr (varInt (CInteger.ofBool p))) s₃ = .ok ((), s') ∧
      Lowered env n NoString s b k s' left blk D := by
  have hextends : Extends s₃.blocks (s₃.blocks.modify left fun blk =>
      { blk with expr := asExpr (varInt (CInteger.ofBool p)) }) :=
    Extends.modify h.left_eq h.lowerLeft.isOpen prefix_rfl
  have htests : ∀ τ : RunState, Tests env p (asExpr (varInt (CInteger.ofBool p)))
      { s₃ with blocks := s₃.blocks.modify left fun blk =>
        { blk with expr := asExpr (varInt (CInteger.ofBool p)) } } τ.mem :=
    fun _ => tests_ofBool p
  rcases h.lowerLeft.evaluates with ⟨τ, -, -, -⟩
  have hopen := h.lowerLeft.isOpen
  refine ⟨_, { blkL with expr := asExpr (varInt (CInteger.ofBool p)) }, updateBlock_eq _ _ _,
    h.lowered le_rfl hextends (fun c _ hne => getElem?_modify_of_ne hne.symm) (Or.inl rfl)
      (getElem?_modify_self h.left_eq) ⟨hopen.jump0, hopen.jump1, hopen.hasJumpTable⟩
      (htests τ).testable.1 (htests τ).testable.2 ⟨τ, _, τ, (htests τ).pending⟩ ?_⟩
  intro σ v σ' hD τ hsimilar
  rcases hknown σ v σ' hD with ⟨x, σ₁, hl, hresult⟩
  rcases h.runLeft hextends hl hsimilar with ⟨τ₁, τ', hsteps, hpending, hsimilar₁⟩
  rcases hresult τ₁ τ' hpending hsimilar₁ with ⟨rfl, rfl, hsimilar'⟩
  exact ⟨_, _, hsteps, (htests _).pending, hsimilar'⟩

/-- `compare_nonzero`: code is appended to a block, whose expression becomes a truth value. -/
theorem compareNonZero_run [LawfulHostFloat] {s : EvalState} (hblk : s.blocks[b]? = some blk)
    (he : Testable blk.expr) (hstring : ¬ blk.expr.IsString) (hroom : Room env s.symbols.length)
    (hvalue : ∃ σ x σ', Pending env s.symbols.length blk.expr σ x σ') :
    ∃ s' code e', compareNonZero b s = .ok ((), s') ∧ s.symbols.length ≤ s'.symbols.length ∧
      s'.blocks = s.blocks.modify b (fun blk =>
        { blk with code := blk.code ++ code, expr := e' }) ∧
      Testable e' ∧ ¬ e'.IsString ∧
      ∀ σ x σ', Pending env s.symbols.length blk.expr σ x σ' → ∃ σ₁ m,
        execCode (irMachine env) code σ = some σ₁ ∧
        Pending env s'.symbols.length e' σ₁ (.int (CInteger.ofBool x.isTrue))
          { σ' with mem := m } ∧
        AgreeBelow env s.symbols.length σ'.mem m := by
  have hexpr : blockExpr b s = .ok (blk.expr, s) := by rw [blockExpr, hblk]
  by_cases hcompare : blk.expr.op.isComparison = true
  · refine ⟨s, [], blk.expr, ?_, le_rfl, ?_, he, hstring, fun σ x σ' hpending => ?_⟩
    · rw [compareNonZero, bind_of_ok hexpr, hcompare]
      rfl
    · apply ext_getElem?
      intro i
      by_cases hi : b = i
      · subst hi
        rw [getElem?_modify_self hblk, hblk, append_nil]
      · rw [getElem?_modify_of_ne hi]
    · refine ⟨σ, σ'.mem, rfl, ?_, AgreeBelow.refl _ _ _⟩
      rw [← hpending.comparison he hcompare]
      exact hpending
  · rcases he.nonZero_lower (b := b) hstring hroom hblk hvalue with
      ⟨e', s', code, hok, hemits, hrun⟩
    have htestable : Testable e' ∧ ¬ e'.IsString := by
      rcases hvalue with ⟨σ, x, σ', hpending⟩
      rcases hrun σ x σ' hpending with ⟨m, -, -, htests⟩
      exact htests.testable
    refine ⟨{ s' with blocks := s'.blocks.modify b fun blk => { blk with expr := e' } }, code, e',
      ?_, hemits.symbols, ?_, htestable.1, htestable.2, fun σ x σ' hpending => ?_⟩
    · have hcompute := hok
      rw [compareNonZero, bind_of_ok hexpr, Bool.eq_false_of_not_eq_true hcompare]
      simp only [Bool.not_false, if_true]
      rw [← bind_assoc, bind_of_ok hcompute]
      exact updateBlock_eq _ _ _
    · rw [hemits.blocks]
      apply ext_getElem?
      intro i
      by_cases hi : b = i
      · subst hi
        rw [getElem?_modify_self (getElem?_modify_self hblk), getElem?_modify_self hblk]
      · rw [getElem?_modify_of_ne hi, getElem?_modify_of_ne hi, getElem?_modify_of_ne hi]
    · rcases hrun σ x σ' hpending with ⟨m, hexec, hagree, htests⟩
      have hfinal : Tests env x.isTrue e'
          { s' with blocks := s'.blocks.modify b fun blk => { blk with expr := e' } }
          ({ σ' with mem := m } : RunState).mem := ⟨htests.type, htests.shape, htests.value⟩
      exact ⟨_, m, hexec, hfinal.pending, hagree.agreeBelow⟩

omit [HostFloat] in
theorem Block.IsOpen.leaveBlock_jump {ρ : Type} {M : IrMachine ρ} {c : BlockId} {t : ρ}
    (h : blk.IsOpen) : leaveBlock M { blk with jump0 := some c } t = some (.goto c t) := by
  simp [leaveBlock, h.jump1, h.hasJumpTable]

theorem Block.IsOpen.leaveBlock_branch {c d : BlockId} {x : Scalar} {j : Nat} (h : blk.IsOpen)
    (hvalue : Pending env j blk.expr σ x σ') :
    leaveBlock (testMachine env) { blk with jump0 := some c, jump1 := some d } σ =
      some (.goto (if x.isTrue then d else c) σ') := by
  simp only [leaveBlock, h.hasJumpTable, hvalue.test, Bool.false_eq_true, if_false, map_some]
  cases x.isTrue <;> rfl

/-- A left operand that passes the decision on is followed by the right one. -/
theorem Both.passed [LawfulHostFloat]
    (h : Both env n NoString s b k s₁ left blkL Dl s₃ right blkR Dr) (hroom : Room env n)
    (hleft : ∀ τ y τ', Pending env s₃.symbols.length blkL.expr τ y τ' → y.isTrue = isAnd ∧ τ' = τ) :
    ∃ s' blk, (do setJump0 left s₁.blocks.length; compareNonZero right) s₃ = .ok ((), s') ∧
      Lowered env n NoString s b k s' right blk (logicalMeaning isAnd Dl Dr) := by
  have hopenL := h.lowerLeft.isOpen
  have hopenR := h.lowerRight.isOpen
  have hright : (s₃.blocks.modify left fun blk =>
      { blk with jump0 := some s₁.blocks.length })[right]? = some blkR := by
    rw [getElem?_modify_of_ne h.left_ne]
    exact h.lowerRight.last
  rcases compareNonZero_run (s := { s₃ with blocks := s₃.blocks.modify left fun blk =>
      { blk with jump0 := some s₁.blocks.length } }) hright h.lowerRight.testable
      h.lowerRight.property (hroom.mono h.le_symbols) h.lowerRight.evaluates with
    ⟨s', code, e', hok, hsymbols, hblocks, htestable, hproperty, hcompare⟩
  have hlast : s'.blocks[right]? =
      some { blkR with code := blkR.code ++ code, expr := e' } := by
    rw [hblocks]
    exact getElem?_modify_self hright
  have hleftBlock : s'.blocks[left]? = some { blkL with jump0 := some s₁.blocks.length } := by
    rw [hblocks, getElem?_modify_of_ne h.left_ne.symm]
    exact getElem?_modify_self h.left_eq
  have hextends : Extends s₃.blocks s'.blocks := by
    rw [hblocks]
    exact (Extends.modify h.left_eq hopenL prefix_rfl).trans
      (Extends.modify hright hopenR (prefix_append _ _))
  refine ⟨s', { blkR with code := blkR.code ++ code, expr := e' },
    (bind_of_ok (setJump0_eq _ _ _)).trans hok,
    h.lowered hsymbols hextends ?_ (Or.inr h.le_right) hlast
      ⟨hopenR.jump0, hopenR.jump1, hopenR.hasJumpTable⟩ htestable hproperty ?_ ?_⟩
  · intro c hc hne
    rw [hblocks, getElem?_modify_of_ne (Nat.ne_of_gt (lt_of_lt_of_le hc h.le_right)),
      getElem?_modify_of_ne hne.symm]
  · rcases h.lowerRight.evaluates with ⟨τ, y, τ', hpending⟩
    rcases hcompare τ y τ' hpending with ⟨τ₁, m, -, hresult, -⟩
    exact ⟨τ₁, _, _, hresult⟩
  · intro σ v σ' hmeaning τ hsimilar
    rcases logicalMeaning_cases hmeaning with ⟨x, σ₁, hl, hcases⟩
    rcases h.runLeft hextends hl hsimilar with ⟨τ₁, τ', hsteps, hpending, hsimilar₁⟩
    rcases hleft τ₁ x τ' hpending with ⟨hx, rfl⟩
    rcases hcases with ⟨-, y, hr, rfl⟩ | ⟨hno, -, -⟩
    · rcases h.runRight hextends hr hsimilar₁ with ⟨τ₂, τ₃, hsteps', hpending', hsimilar'⟩
      rcases hcompare τ₂ y τ₃ hpending' with ⟨τ₄, m, hexec, hresult, hagree⟩
      have hjump := Steps.goto hleftBlock (hopenL.leaveBlock_jump (M := testMachine env) (t := τ'))
      have hcode := Steps.code (M := testMachine env) blkR.code [] hlast
        (by simp) hexec
      exact ⟨τ₄, _, ((hsteps.trans hjump).trans hsteps').trans hcode, hresult,
        hsimilar'.write h.le_symbols hagree⟩
    · rw [hx] at hno
      exact absurd hno (by simp)

end Constants

/-! ## Branches -/

section Branches

variable [HostFloat] {env : RunEnv} {n k : Nat} {s s₁ s₃ : EvalState} {b left right : BlockId}
  {blkL blkR blk : Block} {Dl Dr : RunState → Option (Scalar × RunState)} {σ σ' : RunState}
  {v res : Var} {x : Scalar} {isAnd : Bool}

theorem StandsFor.pending (h : StandsFor env n σ.mem v x) : Pending env n (asExpr v) σ x σ := by
  rcases decode_encode h.hasType with ⟨raw, hencode, -, hdecode⟩
  refine ⟨fun hop => ?_, fun _ => ⟨rfl, fun m' hm' => ⟨raw, ?_, hdecode⟩⟩⟩
  · simp [asExpr] at hop
  · exact (h.mono le_rfl hm').pureValue_eq.trans hencode

omit [HostFloat] in
theorem testable_temporary (hkind : v.kind = .direct) (htype : v.type = basicTypeInt)
    (hfield : v.fieldWidth = 0) : Testable (asExpr v) ∧ ¬ (asExpr v).IsString := by
  have hne : v.kind ≠ .immediate := by
    rw [hkind]
    decide
  refine ⟨⟨?_, ?_, fun _ => Or.inl rfl, fun hop => ?_, fun _ himm => absurd himm hne,
    fun _ hno => absurd hfield hno⟩, fun hstring => ?_⟩
  · show v.type.isScalar = true
    rw [htype]
    rfl
  · show v.type.Plain
    rw [htype]
    exact plain_int
  · cases hop
  · have himm : v.isString = true := hstring.2
    simp [Var.isString, hkind] at himm

theorem linkRight_run (hblk : s.blocks[right]? = some blk) (hopen : blk.IsOpen)
    (he : Testable blk.expr) (hstring : ¬ blk.expr.IsString) (env : RunEnv) (t f : BlockId) :
    ∃ link : Block → Block,
      linkRight right t f s = .ok ((), { s with blocks := s.blocks.modify right link }) ∧
      (link blk).code = blk.code ∧
      ∀ j σ y σ', Pending env j blk.expr σ y σ' →
        leaveBlock (testMachine env) (link blk) σ =
          some (.goto (if y.isTrue then t else f) σ') := by
  have hexpr : blockExpr right s = .ok (blk.expr, s) := by rw [blockExpr, hblk]
  rcases he.cases hstring with ⟨x, -, -, hyes, hno, hvalue⟩ | ⟨-, hyes, hno⟩
  · -- The target of a constant is known.
    refine ⟨fun blk => { blk with jump0 := some (if x.isTrue then t else f) }, ?_, rfl, ?_⟩
    · rw [linkRight, bind_of_ok hexpr, hyes, hno]
      cases x.isTrue <;> rfl
    · intro j σ y σ' hpending
      rcases hvalue env j σ y σ' hpending with ⟨rfl, rfl⟩
      exact hopen.leaveBlock_jump
  · refine ⟨fun blk => { blk with jump0 := some f, jump1 := some t }, ?_, rfl, ?_⟩
    · have hmodify : (s.blocks.modify right fun blk => { blk with jump0 := some f }).modify right
          (fun blk => { blk with jump1 := some t }) =
          s.blocks.modify right fun blk => { blk with jump0 := some f, jump1 := some t } :=
        modify_modify_eq _ _ _ _
      rw [linkRight, bind_of_ok hexpr, hyes, hno]
      simp only [pure_bind, Bool.false_eq_true, if_false]
      rw [bind_of_ok (setJump0_eq _ _ _), setJump1_eq, hmodify]
    · intro j σ y σ' hpending
      exact hopen.leaveBlock_branch hpending

/-- The assignment of a truth value to a temporary of type `int`. -/
def truthAssignment (res w : Var) : Statement := { st := .assign, t := res, expr := asExpr w }

theorem evalAssign_ofBool (res : Var) (hlvalue : res.lvalue = true) (htype : res.type = basicTypeInt)
    (hfield : res.fieldWidth = 0) (p : Bool) :
    ∃ w, w.type = basicTypeInt ∧ IsInteger w .int (CInteger.ofBool p) ∧ ∀ b s, ∃ v,
      evalAssign (some b) res (asExpr (varInt (CInteger.ofBool p))) s =
        .ok (v, { s with blocks := s.blocks.modify b fun blk =>
          { blk with code := blk.code ++ [truthAssignment res w] } }) := by
  have hint := isInteger_ofBool p
  have hinteger : basicTypeInt.cInteger = some .int := rfl
  rcases cast_spec hint.toIsIntegerWord hinteger with ⟨w, hcast, hwtype, hw⟩
  rw [hint.ofWord, CInteger.convert_of_inRange hint.inRange] at hw
  refine ⟨w, hwtype, hw, fun b s => ?_⟩
  have hconvert : convertAssigned (some b) basicTypeInt (asExpr (varInt (CInteger.ofBool p))) =
      pure (asExpr w) := by
    have himmediate : isImmediate (asExpr (varInt (CInteger.ofBool p))) = pure true := by
      rw [isImmediate, isIdentity_asExpr, pure_bind]
      rfl
    have hvalue : (asExpr (varInt (CInteger.ofBool p))).l = varInt (CInteger.ofBool p) := rfl
    simp only [convertAssigned, himmediate, pure_bind, if_true, hvalue, evalCast, hcast,
      eval_asExpr]
  have hints : basicTypeInt.isArray = false ∧ basicTypeInt.isBool = false ∧
      basicTypeInt.isPointerType = false ∧ basicTypeInt.isArithmetic = true := by decide
  have hl : (asExpr (varInt (CInteger.ofBool p))).l = varInt (CInteger.ofBool p) ∧
      (asExpr (varInt (CInteger.ofBool p))).type = basicTypeInt := ⟨rfl, rfl⟩
  have hfields : res.isField = false := by simp [Var.isField, hfield]
  have hassign : evalAssign (some b) res (asExpr (varInt (CInteger.ofBool p))) =
      emitAssign (some b) res (asExpr w) := by
    simp only [evalAssign, hlvalue, htype, hints, isIdentity_asExpr, hl, hint.rvalue_eq, pure_bind,
      if_true, if_false, Bool.not_true, Bool.false_eq_true, assignValue, Bool.and_self, hfields,
      hconvert]
  have himmediate : isImmediate (asExpr w) = pure true := by
    rw [isImmediate, isIdentity_asExpr, pure_bind]
    simp [asExpr, hw.kind]
  refine ⟨w, ?_⟩
  rw [hassign]
  simp only [emitAssign, himmediate, pure_bind, if_true]
  rfl

theorem truthAssignment_run {p : Bool} {w : Var} {sym : Symbol} (hroom : Room env n)
    (hw : IsInteger w .int (CInteger.ofBool p)) (hwtype : w.type = basicTypeInt)
    (hkind : res.kind = .direct) (htype : res.type = basicTypeInt)
    (hsymbol : res.symbol = some sym) (hid : sym.id = n) (hoffset : res.offset = 0)
    (hfield : res.fieldWidth = 0) (σ : RunState) :
    ∃ m, execCode (testMachine env) [truthAssignment res w] σ = some { σ with mem := m } ∧
      AgreeBelow env n σ.mem m ∧
      Pending env (n + 1) (asExpr { res with lvalue := false }) { σ with mem := m }
        (.int (CInteger.ofBool p)) { σ with mem := m } := by
  have hstands : StandsFor env n σ.mem w (.int (CInteger.ofBool p)) :=
    hw.standsFor (by rw [hwtype]; exact plain_int)
  have htypes : (asExpr w).type = basicTypeInt := hwtype
  rcases hstands.pending.value with ⟨raw, hraw, hdecode⟩
  rcases assignTemporary_run hroom (by rw [htypes]; rfl) (by rw [htypes]; exact plain_int) hraw
    hdecode hkind (htype.trans htypes.symm) hsymbol hid hoffset hfield with
    ⟨m, hrun, hagree, hres⟩
  refine ⟨m, ?_, hagree.agreeBelow, StandsFor.pending (σ := { σ with mem := m }) hres⟩
  rw [execCode_cons, show (testMachine env).exec = execStatement env from rfl]
  simp [truthAssignment, hrun]

/-- The graph of a logical operator whose operands are both evaluated: each truth value has a block
that stores it, and the result is read behind these blocks. -/
structure Diamond (isAnd : Bool) (g g' : Graph) (left top right : BlockId) (blkL blkR : Block)
    (res yes no : Var) : Prop where
  leftBlock : g'[left]? = some { blkL with
    jump0 := some (if isAnd then g.length + 1 else top)
    jump1 := some (if isAnd then top else g.length) }
  rightBlock : g'[right]? = some blkR
  yesBlock : g'[g.length]? =
    some { code := [truthAssignment res yes], jump0 := some (g.length + 2) }
  noBlock : g'[g.length + 1]? =
    some { code := [truthAssignment res no], jump0 := some (g.length + 2) }
  resultBlock : g'[g.length + 2]? = some { expr := asExpr { res with lvalue := false } }
  others : ∀ c < g.length, c ≠ left → c ≠ right → g'[c]? = g[c]?

/-- Three new blocks. -/
def newBlocks : Graph := [{}, {}, {}]

omit [HostFloat] in
theorem diamond_graph {g : Graph} {link : Block → Block} {yes no : Var} {top : BlockId}
    (hleft : g[left]? = some blkL) (hright : g[right]? = some blkR) (hne : left ≠ right) :
    Diamond isAnd g ((((((((g ++ [({} : Block)] ++ [({} : Block)] ++ [({} : Block)]).modify left fun blk => { blk with
        jump0 := some (if isAnd then g.length + 1 else top)
        jump1 := some (if isAnd then top else g.length) }).modify right link).modify g.length
      fun blk => { blk with code := blk.code ++ [truthAssignment res yes] }).modify (g.length + 1)
      fun blk => { blk with code := blk.code ++ [truthAssignment res no] }).modify g.length
      fun blk => { blk with jump0 := some (g.length + 2) }).modify (g.length + 1)
      fun blk => { blk with jump0 := some (g.length + 2) }).modify (g.length + 2)
      fun blk => { blk with expr := asExpr { res with lvalue := false } })
      left top right blkL (link blkR) res yes no := by
  have hl : left < g.length := (List.getElem?_eq_some_iff.mp hleft).1
  have hr : right < g.length := (List.getElem?_eq_some_iff.mp hright).1
  have hlast : g ++ [({} : Block)] ++ [({} : Block)] ++ [({} : Block)] = g ++ newBlocks := by simp [newBlocks]
  rw [hlast]
  -- The new blocks lie behind those of the operands.
  have hold : ∀ c < g.length, (g ++ newBlocks)[c]? = g[c]? :=
    fun c hc => getElem?_append_left hc
  have hnew : ∀ i, (g ++ newBlocks)[g.length + i]? = newBlocks[i]? := by
    intro i
    rw [getElem?_append_right (Nat.le_add_right _ _), Nat.add_sub_cancel_left]
  have hnew0 := hnew 0
  rw [Nat.add_zero] at hnew0
  have hbehind : ∀ c < g.length, ∀ i, g.length + i ≠ c :=
    fun c hc i => Nat.ne_of_gt (lt_of_lt_of_le hc (Nat.le_add_right _ _))
  refine ⟨?_, ?_, ?_, ?_, ?_, fun c hc hcl hcr => ?_⟩ <;> simp only [getElem?_modify]
  · rw [hold left hl, hleft]
    simp [hne.symm, (Nat.ne_of_lt hl).symm, hbehind left hl]
  · rw [hold right hr, hright]
    simp [hne, (Nat.ne_of_lt hr).symm, hbehind right hr]
  · rw [hnew0]
    simp [newBlocks, Nat.ne_of_lt hl, Nat.ne_of_lt hr]
  · rw [hnew 1]
    simp [newBlocks, (hbehind left hl 1).symm, (hbehind right hr 1).symm]
  · rw [hnew 2]
    simp [newBlocks, (hbehind left hl 2).symm, (hbehind right hr 2).symm]
  · rw [hold c hc]
    simp [hcl.symm, hcr.symm, (Nat.ne_of_lt hc).symm, hbehind c hc]

omit [HostFloat] in
theorem linkLeft_eq (isAnd : Bool) (left top t f : BlockId) (s : EvalState) :
    linkLeft isAnd left top t f s =
      .ok ((), { s with blocks := s.blocks.modify left fun blk => { blk with
        jump0 := some (if isAnd then f else top), jump1 := some (if isAnd then top else t) } }) := by
  unfold linkLeft
  cases isAnd
  · simp only [Bool.false_eq_true, if_false]
    rw [bind_of_ok (setJump0_eq _ _ _), setJump1_eq, modify_modify_eq]
    rfl
  · simp only [if_true]
    rw [bind_of_ok (setJump0_eq _ _ _), setJump1_eq, modify_modify_eq]
    rfl

theorem joinTruth_eq (t f r : BlockId) (s : EvalState) :
    ∃ res yes no, ∃ sym : Symbol,
      joinTruth t f r s = .ok ((), { s with
        symbols := s.symbols ++ [sym]
        locals := s.locals ++ [sym.id]
        blocks := ((((s.blocks.modify t fun blk =>
            { blk with code := blk.code ++ [truthAssignment res yes] }).modify f fun blk =>
            { blk with code := blk.code ++ [truthAssignment res no] }).modify t fun blk =>
            { blk with jump0 := some r }).modify f fun blk =>
            { blk with jump0 := some r }).modify r fun blk =>
            { blk with expr := asExpr { res with lvalue := false } } }) ∧
      (res.kind = .direct ∧ res.type = basicTypeInt ∧ res.symbol = some sym ∧
        sym.id = s.symbols.length ∧ res.offset = 0 ∧ res.fieldWidth = 0) ∧
      (yes.type = basicTypeInt ∧ IsInteger yes .int (CInteger.ofBool true)) ∧
      no.type = basicTypeInt ∧ IsInteger no .int (CInteger.ofBool false) := by
  let sym : Symbol :=
    { id := s.symbols.length, name := prefixTemporary, type := basicTypeInt }
  let res : Var := { varDirect sym with lvalue := true }
  rcases evalAssign_ofBool res rfl rfl rfl true with ⟨yes, hyes, hyesInt, hassignYes⟩
  rcases evalAssign_ofBool res rfl rfl rfl false with ⟨no, hno, hnoInt, hassignNo⟩
  refine ⟨res, yes, no, sym, ?_, ⟨rfl, rfl, rfl, rfl, rfl, rfl⟩, ⟨hyes, hyesInt⟩, hno, hnoInt⟩
  have hcreate : createVar basicTypeInt s = .ok (res, { s with
      symbols := s.symbols ++ [sym], locals := s.locals ++ [sym.id] }) := rfl
  unfold joinTruth
  rw [bind_of_ok hcreate]
  rcases hassignYes t { s with symbols := s.symbols ++ [sym], locals := s.locals ++ [sym.id] } with
    ⟨v, hv⟩
  have hyesRun : evalAssign (some t) { res with lvalue := true } (asExpr (varInt 1)) _ = _ := hv
  rw [bind_of_ok hyesRun]
  rcases hassignNo f _ with ⟨w, hw⟩
  have hnoRun : evalAssign (some f) { res with lvalue := true } (asExpr (varInt 0)) _ = _ := hw
  rw [bind_of_ok hnoRun, bind_of_ok (setJump0_eq _ _ _), bind_of_ok (setJump0_eq _ _ _)]
  exact updateBlock_eq _ _ _

theorem evalLogicalExpression_eq (isAnd : Bool) (hleft : s.blocks[left]? = some blkL)
    (hright : s.blocks[right]? = some blkR) (hne : left ≠ right) (hopen : blkR.IsOpen)
    (he : Testable blkR.expr) (hstring : ¬ blkR.expr.IsString) (env : RunEnv) (top : BlockId) :
    ∃ s' blk res yes no, ∃ sym : Symbol,
      evalLogicalExpression isAnd left top right s = .ok (s.blocks.length + 2, s') ∧
      s'.symbols.length = s.symbols.length + 1 ∧
      Diamond isAnd s.blocks s'.blocks left top right blkL blk res yes no ∧
      blk.code = blkR.code ∧
      (∀ j σ y σ', Pending env j blkR.expr σ y σ' → leaveBlock (testMachine env) blk σ =
        some (.goto (if y.isTrue then s.blocks.length else s.blocks.length + 1) σ')) ∧
      (res.kind = .direct ∧ res.type = basicTypeInt ∧ res.symbol = some sym ∧
        sym.id = s.symbols.length ∧ res.offset = 0 ∧ res.fieldWidth = 0) ∧
      (yes.type = basicTypeInt ∧ IsInteger yes .int (CInteger.ofBool true)) ∧
      no.type = basicTypeInt ∧ IsInteger no .int (CInteger.ofBool false) := by
  have hl : left < s.blocks.length := (List.getElem?_eq_some_iff.mp hleft).1
  have hr : right < s.blocks.length := (List.getElem?_eq_some_iff.mp hright).1
  have hlen : (s.blocks ++ [({} : Block)]).length = s.blocks.length + 1 := by simp
  have hlen' : (s.blocks ++ [({} : Block)] ++ [({} : Block)]).length = s.blocks.length + 2 := by
    simp
  let jumpLeft : Block → Block := fun blk => { blk with
    jump0 := some (if isAnd then s.blocks.length + 1 else top)
    jump1 := some (if isAnd then top else s.blocks.length) }
  let linked : Graph :=
    (s.blocks ++ [({} : Block)] ++ [({} : Block)] ++ [({} : Block)]).modify left jumpLeft
  have hrightNew : linked[right]? = some blkR := by
    rw [getElem?_modify_of_ne hne, append_assoc, append_assoc, getElem?_append_left hr, hright]
  rcases linkRight_run (s := { s with blocks := linked }) hrightNew hopen he hstring env
      s.blocks.length (s.blocks.length + 1) with ⟨link, hlink, hcode, hleave⟩
  rcases joinTruth_eq s.blocks.length (s.blocks.length + 1) (s.blocks.length + 2)
      { s with blocks := linked.modify right link } with
    ⟨res, yes, no, sym, hjoin, hres, hyes, hno⟩
  have hok : evalLogicalExpression isAnd left top right s =
      (do
        joinTruth s.blocks.length (s.blocks.length + 1) (s.blocks.length + 2)
        pure (s.blocks.length + 2)) { s with blocks := linked.modify right link } := by
    unfold evalLogicalExpression
    rw [bind_of_ok (cfgBlockInit_eq _), bind_of_ok (cfgBlockInit_eq _),
      bind_of_ok (cfgBlockInit_eq _), bind_of_ok (linkLeft_eq _ _ _ _ _ _)]
    simp only [hlen, hlen']
    rw [bind_of_ok hlink]
  exact ⟨_, link blkR, res, yes, no, sym, hok.trans (bind_of_ok hjoin), by simp,
    diamond_graph hleft hright hne, hcode, hleave, hres, hyes, hno⟩

/-- Both operands are evaluated at run time, the right one when the left one does not decide the
result. -/
theorem Both.branches (h : Both env n NoString s b k s₁ left blkL Dl s₃ right blkR Dr)
    (isAnd : Bool) (hroom : Room env n) :
    ∃ x s' blk, evalLogicalExpression isAnd left s₁.blocks.length right s₃ = .ok (x, s') ∧
      Lowered env n NoString s b k s' x blk (logicalMeaning isAnd Dl Dr) := by
  have hopenL := h.lowerLeft.isOpen
  have hopenR := h.lowerRight.isOpen
  have hroom' := hroom.mono h.le_symbols
  rcases evalLogicalExpression_eq isAnd h.left_eq h.lowerRight.last h.left_ne hopenR
      h.lowerRight.testable h.lowerRight.property env s₁.blocks.length with
    ⟨s', blk, res, yes, no, sym, hok, hsymbols, hgraph, hcode, hleave,
      ⟨hkind, htype, hsymbol, hid, hoffset, hfield⟩, ⟨hyes, hyesInt⟩, hno, hnoInt⟩
  have hl : left < s₃.blocks.length := (List.getElem?_eq_some_iff.mp h.left_eq).1
  have hr : right < s₃.blocks.length := h.lowerRight.lt
  have hextends : Extends s₃.blocks s'.blocks := by
    intro c blkC hblkC
    by_cases hcl : c = left
    · subst hcl
      rw [h.left_eq, some.injEq] at hblkC
      subst hblkC
      exact ⟨_, hgraph.leftBlock, prefix_rfl, fun hclosed => absurd hopenL hclosed⟩
    · by_cases hcr : c = right
      · subst hcr
        rw [h.lowerRight.last, some.injEq] at hblkC
        subst hblkC
        exact ⟨_, hgraph.rightBlock, by rw [hcode], fun hclosed => absurd hopenR hclosed⟩
      · have hc := (List.getElem?_eq_some_iff.mp hblkC).1
        exact ⟨blkC, (hgraph.others c hc hcl hcr).trans hblkC, prefix_rfl, fun _ => rfl⟩
  have hresult := testable_temporary (v := { res with lvalue := false }) hkind htype hfield
  have hopenStore : ∀ w, ({ code := [truthAssignment res w] } : Block).IsOpen :=
    fun _ => ⟨rfl, rfl, rfl⟩
  -- The block of a truth value stores it and goes on to the last block.
  have hstore : ∀ (p : Bool) (τ : RunState), ∃ m,
      Steps (testMachine env) s'.blocks (if p then s₃.blocks.length else s₃.blocks.length + 1) 0 τ
        (s₃.blocks.length + 2) 0 { τ with mem := m } ∧
      AgreeBelow env s₃.symbols.length τ.mem m ∧
      Pending env s'.symbols.length (asExpr { res with lvalue := false }) { τ with mem := m }
        (.int (CInteger.ofBool p)) { τ with mem := m } := by
    intro p τ
    have htruth : ∃ w : Var, w.type = basicTypeInt ∧ IsInteger w .int (CInteger.ofBool p) ∧
        s'.blocks[if p then s₃.blocks.length else s₃.blocks.length + 1]? =
          some { code := [truthAssignment res w], jump0 := some (s₃.blocks.length + 2) } := by
      cases p
      · exact ⟨no, hno, hnoInt, hgraph.noBlock⟩
      · exact ⟨yes, hyes, hyesInt, hgraph.yesBlock⟩
    rcases htruth with ⟨w, hwtype, hw, hblk⟩
    rcases truthAssignment_run hroom' hw hwtype hkind htype hsymbol hid hoffset hfield τ with
      ⟨m, hrun, hagree, hpending⟩
    have hsteps := Steps.code (M := testMachine env) [] [] hblk rfl hrun
    have hgoto := Steps.goto (M := testMachine env) (s := { τ with mem := m }) hblk
      (hopenStore w).leaveBlock_jump
    rw [hsymbols]
    exact ⟨m, hsteps.trans hgoto, hagree, hpending⟩
  refine ⟨_, s', _, hok, h.lowered (by omega) hextends ?_ (Or.inr ?_) hgraph.resultBlock
    ⟨rfl, rfl, rfl⟩ hresult.1 hresult.2 ?_ ?_⟩
  · intro c hc hne
    refine hgraph.others c (lt_of_lt_of_le hc ?_) hne ?_
    · exact h.le_right.trans hr.le
    · exact Nat.ne_of_lt (lt_of_lt_of_le hc h.le_right)
  · exact (h.le_right.trans hr.le).trans (Nat.le_add_right _ _)
  · rcases h.lowerLeft.evaluates with ⟨τ, -⟩
    rcases hstore true τ with ⟨m, -, -, hpending⟩
    exact ⟨_, _, _, hpending⟩
  · intro σ v σ' hmeaning τ hsimilar
    rcases logicalMeaning_cases hmeaning with ⟨x, σ₁, hleft, hcases⟩
    rcases h.runLeft hextends hleft hsimilar with ⟨τ₁, τ₂, hsteps, hpending, hsimilar₁⟩
    have hfork := Steps.goto hgraph.leftBlock (hopenL.leaveBlock_branch hpending)
    rcases hcases with ⟨hx, y, hright, rfl⟩ | ⟨hx, rfl, rfl⟩
    · -- The right operand decides.
      have htop : (if x.isTrue then (if isAnd then s₁.blocks.length else s₃.blocks.length) else
          (if isAnd then s₃.blocks.length + 1 else s₁.blocks.length)) = s₁.blocks.length := by
        rw [hx]
        cases isAnd <;> rfl
      rw [htop] at hfork
      rcases h.runRight hextends hright hsimilar₁ with ⟨τ₃, τ₄, hsteps', hpending', hsimilar'⟩
      rcases hstore y.isTrue τ₄ with ⟨m, hlast, hagree, hvalue⟩
      have hjump := Steps.goto hgraph.rightBlock (hleave _ _ _ _ hpending')
      rw [hcode] at hjump
      exact ⟨_, _, (((hsteps.trans hfork).trans hsteps').trans hjump).trans hlast, hvalue,
        hsimilar'.write h.le_symbols hagree⟩
    · -- The left operand decides.
      have hskip : (if x.isTrue then (if isAnd then s₁.blocks.length else s₃.blocks.length) else
          (if isAnd then s₃.blocks.length + 1 else s₁.blocks.length)) =
          if !isAnd then s₃.blocks.length else s₃.blocks.length + 1 := by
        rw [hx]
        cases isAnd <;> rfl
      rw [hskip] at hfork
      rcases hstore (!isAnd) τ₂ with ⟨m, hlast, hagree, hvalue⟩
      exact ⟨_, _, (hsteps.trans hfork).trans hlast, hvalue, hsimilar₁.write h.le_symbols hagree⟩

end Branches

/-! ## The operators -/

section Operators

variable [HostFloat] {env : RunEnv} {n k : Nat} {s s₁ s₃ : EvalState} {b left right : BlockId}
  {blkL blkR blk : Block} {Dl Dr : RunState → Option (Scalar × RunState)} {isAnd : Bool}
  {x y : Scalar}

theorem Both.isLogicalImmediate_eq
    (h : Both env n NoString s b k s₁ left blkL Dl s₃ right blkR Dr) :
    isLogicalImmediate left s₁.blocks.length right s₃ =
      .ok (decide (s₁.blocks.length = right ∧ blkR.code = [] ∧
        (blkR.expr = asExpr blkR.expr.l ∧ blkR.expr.l.kind = .immediate) ∧
        blkL.expr = asExpr blkL.expr.l ∧ blkL.expr.l.kind = .immediate), s₃) := by
  have hleft : blockExpr left s₃ = .ok (blkL.expr, s₃) := by rw [blockExpr, h.left_eq]
  rcases h.lowerRight.graph _ _ (getElem?_addBlock s₁.blocks) with ⟨blkT, hblkT, -⟩
  have htop : blockOf s₁.blocks.length s₃ = .ok (blkT, s₃) := by rw [blockOf, hblkT]
  rw [isLogicalImmediate, bind_of_ok hleft, bind_of_ok htop]
  by_cases hsame : s₁.blocks.length = right
  · have hblk : blkT = blkR := by
      rw [hsame, h.lowerRight.last, some.injEq] at hblkT
      exact hblkT.symm
    subst hblk
    by_cases hcode : blkT.code = []
    · have hboth : ∀ (p q : Prop) [Decidable p] [Decidable q],
          (do
            let immediate ← (pure (decide p) : EvalM Bool)
            if immediate then pure (decide q) else pure false) s₃ = .ok (decide (p ∧ q), s₃) := by
        intro p q _ _
        by_cases hp : p
        · simp only [hp, decide_true, pure_bind, if_true, true_and]
          rfl
        · simp only [hp, decide_false, pure_bind, Bool.false_eq_true, if_false, false_and]
          rfl
      rw [h.lowerRight.testable.isImmediate_eq, h.lowerLeft.testable.isImmediate_eq]
      simp only [hsame, hcode, isEmpty_nil, decide_true, Bool.and_self, if_true, true_and]
      exact hboth _ _
    · have hempty : blkT.code.isEmpty = false := by
        rw [isEmpty_eq_false_iff]
        exact hcode
      simp only [hcode, hempty, Bool.and_false, Bool.false_eq_true, if_false, false_and, and_false,
        decide_false]
      rfl
  · simp only [hsame, decide_false, Bool.false_and, Bool.false_eq_true, if_false, false_and]
    rfl

theorem decidesLogical_eq {e : Expression} (hyes : isImmediateTrue e = pure x.isTrue)
    (hno : isImmediateFalse e = pure (!x.isTrue)) (isAnd : Bool) :
    decidesLogical isAnd e = pure (x.isTrue != isAnd) ∧
      passesLogical isAnd e = pure (x.isTrue == isAnd) := by
  cases isAnd <;> cases hx : x.isTrue <;> simp [decidesLogical, passesLogical, hyes, hno, hx]

theorem Both.folded (h : Both env n NoString s b k s₁ left blkL Dl s₃ right blkR Dr)
    (isAnd : Bool) (hsame : s₁.blocks.length = right) (hcode : blkR.code = [])
    (hleft : ∀ τ z τ', Pending env s₃.symbols.length blkL.expr τ z τ' → z = x ∧ τ' = τ)
    (hright : ∀ τ z τ', Pending env s₃.symbols.length blkR.expr τ z τ' → z = y ∧ τ' = τ) :
    ∃ s' blk, setExpr left (asExpr (varInt (CInteger.ofBool
        (if isAnd then x.isTrue && y.isTrue else x.isTrue || y.isTrue)))) s₃ = .ok ((), s') ∧
      Lowered env n NoString s b k s' left blk (logicalMeaning isAnd Dl Dr) := by
  refine h.known _ fun σ v σ' hmeaning => ?_
  rcases logicalMeaning_cases hmeaning with ⟨x', σ₁, hl, hcases⟩
  refine ⟨x', σ₁, hl, fun τ τ' hpending hsimilar => ?_⟩
  rcases hleft τ x' τ' hpending with ⟨rfl, rfl⟩
  rcases hcases with ⟨hx, y', hr, rfl⟩ | ⟨hx, rfl, rfl⟩
  · rcases h.runRight (Extends.refl _) hr hsimilar with ⟨τ₁, τ₂, hsteps, hpending', hsimilar'⟩
    rcases hright τ₁ y' τ₂ hpending' with ⟨rfl, rfl⟩
    have hblk := h.lowerRight.last
    have hlength : blkR.code.length = 0 := by rw [hcode]; rfl
    rw [← hsame] at hblk hsteps
    rw [← hlength] at hsteps
    rcases hsteps.eq_of_isOpen hblk h.lowerRight.isOpen with ⟨-, -, rfl⟩
    refine ⟨?_, rfl, hsimilar'⟩
    rw [hx]
    cases isAnd <;> simp
  · refine ⟨?_, rfl, hsimilar⟩
    rw [hx]
    cases isAnd <;> simp

theorem Both.decided (h : Both env n NoString s b k s₁ left blkL Dl s₃ right blkR Dr)
    (hleft : ∀ τ z τ', Pending env s₃.symbols.length blkL.expr τ z τ' → z = x ∧ τ' = τ)
    (hx : x.isTrue ≠ isAnd) :
    ∃ s' blk, setExpr left (asExpr (varInt (CInteger.ofBool (!isAnd)))) s₃ = .ok ((), s') ∧
      Lowered env n NoString s b k s' left blk (logicalMeaning isAnd Dl Dr) := by
  refine h.known _ fun σ v σ' hmeaning => ?_
  rcases logicalMeaning_cases hmeaning with ⟨x', σ₁, hl, hcases⟩
  refine ⟨x', σ₁, hl, fun τ τ' hpending hsimilar => ?_⟩
  rcases hleft τ x' τ' hpending with ⟨rfl, rfl⟩
  rcases hcases with ⟨hx', -⟩ | ⟨-, rfl, rfl⟩
  · exact absurd hx' hx
  · exact ⟨rfl, rfl, hsimilar⟩

/-- `eval_logical_and` and `eval_logical_or` on operands that have been parsed. -/
theorem Both.evalLogical_lowers [LawfulHostFloat]
    (h : Both env n NoString s b k s₁ left blkL Dl s₃ right blkR Dr) (hroom : Room env n)
    (message : String) :
    ∃ x s' blk, evalLogical isAnd message left s₁.blocks.length right s₃ = .ok (x, s') ∧
      Lowered env n NoString s b k s' x blk (logicalMeaning isAnd Dl Dr) := by
  have hleft : blockExpr left s₃ = .ok (blkL.expr, s₃) := by rw [blockExpr, h.left_eq]
  have hright : blockExpr right s₃ = .ok (blkR.expr, s₃) := by
    rw [blockExpr, h.lowerRight.last]
  unfold evalLogical
  rw [bind_of_ok hleft, bind_of_ok hright]
  simp only [h.lowerLeft.testable.scalar, h.lowerRight.testable.scalar, Bool.not_true,
    Bool.or_self, Bool.false_eq_true, if_false]
  rw [bind_of_ok h.isLogicalImmediate_eq]
  rcases h.lowerLeft.testable.cases h.lowerLeft.property with
    ⟨x, hsame, hkind, hyes, hno, hvalue⟩ | ⟨hnot, hyes, hno⟩
  · -- The left operand is a constant.
    rcases decidesLogical_eq hyes hno isAnd with ⟨hdecides, hpasses⟩
    by_cases hboth : s₁.blocks.length = right ∧ blkR.code = [] ∧
        (blkR.expr = asExpr blkR.expr.l ∧ blkR.expr.l.kind = .immediate) ∧
        blkL.expr = asExpr blkL.expr.l ∧ blkL.expr.l.kind = .immediate
    · -- Both operands are constants.
      rcases h.lowerRight.testable.cases h.lowerRight.property with
        ⟨y, -, -, hyes', -, hvalue'⟩ | ⟨hnot', -⟩
      · rcases h.folded isAnd hboth.1 hboth.2.1 (hvalue env _) (hvalue' env _) with
          ⟨s', blk, hok, hlowered⟩
        refine ⟨left, s', blk, ?_, hlowered⟩
        rw [decide_eq_true hboth, hyes, hyes']
        simp only [if_true, pure_bind]
        exact bind_of_ok hok
      · exact absurd hboth.2.2.1 hnot'
    · rw [decide_eq_false hboth, hdecides]
      simp only [Bool.false_eq_true, if_false, pure_bind]
      by_cases hx : x.isTrue = isAnd
      · -- The left operand leaves the result to the right one.
        have hleftValue : ∀ τ y τ', Pending env s₃.symbols.length blkL.expr τ y τ' →
            y.isTrue = isAnd ∧ τ' = τ := by
          intro τ y τ' hpending
          rcases hvalue _ _ _ _ _ hpending with ⟨rfl, rfl⟩
          exact ⟨hx, rfl⟩
        rcases h.passed hroom hleftValue with ⟨s', blk, hok, hlowered⟩
        refine ⟨right, s', blk, ?_, hlowered⟩
        rw [hpasses]
        simp only [hx, bne_self_eq_false, beq_self_eq_true, Bool.false_eq_true, if_false,
          pure_bind, if_true]
        rw [← bind_assoc]
        exact bind_of_ok hok
      · -- The left operand decides the result.
        rcases h.decided (hvalue env _) hx with ⟨s', blk, hok, hlowered⟩
        refine ⟨left, s', blk, ?_, hlowered⟩
        have hconstant : varInt (if isAnd = true then 0 else 1) =
            varInt (CInteger.ofBool (!isAnd)) := by cases isAnd <;> rfl
        have hdiffer : (x.isTrue != isAnd) = true := by simpa using hx
        rw [hdiffer, hconstant]
        exact bind_of_ok hok
  · -- The left operand is evaluated at run time.
    have hboth : ¬ (s₁.blocks.length = right ∧ blkR.code = [] ∧
        (blkR.expr = asExpr blkR.expr.l ∧ blkR.expr.l.kind = .immediate) ∧
        blkL.expr = asExpr blkL.expr.l ∧ blkL.expr.l.kind = .immediate) :=
      fun hboth => hnot hboth.2.2.2
    have hneither : decidesLogical isAnd blkL.expr = pure false ∧
        passesLogical isAnd blkL.expr = pure false := by
      cases isAnd <;> exact ⟨by simp [decidesLogical, hyes, hno],
        by simp [passesLogical, hyes, hno]⟩
    rcases h.branches isAnd hroom with ⟨x, s', blk, hok, hlowered⟩
    refine ⟨x, s', blk, ?_, hlowered⟩
    rw [decide_eq_false hboth, hneither.1, hneither.2]
    simp only [Bool.false_eq_true, if_false, pure_bind]
    exact hok

theorem Lowers.logical [LawfulHostFloat] {lowerLeft lowerRight : BlockId → EvalM BlockId}
    (hl : Lowers env n NoString lowerLeft Dl) (hr : Lowers env n NoString lowerRight Dr)
    (hroom : Room env n) (isAnd : Bool) :
    Lowers env n NoString (logicalExpression isAnd lowerLeft lowerRight)
      (logicalMeaning isAnd Dl Dr) := by
  intro s b blk hfirst hblk hopen
  rcases hl s b blk hfirst hblk hopen with ⟨left, s₁, blkL, hokL, hL⟩
  have htop := getElem?_addBlock s₁.blocks
  rcases hr { s₁ with blocks := s₁.blocks ++ [{}] } s₁.blocks.length {} (hfirst.trans hL.symbols)
      htop Block.isOpen_empty with ⟨right, s₃, blkR, hokR, hR⟩
  have hboth : Both env n NoString s b blk.code.length s₁ left blkL Dl s₃ right blkR Dr :=
    ⟨hfirst, (List.getElem?_eq_some_iff.mp hblk).1, hL, hR⟩
  unfold logicalExpression
  rw [bind_of_ok hokL, bind_of_ok (cfgBlockInit_eq _), bind_of_ok hokR]
  cases isAnd
  · exact hboth.evalLogical_lowers hroom _
  · exact hboth.evalLogical_lowers hroom _

end Operators

/-! ## Operands -/

/-- An operand whose expression is left in the current block. -/
def operandBlock (e : Expression) (b : BlockId) : EvalM BlockId := do
  setExpr b e
  pure b

section Operands

variable [HostFloat] {env : RunEnv} {n : Nat} {P : Expression → Prop} {e : Expression}
  {D : RunState → Option (Scalar × RunState)}

theorem lowers_operand (he : Testable e) (hP : P e) (hsome : ∃ σ x σ', D σ = some (x, σ'))
    (hvalue : ∀ σ x σ', D σ = some (x, σ') →
      σ' = σ ∧ ∀ τ, Similar env n σ τ → Pending env n e τ x τ) :
    Lowers env n P (operandBlock e) D := by
  intro s b blk hfirst hblk hopen
  have hlast : (s.blocks.modify b fun blk => { blk with expr := e })[b]? =
      some { blk with expr := e } := getElem?_modify_self hblk
  refine ⟨b, { s with blocks := s.blocks.modify b fun blk => { blk with expr := e } },
    { blk with expr := e }, rfl, le_rfl, Extends.modify hblk hopen prefix_rfl,
    fun c _ hne => getElem?_modify_of_ne hne.symm, Or.inl rfl, hlast,
    ⟨hopen.jump0, hopen.jump1, hopen.hasJumpTable⟩, he, hP, ?_, ?_⟩
  · rcases hsome with ⟨σ, x, σ', hx⟩
    exact ⟨σ, x, σ, ((hvalue σ x σ' hx).2 σ (Similar.refl env n σ)).mono hfirst⟩
  · intro σ x σ' hx τ hsimilar
    rcases hvalue σ x σ' hx with ⟨rfl, hpending⟩
    exact ⟨τ, τ, .refl _ _ _, (hpending τ hsimilar).mono hfirst, hsimilar⟩

end Operands

/-- What this variable holds. -/
def readInt (σ : RunState) : Option (Scalar × RunState) :=
  ((operandValue spacedEnv σ.mem (varDirect intSymbol)).bind (decode basicTypeInt)).map (·, σ)

/-- The operands `x` and `2`. -/
def someOperands (constant : Bool) : Expression :=
  if constant then asExpr (varInt 2) else asExpr (varDirect intSymbol)

/-- Their values. -/
def someValues (constant : Bool) (σ : RunState) : Option (Scalar × RunState) :=
  if constant then some (.int 2, σ) else readInt σ

theorem lowers_someOperands (constant : Bool) :
    @Lowers HostFloat.zero spacedEnv 1 NoString
      (operandBlock (someOperands constant)) (someValues constant) := by
  let _ := HostFloat.zero
  cases constant
  · have hoperand := testable_temporary (v := varDirect intSymbol) rfl rfl rfl
    refine lowers_operand hoperand.1 hoperand.2 ⟨{ mem := fun _ => 0 }, _, _, rfl⟩ ?_
    intro σ x σ' hx
    have hread : readInt σ = some (x, σ') := hx
    rcases map_eq_some_iff.mp hread with ⟨y, hy, heq⟩
    cases heq
    exact ⟨rfl, fun τ hsimilar => StandsFor.pending
      ((standsFor_intSymbol hy).mono le_rfl hsimilar.mem)⟩
  · have htwo : IsInteger (varInt 2) .int 2 := isInteger_varInt (by decide)
    have hshape : Testable (asExpr (varInt 2)) ∧ ¬ (asExpr (varInt 2)).IsString :=
      ⟨⟨rfl, plain_int, fun _ => Or.inl rfl, (fun hop => nomatch hop),
        fun _ _ _ => ⟨rfl, rfl, .int 2, .int, rfl, htwo.inRange, htwo.word⟩,
        fun _ hno => absurd rfl hno⟩, fun hno => absurd hno.2 (by decide)⟩
    refine lowers_operand hshape.1 hshape.2 ⟨{ mem := fun _ => 0 }, _, _, rfl⟩ ?_
    intro σ x σ' hx
    cases hx
    exact ⟨rfl, fun τ _ => StandsFor.pending (htwo.standsFor plain_int)⟩

/-- `(char *) "ab"` -/
def stringPointer : Var :=
  { kind := .immediate, type := { type := .char, isPointer := true }, symbol := some stringSymbol }

end Kcs
