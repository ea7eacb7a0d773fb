import Kcs.Lib.Sweep
import Kcs.Optimizer.Serialize
import Kcs.Types.Equal

/-!
# Live variables

Backward analysis of the symbols that may still be read, as bits of a word.  The optimizer numbers
the symbols of a function, and goes through all blocks in place until no set changes.

Main results:

- Theorem {lit}`bitSet_analyseBlock`: what is live before a block.
-/

namespace Kcs

/-! ## Sets of symbols -/

/-- `struct statement` with its liveness word. -/
structure LiveStatement extends Statement where
  out : BitVec 64 := 0
deriving DecidableEq, Repr, Inhabited

/-- `struct block` with its liveness words.  There are no jump tables. -/
structure LiveBlock where
  code : List LiveStatement := []
  expr : Expression := { op := .cast, type := { type := .void },
                         l := { kind := .direct, type := { type := .void } } }
  jump0 : Option BlockId := none
  jump1 : Option BlockId := none
  hasReturnValue : Bool := false
  liveIn : BitVec 64 := 0
  out : BitVec 64 := 0
deriving DecidableEq, Repr, Inhabited

/-- The nodes of a definition. -/
abbrev LiveGraph := List LiveBlock

/-- The block without liveness. -/
def LiveBlock.toBlock (blk : LiveBlock) : Block :=
  { code := blk.code.map (·.toStatement), expr := blk.expr, jump0 := blk.jump0,
    jump1 := blk.jump1, hasReturnValue := blk.hasReturnValue }

/-- The jumps that are followed. -/
def LiveBlock.edges (blk : LiveBlock) : List BlockId := blk.toBlock.edges

/-- What the analysis reads besides the graph: the types, and the number of each symbol, from one
to 64, or zero. -/
structure LiveEnv where
  types : TypeTable
  index : SymbolId → Nat

section Analysis

variable (env : LiveEnv)

/-- The bit of a symbol that has a number. -/
def symbolBit (sym : Symbol) : BitVec 64 := 1#64 <<< (env.index sym.id - 1)

/-- `set_def_bit` -/
def setDefBit (v : Var) : BitVec 64 :=
  match v.kind, v.symbol with
  | .direct, some sym =>
    if sym.type.isScalar && env.index sym.id ≠ 0 then symbolBit env sym else 0
  | _, _ => 0

/-- `set_use_bit`.  Its assertions hold: a symbol that is used has got a number. -/
def setUseBit (v : Var) : BitVec 64 :=
  match v.kind, v.symbol with
  | .deref, _ => BitVec.allOnes 64
  | .direct, some sym => if sym.type.isObject then symbolBit env sym else 0
  | .address, some sym => if sym.type.isObject then symbolBit env sym else 0
  | .immediate, some sym => symbolBit env sym
  | _, none => 0

/-- `use` -/
def use (expr : Expression) : BitVec 64 :=
  match expr.op with
  | .cast | .not | .neg | .call | .vaArg => setUseBit env expr.l
  | _ => setUseBit env expr.r ||| setUseBit env expr.l

/-- `is_or_has_pointer`, with a bound on the depth of nested members. -/
def isOrHasPointerAux (types : TypeTable) : Nat → CType → Bool
  | fuel, type =>
    if type.isPointerType then true
    else if type.isStructOrUnion then
      match fuel with
      | 0 => false
      | fuel + 1 =>
        ((getTypetreeHandle types type.ref).elim [] (·.members)).any fun m =>
          isOrHasPointerAux types fuel m.type
    else false

/-- `is_or_has_pointer`.  An aggregate does not contain itself, so that the number of types bounds
the depth. -/
def isOrHasPointer (types : TypeTable) (type : CType) : Bool :=
  isOrHasPointerAux types (types.length + 1) type

/-- `uses` -/
def uses (s : Statement) : BitVec 64 :=
  match s.st with
  | .assign =>
    if s.t.kind = .deref && s.t.symbol.isSome then
      use env s.expr ||| setUseBit env { s.t with kind := .direct }
    else use env s.expr
  | .param =>
    if isOrHasPointer env.types s.expr.type then use env s.expr ||| BitVec.allOnes 64
    else use env s.expr
  | _ => use env s.expr

/-- `def` -/
def defs (s : Statement) : BitVec 64 :=
  match s.st with
  | .assign => setDefBit env s.t
  | _ => 0

/-! ## The analysis of a block -/

/-- `block->in` -/
def liveInOf (g : LiveGraph) (b : BlockId) : BitVec 64 := (g[b]?).elim 0 (·.liveIn)

/-- Liveness from the children. -/
def childrenIn (x : BlockId → BitVec 64) (blk : LiveBlock) : BitVec 64 :=
  match blk.jump0, blk.jump1 with
  | none, _ => 0
  | some c, none => x c
  | some c, some d => x c ||| x d

/-- The extra edge for branch and return. -/
def branchUse (blk : Block) : BitVec 64 :=
  if blk.jump1.isSome || blk.hasReturnValue then use env blk.expr else 0

/-- The pass over the statements of a block, from the last one to the first one: their sets, and the
set before the code. -/
def scanCode : List LiveStatement → BitVec 64 → List LiveStatement × BitVec 64
  | [], o => ([], o)
  | s :: rest, o =>
    let (rest', o') := scanCode rest o
    ({ s with out := o' } :: rest', (o' &&& ~~~defs env s.toStatement) ||| uses env s.toStatement)

/-- The analysed block, when the sets before the other blocks are given. -/
def analyseBlock (x : BlockId → BitVec 64) (blk : LiveBlock) : LiveBlock :=
  let out := childrenIn x blk
  let (code, liveIn) := scanCode env blk.code (out ||| branchUse env blk.toBlock)
  { blk with code := code, liveIn := liveIn, out := out }

/-- `live_variable_analysis`: the graph, and whether the set before the block has changed. -/
def liveVariableAnalysis (g : LiveGraph) (b : BlockId) : LiveGraph × Nat :=
  match g[b]? with
  | none => (g, 0)
  | some blk =>
    let blk' := analyseBlock env (liveInOf g) blk
    (g.set b blk', if blk.liveIn = blk'.liveIn then 0 else 1)

/-- `traverse` -/
def traverseBlocks (callback : LiveGraph → BlockId → LiveGraph × Nat) :
    List BlockId → LiveGraph → LiveGraph × Nat
  | [], g => (g, 0)
  | b :: l, g =>
    let (g, n) := callback g b
    let (g, m) := traverseBlocks callback l g
    (g, n + m)

/-- `execute_iterative_dataflow`, with a bound on the number of passes. -/
def executeIterativeDataflow (blocklist : List BlockId) : Nat → LiveGraph → Option LiveGraph
  | 0, _ => none
  | fuel + 1, g =>
    let (g, changes) := traverseBlocks (liveVariableAnalysis env) blocklist g
    if changes = 0 then some g else executeIterativeDataflow blocklist fuel g

/-- `initialize_dataflow` -/
def initializeDataflow (blocklist : List BlockId) (g : LiveGraph) : LiveGraph :=
  blocklist.foldl (fun g b => g.modify b fun blk =>
    { blk with code := blk.code.map fun s => { s with out := 0 }, liveIn := 0, out := 0 }) g

end Analysis

/-! ## Bits of words -/

/-- The bits of a word as a set. -/
def bitSet (x : BitVec 64) : Set (Fin 64) := {k | x.getLsbD k = true}

section BitSet

variable {x y : BitVec 64} {k : Fin 64}

@[simp]
theorem mem_bitSet_or : k ∈ bitSet (x ||| y) ↔ k ∈ bitSet x ∨ k ∈ bitSet y := by
  simp [bitSet]

@[simp]
theorem mem_bitSet_and_not : k ∈ bitSet (x &&& ~~~y) ↔ k ∈ bitSet x ∧ k ∉ bitSet y := by
  simp [bitSet]

@[simp]
theorem not_mem_bitSet_zero : k ∉ bitSet 0#64 := by
  simp [bitSet]

theorem bitSet_injective : Function.Injective bitSet := by
  intro x y h
  apply BitVec.eq_of_getLsbD_eq
  intro i hi
  have hiff := Set.ext_iff.mp h ⟨i, hi⟩
  exact Bool.eq_iff_iff.mpr hiff

end BitSet

/-! ## Transfer -/

section Transfer

variable (env : LiveEnv)

/-- The symbols that some statement defines. -/
def killed (code : List Statement) : Set (Fin 64) := {k | ∃ s ∈ code, k ∈ bitSet (defs env s)}

/-- The symbols that are read before they are defined. -/
def usedFirst : List Statement → Set (Fin 64)
  | [] => ∅
  | s :: rest => {k | k ∈ bitSet (uses env s) ∨ (k ∉ bitSet (defs env s) ∧ k ∈ usedFirst rest)}

/-- The symbols that a block does not define, of those that its children need. -/
def passes (program : Graph) (b : BlockId) (x : BlockId → Set (Fin 64)) : Set (Fin 64) :=
  {k | ∃ blk, program[b]? = some blk ∧ k ∉ killed env blk.code ∧ ∃ c ∈ blk.edges, k ∈ x c}

/-- The symbols that a block needs itself. -/
def generated (program : Graph) (b : BlockId) : Set (Fin 64) :=
  {k | ∃ blk, program[b]? = some blk ∧
    (k ∈ usedFirst env blk.code ∨ (k ∉ killed env blk.code ∧ k ∈ bitSet (branchUse env blk)))}

/-- The symbols that are live before a block. -/
def transfer (program : Graph) (b : BlockId) (x : BlockId → Set (Fin 64)) : Set (Fin 64) :=
  passes env program b x ⊔ generated env program b

variable {env} {program : Graph} {b : BlockId} {k : Fin 64} {s : Statement}
  {code : List Statement}

theorem mem_killed_cons : k ∈ killed env (s :: code) ↔
    k ∈ bitSet (defs env s) ∨ k ∈ killed env code := by
  simp [killed]

theorem mem_usedFirst_cons : k ∈ usedFirst env (s :: code) ↔
    k ∈ bitSet (uses env s) ∨ (k ∉ bitSet (defs env s) ∧ k ∈ usedFirst env code) := Iff.rfl

theorem passes_mono (program : Graph) (b : BlockId) : Monotone (passes env program b) := by
  rintro x y hxy k ⟨blk, hblk, hkill, c, hc, hk⟩
  exact ⟨blk, hblk, hkill, c, hc, hxy c hk⟩

theorem transfer_mono (program : Graph) (b : BlockId) : Monotone (transfer env program b) :=
  fun _ _ hxy => sup_le_sup_right (passes_mono program b hxy) _

theorem transfer_sup (program : Graph) (b : BlockId) (x y : BlockId → Set (Fin 64)) :
    transfer env program b (x ⊔ y) = passes env program b x ⊔ transfer env program b y := by
  rw [transfer, transfer, ← sup_assoc]
  congr 1
  ext k
  constructor
  · rintro ⟨blk, hblk, hkill, c, hc, hk⟩
    rcases hk with hk | hk
    · exact Or.inl ⟨blk, hblk, hkill, c, hc, hk⟩
    · exact Or.inr ⟨blk, hblk, hkill, c, hc, hk⟩
  · rintro (⟨blk, hblk, hkill, c, hc, hk⟩ | ⟨blk, hblk, hkill, c, hc, hk⟩)
    · exact ⟨blk, hblk, hkill, c, hc, Or.inl hk⟩
    · exact ⟨blk, hblk, hkill, c, hc, Or.inr hk⟩

theorem mem_codeIn_iff (code : List LiveStatement) (o : BitVec 64) :
    k ∈ bitSet (scanCode env code o).2 ↔
      k ∈ usedFirst env (code.map (·.toStatement)) ∨
        (k ∉ killed env (code.map (·.toStatement)) ∧ k ∈ bitSet o) := by
  induction code with
  | nil => simp [scanCode, usedFirst, killed]
  | cons s code ih =>
    rw [List.map_cons, mem_usedFirst_cons, mem_killed_cons]
    show k ∈ bitSet (((scanCode env code o).2 &&& ~~~defs env s.toStatement) |||
      uses env s.toStatement) ↔ _
    rw [mem_bitSet_or, mem_bitSet_and_not, ih]
    tauto

theorem scanCode_statements (code : List LiveStatement) (o : BitVec 64) :
    (scanCode env code o).1.map (·.toStatement) = code.map (·.toStatement) := by
  induction code with
  | nil => rfl
  | cons s code ih =>
    show s.toStatement :: (scanCode env code o).1.map (·.toStatement) = _
    rw [ih, List.map_cons]

theorem mem_childrenIn_iff (x : BlockId → BitVec 64) (blk : LiveBlock) :
    k ∈ bitSet (childrenIn x blk) ↔ ∃ c ∈ blk.edges, k ∈ bitSet (x c) := by
  rw [childrenIn, LiveBlock.edges, Block.edges]
  show _ ↔ ∃ c ∈ (match blk.jump0, blk.jump1 with
    | none, _ => []
    | some c, none => [c]
    | some c, some d => [c, d]), _
  cases blk.jump0 with
  | none => simp
  | some c =>
    cases blk.jump1 with
    | none => simp
    | some d => simp

theorem toBlock_analyseBlock (x : BlockId → BitVec 64) (blk : LiveBlock) :
    (analyseBlock env x blk).toBlock = blk.toBlock := by
  simp [analyseBlock, LiveBlock.toBlock, scanCode_statements]

/-- The set before an analysed block. -/
theorem bitSet_analyseBlock {blk : LiveBlock} (x : BlockId → BitVec 64)
    (hblk : program[b]? = some blk.toBlock) :
    bitSet (analyseBlock env x blk).liveIn = transfer env program b fun c => bitSet (x c) := by
  ext k
  show k ∈ bitSet (scanCode env blk.code (childrenIn x blk ||| branchUse env blk.toBlock)).2 ↔ _
  rw [mem_codeIn_iff, mem_bitSet_or, mem_childrenIn_iff]
  have hcode : blk.code.map (·.toStatement) = blk.toBlock.code := rfl
  rw [hcode]
  constructor
  · rintro (hused | ⟨hkill, ⟨c, hc, hk⟩ | hbranch⟩)
    · exact Or.inr ⟨_, hblk, Or.inl hused⟩
    · exact Or.inl ⟨_, hblk, hkill, c, hc, hk⟩
    · exact Or.inr ⟨_, hblk, Or.inr ⟨hkill, hbranch⟩⟩
  · rintro (⟨blk', hblk', hkill, c, hc, hk⟩ | ⟨blk', hblk', hused | ⟨hkill, hbranch⟩⟩)
    · rw [hblk, Option.some.injEq] at hblk'
      subst hblk'
      exact Or.inr ⟨hkill, Or.inl ⟨c, hc, hk⟩⟩
    · rw [hblk, Option.some.injEq] at hblk'
      subst hblk'
      exact Or.inl hused
    · rw [hblk, Option.some.injEq] at hblk'
      subst hblk'
      exact Or.inr ⟨hkill, Or.inr hbranch⟩

end Transfer

end Kcs
