import Kcs.Ir.Syntax

/-!
# The pool of basic blocks

Blocks are allocated by `cfg_block_init` and go back to a pool when their
definition is discarded (`parse.c`).  `recycle_block` resets the members of a
block except its jump table, which only a back-end that visits the block
clears.

Main results:

- Theorem {lit}`blockInit_clean_of_consumed`: in every run of that kind every
  block returned is clean.
-/

namespace Kcs

open Option List Function

/-! ## Blocks and their owners -/

/-- `enum color` -/
inductive Color
  | white
  | black
deriving DecidableEq, Repr, Inhabited

/-- `struct block` with the members that a definition does not refer to by
position: the label, the loop body and the marks of parser and back-ends. -/
structure PoolBlock extends Block where
  label : Option Nat := none
  body : Option Nat := none
  hasInitValue : Bool := false
  color : Color := .white
deriving DecidableEq, Repr, Inhabited

/-- The static variables of `parse.c`, with blocks and definitions by number. -/
structure PoolState where
  heap : Nat → PoolBlock := fun _ => {}
  /-- Number of blocks allocated. -/
  size : Nat := 0
  /-- `blocks`, the last one first. -/
  blocks : List Nat := []
  /-- `expressions` -/
  expressions : List Nat := []
  /-- Number of definitions allocated. -/
  defs : Nat := 0
  /-- `prototypes`, the last one first. -/
  prototypes : List Nat := []
  /-- `def->nodes` of every definition. -/
  nodes : Nat → List Nat := fun _ => []
  /-- Number of labels created. -/
  labels : Nat := 0
  /-- Every block that `cfg_block_init` returned, as it was then. -/
  returned : List PoolBlock := []
  /-- Entries that the present owner of a block put into its jump table and that
  no back-end has consumed. -/
  built : Nat → List JumpPair := fun _ => []

/-- `recycle_block`, on the block itself. -/
def recycleBlock (block : PoolBlock) : PoolBlock :=
  { block with
    code := []
    label := none
    expr := ({} : PoolBlock).expr
    hasJumpTable := false
    hasReturnValue := false
    hasInitValue := false
    jump0 := none
    jump1 := none
    body := none
    color := .white }

/-- `recycle_block`, on the pool. -/
def recycle (s : PoolState) (b : Nat) : PoolState :=
  { s with heap := Function.update s.heap b (recycleBlock (s.heap b)), blocks := b :: s.blocks }

/-- `cfg_empty` -/
def cfgEmpty (s : PoolState) (d : Nat) : PoolState :=
  let s := (s.nodes d).foldl recycle s
  { s with nodes := Function.update s.nodes d [] }

/-- Take a block from the pool, or allocate one. -/
def takeBlock (s : PoolState) : Nat × PoolState :=
  match s.blocks with
  | b :: rest => (b, { s with blocks := rest })
  | [] => (s.size, { s with size := s.size + 1 })

/-- `cfg_block_init` -/
def poolBlockInit (s : PoolState) (d : Option Nat) : Nat × PoolState :=
  let (b, s) := takeBlock s
  match d with
  | some d =>
    let block := { s.heap b with label := some (s.labels + 1) }
    (b, { s with
      heap := Function.update s.heap b block
      labels := s.labels + 1
      nodes := Function.update s.nodes d (s.nodes d ++ [b])
      returned := s.returned ++ [block]
      built := Function.update s.built b [] })
  | none =>
    (b, { s with
      expressions := s.expressions ++ [b]
      returned := s.returned ++ [s.heap b]
      built := Function.update s.built b [] })

/-- `cfg_init` -/
def cfgInit (s : PoolState) : PoolState :=
  match s.prototypes with
  | d :: rest => (poolBlockInit (cfgEmpty { s with prototypes := rest } d) (some d)).2
  | [] => (poolBlockInit { s with defs := s.defs + 1 } (some s.defs)).2

/-- `cfg_discard` -/
def cfgDiscard (s : PoolState) (d : Nat) : PoolState :=
  let s := cfgEmpty s d
  { s with prototypes := d :: s.prototypes }

/-- Recycling of the blocks without a definition when the input ends. -/
def finishExpressions (s : PoolState) : PoolState :=
  let s := s.expressions.foldl recycle s
  { s with expressions := [] }

/-- What parser, optimizer and back-ends do to blocks. -/
inductive PoolEvent
  /-- `cfg_init` -/
  | define
  /-- `cfg_block_init` -/
  | init (d : Option Nat)
  /-- A user of the block sets members other than the jump table. -/
  | write (b : Nat) (block : PoolBlock)
  /-- `link_switch_context_jump_table` fills the table of a block. -/
  | table (b : Nat) (entries : List JumpPair)
  /-- A back-end visits the block: `vm_gen_node`, `compile_block` or the graph
  printer. -/
  | visit (b : Nat)
  /-- `cfg_discard` -/
  | discard (d : Nat)
  /-- The input ends. -/
  | finish

/-- Is the block in use? -/
def InUse (s : PoolState) (b : Nat) : Prop :=
  b < s.size ∧ b ∉ s.blocks

instance (s : PoolState) (b : Nat) : Decidable (InUse s b) :=
  inferInstanceAs (Decidable (_ ∧ _))

/-- Is the definition in use? -/
def DefInUse (s : PoolState) (d : Nat) : Prop :=
  d < s.defs ∧ d ∉ s.prototypes

instance (s : PoolState) (d : Nat) : Decidable (DefInUse s d) :=
  inferInstanceAs (Decidable (_ ∧ _))

/-- Setting members of a block leaves its jump table. -/
def writeBlock (old new : PoolBlock) : PoolBlock :=
  { new with jumpTable := old.jumpTable, hasJumpTable := old.hasJumpTable }

/-- Filling the jump table of a block. -/
def addEntries (block : PoolBlock) (entries : List JumpPair) : PoolBlock :=
  { block with hasJumpTable := true, jumpTable := block.jumpTable ++ entries }

/-- Visiting a block; the table is cleared after its use. -/
def visitBlock (block : PoolBlock) : PoolBlock :=
  { block with
    color := .black
    jumpTable := if block.hasJumpTable then [] else block.jumpTable }

/-- One event.  Only blocks and definitions in use are touched. -/
def poolStep (s : PoolState) : PoolEvent → Option PoolState
  | .define => some (cfgInit s)
  | .init none => some (poolBlockInit s none).2
  | .init (some d) => if DefInUse s d then some (poolBlockInit s (some d)).2 else none
  | .write b block =>
    if InUse s b then
      some { s with heap := Function.update s.heap b (writeBlock (s.heap b) block) }
    else none
  | .table b entries =>
    if InUse s b then
      some { s with
        heap := Function.update s.heap b (addEntries (s.heap b) entries)
        built := Function.update s.built b (s.built b ++ entries) }
    else none
  | .visit b =>
    if InUse s b then
      some { s with
        heap := Function.update s.heap b (visitBlock (s.heap b))
        built := Function.update s.built b
          (if (s.heap b).hasJumpTable then [] else s.built b) }
    else none
  | .discard d => if DefInUse s d then some (cfgDiscard s d) else none
  | .finish => some (finishExpressions s)

/-- A run. -/
def poolRun (s : PoolState) (events : List PoolEvent) : Option PoolState :=
  events.foldlM poolStep s

/-- A block as allocation leaves it, apart from the label it is given. -/
def Clean (block : PoolBlock) : Prop :=
  block = { label := block.label }

instance (block : PoolBlock) : Decidable (Clean block) :=
  inferInstanceAs (Decidable (_ = _))

/-- Every table built in a block that the step recycles was consumed by a
back-end before. -/
def Consumed (s : PoolState) : PoolEvent → Prop
  | .discard d => ∀ b ∈ s.nodes d, s.built b = []
  | .finish => ∀ b ∈ s.expressions, s.built b = []
  | _ => True

/-- A run all of whose steps are of that kind. -/
def ConsumedRun (s : PoolState) : List PoolEvent → Prop
  | [] => True
  | e :: events => Consumed s e ∧ ∀ t, poolStep s e = some t → ConsumedRun t events

theorem recycleBlock_eq (block : PoolBlock) :
    recycleBlock block = { jumpTable := block.jumpTable } := by
  rfl

theorem recycleBlock_idem (block : PoolBlock) :
    recycleBlock (recycleBlock block) = recycleBlock block := by
  rfl

theorem foldl_recycle (bs : List Nat) (s : PoolState) :
    bs.foldl recycle s = { s with
      heap := fun a => if a ∈ bs then recycleBlock (s.heap a) else s.heap a
      blocks := bs.reverse ++ s.blocks } := by
  induction bs generalizing s with
  | nil => simp
  | cons b bs ih =>
    rw [foldl_cons, ih]
    simp only [recycle, reverse_cons, append_assoc, singleton_append]
    congr 1
    funext a
    by_cases hab : a = b
    · subst hab
      simp [recycleBlock_idem]
    · simp [hab]

/-! ## Who owns a block -/

/-- Every block is free, belongs to one definition or to the expressions without
a definition, or is not allocated yet. -/
structure Placed (s : PoolState) : Prop where
  free_lt : ∀ b ∈ s.blocks, b < s.size
  node_lt : ∀ d, ∀ b ∈ s.nodes d, b < s.size
  expr_lt : ∀ b ∈ s.expressions, b < s.size
  free_nodup : s.blocks.Nodup
  node_nodup : ∀ d, (s.nodes d).Nodup
  expr_nodup : s.expressions.Nodup
  free_node : ∀ b ∈ s.blocks, ∀ d, b ∉ s.nodes d
  free_expr : ∀ b ∈ s.blocks, b ∉ s.expressions
  node_expr : ∀ d, ∀ b ∈ s.nodes d, b ∉ s.expressions
  node_node : ∀ d e, d ≠ e → ∀ b ∈ s.nodes d, b ∉ s.nodes e

variable {s : PoolState}

/-- Emptying a definition returns its blocks to the pool. -/
theorem Placed.cfgEmpty (hs : Placed s) (d : Nat) : Placed (cfgEmpty s d) := by
  have hnodes : ∀ e b, b ∈ Function.update s.nodes d [] e → e ≠ d ∧ b ∈ s.nodes e := by
    intro e b hb
    by_cases hed : e = d
    · subst hed
      simp at hb
    · rw [update_of_ne hed] at hb
      exact ⟨hed, hb⟩
  have hfree : ∀ b, b ∈ (s.nodes d).reverse ++ s.blocks → b ∈ s.nodes d ∨ b ∈ s.blocks := by
    intro b hb
    simpa using hb
  unfold Kcs.cfgEmpty
  rw [foldl_recycle]
  constructor
  · intro b hb
    rcases hfree b hb with hb | hb
    · exact hs.node_lt d b hb
    · exact hs.free_lt b hb
  · intro e b hb
    exact hs.node_lt e b (hnodes e b hb).2
  · exact hs.expr_lt
  · rw [nodup_append]
    refine ⟨nodup_reverse.mpr (hs.node_nodup d), hs.free_nodup, ?_⟩
    intro a ha b hb hab
    subst hab
    exact hs.free_node a hb d (mem_reverse.mp ha)
  · intro e
    by_cases hed : e = d
    · subst hed
      simp
    · simpa [update_of_ne hed] using hs.node_nodup e
  · exact hs.expr_nodup
  · intro b hb e he
    rcases hnodes e b he with ⟨hed, he⟩
    rcases hfree b hb with hb | hb
    · exact hs.node_node d e (Ne.symm hed) b hb he
    · exact hs.free_node b hb e he
  · intro b hb
    rcases hfree b hb with hb | hb
    · exact hs.node_expr d b hb
    · exact hs.free_expr b hb
  · intro e b hb
    exact hs.node_expr e b (hnodes e b hb).2
  · intro e f hef b hb hf
    exact hs.node_node e f hef b (hnodes e b hb).2 (hnodes f b hf).2

theorem Placed.finish (hs : Placed s) : Placed (finishExpressions s) := by
  have hfree : ∀ b, b ∈ s.expressions.reverse ++ s.blocks → b ∈ s.expressions ∨ b ∈ s.blocks := by
    intro b hb
    simpa using hb
  unfold finishExpressions
  rw [foldl_recycle]
  constructor
  · intro b hb
    rcases hfree b hb with hb | hb
    · exact hs.expr_lt b hb
    · exact hs.free_lt b hb
  · exact hs.node_lt
  · simp
  · rw [nodup_append]
    refine ⟨nodup_reverse.mpr hs.expr_nodup, hs.free_nodup, ?_⟩
    intro a ha b hb hab
    subst hab
    exact hs.free_expr a hb (mem_reverse.mp ha)
  · exact hs.node_nodup
  · simp
  · intro b hb e he
    rcases hfree b hb with hb | hb
    · exact hs.node_expr e b he hb
    · exact hs.free_node b hb e he
  · simp
  · simp
  · exact hs.node_node

variable {t : PoolState} {b : Nat}

theorem Placed.takeBlock (hs : Placed s) (h : takeBlock s = (b, t)) :
    Placed t ∧ b < t.size ∧ b ∉ t.blocks ∧ (∀ d, b ∉ t.nodes d) ∧ b ∉ t.expressions := by
  unfold Kcs.takeBlock at h
  split at h
  · rename_i a rest hblocks
    simp only [Prod.mk.injEq] at h
    rcases h with ⟨rfl, rfl⟩
    have hmem : a ∈ s.blocks := by simp [hblocks]
    have hsub : ∀ c ∈ rest, c ∈ s.blocks := by
      intro c hc
      simp [hblocks, hc]
    have hnodup := hs.free_nodup
    rw [hblocks, nodup_cons] at hnodup
    refine ⟨?_, hs.free_lt a hmem, hnodup.1, hs.free_node a hmem, hs.free_expr a hmem⟩
    exact ⟨fun c hc => hs.free_lt c (hsub c hc), hs.node_lt, hs.expr_lt, hnodup.2, hs.node_nodup,
      hs.expr_nodup, fun c hc => hs.free_node c (hsub c hc), fun c hc => hs.free_expr c (hsub c hc),
      hs.node_expr, hs.node_node⟩
  · rename_i hblocks
    simp only [Prod.mk.injEq] at h
    rcases h with ⟨rfl, rfl⟩
    refine ⟨?_, Nat.lt_succ_self _, by simp [hblocks], ?_, ?_⟩
    · exact ⟨fun c hc => Nat.lt_succ_of_lt (hs.free_lt c hc),
        fun d c hc => Nat.lt_succ_of_lt (hs.node_lt d c hc),
        fun c hc => Nat.lt_succ_of_lt (hs.expr_lt c hc), hs.free_nodup, hs.node_nodup,
        hs.expr_nodup, hs.free_node, hs.free_expr, hs.node_expr, hs.node_node⟩
    · intro d hd
      exact absurd (hs.node_lt d _ hd) (lt_irrefl _)
    · intro he
      exact absurd (hs.expr_lt _ he) (lt_irrefl _)

/-- A block given to a definition. -/
theorem Placed.init_some (hs : Placed s) (d : Nat) :
    Placed (poolBlockInit s (some d)).2 := by
  rcases htake : Kcs.takeBlock s with ⟨b, t⟩
  rcases hs.takeBlock htake with ⟨ht, hlt, hfree, hnode, hexpr⟩
  have hmem : ∀ e c, c ∈ Function.update t.nodes d (t.nodes d ++ [b]) e ↔
      c ∈ t.nodes e ∨ (e = d ∧ c = b) := by
    intro e c
    by_cases hed : e = d
    · subst hed
      simp
    · simp [hed]
  simp only [poolBlockInit, htake]
  constructor
  · exact ht.free_lt
  · intro e c hc
    rcases (hmem e c).mp hc with hc | ⟨-, rfl⟩
    · exact ht.node_lt e c hc
    · exact hlt
  · exact ht.expr_lt
  · exact ht.free_nodup
  · intro e
    by_cases hed : e = d
    · subst hed
      simp only [update_self, nodup_append, nodup_singleton, mem_singleton, true_and]
      refine ⟨ht.node_nodup e, ?_⟩
      rintro c hc _ rfl rfl
      exact hnode e hc
    · simpa [update_of_ne hed] using ht.node_nodup e
  · exact ht.expr_nodup
  · intro c hc e he
    rcases (hmem e c).mp he with he | ⟨-, rfl⟩
    · exact ht.free_node c hc e he
    · exact hfree hc
  · exact ht.free_expr
  · intro e c hc
    rcases (hmem e c).mp hc with hc | ⟨-, rfl⟩
    · exact ht.node_expr e c hc
    · exact hexpr
  · intro e f hef c hc hf
    rcases (hmem e c).mp hc with hold | ⟨rfl, rfl⟩
    · rcases (hmem f c).mp hf with hold' | ⟨-, rfl⟩
      · exact ht.node_node e f hef c hold hold'
      · exact hnode e hold
    · rcases (hmem f c).mp hf with hold' | ⟨rfl, -⟩
      · exact hnode f hold'
      · exact hef rfl

theorem Placed.init_none (hs : Placed s) : Placed (poolBlockInit s none).2 := by
  rcases htake : Kcs.takeBlock s with ⟨b, t⟩
  rcases hs.takeBlock htake with ⟨ht, hlt, hfree, hnode, hexpr⟩
  have hmem : ∀ c, c ∈ t.expressions ++ [b] ↔ c ∈ t.expressions ∨ c = b := by simp
  simp only [poolBlockInit, htake]
  constructor
  · exact ht.free_lt
  · exact ht.node_lt
  · intro c hc
    rcases (hmem c).mp hc with hc | rfl
    · exact ht.expr_lt c hc
    · exact hlt
  · exact ht.free_nodup
  · exact ht.node_nodup
  · rw [nodup_append]
    refine ⟨ht.expr_nodup, nodup_singleton b, ?_⟩
    intro c hc e he hce
    rw [mem_singleton] at he
    subst hce he
    exact hexpr hc
  · exact ht.free_node
  · intro c hc he
    rcases (hmem c).mp he with he | rfl
    · exact ht.free_expr c hc he
    · exact hfree hc
  · intro e c hc he
    rcases (hmem c).mp he with he | rfl
    · exact ht.node_expr e c hc he
    · exact hnode e hc
  · exact ht.node_node

/-! ## What the pool keeps -/

/-- Free blocks are as new, and a jump table holds what its owner built. -/
structure PoolInv (s : PoolState) : Prop where
  placed : Placed s
  free_new : ∀ b ∈ s.blocks, s.heap b = {}
  rest_new : ∀ b, s.size ≤ b → s.heap b = {}
  table_eq : ∀ b, (s.heap b).jumpTable = s.built b
  table_flag : ∀ b, s.built b ≠ [] → (s.heap b).hasJumpTable = true
  returned_clean : ∀ block ∈ s.returned, Clean block

theorem poolInv_init : PoolInv {} where
  placed := by constructor <;> simp
  free_new := by simp
  rest_new := by simp
  table_eq := by simp
  table_flag := by simp
  returned_clean := by simp

theorem PoolInv.recycled (hs : PoolInv s) {bs : List Nat}
    (hbuilt : ∀ b ∈ bs, s.built b = []) (a : Nat) (ha : a ∈ bs) : recycleBlock (s.heap a) = {} := by
  rw [recycleBlock_eq, hs.table_eq a, hbuilt a ha]

theorem PoolInv.recycle (hs : PoolInv s) {bs : List Nat}
    (hbuilt : ∀ b ∈ bs, s.built b = []) (ht : Placed t)
    (hheap : t.heap = fun a => if a ∈ bs then recycleBlock (s.heap a) else s.heap a)
    (hblocks : t.blocks = bs.reverse ++ s.blocks) (hsize : t.size = s.size)
    (hbuilt' : t.built = s.built) (hreturned : t.returned = s.returned) : PoolInv t where
  placed := ht
  free_new := by
    intro b hb
    simp only [hblocks, mem_append, mem_reverse] at hb
    rw [hheap]
    by_cases hmem : b ∈ bs
    · simpa [hmem] using hs.recycled hbuilt b hmem
    · simpa [hmem] using hs.free_new b (hb.resolve_left hmem)
  rest_new := by
    intro b hb
    rw [hheap]
    by_cases hmem : b ∈ bs
    · simpa [hmem] using hs.recycled hbuilt b hmem
    · simpa [hmem] using hs.rest_new b (hsize ▸ hb)
  table_eq := by
    intro b
    rw [hheap, hbuilt']
    by_cases hmem : b ∈ bs
    · simpa [hmem, recycleBlock_eq] using hs.table_eq b
    · simpa [hmem] using hs.table_eq b
  table_flag := by
    intro b hb
    rw [hbuilt'] at hb
    have hmem : b ∉ bs := fun hmem => hb (hbuilt b hmem)
    rw [hheap]
    simpa [hmem] using hs.table_flag b hb
  returned_clean := by
    rw [hreturned]
    exact hs.returned_clean

variable {d : Nat}

theorem PoolInv.cfgEmpty (hs : PoolInv s)
    (hbuilt : ∀ b ∈ s.nodes d, s.built b = []) : PoolInv (cfgEmpty s d) := by
  apply hs.recycle hbuilt (hs.placed.cfgEmpty d)
  all_goals simp [Kcs.cfgEmpty, foldl_recycle]

theorem PoolInv.takeBlock (hs : PoolInv s)
    (h : takeBlock s = (b, t)) : PoolInv t ∧ t.heap b = {} := by
  have ht := (hs.placed.takeBlock h).1
  unfold Kcs.takeBlock at h
  split at h
  · rename_i a rest hblocks
    simp only [Prod.mk.injEq] at h
    rcases h with ⟨rfl, rfl⟩
    have hsub : ∀ c ∈ rest, c ∈ s.blocks := by
      intro c hc
      simp [hblocks, hc]
    exact ⟨⟨ht, fun c hc => hs.free_new c (hsub c hc), hs.rest_new, hs.table_eq, hs.table_flag,
      hs.returned_clean⟩, hs.free_new a (by simp [hblocks])⟩
  · rename_i hblocks
    simp only [Prod.mk.injEq] at h
    rcases h with ⟨rfl, rfl⟩
    exact ⟨⟨ht, hs.free_new, fun c hc => hs.rest_new c (Nat.le_of_succ_le hc), hs.table_eq,
      hs.table_flag, hs.returned_clean⟩, hs.rest_new _ le_rfl⟩

/-- `cfg_block_init` returns a clean block and keeps the pool clean. -/
theorem PoolInv.init (hs : PoolInv s) (d : Option Nat) :
    PoolInv (poolBlockInit s d).2 := by
  rcases htake : Kcs.takeBlock s with ⟨b, t⟩
  rcases hs.takeBlock htake with ⟨ht, hnew⟩
  rcases hs.placed.takeBlock htake with ⟨-, hlt, hfree, -, -⟩
  have hbuilt : t.built b = [] := by rw [← ht.table_eq b, hnew]
  have hsame : Function.update t.built b [] = t.built := by
    rw [← hbuilt, update_eq_self]
  cases d with
  | none =>
    have hplaced := hs.placed.init_none
    simp only [poolBlockInit, htake] at hplaced ⊢
    refine ⟨hplaced, ht.free_new, ht.rest_new, ?_, ?_, ?_⟩
    · simpa only [hsame] using ht.table_eq
    · simpa only [hsame] using ht.table_flag
    · intro block hblock
      simp only [mem_append, mem_singleton] at hblock
      rcases hblock with hblock | rfl
      · exact ht.returned_clean block hblock
      · rw [hnew]
        rfl
  | some d =>
    have hplaced := hs.placed.init_some d
    simp only [poolBlockInit, htake] at hplaced ⊢
    refine ⟨hplaced, ?_, ?_, ?_, ?_, ?_⟩
    · intro c hc
      have hcb : c ≠ b := fun hcb => hfree (hcb ▸ hc)
      simpa only [update_of_ne hcb] using ht.free_new c hc
    · intro c hc
      have hcb : c ≠ b := fun hcb => absurd hlt (not_lt.mpr (hcb ▸ hc))
      simpa only [update_of_ne hcb] using ht.rest_new c hc
    · intro c
      simp only [hsame]
      by_cases hcb : c = b
      · subst hcb
        simpa using ht.table_eq c
      · simpa only [update_of_ne hcb] using ht.table_eq c
    · intro c hc
      simp only [hsame] at hc
      have hcb : c ≠ b := fun hcb => hc (hcb ▸ hbuilt)
      simpa only [update_of_ne hcb] using ht.table_flag c hc
    · intro block hblock
      simp only [mem_append, mem_singleton] at hblock
      rcases hblock with hblock | rfl
      · exact ht.returned_clean block hblock
      · rw [hnew]
        rfl

theorem PoolInv.update (hs : PoolInv s) {block : PoolBlock}
    {entries : List JumpPair} (hb : InUse s b) (htable : block.jumpTable = entries)
    (hflag : entries ≠ [] → block.hasJumpTable = true) :
    PoolInv { s with
      heap := Function.update s.heap b block, built := Function.update s.built b entries } where
  placed := ⟨hs.placed.free_lt, hs.placed.node_lt, hs.placed.expr_lt, hs.placed.free_nodup,
    hs.placed.node_nodup, hs.placed.expr_nodup, hs.placed.free_node, hs.placed.free_expr,
    hs.placed.node_expr, hs.placed.node_node⟩
  free_new := by
    intro c hc
    have hcb : c ≠ b := fun hcb => hb.2 (hcb ▸ hc)
    simpa only [update_of_ne hcb] using hs.free_new c hc
  rest_new := by
    intro c hc
    have hcb : c ≠ b := fun hcb => absurd hb.1 (not_lt.mpr (hcb ▸ hc))
    simpa only [update_of_ne hcb] using hs.rest_new c hc
  table_eq := by
    intro c
    by_cases hcb : c = b
    · subst hcb
      simpa using htable
    · simpa only [update_of_ne hcb] using hs.table_eq c
  table_flag := by
    intro c hc
    by_cases hcb : c = b
    · subst hcb
      simp only [update_self] at hc ⊢
      exact hflag hc
    · simp only [update_of_ne hcb] at hc ⊢
      exact hs.table_flag c hc
  returned_clean := hs.returned_clean

/-! ## Definitions -/

/-- A definition that is not in use has no blocks. -/
structure DefInv (s : PoolState) : Prop where
  prototype_lt : ∀ d ∈ s.prototypes, d < s.defs
  prototype_nodup : s.prototypes.Nodup
  idle_empty : ∀ d, ¬ DefInUse s d → s.nodes d = []

theorem DefInv.of_eq (hs : DefInv s) (hdefs : t.defs = s.defs)
    (hprototypes : t.prototypes = s.prototypes) (hnodes : t.nodes = s.nodes) : DefInv t := by
  constructor
  · rw [hprototypes, hdefs]
    exact hs.prototype_lt
  · rw [hprototypes]
    exact hs.prototype_nodup
  · intro d hd
    rw [hnodes]
    apply hs.idle_empty
    simpa [DefInUse, hdefs, hprototypes] using hd

theorem takeBlock_defs (h : takeBlock s = (b, t)) :
    t.defs = s.defs ∧ t.prototypes = s.prototypes ∧ t.nodes = s.nodes := by
  unfold takeBlock at h
  split at h
  all_goals
    simp only [Prod.mk.injEq] at h
    rcases h with ⟨-, rfl⟩
    exact ⟨rfl, rfl, rfl⟩

theorem DefInv.init (hs : DefInv s) (hd : DefInUse s d) :
    DefInv (poolBlockInit s (some d)).2 := by
  rcases htake : Kcs.takeBlock s with ⟨b, t⟩
  rcases takeBlock_defs htake with ⟨hdefs, hprototypes, hnodes⟩
  simp only [poolBlockInit, htake]
  constructor
  · simpa only [hprototypes, hdefs] using hs.prototype_lt
  · simpa only [hprototypes] using hs.prototype_nodup
  · intro e he
    have he' : ¬ DefInUse s e := by simpa [DefInUse, hdefs, hprototypes] using he
    have hed : e ≠ d := fun hed => he' (hed ▸ hd)
    simpa only [update_of_ne hed, hnodes] using hs.idle_empty e he'

theorem DefInv.cfgInit (hs : DefInv s) : DefInv (cfgInit s) := by
  unfold Kcs.cfgInit
  split
  · rename_i d rest hprototypes
    have hnodup := hs.prototype_nodup
    rw [hprototypes, nodup_cons] at hnodup
    have hlt : ∀ e ∈ d :: rest, e < s.defs := hprototypes ▸ hs.prototype_lt
    have hpop : DefInv { s with prototypes := rest, nodes := Function.update s.nodes d [] } := by
      refine ⟨fun e he => hlt e (mem_cons_of_mem _ he), hnodup.2, ?_⟩
      intro e he
      by_cases hed : e = d
      · simp [hed]
      · simp only [update_of_ne hed]
        apply hs.idle_empty
        simpa [DefInUse, hprototypes, hed] using he
    apply DefInv.init
    · apply hpop.of_eq <;> simp [Kcs.cfgEmpty, foldl_recycle]
    · simpa [DefInUse, Kcs.cfgEmpty, foldl_recycle] using ⟨hlt d (by simp), hnodup.1⟩
  · rename_i hprototypes
    apply DefInv.init
    · refine ⟨?_, hs.prototype_nodup, ?_⟩
      · simp [hprototypes]
      · intro e he
        apply hs.idle_empty
        simp only [DefInUse, hprototypes, not_mem_nil, not_false_eq_true, and_true] at he ⊢
        omega
    · simp [DefInUse, hprototypes]

theorem DefInv.cfgDiscard (hs : DefInv s) (hd : DefInUse s d) :
    DefInv (cfgDiscard s d) := by
  simp only [Kcs.cfgDiscard, Kcs.cfgEmpty, foldl_recycle]
  refine ⟨?_, ?_, ?_⟩
  · intro e he
    rcases mem_cons.mp he with rfl | he
    · exact hd.1
    · exact hs.prototype_lt e he
  · exact nodup_cons.mpr ⟨hd.2, hs.prototype_nodup⟩
  · intro e he
    by_cases hed : e = d
    · simp [hed]
    · simp only [update_of_ne hed]
      apply hs.idle_empty
      simpa [DefInUse, hed] using he

/-! ## Runs -/

/-- What a compilation keeps as long as tables are consumed. -/
structure CompileInv (s : PoolState) : Prop where
  pool : PoolInv s
  defs : DefInv s

theorem Placed.of_eq (hs : Placed s) (hblocks : t.blocks = s.blocks)
    (hsize : t.size = s.size) (hexpr : t.expressions = s.expressions) (hnodes : t.nodes = s.nodes) :
    Placed t := by
  rcases hs with ⟨h1, h2, h3, h4, h5, h6, h7, h8, h9, h10⟩
  constructor
  all_goals simp only [hblocks, hsize, hexpr, hnodes]
  all_goals assumption

theorem PoolInv.of_eq (hs : PoolInv s) (hheap : t.heap = s.heap)
    (hblocks : t.blocks = s.blocks) (hsize : t.size = s.size)
    (hexpr : t.expressions = s.expressions) (hnodes : t.nodes = s.nodes)
    (hbuilt : t.built = s.built) (hreturned : t.returned = s.returned) : PoolInv t := by
  rcases hs with ⟨hplaced, h1, h2, h3, h4, h5⟩
  constructor
  · exact hplaced.of_eq hblocks hsize hexpr hnodes
  all_goals simp only [hheap, hblocks, hsize, hbuilt, hreturned]
  all_goals assumption

theorem PoolInv.cfgInit (hs : PoolInv s) (hdefs : DefInv s) :
    PoolInv (cfgInit s) := by
  unfold Kcs.cfgInit
  split
  · rename_i d rest hprototypes
    have hempty : s.nodes d = [] := by
      apply hdefs.idle_empty
      simp [DefInUse, hprototypes]
    apply PoolInv.init
    apply PoolInv.cfgEmpty
    · apply hs.of_eq <;> rfl
    · simp [hempty]
  · apply PoolInv.init
    apply hs.of_eq <;> rfl

/-- One step keeps the pool clean when the tables it recycles were consumed. -/
theorem CompileInv.step {e : PoolEvent} (hs : CompileInv s)
    (hcons : Consumed s e) (h : poolStep s e = some t) : CompileInv t := by
  cases e with
  | define =>
    simp only [poolStep, some.injEq] at h
    subst h
    exact ⟨hs.pool.cfgInit hs.defs, hs.defs.cfgInit⟩
  | init d =>
    cases d with
    | none =>
      simp only [poolStep, some.injEq] at h
      subst h
      rcases htake : takeBlock s with ⟨b, t⟩
      rcases takeBlock_defs htake with ⟨hdefs, hprototypes, hnodes⟩
      refine ⟨hs.pool.init none, hs.defs.of_eq ?_ ?_ ?_⟩
      all_goals simpa only [poolBlockInit, htake]
    | some d =>
      simp only [poolStep, ite_none_right_eq_some, some.injEq] at h
      rcases h with ⟨hd, rfl⟩
      exact ⟨hs.pool.init (some d), hs.defs.init hd⟩
  | write b block =>
    simp only [poolStep, ite_none_right_eq_some, some.injEq] at h
    rcases h with ⟨hb, rfl⟩
    refine ⟨?_, hs.defs.of_eq rfl rfl rfl⟩
    have hnew : PoolInv { s with
        heap := Function.update s.heap b (writeBlock (s.heap b) block)
        built := Function.update s.built b (s.built b) } :=
      hs.pool.update hb (hs.pool.table_eq b) (hs.pool.table_flag b)
    apply hnew.of_eq <;> simp
  | table b entries =>
    simp only [poolStep, ite_none_right_eq_some, some.injEq] at h
    rcases h with ⟨hb, rfl⟩
    refine ⟨hs.pool.update hb ?_ ?_, hs.defs.of_eq rfl rfl rfl⟩
    · simp [addEntries, hs.pool.table_eq b]
    · simp [addEntries]
  | visit b =>
    simp only [poolStep, ite_none_right_eq_some, some.injEq] at h
    rcases h with ⟨hb, rfl⟩
    refine ⟨hs.pool.update hb ?_ ?_, hs.defs.of_eq rfl rfl rfl⟩
    · simp [visitBlock, hs.pool.table_eq b]
    · intro hne
      by_cases hflag : (s.heap b).hasJumpTable = true
      · simp [hflag] at hne
      · simp only [hflag, Bool.false_eq_true, if_false] at hne
        exact absurd (hs.pool.table_flag b hne) hflag
  | discard d =>
    simp only [poolStep, ite_none_right_eq_some, some.injEq] at h
    rcases h with ⟨hd, rfl⟩
    refine ⟨?_, hs.defs.cfgDiscard hd⟩
    apply (hs.pool.cfgEmpty hcons).of_eq <;> rfl
  | finish =>
    simp only [poolStep, some.injEq] at h
    subst h
    constructor
    · apply hs.pool.recycle hcons hs.pool.placed.finish
      all_goals simp [finishExpressions, foldl_recycle]
    · apply hs.defs.of_eq <;> simp [finishExpressions, foldl_recycle]

theorem CompileInv.run {events : List PoolEvent} (hs : CompileInv s)
    (hcons : ConsumedRun s events) (h : poolRun s events = some t) : CompileInv t := by
  induction events generalizing s with
  | nil =>
    simp only [poolRun, foldlM_nil, Option.pure_def, some.injEq] at h
    exact h ▸ hs
  | cons e events ih =>
    simp only [poolRun, foldlM_cons, bind_eq_bind, bind_eq_some_iff] at h
    rcases h with ⟨u, hu, hrest⟩
    exact ih (hs.step hcons.1 hu) (hcons.2 u hu) hrest

/-- In every compilation in which back-ends consume the jump tables of all blocks
that are recycled, every block returned by `cfg_block_init` is clean, and a
jump table holds the entries that the switch of its present owner put there. -/
theorem blockInit_clean_of_consumed (events : List PoolEvent) (s : PoolState)
    (hcons : ConsumedRun {} events) (hrun : poolRun {} events = some s) :
    (∀ block ∈ s.returned, Clean block) ∧ ∀ b, (s.heap b).jumpTable = s.built b := by
  have hinit : CompileInv {} := ⟨poolInv_init, ⟨by simp, by simp, by simp⟩⟩
  have hs := hinit.run hcons hrun
  exact ⟨hs.pool.returned_clean, hs.pool.table_eq⟩

/-- Two functions, the first with a switch that the back-end visits. -/
theorem blockInit_clean_two_functions :
    let events : List PoolEvent := [.define, .init (some 0), .table 1 [⟨0, 0⟩], .visit 0,
      .visit 1, .discard 0, .define, .init (some 0)]
    ∃ s, poolRun {} events = some s ∧ s.returned.length = 4 ∧ ∀ block ∈ s.returned, Clean block := by
  intro events
  have hcons : ConsumedRun {} events := by
    simp [events, ConsumedRun, Consumed, poolStep, cfgInit, poolBlockInit, takeBlock, InUse,
      DefInUse, addEntries, visitBlock]
  have hrun : ((poolRun {} events).map fun s => s.returned.length) = some 4 := by decide
  rcases map_eq_some_iff.mp hrun with ⟨s, hs, hlen⟩
  exact ⟨s, hs, hlen, (blockInit_clean_of_consumed events s hcons hs).1⟩

/-- The switch of the first function is unreachable, so that no back-end visits
the block with its jump table.  The body of the next function then starts with
that table. -/
theorem blockInit_dirty_after_unreachable_switch :
    let events : List PoolEvent := [.define, .init (some 0), .table 1 [⟨0, 0⟩], .visit 0,
      .discard 0, .define]
    ∃ s, poolRun {} events = some s ∧ ∃ block ∈ s.returned, ¬ Clean block := by
  intro events
  have hrun : ((poolRun {} events).map fun s => s.returned.any fun b => ¬ Clean b) = some true := by
    decide
  rcases map_eq_some_iff.mp hrun with ⟨s, hs, hdirty⟩
  rcases List.any_eq_true.mp hdirty with ⟨block, hmem, hblock⟩
  exact ⟨s, hs, block, hmem, by simpa using hblock⟩

end Kcs
