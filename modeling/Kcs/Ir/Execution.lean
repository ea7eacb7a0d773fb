import Kcs.Ir.Syntax

/-!
# Execution of control-flow graphs

How control moves through the blocks of a definition, for any meaning of
statements and expressions.  A block runs its statements in order and then
returns, jumps, branches on its expression, or selects an entry of its jump
table.

Main results:

- Lemma {lit}`execCode_append`: code runs in sequence.
- Lemma {lit}`Reaches.trans`: runs compose.
-/

namespace Kcs

/-- A meaning of the intermediate representation over a type of states.  An
expression has a value and may change the state, as a call does. -/
structure IrMachine (σ : Type) where
  exec : Statement → σ → Option σ
  value : Expression → σ → Option (Nat × σ)

/-- What a block does last. -/
inductive Outcome (σ : Type)
  | goto (b : BlockId) (s : σ)
  | done (result : Option Nat) (s : σ)

section Execution

variable {σ : Type} (M : IrMachine σ)

/-- Run statements in order. -/
def execCode (code : List Statement) (s : σ) : Option σ :=
  code.foldlM (fun s st => M.exec st s) s

/-- Leave a block: the decision is made by its jump targets alone. -/
def leaveBlock (blk : Block) (s : σ) : Option (Outcome σ) :=
  if blk.hasJumpTable then
    (M.value blk.expr s).bind fun (n, s) =>
      (blk.jumpTable[n]?).map fun pair => .goto pair.label s
  else
    match blk.jump0, blk.jump1 with
    | none, _ =>
      if blk.hasReturnValue then (M.value blk.expr s).map fun (n, s) => .done (some n) s
      else some (.done none s)
    | some x, none => some (.goto x s)
    | some x, some y =>
      (M.value blk.expr s).map fun (n, s) => .goto (if n = 0 then x else y) s

/-- Run one block. -/
def blockStep (g : Graph) (b : BlockId) (s : σ) : Option (Outcome σ) :=
  (g[b]?).bind fun blk => (execCode M blk.code s).bind fun s => leaveBlock M blk s

/-- A run of any number of blocks. -/
inductive Reaches (g : Graph) : BlockId → σ → BlockId → σ → Prop
  | refl (b : BlockId) (s : σ) : Reaches g b s b s
  | step {b c d : BlockId} {s t u : σ} (hstep : blockStep M g b s = some (.goto c t))
      (hrest : Reaches g c t d u) : Reaches g b s d u

/-- A run that ends by returning. -/
def Returns (g : Graph) (b : BlockId) (s : σ) (result : Option Nat) (t : σ) : Prop :=
  ∃ c u, Reaches M g b s c u ∧ blockStep M g c u = some (.done result t)

variable {M}

@[simp]
theorem execCode_nil (s : σ) : execCode M [] s = some s := rfl

@[simp]
theorem execCode_cons (st : Statement) (code : List Statement) (s : σ) :
    execCode M (st :: code) s = (M.exec st s).bind (execCode M code) := rfl

/-- Code runs in sequence. -/
theorem execCode_append (code code' : List Statement) (s : σ) :
    execCode M (code ++ code') s = (execCode M code s).bind (execCode M code') := by
  induction code generalizing s with
  | nil => rfl
  | cons st code ih =>
    simp only [List.cons_append, execCode_cons, Option.bind_assoc]
    congr 1
    funext t
    exact ih t

variable {g : Graph} {b c d : BlockId} {s t u : σ}

theorem Reaches.trans (h : Reaches M g b s c t) (h' : Reaches M g c t d u) :
    Reaches M g b s d u := by
  induction h with
  | refl => exact h'
  | step hstep _ ih => exact Reaches.step hstep (ih h')

theorem Reaches.single (h : blockStep M g b s = some (.goto c t)) : Reaches M g b s c t :=
  Reaches.step h (Reaches.refl c t)

theorem Reaches.cases_head (h : Reaches M g b s c t) :
    (b = c ∧ s = t) ∨ ∃ b' s', blockStep M g b s = some (.goto b' s') ∧ Reaches M g b' s' c t := by
  cases h with
  | refl => exact Or.inl ⟨rfl, rfl⟩
  | step hstep hrest => exact Or.inr ⟨_, _, hstep, hrest⟩

theorem Returns.of_reaches {result : Option Nat} (h : Reaches M g b s c t)
    (h' : Returns M g c t result u) : Returns M g b s result u := by
  rcases h' with ⟨d, v, hreach, hdone⟩
  exact ⟨d, v, h.trans hreach, hdone⟩

theorem returns_iff_of_blockStep {result : Option Nat} (h : blockStep M g b s = some (.goto c t)) :
    Returns M g b s result u ↔ Returns M g c t result u := by
  constructor
  · rintro ⟨d, v, hreach, hdone⟩
    rcases hreach.cases_head with ⟨rfl, rfl⟩ | ⟨c', t', hstep, hrest⟩
    · rw [h] at hdone
      cases hdone
    · rw [h] at hstep
      cases hstep
      exact ⟨d, v, hrest, hdone⟩
  · exact Returns.of_reaches (Reaches.single h)

end Execution

end Kcs
