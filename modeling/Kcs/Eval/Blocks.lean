import Kcs.Eval.Basic

/-!
# Blocks of a definition

Blocks are created while a definition is parsed, and their members are assigned.

Main results:

- Lemmas {lit}`cfgBlockInit_eq` and {lit}`updateBlock_eq`: the state after these steps.
-/

namespace Kcs

/-- `cfg_block_init` -/
def cfgBlockInit : EvalM BlockId := fun s =>
  .ok (s.blocks.length, { s with blocks := s.blocks ++ [{}] })

/-- Assignment to members of a block. -/
def updateBlock (b : BlockId) (f : Block → Block) : EvalM Unit :=
  modify fun s => { s with blocks := s.blocks.modify b f }

/-- The members of a block. -/
def blockOf (b : BlockId) : EvalM Block := fun s =>
  match s.blocks[b]? with
  | some blk => .ok (blk, s)
  | none => .error .aborted

/-- The expression of a block. -/
def blockExpr (b : BlockId) : EvalM Expression := fun s =>
  match s.blocks[b]? with
  | some blk => .ok (blk.expr, s)
  | none => .error .aborted

/-- Assignment to `jump[0]`. -/
def setJump0 (b target : BlockId) : EvalM Unit :=
  updateBlock b fun blk => { blk with jump0 := some target }

/-- Assignment to `jump[1]`. -/
def setJump1 (b target : BlockId) : EvalM Unit :=
  updateBlock b fun blk => { blk with jump1 := some target }

/-- Assignment to `expr`. -/
def setExpr (b : BlockId) (e : Expression) : EvalM Unit :=
  updateBlock b fun blk => { blk with expr := e }

section Blocks

variable {s s' : EvalState} {b : BlockId} {blk : Block}

theorem setJump0_eq (b target : BlockId) (s : EvalState) : setJump0 b target s =
    .ok ((), { s with blocks := s.blocks.modify b fun blk => { blk with jump0 := some target } }) :=
  rfl

theorem setJump1_eq (b target : BlockId) (s : EvalState) : setJump1 b target s =
    .ok ((), { s with blocks := s.blocks.modify b fun blk => { blk with jump1 := some target } }) :=
  rfl

theorem bind_of_ok {α β : Type} {c : EvalM α} {f : α → EvalM β} {a : α} (h : c s = .ok (a, s')) :
    (c >>= f) s = f a s' := by
  show (c s >>= fun p => f p.1 p.2) = _
  rw [h]
  rfl

theorem cfgBlockInit_eq (s : EvalState) :
    cfgBlockInit s = .ok (s.blocks.length, { s with blocks := s.blocks ++ [{}] }) := rfl

theorem updateBlock_eq (b : BlockId) (f : Block → Block) (s : EvalState) :
    updateBlock b f s = .ok ((), { s with blocks := s.blocks.modify b f }) := rfl

theorem getElem?_modify_self {g : Graph} {f : Block → Block} (h : g[b]? = some blk) :
    (g.modify b f)[b]? = some (f blk) := by
  rw [List.getElem?_modify, h]
  simp

theorem getElem?_modify_of_ne {g : Graph} {f : Block → Block} {c : BlockId} (hne : b ≠ c) :
    (g.modify b f)[c]? = g[c]? := by
  rw [List.getElem?_modify]
  simp [hne]

theorem getElem?_addBlock (g : Graph) : (g ++ [({} : Block)])[g.length]? = some {} := by
  rw [List.getElem?_append_right (le_refl _), Nat.sub_self]
  rfl

end Blocks

end Kcs
