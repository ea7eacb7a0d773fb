import Kcs.Lib.Chain
import Kcs.Optimizer.Serialize

/-!
# Jumps through empty blocks

Jumps to blocks without code are forwarded to where those blocks jump.  A cycle of empty blocks, as
of an empty infinite loop, is followed forever.

Main results:

- Theorem {lit}`SamePaths.forward`: one forwarded jump keeps the behaviour.
- Theorem {lit}`skipPass_right_iff`: the pass ends, and keeps the behaviour, when no cycle of empty
  blocks can be reached.
-/

namespace Kcs

open Option List

/-! ## The pass -/

/-- `jump[i]` -/
def Block.jump (blk : Block) (i : Fin 2) : Option BlockId :=
  match i with
  | 0 => blk.jump0
  | 1 => blk.jump1

/-- Assignment to `jump[i]`. -/
def Block.withJump (blk : Block) (i : Fin 2) (target : BlockId) : Block :=
  match i with
  | 0 => { blk with jump0 := some target }
  | 1 => { blk with jump1 := some target }

/-- Where an empty block jumps: it has no code and exactly the first jump. -/
def Block.emptyTarget (blk : Block) : Option BlockId :=
  if blk.code.isEmpty && blk.jump1.isNone then blk.jump0 else none

/-- Where the block at a position jumps if it is empty. -/
def emptyNext (g : Graph) (b : BlockId) : Option BlockId := (g[b]?).bind Block.emptyTarget

/-- The inner loop of `skip_empty_blocks`, with a bound on its steps. -/
def skipEdge (i : Fin 2) (block : BlockId) : Nat → Graph → Option Graph
  | 0, _ => none
  | fuel + 1, g =>
    (g[block]?).bind fun blk =>
      (blk.jump i).bind fun next =>
        (g[next]?).bind fun nextBlk =>
          match nextBlk.emptyTarget with
          | some target => skipEdge i block fuel (g.modify block (·.withJump i target))
          | none => some g

/-- `skip_empty_blocks` -/
def skipEmptyBlocks (fuel : Nat) (g : Graph) (block : BlockId) : Option Graph :=
  (g[block]?).bind fun blk =>
    if blk.jump0.isNone then some g
    else
      (skipEdge 0 block fuel g).bind fun g =>
        if blk.jump1.isNone then some g else skipEdge 1 block fuel g

/-- The first part of `optimize`: the list of blocks, and empty blocks skipped in all of them. -/
def skipPass (fuel : Nat) (g : Graph) (body : BlockId) : Option Graph :=
  (serializeBasicBlocks g fuel body []).bind fun blocklist =>
    blocklist.foldlM (skipEmptyBlocks fuel) g

/-! ## One forwarded jump -/

section Shortcut

variable {g g' : Graph} {b c d : BlockId} {blk : Block} {i : Fin 2}

theorem Block.jump_withJump (blk : Block) (i : Fin 2) (target : BlockId) :
    (blk.withJump i target).jump i = some target := by
  fin_cases i <;> rfl

theorem Block.jump_withJump_of_ne (blk : Block) {i j : Fin 2} (hne : i ≠ j) (target : BlockId) :
    (blk.withJump i target).jump j = blk.jump j := by
  fin_cases i <;> fin_cases j <;> first | rfl | exact absurd rfl hne

theorem Block.emptyTarget_withJump (hjump : blk.jump i = some c) (target : BlockId) :
    (blk.withJump i target).emptyTarget =
      if blk.emptyTarget = some c then some target else none := by
  match i with
  | 0 =>
    have h0 : blk.jump0 = some c := hjump
    have hnew : (blk.withJump 0 target).emptyTarget =
        if blk.code.isEmpty && blk.jump1.isNone then some target else none := rfl
    have hold : blk.emptyTarget =
        if blk.code.isEmpty && blk.jump1.isNone then some c else none := by
      rw [Block.emptyTarget, h0]
    rw [hnew, hold]
    split
    · rw [if_pos rfl]
    · rw [if_neg (some_ne_none c).symm]
  | 1 =>
    have h1 : blk.jump1 = some c := hjump
    simp [Block.emptyTarget, Block.withJump, h1]

theorem Block.emptyTarget_cases (hjump : blk.jump i = some c) :
    blk.emptyTarget = some c ∨ blk.emptyTarget = none := by
  unfold Block.emptyTarget
  split
  · rename_i hempty
    match i with
    | 0 => exact Or.inl hjump
    | 1 =>
      have h1 : blk.jump1 = some c := hjump
      simp [h1] at hempty
  · exact Or.inr rfl

theorem Block.mem_edges {blk : Block} (h : c ∈ blk.edges) : ∃ i, blk.jump i = some c := by
  unfold Block.edges at h
  split at h
  · cases h
  · rename_i x h0 _
    rw [mem_singleton] at h
    exact ⟨0, h ▸ h0⟩
  · rename_i x y h0 h1
    rcases mem_cons.mp h with rfl | h
    · exact ⟨0, h0⟩
    · rw [mem_singleton] at h
      exact ⟨1, h ▸ h1⟩

theorem getElem?_modify_cases (g : Graph) (b d : BlockId) (f : Block → Block) :
    (g.modify b f)[d]? = if d = b then (g[d]?).map f else g[d]? := by
  rw [getElem?_modify]
  by_cases hdb : b = d
  · subst hdb
    cases g[b]? <;> simp
  · simp [hdb, Ne.symm hdb]

theorem emptyNext_forward (hblk : g[b]? = some blk) (hjump : blk.jump i = some c)
    (target : BlockId) :
    emptyNext (g.modify b (·.withJump i target)) =
      if emptyNext g b = some c then Function.update (emptyNext g) b (some target)
      else emptyNext g := by
  funext d
  have hb : emptyNext g b = blk.emptyTarget := by rw [emptyNext, hblk, bind_some]
  rw [emptyNext, getElem?_modify_cases]
  by_cases hdb : d = b
  · subst hdb
    rw [if_pos rfl, hblk, map_some, bind_some, Block.emptyTarget_withJump hjump, hb]
    split
    · rw [Function.update_self]
    · rename_i hne
      exact (hb.trans ((Block.emptyTarget_cases hjump).resolve_left hne)).symm
  · rw [if_neg hdb]
    split
    · rw [Function.update_of_ne hdb]
      rfl
    · rfl

/-- Two graphs with the same blocks, up to jumps, and the same behaviour: every jump arrives at the
same block that is not empty, or stays in the same cycle of empty blocks. -/
structure SamePaths (g g' : Graph) : Prop where
  length : g'.length = g.length
  blocks : ∀ (b : BlockId) (blk blk' : Block), g[b]? = some blk → g'[b]? = some blk' →
    blk' = { blk with jump0 := blk'.jump0, jump1 := blk'.jump1 } ∧
      ∀ i, (blk'.jump i).isSome = (blk.jump i).isSome
  arrives : ∀ b t : BlockId, Arrives (emptyNext g') b t ↔ Arrives (emptyNext g) b t
  jumps : ∀ (b : BlockId) (blk blk' : Block) (i : Fin 2) (c c' : BlockId), g[b]? = some blk →
    g'[b]? = some blk' → blk.jump i = some c → blk'.jump i = some c' → ∀ t, Arrives (emptyNext g') c' t ↔ Arrives (emptyNext g) c t
  returns : ∀ {σ : Type} (M : IrMachine σ) (b : BlockId) (s t : σ) (result : Option Nat),
    Returns M g' b s result t ↔ Returns M g b s result t

theorem SamePaths.refl (g : Graph) : SamePaths g g where
  length := rfl
  blocks := by
    intro b blk blk' hblk hblk'
    rw [hblk, some.injEq] at hblk'
    subst hblk'
    exact ⟨rfl, fun _ => rfl⟩
  arrives _ _ := Iff.rfl
  jumps := by
    intro b blk blk' i c c' hblk hblk' hc hc' t
    rw [hblk, some.injEq] at hblk'
    subst hblk'
    rw [hc, some.injEq] at hc'
    subst hc'
    exact Iff.rfl
  returns _ _ _ _ _ := Iff.rfl

theorem SamePaths.trans {g'' : Graph} (h : SamePaths g g') (h' : SamePaths g' g'') :
    SamePaths g g'' where
  length := h'.length.trans h.length
  blocks := by
    intro b blk blk'' hblk hblk''
    have hlt : b < g'.length := by
      rw [h.length]
      exact (List.getElem?_eq_some_iff.mp hblk).1
    rcases exists_getElem?_of_lt hlt with ⟨blk', hblk'⟩
    rcases h.blocks b blk blk' hblk hblk' with ⟨hdata, hsome⟩
    rcases h'.blocks b blk' blk'' hblk' hblk'' with ⟨hdata', hsome'⟩
    refine ⟨?_, fun i => (hsome' i).trans (hsome i)⟩
    rw [hdata', hdata]
  arrives b t := (h'.arrives b t).trans (h.arrives b t)
  jumps := by
    intro b blk blk'' i c c'' hblk hblk'' hc hc'' t
    have hlt : b < g'.length := by
      rw [h.length]
      exact (List.getElem?_eq_some_iff.mp hblk).1
    rcases exists_getElem?_of_lt hlt with ⟨blk', hblk'⟩
    have hsome := (h.blocks b blk blk' hblk hblk').2 i
    rw [hc, isSome_some, isSome_iff_exists] at hsome
    rcases hsome with ⟨c', hc'⟩
    exact (h'.jumps b blk' blk'' i c' c'' hblk' hblk'' hc' hc'' t).trans
      (h.jumps b blk blk' i c c' hblk hblk' hc hc' t)
  returns M b s t result := (h'.returns M b s t result).trans (h.returns M b s t result)

variable {σ : Type} {M : IrMachine σ} {s t : σ} {result : Option Nat}

theorem leaveBlock_withJump (htable : blk.hasJumpTable = false) (hjump : blk.jump i = some c)
    (target : BlockId) (s : σ) :
    leaveBlock M (blk.withJump i target) s = leaveBlock M blk s ∨
      ∃ t, leaveBlock M blk s = some (.goto c t) ∧
        leaveBlock M (blk.withJump i target) s = some (.goto target t) := by
  match i with
  | 0 =>
    have h0 : blk.jump0 = some c := hjump
    simp only [leaveBlock, Block.withJump, htable, h0, Bool.false_eq_true, if_false]
    cases blk.jump1 with
    | none => exact Or.inr ⟨s, rfl, rfl⟩
    | some y =>
      cases M.value blk.expr s with
      | none => exact Or.inl rfl
      | some p =>
        by_cases hzero : p.1 = 0
        · exact Or.inr ⟨p.2, by simp [hzero], by simp [hzero]⟩
        · exact Or.inl (by simp [hzero])
  | 1 =>
    have h1 : blk.jump1 = some c := hjump
    simp only [leaveBlock, Block.withJump, htable, h1, Bool.false_eq_true, if_false]
    cases blk.jump0 with
    | none => exact Or.inl rfl
    | some x =>
      cases M.value blk.expr s with
      | none => exact Or.inl rfl
      | some p =>
        by_cases hzero : p.1 = 0
        · exact Or.inl (by simp [hzero])
        · exact Or.inr ⟨p.2, by simp [hzero], by simp [hzero]⟩

theorem Graph.Valid.table_eq_false (hvalid : g.Valid) (hblk : g[b]? = some blk)
    (h0 : blk.jump0.isSome = true) : blk.hasJumpTable = false := by
  by_contra htable
  rw [hvalid.table blk (mem_of_getElem? hblk) (by simpa using htable)] at h0
  cases h0

theorem blockStep_forward (hvalid : g.Valid) (hblk : g[b]? = some blk)
    (h0 : blk.jump0.isSome = true) (hjump : blk.jump i = some c) (target d : BlockId) (s : σ) :
    blockStep M (g.modify b (·.withJump i target)) d s = blockStep M g d s ∨
      ∃ t, d = b ∧ blockStep M g b s = some (.goto c t) ∧
        blockStep M (g.modify b (·.withJump i target)) b s = some (.goto target t) := by
  by_cases hdb : d = b
  · subst hdb
    have hcode : (blk.withJump i target).code = blk.code := by
      match i with
      | 0 => rfl
      | 1 => rfl
    have hnew : (g.modify d (·.withJump i target))[d]? = some (blk.withJump i target) := by
      rw [getElem?_modify_cases, if_pos rfl, hblk, map_some]
    rw [blockStep, blockStep, hnew, hblk, bind_some, bind_some, hcode]
    cases execCode M blk.code s with
    | none => exact Or.inl rfl
    | some u =>
      rcases leaveBlock_withJump (M := M) (hvalid.table_eq_false hblk h0) hjump target u with
        hsame | ⟨t, hold, hforward⟩
      · exact Or.inl hsame
      · exact Or.inr ⟨t, rfl, hold, hforward⟩
  · left
    rw [blockStep, blockStep, getElem?_modify_cases, if_neg hdb]

theorem blockStep_of_emptyNext (hvalid : g.Valid) (h : emptyNext g c = some d) (s : σ) :
    blockStep M g c s = some (.goto d s) := by
  rcases bind_eq_some_iff.mp h with ⟨blk, hblk, htarget⟩
  unfold Block.emptyTarget at htarget
  split at htarget
  · rename_i hempty
    rw [Bool.and_eq_true, List.isEmpty_iff, isNone_iff_eq_none] at hempty
    have htable := hvalid.table_eq_false hblk (by rw [htarget]; rfl)
    simp only [blockStep, hblk, bind_some, hempty.1, execCode_nil, leaveBlock, htable,
      htarget, hempty.2, Bool.false_eq_true, if_false]
  · cases htarget

/-- Runs are not changed by a forwarded jump. -/
theorem returns_forward_iff (hvalid : g.Valid) (hblk : g[b]? = some blk)
    (h0 : blk.jump0.isSome = true) (hjump : blk.jump i = some c) {target : BlockId}
    (htarget : emptyNext g c = some target) (d : BlockId) :
    Returns M (g.modify b (·.withJump i target)) d s result t ↔ Returns M g d s result t := by
  have hempty := blockStep_of_emptyNext (M := M) hvalid htarget
  constructor
  · rintro ⟨e, v, hreach, hdone⟩
    induction hreach with
    | refl e v =>
      rcases blockStep_forward (M := M) hvalid hblk h0 hjump target e v with
        hsame | ⟨u, rfl, -, hforward⟩
      · exact ⟨e, v, Reaches.refl e v, hsame ▸ hdone⟩
      · rw [hforward] at hdone
        cases hdone
    | @step x y _ s s' _ hstep _ ih =>
      rcases blockStep_forward (M := M) hvalid hblk h0 hjump target x s with
        hsame | ⟨u, rfl, hold, hforward⟩
      · exact (returns_iff_of_blockStep (hsame ▸ hstep)).mpr (ih hdone)
      · rw [hforward] at hstep
        cases hstep
        exact (returns_iff_of_blockStep hold).mpr
          ((returns_iff_of_blockStep (hempty _)).mpr (ih hdone))
  · rintro ⟨e, v, hreach, hdone⟩
    induction hreach with
    | refl e v =>
      rcases blockStep_forward (M := M) hvalid hblk h0 hjump target e v with
        hsame | ⟨u, rfl, hold, -⟩
      · exact ⟨e, v, Reaches.refl e v, hsame.trans hdone⟩
      · rw [hold] at hdone
        cases hdone
    | @step x y _ s s' _ hstep _ ih =>
      rcases blockStep_forward (M := M) hvalid hblk h0 hjump target x s with
        hsame | ⟨u, rfl, hold, hforward⟩
      · exact (returns_iff_of_blockStep (hsame.trans hstep)).mpr (ih hdone)
      · rw [hold] at hstep
        cases hstep
        -- The empty block still goes to the target.
        have hnext : blockStep M (g.modify x (·.withJump i target)) c s' =
            some (.goto target s') := by
          rcases blockStep_forward (M := M) hvalid hblk h0 hjump target c s' with
            hsame | ⟨u, hcb, hold', hforward'⟩
          · exact hsame.trans (hempty s')
          · rw [← hcb, hempty s'] at hold'
            cases hold'
            exact hcb ▸ hforward'
        exact (returns_iff_of_blockStep hforward).mpr
          ((returns_iff_of_blockStep hnext).mp (ih hdone))

theorem mem_edges_of_emptyTarget (h : blk.emptyTarget = some c) : c ∈ blk.edges := by
  unfold Block.emptyTarget at h
  split at h
  · rename_i hempty
    rw [Bool.and_eq_true, isNone_iff_eq_none] at hempty
    simp [Block.edges, h, hempty.2]
  · cases h

theorem mem_edges_of_jump (h0 : blk.jump0.isSome = true) (h : blk.jump i = some c) :
    c ∈ blk.edges := by
  rcases isSome_iff_exists.mp h0 with ⟨x, hx⟩
  match i with
  | 0 =>
    have hc : blk.jump0 = some c := h
    cases h1 : blk.jump1 with
    | none => simp [Block.edges, hc, h1]
    | some y => simp [Block.edges, hc, h1]
  | 1 =>
    have hc : blk.jump1 = some c := h
    simp [Block.edges, hx, hc]

theorem Graph.Valid.jump_lt (hvalid : g.Valid) (hblk : g[b]? = some blk)
    (h0 : blk.jump0.isSome = true) (h : blk.jump i = some c) : c < g.length :=
  hvalid.edges blk (mem_of_getElem? hblk) c (mem_edges_of_jump h0 h)

theorem Graph.Valid.emptyNext_lt (hvalid : g.Valid) (h : emptyNext g b = some c) :
    c < g.length := by
  rcases bind_eq_some_iff.mp h with ⟨blk, hblk, htarget⟩
  exact hvalid.edges blk (mem_of_getElem? hblk) c (mem_edges_of_emptyTarget htarget)

theorem Graph.Valid.forward (hvalid : g.Valid) (hblk : g[b]? = some blk)
    (h0 : blk.jump0.isSome = true) {target : BlockId} (hlt : target < g.length) :
    Graph.Valid (g.modify b (·.withJump i target)) := by
  have hcases : ∀ blk' ∈ g.modify b (·.withJump i target), blk' ∈ g ∨
      blk' = blk.withJump i target := by
    intro blk' hmem
    rcases mem_iff_getElem?.mp hmem with ⟨d, hd⟩
    rw [getElem?_modify_cases] at hd
    split at hd
    · rename_i hdb
      rw [hdb, hblk] at hd
      cases hd
      exact Or.inr rfl
    · exact Or.inl (mem_of_getElem? hd)
  constructor
  · intro blk' hmem d hd
    rw [length_modify]
    rcases hcases blk' hmem with hold | rfl
    · exact hvalid.edges blk' hold d hd
    · rcases Block.mem_edges hd with ⟨j, hj⟩
      by_cases hij : i = j
      · subst hij
        rw [Block.jump_withJump, some.injEq] at hj
        exact hj ▸ hlt
      · rw [Block.jump_withJump_of_ne blk hij] at hj
        exact hvalid.jump_lt hblk h0 hj
  · intro blk' hmem htable
    rcases hcases blk' hmem with hold | rfl
    · exact hvalid.table blk' hold htable
    · have hno := hvalid.table_eq_false hblk h0
      match i with
      | 0 => exact absurd (show blk.hasJumpTable = true from htable) (by simp [hno])
      | 1 => exact absurd (show blk.hasJumpTable = true from htable) (by simp [hno])

/-- One forwarded jump keeps the behaviour, where the chain of empty blocks ends. -/
theorem SamePaths.forward (hvalid : g.Valid) (hblk : g[b]? = some blk)
    (h0 : blk.jump0.isSome = true) (hjump : blk.jump i = some c) {target : BlockId}
    (htarget : emptyNext g c = some target) (hsettles : Settles (emptyNext g) c) :
    SamePaths g (g.modify b (·.withJump i target)) := by
  have harrives : ∀ d t, Arrives (emptyNext (g.modify b (·.withJump i target))) d t ↔
      Arrives (emptyNext g) d t := by
    intro d t
    rw [emptyNext_forward hblk hjump]
    split
    · rename_i hb
      refine arrives_update_iff hb htarget ⟨_, fun d hd => ?_⟩
      rw [hb, some.injEq] at hd
      exact hd ▸ hsettles
    · exact Iff.rfl
  refine ⟨length_modify _ _ _, ?_, harrives, ?_, ?_⟩
  · intro d old new hold hnew
    rw [getElem?_modify_cases] at hnew
    split at hnew
    · rename_i hdb
      rw [hdb, hblk] at hold
      cases hold
      rw [hdb, hblk, map_some, some.injEq] at hnew
      subst hnew
      refine ⟨?_, fun j => ?_⟩
      · match i with
        | 0 => rfl
        | 1 => rfl
      · by_cases hij : i = j
        · subst hij
          rw [Block.jump_withJump, hjump]
          rfl
        · rw [Block.jump_withJump_of_ne _ hij]
    · rw [hold] at hnew
      cases hnew
      exact ⟨rfl, fun _ => rfl⟩
  · intro d old new j e e' hold hnew he he' t
    rw [harrives]
    rw [getElem?_modify_cases] at hnew
    split at hnew
    · rename_i hdb
      rw [hdb, hblk] at hold
      cases hold
      rw [hdb, hblk, map_some, some.injEq] at hnew
      subst hnew
      by_cases hij : i = j
      · subst hij
        rw [Block.jump_withJump, some.injEq] at he'
        rw [hjump, some.injEq] at he
        subst he he'
        exact (arrives_iff_of_next htarget).symm
      · rw [Block.jump_withJump_of_ne _ hij, he, some.injEq] at he'
        subst he'
        exact Iff.rfl
    · rw [hold] at hnew
      cases hnew
      rw [he, some.injEq] at he'
      subst he'
      exact Iff.rfl
  · intro σ M d s t result
    exact returns_forward_iff hvalid hblk h0 hjump htarget d

end Shortcut

/-! ## The loop -/

section Loop

variable {g g' : Graph} {b c : BlockId} {blk : Block} {i : Fin 2} {fuel fuel' : Nat}

theorem skipEdge_succ {nextBlk : Block} (hblk : g[b]? = some blk) (hjump : blk.jump i = some c)
    (hnext : g[c]? = some nextBlk) :
    skipEdge i b (fuel + 1) g =
      match emptyNext g c with
      | some target => skipEdge i b fuel (g.modify b (·.withJump i target))
      | none => some g := by
  simp only [skipEdge, hblk, bind_some, hjump, hnext, emptyNext]

theorem skipEdge_mono (h : skipEdge i b fuel g = some g') (hle : fuel ≤ fuel') :
    skipEdge i b fuel' g = some g' := by
  induction fuel generalizing fuel' g with
  | zero => cases h
  | succ fuel ih =>
    cases fuel' with
    | zero => omega
    | succ fuel' =>
      rw [skipEdge] at h ⊢
      rcases bind_eq_some_iff.mp h with ⟨blk, hblk, h⟩
      rcases bind_eq_some_iff.mp h with ⟨c, hjump, h⟩
      rcases bind_eq_some_iff.mp h with ⟨nextBlk, hnext, h⟩
      rw [hblk, bind_some, hjump, bind_some, hnext, bind_some]
      split at h
      · exact ih h (by omega)
      · exact h

theorem getElem?_forward (hblk : g[b]? = some blk) (target : BlockId) :
    (g.modify b (·.withJump i target))[b]? = some (blk.withJump i target) := by
  rw [getElem?_modify_cases, if_pos rfl, hblk, map_some]

theorem Block.isSome_jump0_withJump (h0 : blk.jump0.isSome = true) (i : Fin 2)
    (target : BlockId) : (blk.withJump i target).jump0.isSome = true := by
  match i with
  | 0 => rfl
  | 1 => exact h0

theorem settles_forward_iff (hblk : g[b]? = some blk) (hjump : blk.jump i = some c)
    {target : BlockId} (htarget : emptyNext g c = some target) (d : BlockId) :
    Settles (emptyNext (g.modify b (·.withJump i target))) d ↔ Settles (emptyNext g) d := by
  rw [emptyNext_forward hblk hjump]
  split
  · rename_i hb
    rw [settles_iff_exists_endsAt, settles_iff_exists_endsAt]
    exact exists_congr fun t => endsAt_update_iff hb htarget
  · exact Iff.rfl

section

variable (hvalid : g.Valid) (hblk : g[b]? = some blk) (h0 : blk.jump0.isSome = true)
  (hjump : blk.jump i = some c) (h : skipEdge i b fuel g = some g')
include hvalid hblk h0 hjump h

theorem skipEdge_settles : Settles (emptyNext g) c := by
  induction fuel generalizing g blk c with
  | zero => cases h
  | succ fuel ih =>
    rcases exists_getElem?_of_lt (hvalid.jump_lt hblk h0 hjump) with ⟨nextBlk, hnext⟩
    rw [skipEdge_succ hblk hjump hnext] at h
    cases htarget : emptyNext g c with
    | none =>
      refine ⟨_, fun d hd => ?_⟩
      rw [htarget] at hd
      cases hd
    | some target =>
      rw [htarget] at h
      have hrest := ih (hvalid.forward hblk h0 (hvalid.emptyNext_lt htarget))
        (getElem?_forward hblk target) (Block.isSome_jump0_withJump h0 i target)
        (Block.jump_withJump blk i target) h
      refine ⟨_, fun d hd => ?_⟩
      rw [htarget, some.injEq] at hd
      exact hd ▸ (settles_forward_iff hblk hjump htarget target).mp hrest

theorem skipEdge_samePaths : g'.Valid ∧ SamePaths g g' := by
  induction fuel generalizing g blk c with
  | zero => cases h
  | succ fuel ih =>
    have hsettles := skipEdge_settles hvalid hblk h0 hjump h
    rcases exists_getElem?_of_lt (hvalid.jump_lt hblk h0 hjump) with ⟨nextBlk, hnext⟩
    rw [skipEdge_succ hblk hjump hnext] at h
    cases htarget : emptyNext g c with
    | none =>
      rw [htarget] at h
      have hg : g = g' := some.inj h
      exact hg ▸ ⟨hvalid, SamePaths.refl g⟩
    | some target =>
      rw [htarget] at h
      have hrest := ih (hvalid.forward hblk h0 (hvalid.emptyNext_lt htarget))
        (getElem?_forward hblk target) (Block.isSome_jump0_withJump h0 i target)
        (Block.jump_withJump blk i target) h
      exact ⟨hrest.1, (SamePaths.forward hvalid hblk h0 hjump htarget hsettles).trans hrest.2⟩

end

theorem skipEdge_isSome_of_settles {next : BlockId → Option BlockId} (hsettles : Settles next c)
    (hvalid : g.Valid) (hblk : g[b]? = some blk) (h0 : blk.jump0.isSome = true)
    (hjump : blk.jump i = some c) (hahead : ∀ d, Leads next c d → emptyNext g d = next d) :
    ∃ fuel g', skipEdge i b fuel g = some g' := by
  induction hsettles generalizing g blk with
  | intro c hacc ih =>
    rcases exists_getElem?_of_lt (hvalid.jump_lt hblk h0 hjump) with ⟨nextBlk, hnext⟩
    have hc := hahead c (Leads.refl c)
    cases htarget : next c with
    | none =>
      refine ⟨1, g, ?_⟩
      rw [skipEdge_succ hblk hjump hnext, hc, htarget]
    | some target =>
      have hsettles : Settles next c := ⟨c, hacc⟩
      rw [htarget] at hc
      have hahead' : ∀ d, Leads next target d →
          emptyNext (g.modify b (·.withJump i target)) d = next d := by
        intro d hd
        have hcd : Leads next c d := Leads.head htarget hd
        rw [emptyNext_forward hblk hjump]
        split
        · rename_i hb
          -- The block itself is not ahead: it would be on a cycle.
          have hdb : d ≠ b := by
            rintro rfl
            rw [hahead d hcd] at hb
            exact hsettles.not_leads hb hcd
          rw [Function.update_of_ne hdb, hahead d hcd]
        · exact hahead d hcd
      rcases ih target htarget (hvalid.forward hblk h0 (hvalid.emptyNext_lt hc))
        (getElem?_forward hblk target) (Block.isSome_jump0_withJump h0 i target)
        (Block.jump_withJump blk i target) hahead' with ⟨fuel, g', h⟩
      refine ⟨fuel + 1, g', ?_⟩
      rw [skipEdge_succ hblk hjump hnext, hc]
      exact h

theorem skipEdge_isSome (hvalid : g.Valid) (hblk : g[b]? = some blk)
    (h0 : blk.jump0.isSome = true) (hjump : blk.jump i = some c)
    (hsettles : Settles (emptyNext g) c) : ∃ fuel g', skipEdge i b fuel g = some g' :=
  skipEdge_isSome_of_settles hsettles hvalid hblk h0 hjump fun _ _ => rfl

end Loop

/-! ## All blocks -/

section Pass

variable {g g' : Graph} {b c body : BlockId} {blk : Block} {l : List BlockId} {fuel fuel' : Nat}

theorem SamePaths.emptyNext_eq_none_iff (h : SamePaths g g') (b : BlockId) :
    emptyNext g' b = none ↔ emptyNext g b = none := by
  by_cases hlt : b < g.length
  · rcases exists_getElem?_of_lt hlt with ⟨blk, hblk⟩
    rcases exists_getElem?_of_lt (h.length.symm ▸ hlt) with ⟨blk', hblk'⟩
    rcases h.blocks b blk blk' hblk hblk' with ⟨hdata, hsome⟩
    have hcode : blk'.code = blk.code := by rw [hdata]
    have h0 : blk'.jump0.isSome = blk.jump0.isSome := hsome 0
    have h1 : blk'.jump1.isSome = blk.jump1.isSome := hsome 1
    have hnone : blk'.jump1.isNone = blk.jump1.isNone := by
      rw [← not_isSome, ← not_isSome, h1]
    rw [emptyNext, emptyNext, hblk, hblk', bind_some, bind_some, Block.emptyTarget,
      Block.emptyTarget, hcode, hnone]
    split
    · rw [← not_isSome_iff_eq_none, ← not_isSome_iff_eq_none, h0]
    · exact Iff.rfl
  · rw [emptyNext, emptyNext, getElem?_eq_none (not_lt.mp hlt),
      getElem?_eq_none (h.length.symm ▸ not_lt.mp hlt)]

theorem SamePaths.settles_congr (h : SamePaths g g') {c c' : BlockId}
    (harrives : ∀ t, Arrives (emptyNext g') c' t ↔ Arrives (emptyNext g) c t) :
    Settles (emptyNext g') c' ↔ Settles (emptyNext g) c := by
  rw [settles_iff_exists_arrives, settles_iff_exists_arrives]
  exact exists_congr fun t => and_congr (harrives t) (h.emptyNext_eq_none_iff t)

/-- All jumps of a block lead to chains that end. -/
def JumpsSettle (g : Graph) (b : BlockId) : Prop :=
  ∀ blk, g[b]? = some blk → blk.jump0.isSome = true → ∀ i c, blk.jump i = some c →
    Settles (emptyNext g) c

theorem SamePaths.jumpsSettle_iff (h : SamePaths g g') (hblk : g[b]? = some blk) :
    JumpsSettle g' b ↔ JumpsSettle g b := by
  rcases exists_getElem?_of_lt (h.length.symm ▸ (List.getElem?_eq_some_iff.mp hblk).1) with
    ⟨blk', hblk'⟩
  have hsome := (h.blocks b blk blk' hblk hblk').2
  have hjumps : ∀ i, (∀ c', blk'.jump i = some c' → Settles (emptyNext g') c') ↔
      ∀ c, blk.jump i = some c → Settles (emptyNext g) c := by
    intro i
    have hi := hsome i
    cases hc : blk.jump i with
    | none =>
      rw [hc, isSome_none, isSome_eq_false_iff, isNone_iff_eq_none] at hi
      rw [hi]
      simp
    | some c =>
      rw [hc, isSome_some, isSome_iff_exists] at hi
      rcases hi with ⟨c', hc'⟩
      have hiff := h.settles_congr (h.jumps b blk blk' i c c' hblk hblk' hc hc')
      rw [hc']
      simpa using hiff
  have h0 : blk'.jump0.isSome = blk.jump0.isSome := hsome 0
  constructor
  · intro hsettle old hold hold0 i
    rw [hblk, some.injEq] at hold
    subst hold
    exact (hjumps i).mp (hsettle blk' hblk' (h0.trans hold0) i)
  · intro hsettle new hnew hnew0 i
    rw [hblk', some.injEq] at hnew
    subst hnew
    exact (hjumps i).mpr (hsettle blk hblk (h0.symm.trans hnew0) i)

/-- A block whose jumps are forwarded. -/
theorem skipEmptyBlocks_spec (hvalid : g.Valid) (hblk : g[b]? = some blk)
    (h : skipEmptyBlocks fuel g b = some g') : g'.Valid ∧ SamePaths g g' ∧ JumpsSettle g b := by
  rw [skipEmptyBlocks, hblk, bind_some] at h
  have hself : ∀ blk', g[b]? = some blk' → blk' = blk := fun blk' hblk' =>
    some.inj (hblk'.symm.trans hblk)
  cases h0 : blk.jump0 with
  | none =>
    rw [h0] at h
    have hg : g = g' := some.inj h
    refine hg ▸ ⟨hvalid, SamePaths.refl g, fun blk' hblk' hsome => ?_⟩
    rw [hself blk' hblk', h0] at hsome
    cases hsome
  | some x =>
    rw [h0] at h
    have hsome : blk.jump0.isSome = true := by rw [h0]; rfl
    rcases bind_eq_some_iff.mp h with ⟨g1, hok, hrest⟩
    have hx := skipEdge_settles hvalid hblk hsome (i := 0) h0 hok
    rcases skipEdge_samePaths hvalid hblk hsome (i := 0) h0 hok with ⟨hvalid1, hsame1⟩
    cases h1 : blk.jump1 with
    | none =>
      rw [h1] at hrest
      have hg : g1 = g' := some.inj hrest
      refine hg ▸ ⟨hvalid1, hsame1, fun blk' hblk' _ i c hc => ?_⟩
      rw [hself blk' hblk'] at hc
      match i with
      | 0 => exact some.inj (h0.symm.trans hc) ▸ hx
      | 1 => exact absurd (h1.symm.trans hc) (fun hno => nomatch hno)
    | some y =>
      rw [h1] at hrest
      replace hrest : skipEdge 1 b fuel g1 = some g' := hrest
      rcases exists_getElem?_of_lt (hsame1.length.symm ▸ (List.getElem?_eq_some_iff.mp hblk).1)
        with ⟨blk1, hblk1⟩
      have hjumps1 := (hsame1.blocks b blk blk1 hblk hblk1).2
      have hsome1 : blk1.jump0.isSome = true := (hjumps1 0).trans hsome
      have hy1 : blk1.jump1.isSome = true := (hjumps1 1).trans (by
        show blk.jump1.isSome = true
        rw [h1]
        rfl)
      rcases isSome_iff_exists.mp hy1 with ⟨y', hy'⟩
      have hsettles := skipEdge_settles hvalid1 hblk1 hsome1 (i := 1) hy' hrest
      rcases skipEdge_samePaths hvalid1 hblk1 hsome1 (i := 1) hy' hrest with ⟨hvalid2, hsame2⟩
      have hy := (hsame1.settles_congr
        (hsame1.jumps b blk blk1 1 y y' hblk hblk1 h1 hy')).mp hsettles
      refine ⟨hvalid2, hsame1.trans hsame2, fun blk' hblk' _ i c hc => ?_⟩
      rw [hself blk' hblk'] at hc
      match i with
      | 0 => exact some.inj (h0.symm.trans hc) ▸ hx
      | 1 => exact some.inj (h1.symm.trans hc) ▸ hy

theorem skipEmptyBlocks_mono (h : skipEmptyBlocks fuel g b = some g') (hle : fuel ≤ fuel') :
    skipEmptyBlocks fuel' g b = some g' := by
  rw [skipEmptyBlocks] at h ⊢
  rcases bind_eq_some_iff.mp h with ⟨blk, hblk, h⟩
  rw [hblk, bind_some]
  split at h
  · rw [if_pos (by assumption)]
    exact h
  · rw [if_neg (by assumption)]
    rcases bind_eq_some_iff.mp h with ⟨g1, hok, h⟩
    rw [skipEdge_mono hok hle, bind_some]
    split at h
    · rw [if_pos (by assumption)]
      exact h
    · rw [if_neg (by assumption)]
      exact skipEdge_mono h hle

theorem skipEmptyBlocks_isSome (hvalid : g.Valid) (hblk : g[b]? = some blk)
    (hsettle : JumpsSettle g b) : ∃ fuel g', skipEmptyBlocks fuel g b = some g' := by
  cases h0 : blk.jump0 with
  | none =>
    refine ⟨0, g, ?_⟩
    rw [skipEmptyBlocks, hblk, bind_some, h0]
    rfl
  | some x =>
    have hsome : blk.jump0.isSome = true := by rw [h0]; rfl
    rcases skipEdge_isSome hvalid hblk hsome (i := 0) h0 (hsettle blk hblk hsome 0 x h0) with
      ⟨fuel1, g1, hok1⟩
    rcases skipEdge_samePaths hvalid hblk hsome (i := 0) h0 hok1 with ⟨hvalid1, hsame1⟩
    cases h1 : blk.jump1 with
    | none =>
      refine ⟨fuel1, g1, ?_⟩
      rw [skipEmptyBlocks, hblk, bind_some, h0, h1]
      exact bind_eq_some_iff.mpr ⟨g1, hok1, rfl⟩
    | some y =>
      rcases exists_getElem?_of_lt (hsame1.length.symm ▸ (List.getElem?_eq_some_iff.mp hblk).1)
        with ⟨blk1, hblk1⟩
      have hjumps1 := (hsame1.blocks b blk blk1 hblk hblk1).2
      have hsome1 : blk1.jump0.isSome = true := (hjumps1 0).trans hsome
      have hy1 : blk1.jump1.isSome = true := (hjumps1 1).trans (by
        show blk.jump1.isSome = true
        rw [h1]
        rfl)
      rcases isSome_iff_exists.mp hy1 with ⟨y', hy'⟩
      have hsettle1 := (hsame1.jumpsSettle_iff hblk).mpr hsettle blk1 hblk1 hsome1 1 y' hy'
      rcases skipEdge_isSome hvalid1 hblk1 hsome1 (i := 1) hy' hsettle1 with ⟨fuel2, g2, hok2⟩
      refine ⟨max fuel1 fuel2, g2, ?_⟩
      rw [skipEmptyBlocks, hblk, bind_some, h0, h1]
      exact bind_eq_some_iff.mpr ⟨g1, skipEdge_mono hok1 (le_max_left _ _),
        skipEdge_mono hok2 (le_max_right _ _)⟩

theorem foldlM_skipEmptyBlocks_spec (hvalid : g.Valid) (hl : ∀ b ∈ l, b < g.length)
    (h : l.foldlM (skipEmptyBlocks fuel) g = some g') :
    g'.Valid ∧ SamePaths g g' ∧ ∀ b ∈ l, JumpsSettle g b := by
  induction l generalizing g with
  | nil =>
    have hg : g = g' := some.inj h
    exact hg ▸ ⟨hvalid, SamePaths.refl g, fun _ hb => nomatch hb⟩
  | cons b l ih =>
    rw [forall_mem_cons] at hl
    rw [foldlM_cons] at h
    rcases bind_eq_some_iff.mp h with ⟨g1, hok, hrest⟩
    rcases exists_getElem?_of_lt hl.1 with ⟨blk, hblk⟩
    rcases skipEmptyBlocks_spec hvalid hblk hok with ⟨hvalid1, hsame1, hb⟩
    rcases ih hvalid1 (hsame1.length.symm ▸ hl.2) hrest with ⟨hvalid2, hsame2, hsettle⟩
    refine ⟨hvalid2, hsame1.trans hsame2, ?_⟩
    rw [forall_mem_cons]
    refine ⟨hb, fun c hc => ?_⟩
    rcases exists_getElem?_of_lt (hl.2 c hc) with ⟨blk', hblk'⟩
    exact (hsame1.jumpsSettle_iff hblk').mp (hsettle c hc)

theorem foldlM_skipEmptyBlocks_isSome (hvalid : g.Valid) (hl : ∀ b ∈ l, b < g.length)
    (hsettle : ∀ b ∈ l, JumpsSettle g b) :
    ∃ fuel g', l.foldlM (skipEmptyBlocks fuel) g = some g' := by
  induction l generalizing g with
  | nil => exact ⟨0, g, rfl⟩
  | cons b l ih =>
    rw [forall_mem_cons] at hl hsettle
    rcases exists_getElem?_of_lt hl.1 with ⟨blk, hblk⟩
    rcases skipEmptyBlocks_isSome hvalid hblk hsettle.1 with ⟨fuel1, g1, hok1⟩
    rcases skipEmptyBlocks_spec hvalid hblk hok1 with ⟨hvalid1, hsame1, -⟩
    have hsettle1 : ∀ c ∈ l, JumpsSettle g1 c := by
      intro c hc
      rcases exists_getElem?_of_lt (hl.2 c hc) with ⟨blk', hblk'⟩
      exact (hsame1.jumpsSettle_iff hblk').mpr (hsettle.2 c hc)
    rcases ih hvalid1 (hsame1.length.symm ▸ hl.2) hsettle1 with ⟨fuel2, g2, hok2⟩
    refine ⟨max fuel1 fuel2, g2, ?_⟩
    rw [foldlM_cons]
    exact bind_eq_some_iff.mpr ⟨g1, skipEmptyBlocks_mono hok1 (le_max_left _ _),
      foldlM_mono (fun _ _ _ h => skipEmptyBlocks_mono h (le_max_right _ _)) hok2⟩

/-- No cycle of empty blocks can be reached. -/
def NoEmptyCycle (g : Graph) (body : BlockId) : Prop :=
  ∀ b, Follows g body b → ∀ c, emptyNext g b = some c → ¬ Leads (emptyNext g) c b

theorem follows_of_emptyNext (h : emptyNext g b = some c) :
    ∃ blk, g[b]? = some blk ∧ c ∈ blk.edges := by
  rcases bind_eq_some_iff.mp h with ⟨blk, hblk, htarget⟩
  exact ⟨blk, hblk, mem_edges_of_emptyTarget htarget⟩

theorem Follows.lt (h : Follows g body b) (hvalid : g.Valid) (hbody : body < g.length) :
    b < g.length := by
  induction h with
  | refl => exact hbody
  | tail _ hstep _ =>
    rcases hstep with ⟨blk, hblk, hmem⟩
    exact hvalid.edges blk (mem_of_getElem? hblk) _ hmem

theorem NoEmptyCycle.settles (h : NoEmptyCycle g body) (hvalid : g.Valid)
    (hbody : body < g.length) (hb : Follows g body b) : Settles (emptyNext g) b := by
  have hfinite : Finite {b | Follows g body b} := by
    refine Set.Finite.subset (Set.finite_lt_nat g.length) ?_
    exact fun b hb => Follows.lt hb hvalid hbody
  refine settles_of_acyclic (s := {b | Follows g body b}) ?_ h hb
  exact fun a ha b hab => Relation.ReflTransGen.tail ha (follows_of_emptyNext hab)

theorem follows_of_listed (h : Listed g [body] [] l) (hb : b ∈ l) : Follows g body b := by
  rcases h.reachable b hb not_mem_nil with ⟨a, ha, hfollows⟩
  rw [mem_singleton] at ha
  exact ha ▸ hfollows

theorem listed_of_follows (h : Listed g [body] [] l) (hb : Follows g body b) : b ∈ l := by
  induction hb with
  | refl => exact h.met body (mem_singleton_self body)
  | tail _ hstep ih =>
    rcases hstep with ⟨blk, hblk, hmem⟩
    rcases h.closed _ ih not_mem_nil with ⟨blk', hblk', hedges⟩
    rw [hblk, some.injEq] at hblk'
    subst hblk'
    exact hedges _ hmem

theorem noEmptyCycle_of_skipPass (hvalid : g.Valid) (hbody : body < g.length)
    (h : skipPass fuel g body = some g') : NoEmptyCycle g body := by
  rcases bind_eq_some_iff.mp h with ⟨l, hlist, hfold⟩
  have hlisted := serializeBasicBlocks_listed hlist
  rcases foldlM_skipEmptyBlocks_spec hvalid
    (fun b hb => (follows_of_listed hlisted hb).lt hvalid hbody) hfold with ⟨-, -, hsettle⟩
  intro b hb c hc
  rcases bind_eq_some_iff.mp hc with ⟨blk, hblk, htarget⟩
  have h0 : blk.jump0 = some c := by
    unfold Block.emptyTarget at htarget
    split at htarget
    · exact htarget
    · cases htarget
  have hc' := hsettle b (listed_of_follows hlisted hb) blk hblk (by rw [h0]; rfl) 0 c h0
  exact hc'.not_leads hc

/-- The pass ends, with the same behaviour of all blocks, exactly when no cycle of empty blocks can
be reached. -/
theorem skipPass_right_iff (g : Graph) (body : BlockId) (hvalid : g.Valid)
    (hbody : body < g.length) :
    (∃ fuel g', skipPass fuel g body = some g' ∧ SamePaths g g') ↔ NoEmptyCycle g body := by
  constructor
  · rintro ⟨fuel, g', h, -⟩
    exact noEmptyCycle_of_skipPass hvalid hbody h
  · intro hcycle
    rcases serializeBasicBlocks_isSome hvalid hbody (l := []) (Nat.lt_succ_self _) with
      ⟨l, hlist⟩
    have hlisted := serializeBasicBlocks_listed hlist
    have hlt : ∀ b ∈ l, b < g.length := fun b hb =>
      (follows_of_listed hlisted hb).lt hvalid hbody
    have hsettle : ∀ b ∈ l, JumpsSettle g b := by
      intro b hb blk hblk h0 i c hc
      refine hcycle.settles hvalid hbody ?_
      exact Relation.ReflTransGen.tail (follows_of_listed hlisted hb)
        ⟨blk, hblk, mem_edges_of_jump h0 hc⟩
    rcases foldlM_skipEmptyBlocks_isSome hvalid hlt hsettle with ⟨fuel, g', hfold⟩
    refine ⟨max ((unlisted g []).card + 1) fuel, g', ?_,
      (foldlM_skipEmptyBlocks_spec hvalid hlt hfold).2.1⟩
    exact bind_eq_some_iff.mpr ⟨l, serializeBasicBlocks_mono hlist (le_max_left _ _),
      foldlM_mono (fun _ _ _ h => skipEmptyBlocks_mono h (le_max_right _ _)) hfold⟩

end Pass

/-! ## Examples -/

/-- The blocks of `while (1);`: the one before the loop, its head, its top, its body and the one
behind it. -/
def emptyLoop : Graph :=
  [{ jump0 := some 1 }, { jump0 := some 2 }, { jump0 := some 3 }, { jump0 := some 2 }, {}]

theorem emptyLoop_valid : emptyLoop.Valid where
  edges := by decide
  table := by decide

/-- The top and the body of the loop are followed forever. -/
theorem not_skipPass_emptyLoop :
    ¬ ∃ fuel g', skipPass fuel emptyLoop 0 = some g' ∧ SamePaths emptyLoop g' := by
  rintro ⟨fuel, g', h, -⟩
  have hcycle := noEmptyCycle_of_skipPass emptyLoop_valid (by decide) h
  have hstep : ∀ b c, emptyNext emptyLoop b = some c →
      ∃ blk, emptyLoop[b]? = some blk ∧ c ∈ blk.edges := fun _ _ => follows_of_emptyNext
  have htop : Follows emptyLoop 0 2 :=
    .tail (.single (hstep 0 1 rfl)) (hstep 1 2 rfl)
  exact hcycle 2 htop 3 rfl (Leads.head rfl (Leads.refl 2))

/-- A jump to an empty block. -/
def emptyChain : Graph := [{ jump0 := some 1 }, { jump0 := some 2 }, {}]

theorem lt_of_emptyNext_emptyChain {b c : Nat} (h : emptyNext emptyChain b = some c) : b < c := by
  match b with
  | 0 => exact Nat.lt_of_lt_of_eq Nat.zero_lt_one (some.inj h)
  | 1 => exact Nat.lt_of_lt_of_eq Nat.one_lt_two (some.inj h)
  | 2 => exact absurd h (fun hno => nomatch hno)
  | n + 3 => exact absurd h (fun hno => nomatch hno)

/-- The jump is forwarded. -/
theorem skipPass_right_emptyChain :
    ∃ fuel g', skipPass fuel emptyChain 0 = some g' ∧ SamePaths emptyChain g' := by
  refine (skipPass_right_iff emptyChain 0 ⟨by decide, by decide⟩ (by decide)).mpr ?_
  intro b _ c hc hleads
  have hle : ∀ d, Leads (emptyNext emptyChain) c d → c ≤ d := by
    intro d hd
    induction hd with
    | refl => exact Nat.le_refl c
    | tail _ hstep ih => exact Nat.le_trans ih (Nat.le_of_lt (lt_of_emptyNext_emptyChain hstep))
  exact Nat.not_lt.mpr (hle b hleads) (lt_of_emptyNext_emptyChain hc)

end Kcs
