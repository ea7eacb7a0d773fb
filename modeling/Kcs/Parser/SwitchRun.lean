import Kcs.Parser.SwitchTarget

/-!
# Runs of linked blocks

The blocks that linking a `switch` adds are run until control leaves them.

Main results:

- Lemma {lit}`Through.unique`: where control leaves the new blocks.
- Lemma {lit}`setComparison_spec`: a block is given the comparison of two integers.
-/

namespace Kcs

/-! ## Runs of new blocks -/

/-- A run of blocks from a position on, to the first block before it. -/
inductive Through {σ : Type} (M : IrMachine σ) (g : Graph) (first : Nat) :
    BlockId → σ → BlockId → σ → Prop
  | stop {b : BlockId} {s : σ} (hb : b < first) : Through M g first b s b s
  | step {b c d : BlockId} {s t u : σ} (hb : first ≤ b)
      (hstep : blockStep M g b s = some (.goto c t)) (hrest : Through M g first c t d u) :
      Through M g first b s d u

section Through

variable {σ : Type} {M : IrMachine σ} {g g' : Graph} {first first' : Nat} {b c d : BlockId}
  {s t u : σ}

/-- Control leaves the new blocks at one block. -/
theorem Through.unique (h : Through M g first b s c t) (h' : Through M g first b s d u) :
    c = d ∧ t = u := by
  induction h with
  | stop hb =>
    cases h' with
    | stop => exact ⟨rfl, rfl⟩
    | step hb' => exact absurd hb (Nat.not_lt.mpr hb')
  | step hb hstep _ ih =>
    cases h' with
    | stop hb' => exact absurd hb' (Nat.not_lt.mpr hb)
    | step _ hstep' hrest' =>
      rw [hstep] at hstep'
      cases hstep'
      exact ih hrest'

theorem Through.lower (h : Through M g first b s d u) (hle : first' ≤ first) (hd : d < first') :
    Through M g first' b s d u := by
  induction h with
  | stop => exact .stop hd
  | step hb hstep _ ih => exact .step (Nat.le_trans hle hb) hstep (ih hd)

theorem Through.congr (h : Through M g first b s d u)
    (hg : ∀ c blk, first ≤ c → g[c]? = some blk → g'[c]? = some blk) :
    Through M g' first b s d u := by
  induction h with
  | stop hb => exact .stop hb
  | step hb hstep _ ih =>
    refine .step hb ?_ ih
    rcases Option.bind_eq_some_iff.mp hstep with ⟨blk, hblk, hrest⟩
    rw [blockStep, hg _ blk hb hblk]
    exact hrest

end Through

/-- From any memory that differs from the given one in the given symbols only, the new blocks lead
to a block, changing such symbols only. -/
def LeadsOut [HostFloat] (env : RunEnv) (P : Nat → Prop) (m0 : Memory) (g : Graph) (first : Nat)
    (b target : BlockId) : Prop :=
  ∀ m, AgreeOutside env P m0 m → ∀ params trace, ∃ m', AgreeOutside env P m m' ∧
    Through (irMachine env) g first b { mem := m, params := params, trace := trace } target
      { mem := m', params := params, trace := trace }

section LeadsOut

variable [HostFloat] {env : RunEnv} {P : Nat → Prop} {m0 : Memory} {g g' : Graph}
  {first first' : Nat} {b target : BlockId} {blk : Block} {p : Bool}

theorem LeadsOut.stop (hb : b < first) : LeadsOut env P m0 g first b b :=
  fun m _ _ _ => ⟨m, AgreeOutside.refl env P m, .stop hb⟩

theorem LeadsOut.lower (h : LeadsOut env P m0 g first b target) (hle : first' ≤ first)
    (htarget : target < first') : LeadsOut env P m0 g first' b target := by
  intro m hm params trace
  rcases h m hm params trace with ⟨m', hm', hrun⟩
  exact ⟨m', hm', hrun.lower hle htarget⟩

theorem LeadsOut.congr (h : LeadsOut env P m0 g first b target)
    (hg : ∀ c blk, first ≤ c → g[c]? = some blk → g'[c]? = some blk) :
    LeadsOut env P m0 g' first b target := by
  intro m hm params trace
  rcases h m hm params trace with ⟨m', hm', hrun⟩
  exact ⟨m', hm', hrun.congr hg⟩

theorem LeadsOut.branch {no yes : BlockId} (hb : first ≤ b) (hblk : g[b]? = some blk)
    (htable : blk.hasJumpTable = false) (h0 : blk.jump0 = some no) (h1 : blk.jump1 = some yes)
    (hcompare : ComparesTo env P m0 blk.code blk.expr p)
    (hnext : LeadsOut env P m0 g first (if p then yes else no) target) :
    LeadsOut env P m0 g first b target := by
  intro m hm params trace
  rcases hcompare m hm with ⟨m1, hm1, hop, hvalue, hrun⟩
  rcases hnext m1 (hm.trans hm1) params trace with ⟨m2, hm2, hthrough⟩
  refine ⟨m2, hm1.trans hm2, .step hb ?_ hthrough⟩
  have hexpr : (irMachine env).value blk.expr { mem := m1, params := params, trace := trace } =
      some (p.toNat, { mem := m1, params := params, trace := trace }) := by
    simp [irMachine, exprValue, hop, hvalue]
  simp only [blockStep, hblk, Option.bind_some, hrun params trace, leaveBlock, htable, h0, h1,
    hexpr]
  cases p <;> rfl

end LeadsOut

/-! ## Growing definitions -/

/-- A definition has got new blocks and symbols, and the old blocks are as they were. -/
structure Grown (s s' : EvalState) : Prop where
  types : s'.types = s.types
  symbols : s.symbols.length ≤ s'.symbols.length
  size : s.blocks.length ≤ s'.blocks.length
  old : ∀ c < s.blocks.length, s'.blocks[c]? = s.blocks[c]?

section Grown

variable {s s' s'' : EvalState} {b : BlockId} {blk : Block}

theorem Grown.refl (s : EvalState) : Grown s s := ⟨rfl, le_refl _, le_refl _, fun _ _ => rfl⟩

theorem Grown.trans (h : Grown s s') (h' : Grown s' s'') : Grown s s'' where
  types := h'.types.trans h.types
  symbols := h.symbols.trans h'.symbols
  size := h.size.trans h'.size
  old c hc := (h'.old c (lt_of_lt_of_le hc h.size)).trans (h.old c hc)

theorem Grown.getElem? (h : Grown s s') (hblk : s.blocks[b]? = some blk) :
    s'.blocks[b]? = some blk :=
  (h.old b (List.getElem?_eq_some_iff.mp hblk).1).trans hblk

theorem Grown.modify (h : Grown s s') (hb : s.blocks.length ≤ b) (f : Block → Block) :
    Grown s { s' with blocks := s'.blocks.modify b f } where
  types := h.types
  symbols := h.symbols
  size := by
    show _ ≤ (s'.blocks.modify b f).length
    rw [List.length_modify]
    exact h.size
  old c hc := by
    show (s'.blocks.modify b f)[c]? = _
    have hne : b ≠ c := Nat.ne_of_gt (lt_of_lt_of_le hc hb)
    rw [List.getElem?_modify]
    simp [hne, h.old c hc]

theorem Grown.addBlock (h : Grown s s') : Grown s { s' with blocks := s'.blocks ++ [{}] } where
  types := h.types
  symbols := h.symbols
  size := by
    show _ ≤ (s'.blocks ++ [({} : Block)]).length
    rw [List.length_append]
    exact Nat.le_add_right_of_le h.size
  old c hc := by
    show (s'.blocks ++ [({} : Block)])[c]? = _
    rw [List.getElem?_append_left (lt_of_lt_of_le hc h.size), h.old c hc]

theorem Grown.step {f : Block → Block} (h : Grown s s') (htypes : s''.types = s'.types)
    (hsymbols : s'.symbols.length ≤ s''.symbols.length)
    (hblocks : s''.blocks = s'.blocks.modify b f) (hb : s.blocks.length ≤ b) : Grown s s'' where
  types := htypes.trans h.types
  symbols := h.symbols.trans hsymbols
  size := hblocks ▸ (h.modify hb f).size
  old := hblocks ▸ (h.modify hb f).old

end Grown

theorem LeadsOut.modify [HostFloat] {env : RunEnv} {P : Nat → Prop} {m0 : Memory} {g : Graph}
    {first : Nat} {b c target : BlockId} (h : LeadsOut env P m0 g first b target) (hc : c < first)
    (f : Block → Block) : LeadsOut env P m0 (g.modify c f) first b target :=
  h.congr fun d blk hd hblk =>
    (getElem?_modify_of_ne (Nat.ne_of_lt (lt_of_lt_of_le hc hd))).trans hblk

theorem LeadsOut.grown [HostFloat] {env : RunEnv} {P : Nat → Prop} {m0 : Memory}
    {s s' : EvalState} {first : Nat} {b target : BlockId}
    (h : LeadsOut env P m0 s.blocks first b target) (hs : Grown s s') :
    LeadsOut env P m0 s'.blocks first b target :=
  h.congr fun _ _ _ hblk => hs.getElem? hblk

/-! ## Comparisons of integers -/

section Compare

variable [HostFloat] [LawfulHostFloat] {env : RunEnv} {R : Nat → Prop} {m0 : Memory}
  {l r : Var} {a k : Int} {s : EvalState} {b : BlockId} {blk : Block}

/-- A comparison of integers as a truth value. -/
def comparisonHolds (o : CInteger.BinaryOp) (a k : Int) : Bool :=
  if o = .eq then a = k else k < a

/-- A block is given the comparison of two integers. -/
theorem setComparison_spec {o : CInteger.BinaryOp} (ho : o = .eq ∨ o = .gt)
    (hl : Held env R m0 l a) (hr : Held env R m0 r k) (h1 : l.type.cInteger = some .int)
    (h2 : r.type.cInteger = some .int) (ha : (CInteger.format .int).InRange a)
    (hk : (CInteger.format .int).InRange k) (hroom : Room env s.symbols.length)
    (hR : ∀ id, s.symbols.length ≤ id → R id) (hblk : s.blocks[b]? = some blk) :
    ∃ s' code e, setComparison b (opType o) l r s = .ok ((), s') ∧ s'.types = s.types ∧
      s.symbols.length ≤ s'.symbols.length ∧
      s'.blocks = s.blocks.modify b
        (fun blk => { blk with code := blk.code ++ code, expr := e }) ∧
      ComparesTo env R m0 code e (comparisonHolds o a k) := by
  have hb := (List.getElem?_eq_some_iff.mp hblk).1
  have hp : CInteger.binary o (CInteger.common .int .int)
      ((CInteger.common .int .int).convert a) ((CInteger.common .int .int).convert k) =
      some (CInteger.ofBool (comparisonHolds o a k)) := by
    have hcommon : CInteger.common .int .int = .int := by decide
    rw [hcommon, CInteger.convert_of_inRange ha, CInteger.convert_of_inRange hk]
    rcases ho with rfl | rfl
    · rfl
    · rfl
  rcases setComparison_compares ho hl hr h1 h2 hroom hR hb hp with
    ⟨s', code, e, hok, htypes, hsymbols, hblocks, hcompare⟩
  exact ⟨s', code, e, hok, htypes, hsymbols, hblocks,
    hcompare R (fun _ hid => hid) fun id hlo _ => hR id hlo⟩

end Compare

end Kcs
