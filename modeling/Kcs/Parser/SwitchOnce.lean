import Kcs.Eval.Emission
import Kcs.Parser.Switch

/-!
# Evaluation of the controlling expression

How often the code on a path from the head of a `switch` to a label evaluates
the controlling expression.  The chain of comparisons evaluates it once for
each case, all in the head; the binary search and the jump table evaluate it
once.

Main results:

- Theorem {lit}`switch_evaluatedOnce_iff`: exactly once means one case or more
  than four.
-/

namespace Kcs

open Option List

/-! ## Paths -/

/-- Blocks that control may reach next. -/
def Block.successors (blk : Block) : List BlockId :=
  if blk.hasJumpTable then blk.jumpTable.map (·.label) else blk.jump0.toList ++ blk.jump1.toList

/-- A path to the first of the targets, with the code of the blocks before it. -/
inductive SwitchPath (g : Graph) (targets : List BlockId) :
    BlockId → List Statement → BlockId → Prop
  | stop {b : BlockId} (hb : b ∈ targets) : SwitchPath g targets b [] b
  | step {b c target : BlockId} {blk : Block} {code : List Statement} (hb : b ∉ targets)
      (hblk : g[b]? = some blk) (hc : c ∈ blk.successors)
      (hrest : SwitchPath g targets c code target) :
      SwitchPath g targets b (blk.code ++ code) target

/-- Number of statements that evaluate an expression. -/
def evaluations (e : Expression) (code : List Statement) : Nat :=
  code.countP fun st => st.expr = e

/-- Labels of a switch: the cases, and the default label or the block after it. -/
def SwitchContext.targets (ctx : SwitchContext) (next : BlockId) : List BlockId :=
  ctx.last next :: ctx.cases.map (·.label)

/-- A switch that is ready to be linked: the head holds an expression of integer
type and has no successors yet, the labels are other blocks, and the expression
names symbols that exist. -/
structure OpenSwitch (s : EvalState) (ctx : SwitchContext) (parent next : BlockId)
    (head : Block) : Prop where
  atParent : s.blocks[parent]? = some head
  jump0 : head.jump0 = none
  jump1 : head.jump1 = none
  table : head.hasJumpTable = false
  isInteger : head.expr.type.isInteger = true
  ref : head.expr.type.ref = 0
  symbol : ∀ sym, head.expr.l.symbol = some sym → sym.id < s.symbols.length
  targets : ∀ b ∈ ctx.targets next, b < s.blocks.length ∧ b ≠ parent
  immediate : ∀ sc ∈ ctx.cases, sc.value.kind = .immediate

/-- Every path from the head to a label evaluates the controlling expression
exactly once, beyond the code that the head had before it was linked. -/
def EvaluatedOnce (g : Graph) (ctx : SwitchContext) (parent next : BlockId) (head : Block) :
    Prop :=
  ∀ code target, SwitchPath g (ctx.targets next) parent code target →
    evaluations head.expr (code.drop head.code.length) = 1

/-! ## The graph while it is linked -/

/-- What has been linked: the head has got the given code, new blocks compute
from new symbols, and all edges lead to new blocks or labels. -/
structure Linked (N n : Nat) (targets : List BlockId) (parent : BlockId) (head : Block)
    (code : List Statement) (g : Graph) : Prop where
  size : N ≤ g.length
  parent : ∃ jump0, g[parent]? = some { head with code := head.code ++ code, jump0 := jump0 } ∧
    ∀ d ∈ jump0, N ≤ d ∨ d ∈ targets
  fresh : ∀ c blk, N ≤ c → g[c]? = some blk →
    (∀ st ∈ blk.code, st.IsFresh n) ∧ ∀ d ∈ blk.successors, N ≤ d ∨ d ∈ targets

theorem getElem?_modify_block (g : Graph) (b c : BlockId) (f : Block → Block) :
    (g.modify b f)[c]? = if b = c then g[c]?.map f else g[c]? := by
  rw [getElem?_modify]
  split <;> cases g[c]? <;> rfl

section Linked

variable {N n : Nat} {targets : List BlockId} {parent b c : BlockId} {head : Block}
  {code code' : List Statement} {g : Graph}

section

variable (h : Linked N n targets parent head code g)
include h

theorem Linked.addBlock :
    Linked N n targets parent head code (g ++ [({} : Block)]) where
  size := by
    rw [length_append]
    exact Nat.le_add_right_of_le h.size
  parent := by
    rcases h.parent with ⟨jump0, hparent, hjump0⟩
    have hlt := (List.getElem?_eq_some_iff.mp hparent).1
    exact ⟨jump0, by rw [getElem?_append_left hlt]; exact hparent, hjump0⟩
  fresh := by
    intro c blk hc hblk
    by_cases hlt : c < g.length
    · rw [getElem?_append_left hlt] at hblk
      exact h.fresh c blk hc hblk
    · rw [getElem?_append_right (Nat.le_of_not_lt hlt)] at hblk
      have hmem := mem_of_getElem? hblk
      have hempty : blk = {} := by simpa using hmem
      subst hempty
      simp [Block.successors]

theorem Linked.modifyNew (hb : N ≤ b)
    (hparent : parent < N) {f : Block → Block}
    (hcode : ∀ blk, ∀ st ∈ (f blk).code, st ∈ blk.code ∨ st.IsFresh n)
    (hsucc : ∀ blk, ∀ d ∈ (f blk).successors, d ∈ blk.successors ∨ N ≤ d ∨ d ∈ targets) :
    Linked N n targets parent head code (g.modify b f) where
  size := by simpa using h.size
  parent := by
    rcases h.parent with ⟨jump0, hhead, hjump0⟩
    refine ⟨jump0, ?_, hjump0⟩
    rw [getElem?_modify_block, if_neg (Nat.ne_of_gt (lt_of_lt_of_le hparent hb))]
    exact hhead
  fresh := by
    intro c blk hc hblk
    rw [getElem?_modify_block] at hblk
    split at hblk
    · simp only [map_eq_some_iff] at hblk
      rcases hblk with ⟨blk', hblk', rfl⟩
      rcases h.fresh c blk' hc hblk' with ⟨hfresh, hedges⟩
      constructor
      · intro st hst
        rcases hcode blk' st hst with hst | hst
        · exact hfresh st hst
        · exact hst
      · intro d hd
        rcases hsucc blk' d hd with hd | hd
        · exact hedges d hd
        · exact hd
    · exact h.fresh c blk hc hblk

theorem Linked.appendHead (hparent : parent < N) :
    Linked N n targets parent head (code ++ code')
      (g.modify parent fun blk => { blk with code := blk.code ++ code' }) where
  size := by simpa using h.size
  parent := by
    rcases h.parent with ⟨jump0, hhead, hjump0⟩
    refine ⟨jump0, ?_, hjump0⟩
    rw [getElem?_modify_block, if_pos rfl, hhead]
    simp
  fresh := by
    intro c blk hc hblk
    rw [getElem?_modify_block, if_neg (Nat.ne_of_lt (lt_of_lt_of_le hparent hc))] at hblk
    exact h.fresh c blk hc hblk

theorem Linked.jumpHead (hparent : parent < N)
    {d : BlockId} (hd : N ≤ d ∨ d ∈ targets) :
    Linked N n targets parent head code
      (g.modify parent fun blk => { blk with jump0 := some d }) where
  size := by simpa using h.size
  parent := by
    rcases h.parent with ⟨jump0, hhead, -⟩
    refine ⟨some d, ?_, by simpa using hd⟩
    rw [getElem?_modify_block, if_pos rfl, hhead]
    simp
  fresh := by
    intro c blk hc hblk
    rw [getElem?_modify_block, if_neg (Nat.ne_of_lt (lt_of_lt_of_le hparent hc))] at hblk
    exact h.fresh c blk hc hblk

end

theorem evaluations_of_fresh {e : Expression}
    (hsymbol : ∀ sym, e.l.symbol = some sym → sym.id < n) (hfresh : ∀ st ∈ code, st.IsFresh n) :
    evaluations e code = 0 := by
  unfold evaluations
  rw [countP_eq_zero]
  intro st hst
  rcases (hfresh st hst).symbol with ⟨sym, hsym, hid⟩
  rw [decide_eq_true_iff]
  intro heq
  rw [heq] at hsym
  exact absurd (hsymbol sym hsym) (Nat.not_lt.mpr hid)

theorem evaluations_append (e : Expression) (code code' : List Statement) :
    evaluations e (code ++ code') = evaluations e code + evaluations e code' :=
  countP_append

section

variable (h : Linked N n targets parent head code g)
  (hsymbol : ∀ sym, head.expr.l.symbol = some sym → sym.id < n)
include h hsymbol

theorem Linked.path_of_new {target : BlockId}
    (hpath : SwitchPath g targets b code' target) (hb : N ≤ b ∨ b ∈ targets) :
    evaluations head.expr code' = 0 := by
  induction hpath with
  | stop _ => rfl
  | step hnot hblk hc _ ih =>
    rcases h.fresh _ _ (hb.resolve_right hnot) hblk with ⟨hfresh, hedges⟩
    rw [evaluations_append, ih (hedges _ hc), evaluations_of_fresh hsymbol hfresh]

theorem Linked.path_evaluations (hjump1 : head.jump1 = none) (htable : head.hasJumpTable = false)
    (htargets : parent ∉ targets) {target : BlockId}
    (hpath : SwitchPath g targets parent code' target) :
    evaluations head.expr (code'.drop head.code.length) = evaluations head.expr code := by
  rcases h.parent with ⟨jump0, hhead, hjump0⟩
  cases hpath with
  | stop hb => exact absurd hb htargets
  | step hnot hblk hc hrest =>
    rw [hhead, some.injEq] at hblk
    subst hblk
    have hnew : N ≤ _ ∨ _ ∈ targets := hjump0 _ (by
      simpa [Block.successors, htable, hjump1] using hc)
    have hzero := h.path_of_new hsymbol hrest hnew
    rw [append_assoc, drop_left, evaluations_append, hzero, Nat.add_zero]

end

end Linked

/-! ## Steps of the linking -/

/-- The graph is being linked and no symbol has been lost. -/
structure Linking (N n : Nat) (targets : List BlockId) (parent : BlockId) (head : Block)
    (code : List Statement) (s : EvalState) : Prop where
  graph : Linked N n targets parent head code s.blocks
  symbols : n ≤ s.symbols.length
  parent_lt : parent < N

section Linking

variable {N n : Nat} {targets : List BlockId} {parent b d : BlockId} {head : Block}
  {code : List Statement} {s s' : EvalState}

section

variable (h : Linking N n targets parent head code s)
include h

theorem Linking.cfgBlockInit :
    Ensures cfgBlockInit s fun b s' => N ≤ b ∧ b = s.blocks.length ∧
      s'.blocks = s.blocks ++ [({} : Block)] ∧ Linking N n targets parent head code s' := by
  intro b s' hok
  cases hok
  exact ⟨h.graph.size, rfl, rfl, h.graph.addBlock, h.symbols, h.parent_lt⟩

theorem Linking.appends (hb : N ≤ b)
    (happends : Appends (Statement.IsFresh n) b s s') :
    Linking N n targets parent head code s' := by
  rcases happends.blocks with ⟨code', hfresh, hblocks⟩
  refine ⟨?_, h.symbols.trans happends.symbols, h.parent_lt⟩
  rw [hblocks]
  refine h.graph.modifyNew hb h.parent_lt ?_ (fun blk d hd => Or.inl hd)
  intro blk st hst
  rcases mem_append.mp hst with hst | hst
  · exact Or.inl hst
  · exact Or.inr (hfresh st hst)

theorem Linking.appendsHead (happends : Appends (Statement.IsFresh n) parent s s') :
    ∃ code', (∀ st ∈ code', st.IsFresh n) ∧
      Linking N n targets parent head (code ++ code') s' := by
  rcases happends.blocks with ⟨code', hfresh, hblocks⟩
  refine ⟨code', hfresh, ?_, h.symbols.trans happends.symbols, h.parent_lt⟩
  rw [hblocks]
  exact h.graph.appendHead h.parent_lt

theorem Linking.updateBlock (hb : N ≤ b)
    {f : Block → Block} (hcode : ∀ blk, (f blk).code = blk.code)
    (hsucc : ∀ blk, ∀ d ∈ (f blk).successors, d ∈ blk.successors ∨ N ≤ d ∨ d ∈ targets) :
    Ensures (updateBlock b f) s fun _ s' => s'.blocks = s.blocks.modify b f ∧
      Linking N n targets parent head code s' := by
  intro _ s' hok
  cases hok
  refine ⟨rfl, h.graph.modifyNew hb h.parent_lt ?_ hsucc, h.symbols, h.parent_lt⟩
  exact fun blk st hst => Or.inl (hcode blk ▸ hst)

theorem Linking.setExpr (hb : N ≤ b)
    (e : Expression) :
    Ensures (setExpr b e) s fun _ s' =>
      s'.blocks = s.blocks.modify b (fun blk => { blk with expr := e }) ∧
        Linking N n targets parent head code s' :=
  h.updateBlock hb (fun _ => rfl) (fun _ _ hd => Or.inl hd)

theorem Linking.setJump0 (hb : N ≤ b)
    (hd : N ≤ d ∨ d ∈ targets) :
    Ensures (setJump0 b d) s fun _ s' =>
      s'.blocks = s.blocks.modify b (fun blk => { blk with jump0 := some d }) ∧
        Linking N n targets parent head code s' := by
  refine h.updateBlock hb (fun _ => rfl) ?_
  intro blk d' hd'
  unfold Block.successors at hd' ⊢
  split at hd'
  · rename_i htable
    rw [if_pos htable]
    exact Or.inl hd'
  · rename_i htable
    rw [if_neg htable]
    simp only [toList_some, mem_append, mem_singleton] at hd' ⊢
    rcases hd' with rfl | hd'
    · exact Or.inr hd
    · exact Or.inl (Or.inr hd')

theorem Linking.setJump1 (hb : N ≤ b)
    (hd : N ≤ d ∨ d ∈ targets) :
    Ensures (setJump1 b d) s fun _ s' =>
      s'.blocks = s.blocks.modify b (fun blk => { blk with jump1 := some d }) ∧
        Linking N n targets parent head code s' := by
  refine h.updateBlock hb (fun _ => rfl) ?_
  intro blk d' hd'
  unfold Block.successors at hd' ⊢
  split at hd'
  · rename_i htable
    rw [if_pos htable]
    exact Or.inl hd'
  · rename_i htable
    rw [if_neg htable]
    simp only [toList_some, mem_append, mem_singleton] at hd' ⊢
    rcases hd' with hd' | rfl
    · exact Or.inl (Or.inl hd')
    · exact Or.inr hd

theorem Linking.jumpHead (hd : N ≤ d ∨ d ∈ targets) :
    Ensures (Kcs.setJump0 parent d) s fun _ s' =>
      s'.blocks = s.blocks.modify parent (fun blk => { blk with jump0 := some d }) ∧
        Linking N n targets parent head code s' := by
  intro _ s' hok
  cases hok
  exact ⟨rfl, h.graph.jumpHead h.parent_lt hd, h.symbols, h.parent_lt⟩

theorem Linking.blockExpr :
    Ensures (blockExpr parent) s fun e s' => s' = s ∧ e = head.expr := by
  rcases h.graph.parent with ⟨jump0, hhead, -⟩
  intro e s' hok
  unfold Kcs.blockExpr at hok
  rw [hhead] at hok
  cases hok
  exact ⟨rfl, rfl⟩

theorem Linking.evalHead (hidentity : isIdentity head.expr = pure false)
    (hinteger : head.expr.type.isInteger = true) :
    Ensures (eval (some parent) head.expr) s fun v s' =>
      v.IsFresh n ∧ v.type = head.expr.type ∧
        ∃ st : Statement, st.expr = head.expr ∧
          s'.blocks = s.blocks.modify parent (fun blk => { blk with code := blk.code ++ [st] }) ∧
          Linking N n targets parent head (code ++ [st]) s' := by
  have hkind : head.expr.type.isVoid = false ∧ head.expr.type.isScalar = true := by
    unfold CType.isVoid CType.isScalar
    rcases CType.isInteger_iff.mp hinteger with h | h | h | h | h <;> rw [h] <;> decide
  unfold eval
  rw [hidentity, pure_bind]
  simp only [Bool.false_eq_true, if_false, hkind.1]
  refine Ensures.bind (createVar_ensures head.expr.type) ?_
  rintro res s1 ⟨hblocks, -, hsymbols, hres, htype, hfield, sym, hsym, hid⟩
  refine Ensures.bind (Q := fun _ s' => s' = { s1 with
    blocks := s1.blocks.modify parent fun blk =>
      { blk with code := blk.code ++ [{ st := .assign, t := res, expr := head.expr }] } }) ?_ ?_
  · intro _ s' hok
    cases hok
    rfl
  rintro _ s' rfl
  refine Ensures.pure ⟨⟨?_, ⟨sym, hsym, ?_⟩, hfield, ?_⟩, htype,
    { st := .assign, t := res, expr := head.expr }, rfl, ?_, ?_, ?_, h.parent_lt⟩
  · simp [hres]
  · exact h.symbols.trans (le_of_eq hid.symm)
  · exact (congrArg CType.isScalar htype).trans hkind.2
  · rw [hblocks]
  · show Linked _ _ _ _ _ _ (s1.blocks.modify parent _)
    rw [hblocks]
    exact h.graph.appendHead h.parent_lt
  · show n ≤ s1.symbols.length
    have := h.symbols
    omega

end

variable [HostFloat] {l r value : Var} {sorted : List SwitchCase} {last : BlockId}

theorem Linking.setComparison (h : Linking N n targets parent head code s) (hb : N ≤ b)
    {op : OpType} (hop : op = .eq ∨ op = .gt) (hl : l.Usable n) (hr : r.Usable n) :
    Ensures (setComparison b op l r) s fun _ s' => Linking N n targets parent head code s' := by
  unfold Kcs.setComparison
  refine Ensures.bind (evalBinary_appends hop h.symbols hl hr) ?_
  intro e s' happends
  exact ((h.appends hb happends).setExpr hb e).mono fun _ _ h => h.2

/-- The binary search starts at a new block or a label. -/
theorem Linking.bsearchItem (hsorted : ∀ sc ∈ sorted, sc.label ∈ targets ∧
      sc.value.kind = .immediate) (hlast : last ∈ targets) (hvalue : value.Usable n)
    (fuel start stop : Nat) {s : EvalState} (h : Linking N n targets parent head code s) :
    Ensures (linkSwitchCaseBsearchItem sorted last value fuel start stop) s fun b s' =>
      (N ≤ b ∨ b ∈ targets) ∧ Linking N n targets parent head code s' := by
  induction fuel generalizing start stop s with
  | zero => exact Ensures.throw _
  | succ fuel ih =>
    unfold linkSwitchCaseBsearchItem
    refine Ensures.ite (fun _ => Ensures.pure ⟨Or.inr hlast, h⟩) (fun _ => ?_)
    cases hcenter : sorted[(start + stop) / 2]? with
    | none =>
      simp only [hcenter]
      exact Ensures.throw _
    | some sc =>
      simp only [hcenter]
      rcases hsorted sc (mem_of_getElem? hcenter) with ⟨hlabel, hconst⟩
      have hfound : Ensures (betweenNeighbours sorted start stop sc) s fun _ s' => s' = s := by
        unfold betweenNeighbours
        refine Ensures.ite (fun _ => ?_) (fun _ => Ensures.pure rfl)
        split
        · refine Ensures.ite (fun _ => ?_) (fun _ => Ensures.pure rfl)
          exact Ensures.ite (fun _ => Ensures.pure rfl) (fun _ => Ensures.throw _)
        · exact Ensures.throw _
      refine Ensures.bind hfound ?_
      rintro found s rfl
      refine Ensures.ite (fun _ => Ensures.pure ⟨Or.inr hlabel, h⟩) (fun _ => ?_)
      refine Ensures.bind h.cfgBlockInit ?_
      rintro comp s1 ⟨hcomp, -, -, h1⟩
      refine Ensures.bind (h1.setComparison hcomp (Or.inl rfl) (Or.inl hconst) hvalue) ?_
      intro _ s2 h2
      refine Ensures.bind (h2.setJump1 hcomp (Or.inr hlabel)) ?_
      rintro _ s3 ⟨-, h3⟩
      refine Ensures.ite (fun _ => ?_) (fun _ => Ensures.ite (fun _ => ?_) (fun _ => ?_))
      · refine Ensures.bind (h3.setJump0 hcomp (Or.inr hlast)) ?_
        exact fun _ _ h4 => Ensures.pure ⟨Or.inl hcomp, h4.2⟩
      · refine Ensures.bind (ih _ _ h3) ?_
        rintro rest s4 ⟨hrest, h4⟩
        refine Ensures.bind (h4.setJump0 hcomp hrest) ?_
        exact fun _ _ h5 => Ensures.pure ⟨Or.inl hcomp, h5.2⟩
      · refine Ensures.bind h3.cfgBlockInit ?_
        rintro left s4 ⟨hleft, -, -, h4⟩
        refine Ensures.bind (h4.setJump0 hcomp (Or.inl hleft)) ?_
        rintro _ s5 ⟨-, h5⟩
        refine Ensures.bind (h5.setComparison hleft (Or.inr rfl) (Or.inl hconst) hvalue) ?_
        intro _ s6 h6
        refine Ensures.bind (ih _ _ h6) ?_
        rintro lower s7 ⟨hlower, h7⟩
        refine Ensures.bind (h7.setJump1 hleft hlower) ?_
        rintro _ s8 ⟨-, h8⟩
        refine Ensures.bind (ih _ _ h8) ?_
        rintro upper s9 ⟨hupper, h9⟩
        refine Ensures.bind (h9.setJump0 hleft hupper) ?_
        exact fun _ _ h10 => Ensures.pure ⟨Or.inl hcomp, h10.2⟩

omit [HostFloat] in
theorem jumpTableEntries_label (hsorted : ∀ sc ∈ sorted, sc.label ∈ targets)
    (hlast : last ∈ targets) (minv v : Int) :
    ∀ p ∈ jumpTableEntries minv last v sorted, p.label ∈ targets := by
  induction sorted generalizing v with
  | nil => simp [jumpTableEntries]
  | cons sc rest ih =>
    intro p hp
    simp only [jumpTableEntries, mem_append, List.mem_map, mem_cons] at hp
    rcases hp with ⟨i, -, rfl⟩ | rfl | hp
    · exact hlast
    · exact hsorted sc mem_cons_self
    · exact ih (fun sc hsc => hsorted sc (mem_cons_of_mem _ hsc)) _ p hp

theorem Linking.jumpTableCheck (h : Linking N n targets parent head code s)
    (hvalue : value.IsFresh n) (htype : value.type.isInteger = true) (minv maxv : Int) :
    Ensures (jumpTableCheck parent value minv maxv) s fun p s' =>
      p.1.Usable n ∧ p.2.Usable n ∧ ∃ code', (∀ st ∈ code', st.IsFresh n) ∧
        Linking N n targets parent head (code ++ code') s' := by
  have hcheck : ∀ (op : OpType) (k : Int), op = .add ∨ op = .sub →
      Ensures (do
        let expr ← evalBinary (some parent) op value (varInt k)
        let check ← eval (some parent) expr
        pure (check, varInt (int32 (maxv - minv)))) s fun p s' =>
      p.1.Usable n ∧ p.2.Usable n ∧ ∃ code', (∀ st ∈ code', st.IsFresh n) ∧
        Linking N n targets parent head (code ++ code') s' := by
    intro op k hop
    refine Ensures.bind (evalBinary_varInt_appends hop h.symbols hvalue htype k) ?_
    rintro e s1 ⟨happends, he, hscalar⟩
    refine Ensures.bind (eval_appends (h.symbols.trans happends.symbols) he hscalar) ?_
    rintro check s2 ⟨happends', hcheck⟩
    exact Ensures.pure ⟨Or.inr hcheck, Or.inl rfl, h.appendsHead (happends.trans happends')⟩
  unfold Kcs.jumpTableCheck
  refine Ensures.ite (fun _ => hcheck .sub _ (Or.inr rfl)) (fun _ => ?_)
  refine Ensures.ite (fun _ => hcheck .add _ (Or.inl rfl)) (fun _ => ?_)
  exact Ensures.pure ⟨Or.inr hvalue, Or.inl rfl, [], by simp, by rwa [append_nil]⟩

theorem Linking.bsearch (h : Linking N n targets parent head code s)
    (hsorted : ∀ sc ∈ sorted, sc.label ∈ targets ∧ sc.value.kind = .immediate)
    (hlast : last ∈ targets) (hidentity : isIdentity head.expr = pure false)
    (hinteger : head.expr.type.isInteger = true) :
    Ensures (linkSwitchContextBsearch sorted last parent) s fun _ s' =>
      ∃ st : Statement, st.expr = head.expr ∧
        Linking N n targets parent head (code ++ [st]) s' := by
  unfold linkSwitchContextBsearch
  refine Ensures.bind h.blockExpr ?_
  rintro _ s ⟨rfl, rfl⟩
  refine Ensures.bind (h.evalHead hidentity hinteger) ?_
  rintro value s1 ⟨hvalue, -, st, hst, -, h1⟩
  refine Ensures.bind (h1.bsearchItem hsorted hlast (Or.inr hvalue) _ _ _) ?_
  rintro first s2 ⟨hfirst, h2⟩
  exact (h2.jumpHead hfirst).mono fun _ _ h3 => ⟨st, hst, h3.2⟩

/-- So does the jump table. -/
theorem Linking.jumpTable (h : Linking N n targets parent head code s)
    (hsorted : ∀ sc ∈ sorted, sc.label ∈ targets) (hlast : last ∈ targets)
    (hidentity : isIdentity head.expr = pure false)
    (hinteger : head.expr.type.isInteger = true) (minv maxv : Int) :
    Ensures (linkSwitchContextJumpTable sorted last parent minv maxv) s fun _ s' =>
      ∃ (st : Statement) (code' : List Statement), st.expr = head.expr ∧
        (∀ st ∈ code', st.IsFresh n) ∧
        Linking N n targets parent head (code ++ [st] ++ code') s' := by
  unfold linkSwitchContextJumpTable
  refine Ensures.bind h.blockExpr ?_
  rintro _ s ⟨rfl, rfl⟩
  refine Ensures.bind (h.evalHead hidentity hinteger) ?_
  rintro value s1 ⟨hvalue, htype, st, hst, -, h1⟩
  refine Ensures.bind (h1.jumpTableCheck hvalue (by rw [htype]; exact hinteger) minv maxv) ?_
  rintro ⟨check, maxval⟩ s2 ⟨hcheck, hmaxval, code', hfresh, h2⟩
  refine Ensures.bind h2.cfgBlockInit ?_
  rintro comp1 s3 ⟨hcomp1, -, -, h3⟩
  refine Ensures.bind h3.cfgBlockInit ?_
  rintro comp2 s4 ⟨hcomp2, -, -, h4⟩
  refine Ensures.bind h4.cfgBlockInit ?_
  rintro jtbl s5 ⟨hjtbl, -, -, h5⟩
  refine Ensures.bind (h5.jumpHead (Or.inl hcomp1)) ?_
  rintro _ s6 ⟨-, h6⟩
  refine Ensures.bind (h6.setComparison hcomp1 (Or.inr rfl) (Or.inl rfl) hcheck) ?_
  intro _ s7 h7
  refine Ensures.bind (h7.setJump0 hcomp1 (Or.inl hcomp2)) ?_
  rintro _ s8 ⟨-, h8⟩
  refine Ensures.bind (h8.setJump1 hcomp1 (Or.inr hlast)) ?_
  rintro _ s9 ⟨-, h9⟩
  refine Ensures.bind (h9.setComparison hcomp2 (Or.inr rfl) hcheck hmaxval) ?_
  intro _ s10 h10
  refine Ensures.bind (h10.setJump0 hcomp2 (Or.inl hjtbl)) ?_
  rintro _ s11 ⟨-, h11⟩
  refine Ensures.bind (h11.setJump1 hcomp2 (Or.inr hlast)) ?_
  rintro _ s12 ⟨-, h12⟩
  have hlabels : ∀ (blk : Block), ∀ d ∈ Block.successors { blk with
        expr := asExpr check, hasJumpTable := true,
        jumpTable := jumpTableEntries minv last minv sorted },
      d ∈ blk.successors ∨ N ≤ d ∨ d ∈ targets := by
    intro blk d hd
    simp only [Block.successors, if_true, List.mem_map] at hd
    rcases hd with ⟨p, hp, rfl⟩
    exact Or.inr (Or.inr (jumpTableEntries_label hsorted hlast minv minv p hp))
  refine Ensures.mono (h12.updateBlock hjtbl (fun _ => rfl) hlabels) ?_
  exact fun _ _ h13 => ⟨st, code', hst, hfresh, h13.2⟩

end Linking

/-! ## The chain of comparisons -/

/-- The jumps of a block without a jump table. -/
def Jumps (g : Graph) (b : BlockId) (jump0 jump1 : Option BlockId) : Prop :=
  ∃ blk, g[b]? = some blk ∧ blk.jump0 = jump0 ∧ blk.jump1 = jump1 ∧ blk.hasJumpTable = false

section Chain

variable {g : Graph} {b c d : BlockId} {jump0 jump1 : Option BlockId}

section

variable (h : Jumps g b jump0 jump1)
include h

theorem Jumps.modify {f : Block → Block}
    (hf : ∀ blk, (f blk).hasJumpTable = blk.hasJumpTable)
    (hf0 : ∀ blk, (f blk).jump0 = blk.jump0) (hf1 : ∀ blk, (f blk).jump1 = blk.jump1) :
    Jumps (g.modify c f) b jump0 jump1 := by
  rcases h with ⟨blk, hblk, h0, h1, htable⟩
  rw [Jumps, getElem?_modify_block, hblk]
  split
  · exact ⟨f blk, rfl, by rw [hf0, h0], by rw [hf1, h1], by rw [hf, htable]⟩
  · exact ⟨blk, rfl, h0, h1, htable⟩

theorem Jumps.modify_ne (hne : c ≠ b) (f : Block → Block) :
    Jumps (g.modify c f) b jump0 jump1 := by
  rw [Jumps, getElem?_modify_block, if_neg hne]
  exact h

theorem Jumps.setJump0 (d : BlockId) :
    Jumps (g.modify b fun blk => { blk with jump0 := some d }) b (some d) jump1 := by
  rcases h with ⟨blk, hblk, -, h1, htable⟩
  rw [Jumps, getElem?_modify_block, if_pos rfl, hblk]
  exact ⟨_, rfl, rfl, h1, htable⟩

theorem Jumps.setJump1 (d : BlockId) :
    Jumps (g.modify b fun blk => { blk with jump1 := some d }) b jump0 (some d) := by
  rcases h with ⟨blk, hblk, h0, -, htable⟩
  rw [Jumps, getElem?_modify_block, if_pos rfl, hblk]
  exact ⟨_, rfl, h0, rfl, htable⟩

theorem Jumps.addBlock (blk : Block) :
    Jumps (g ++ [blk]) b jump0 jump1 := by
  rcases h with ⟨blk', hblk, h⟩
  have hlt := (List.getElem?_eq_some_iff.mp hblk).1
  exact ⟨blk', by rw [getElem?_append_left hlt]; exact hblk, h⟩

end

theorem jumps_new (g : Graph) : Jumps (g ++ [({} : Block)]) g.length none none :=
  ⟨{}, by simp, rfl, rfl, rfl⟩

theorem Jumps.appends {P : Statement → Prop} {s s' : EvalState} (h : Jumps s.blocks b jump0 jump1)
    (happends : Appends P c s s') : Jumps s'.blocks b jump0 jump1 := by
  rcases happends.blocks with ⟨code, -, hblocks⟩
  rw [hblocks]
  exact h.modify (fun _ => rfl) (fun _ => rfl) (fun _ => rfl)

variable [HostFloat] {N n : Nat} {targets : List BlockId} {parent prev : BlockId} {head : Block}
  {code : List Statement} {s : EvalState}

/-- What the chain adds: one evaluation for each case, and jumps of new blocks
only, but for the first link. -/
structure ChainLinked (N n : Nat) (targets : List BlockId) (parent : BlockId) (head : Block)
    (cases : List SwitchCase) (prev : BlockId) (code : List Statement) (s : EvalState)
    (cond : BlockId) (s' : EvalState) : Prop where
  evaluated : ∃ code', (∀ st ∈ code', st.expr = head.expr) ∧ code'.length = cases.length ∧
    Linking N n targets parent head (code ++ code') s'
  lastCond : cond = prev ∧ cases = [] ∨ N ≤ cond
  kept : ∀ b jump0 jump1, b ≠ prev → Jumps s.blocks b jump0 jump1 → Jumps s'.blocks b jump0 jump1
  keptPrev : ∀ jump0 jump1, Jumps s.blocks prev jump0 jump1 → ∃ j, Jumps s'.blocks prev j jump1
  first : ∀ sc rest jump0 jump1, cases = sc :: rest → Jumps s.blocks prev jump0 jump1 →
    ∃ b j, N ≤ b ∧ Jumps s'.blocks prev (some b) jump1 ∧ Jumps s'.blocks b j (some sc.label)

theorem setComparison_jumps {l r : Var} (h : Linking N n targets parent head code s) (hb : N ≤ b)
    {op : OpType} (hop : op = .eq ∨ op = .gt) (hl : l.Usable n) (hr : r.Usable n) :
    Ensures (setComparison b op l r) s fun _ s' =>
      Linking N n targets parent head code s' ∧
        ∀ c jump0 jump1, Jumps s.blocks c jump0 jump1 → Jumps s'.blocks c jump0 jump1 := by
  unfold setComparison
  refine Ensures.bind (evalBinary_appends hop h.symbols hl hr) ?_
  intro e s1 happends
  refine Ensures.mono ((h.appends hb happends).setExpr hb e) ?_
  rintro _ s2 ⟨hblocks, h2⟩
  refine ⟨h2, fun c jump0 jump1 hj => ?_⟩
  rw [hblocks]
  exact (hj.appends happends).modify (fun _ => rfl) (fun _ => rfl) (fun _ => rfl)

omit [HostFloat] in
theorem Linking.setJump0Prev (h : Linking N n targets parent head code s)
    (hprev : prev = parent ∨ N ≤ prev) (hd : N ≤ d) :
    Ensures (Kcs.setJump0 prev d) s fun _ s' =>
      s'.blocks = s.blocks.modify prev (fun blk => { blk with jump0 := some d }) ∧
        Linking N n targets parent head code s' := by
  rcases hprev with rfl | hprev
  · exact h.jumpHead (Or.inl hd)
  · exact h.setJump0 hprev (Or.inl hd)

/-- The loop of `link_switch_context`. -/
theorem linkChain_spec (hidentity : isIdentity head.expr = pure false)
    (hinteger : head.expr.type.isInteger = true) (cases : List SwitchCase)
    (hcases : ∀ sc ∈ cases, sc.label ∈ targets ∧ sc.value.kind = .immediate)
    (hprev : prev = parent ∨ N ≤ prev) (hlt : prev < s.blocks.length)
    (h : Linking N n targets parent head code s) :
    Ensures (linkChain parent cases prev) s fun cond s' =>
      ChainLinked N n targets parent head cases prev code s cond s' := by
  induction cases generalizing prev code s with
  | nil =>
    refine Ensures.pure ⟨⟨[], by simp, rfl, by rwa [append_nil]⟩, Or.inl ⟨rfl, rfl⟩, ?_, ?_, ?_⟩
    · exact fun _ _ _ _ hj => hj
    · exact fun jump0 jump1 hj => ⟨jump0, hj⟩
    · intro sc rest _ _ hnil
      cases hnil
  | cons sc rest ih =>
    rcases hcases sc mem_cons_self with ⟨hlabel, hconst⟩
    unfold linkChain
    refine Ensures.bind h.cfgBlockInit ?_
    rintro cond s1 ⟨hcond, hnew, hblocks1, h1⟩
    refine Ensures.bind h1.blockExpr ?_
    rintro _ s1 ⟨rfl, rfl⟩
    refine Ensures.bind (h1.evalHead hidentity hinteger) ?_
    rintro value s2 ⟨hvalue, -, st, hst, hblocks2, h2⟩
    refine Ensures.bind
      (setComparison_jumps h2 hcond (Or.inl rfl) (Or.inl hconst) (Or.inr hvalue)) ?_
    rintro _ s3 ⟨h3, hkept3⟩
    refine Ensures.bind (h3.setJump1 hcond (Or.inr hlabel)) ?_
    rintro _ s4 ⟨hblocks4, h4⟩
    refine Ensures.bind (h4.setJump0Prev hprev hcond) ?_
    rintro _ s5 ⟨hblocks5, h5⟩
    -- Jumps of the blocks that existed, up to the link from the previous block.
    have hold : ∀ b jump0 jump1, b < s.blocks.length → Jumps s.blocks b jump0 jump1 →
        Jumps s4.blocks b jump0 jump1 := by
      intro b jump0 jump1 hb hj
      rw [hblocks4]
      refine Jumps.modify_ne (hkept3 b jump0 jump1 ?_) (Nat.ne_of_gt (hnew ▸ hb)) _
      rw [hblocks2, hblocks1]
      exact (hj.addBlock _).modify (fun _ => rfl) (fun _ => rfl) (fun _ => rfl)
    have hcondJumps : Jumps s4.blocks cond none (some sc.label) := by
      rw [hblocks4]
      refine Jumps.setJump1 (hkept3 cond none none ?_) sc.label
      rw [hblocks2, hblocks1, hnew]
      exact (jumps_new s.blocks).modify (fun _ => rfl) (fun _ => rfl) (fun _ => rfl)
    have hne : prev ≠ cond := Nat.ne_of_lt (hnew ▸ hlt)
    have hcondLt : cond < s5.blocks.length := by
      rcases hcondJumps with ⟨blk, hblk, -⟩
      rw [hblocks5, length_modify]
      exact (List.getElem?_eq_some_iff.mp hblk).1
    refine Ensures.mono (ih (fun sc hsc => hcases sc (mem_cons_of_mem _ hsc)) (Or.inr hcond)
      hcondLt h5) ?_
    intro result s6 h6
    have hrest := h6.keptPrev none (some sc.label) (by
      rw [hblocks5]
      exact hcondJumps.modify_ne hne _)
    have hfirst : ∀ jump0 jump1, Jumps s.blocks prev jump0 jump1 →
        Jumps s6.blocks prev (some cond) jump1 := by
      intro jump0 jump1 hj
      refine h6.kept prev _ _ hne ?_
      rw [hblocks5]
      exact (hold prev jump0 jump1 hlt hj).setJump0 cond
    rcases h6.evaluated with ⟨code', hcode', hlength, hlinking⟩
    refine ⟨⟨st :: code', ?_, ?_, ?_⟩, ?_, ?_, ?_, ?_⟩
    · intro st' hst'
      rcases mem_cons.mp hst' with rfl | hst'
      · exact hst
      · exact hcode' st' hst'
    · simp [hlength]
    · rwa [append_assoc, singleton_append] at hlinking
    · rcases h6.lastCond with ⟨rfl, -⟩ | hresult
      · exact Or.inr hcond
      · exact Or.inr hresult
    · intro b jump0 jump1 hb hj
      have hb' : b < s.blocks.length := by
        rcases hj with ⟨blk, hblk, -⟩
        exact (List.getElem?_eq_some_iff.mp hblk).1
      refine h6.kept b _ _ (Nat.ne_of_lt (hnew ▸ hb')) ?_
      rw [hblocks5]
      exact (hold b jump0 jump1 hb' hj).modify_ne (Ne.symm hb) _
    · exact fun jump0 jump1 hj => ⟨some cond, hfirst jump0 jump1 hj⟩
    · rintro sc' rest' jump0 jump1 hcons hj
      cases hcons
      rcases hrest with ⟨j, hj'⟩
      exact ⟨cond, j, hcond, hfirst jump0 jump1 hj, hj'⟩

end Chain

/-! ## Exactly once -/

section Once

theorem isIdentity_of_ref {e : Expression} (href : e.type.ref = 0) :
    ∃ identity, isIdentity e = pure identity := by
  have hequal : ∃ equal, ∀ types, typeEqual types e.type e.l.type = some equal := by
    unfold typeEqual
    by_cases h1 : e.type = e.l.type
    · exact ⟨true, fun types => by simp [typeEqualAux, h1]⟩
    by_cases h2 : e.type.type ≠ e.l.type.type ∨ e.type.isUnsigned ≠ e.l.type.isUnsigned
    · exact ⟨false, fun types => by simp [typeEqualAux, h1, h2]⟩
    by_cases h3 : (e.type.ref = 0) ≠ (e.l.type.ref = 0)
    · exact ⟨false, fun types => by rw [typeEqualAux, if_neg h1, if_neg h2, if_pos h3]⟩
    · refine ⟨true, fun types => ?_⟩
      rw [typeEqualAux, if_neg h1, if_neg h2, if_neg h3, if_neg (fun h => h.1 href)]
  rcases hequal with ⟨equal, hequal⟩
  unfold isIdentity
  split
  · refine ⟨equal, ?_⟩
    funext s
    simp [readTable, hequal]
    rfl
  · exact ⟨false, rfl⟩

variable [HostFloat] {s s' : EvalState} {ctx : SwitchContext} {parent next : BlockId}
  {head : Block}

omit [HostFloat] in
theorem OpenSwitch.linking (h : OpenSwitch s ctx parent next head) :
    Linking s.blocks.length s.symbols.length (ctx.targets next) parent head [] s where
  graph := by
    refine ⟨le_rfl, ⟨none, ?_, by simp⟩, ?_⟩
    · rw [h.atParent, append_nil, ← h.jump0]
    · intro c blk hc hblk
      have hlt := (List.getElem?_eq_some_iff.mp hblk).1
      exact absurd hlt (Nat.not_lt.mpr hc)
  symbols := le_rfl
  parent_lt := (List.getElem?_eq_some_iff.mp h.atParent).1

omit [HostFloat] in
theorem OpenSwitch.cases_mem (h : OpenSwitch s ctx parent next head) :
    ∀ sc ∈ ctx.cases, sc.label ∈ ctx.targets next ∧ sc.value.kind = .immediate :=
  fun sc hsc => ⟨mem_cons_of_mem _ (List.mem_map_of_mem hsc), h.immediate sc hsc⟩

omit [HostFloat] in
theorem checkCases_ensures (cases : List SwitchCase) :
    Ensures (checkCases cases) s fun _ s' => s' = s := by
  unfold checkCases
  induction cases with
  | nil => exact Ensures.pure rfl
  | cons sc rest ih =>
    simp only [List.forM_eq_forM, forM_cons] at ih ⊢
    refine Ensures.bind (Q := fun _ s' => s' = s) ?_ ?_
    · refine Ensures.ite (fun _ => Ensures.throw _) (fun _ => ?_)
      exact Ensures.ite (fun _ => Ensures.throw _) (fun _ => Ensures.pure rfl)
    · rintro _ s rfl
      exact ih

theorem linkSwitch_many (h : OpenSwitch s ctx parent next head)
    (hidentity : isIdentity head.expr = pure false) (hmany : 4 < ctx.cases.length) :
    Ensures (linkSwitch ctx parent next) s fun _ s' =>
      ∃ code, evaluations head.expr code = 1 ∧
        Linking s.blocks.length s.symbols.length (ctx.targets next) parent head code s' := by
  have hsorted : ∀ sc ∈ sortCases ctx.cases,
      sc.label ∈ ctx.targets next ∧ sc.value.kind = .immediate :=
    fun sc hsc => h.cases_mem sc (mem_sortCases.mp hsc)
  have hlast : ctx.last next ∈ ctx.targets next := mem_cons_self
  have hcons : ctx.cases.isEmpty = false := by
    cases hcases : ctx.cases with
    | nil => rw [hcases] at hmany; cases hmany
    | cons => rfl
  unfold linkSwitch
  rw [hcons, Bool.false_and, if_neg Bool.false_ne_true]
  unfold linkSwitchContext
  rw [if_pos hmany]
  unfold linkSwitchContextBsearchOrJumpTable
  refine Ensures.bind (checkCases_ensures ctx.cases) ?_
  rintro _ s rfl
  cases huse : useJumpTableForSwitchCase (sortCases ctx.cases) with
  | none =>
    simp only [huse]
    refine Ensures.mono (h.linking.bsearch hsorted hlast hidentity h.isInteger) ?_
    rintro _ s' ⟨st, hst, hlinking⟩
    refine ⟨_, ?_, hlinking⟩
    simp [evaluations, hst]
  | some range =>
    simp only [huse]
    refine Ensures.mono (h.linking.jumpTable (fun sc hsc => (hsorted sc hsc).1) hlast hidentity
      h.isInteger range.1 range.2) ?_
    rintro _ s' ⟨st, code', hst, hfresh, hlinking⟩
    refine ⟨_, ?_, hlinking⟩
    rw [evaluations_append, evaluations_of_fresh h.symbol hfresh]
    simp [evaluations, hst]

/-- With at most four cases the expression is evaluated once for each, and some
path leads to a label. -/
theorem linkSwitch_few (h : OpenSwitch s ctx parent next head)
    (hidentity : isIdentity head.expr = pure false) (hfew : ctx.cases.length ≤ 4) :
    Ensures (linkSwitch ctx parent next) s fun _ s' =>
      (∃ code, evaluations head.expr code = ctx.cases.length ∧
        Linking s.blocks.length s.symbols.length (ctx.targets next) parent head code s') ∧
      ∃ code target, SwitchPath s'.blocks (ctx.targets next) parent code target := by
  have hlast : ctx.last next ∈ ctx.targets next := mem_cons_self
  have hnot : parent ∉ ctx.targets next := fun hmem => (h.targets parent hmem).2 rfl
  have hparent : Jumps s.blocks parent none none := ⟨head, h.atParent, h.jump0, h.jump1, h.table⟩
  -- Without cases the head goes to the last block at once.
  have hdirect : Ensures (setJump0 parent (ctx.last next)) s fun _ s' =>
      (∃ code, evaluations head.expr code = 0 ∧
        Linking s.blocks.length s.symbols.length (ctx.targets next) parent head code s') ∧
      ∃ code target, SwitchPath s'.blocks (ctx.targets next) parent code target := by
    refine Ensures.mono (h.linking.jumpHead (Or.inr hlast)) ?_
    rintro _ s' ⟨hblocks, hlinking⟩
    refine ⟨⟨[], rfl, hlinking⟩, ?_⟩
    rcases hparent.setJump0 (ctx.last next) with ⟨blk, hblk, h0, h1, htable⟩
    rw [← hblocks] at hblk
    refine ⟨_, _, SwitchPath.step hnot hblk ?_ (SwitchPath.stop hlast)⟩
    simp [Block.successors, htable, h0]
  unfold linkSwitch
  cases hcases : ctx.cases with
  | nil =>
    refine Ensures.ite (fun hnone => ?_) (fun _ => ?_)
    · have hnext : ctx.last next = next := by
        simp only [Bool.and_eq_true, isNone_iff_eq_none] at hnone
        simp [SwitchContext.last, hnone.2]
      rw [hnext] at hdirect
      exact hdirect
    · unfold linkSwitchContext
      rw [hcases, if_neg (by simp)]
      exact hdirect
  | cons sc rest =>
    rw [isEmpty_cons, Bool.false_and, if_neg Bool.false_ne_true]
    unfold linkSwitchContext
    rw [if_neg (Nat.not_lt.mpr hfew), ← hcases]
    have hlt : parent < s.blocks.length := h.linking.parent_lt
    refine Ensures.bind (linkChain_spec hidentity h.isInteger ctx.cases h.cases_mem (Or.inl rfl)
      hlt h.linking) ?_
    intro cond s1 hchain
    have hcond : s.blocks.length ≤ cond := by
      rcases hchain.lastCond with ⟨-, hnil⟩ | hcond
      · rw [hcases] at hnil
        cases hnil
      · exact hcond
    rcases hchain.evaluated with ⟨code', hcode', hlength, hlinking⟩
    rcases hchain.first sc rest none none hcases hparent with ⟨b, j, hb, hhead, hfirst⟩
    refine Ensures.mono (hlinking.setJump0 hcond (Or.inr hlast)) ?_
    rintro _ s2 ⟨hblocks, hlinking2⟩
    refine ⟨⟨_, ?_, hlinking2⟩, ?_⟩
    · rw [nil_append, ← hlength]
      unfold evaluations
      rw [countP_eq_length]
      exact fun st hst => decide_eq_true (hcode' st hst)
    · -- The path through the first comparison to the label of the first case.
      have hhead2 : Jumps s2.blocks parent (some b) none := by
        rw [hblocks]
        exact hhead.modify_ne (Nat.ne_of_gt (lt_of_lt_of_le hlt hcond)) _
      have hfirst2 : ∃ j, Jumps s2.blocks b j (some sc.label) := by
        rw [hblocks]
        by_cases hcb : cond = b
        · subst hcb
          exact ⟨_, hfirst.setJump0 _⟩
        · exact ⟨j, hfirst.modify_ne hcb _⟩
      rcases hhead2 with ⟨blk, hblk, h0, h1, htable⟩
      rcases hfirst2 with ⟨j', blk', hblk', h0', h1', htable'⟩
      have hnew : b ∉ ctx.targets next := fun hmem =>
        absurd (h.targets b hmem).1 (Nat.not_lt.mpr hb)
      have hlabel : sc.label ∈ ctx.targets next := (h.cases_mem sc (by simp [hcases])).1
      refine ⟨_, _, SwitchPath.step hnot hblk (c := b) ?_
        (SwitchPath.step hnew hblk' (c := sc.label) ?_ (SwitchPath.stop hlabel))⟩
      · simp [Block.successors, htable, h0]
      · simp [Block.successors, htable', h1']

/-- The controlling expression is evaluated exactly once on every path exactly
when it is a plain operand, which needs no evaluation, or when there is one
case or more than four. -/
theorem switch_evaluatedOnce_iff (h : OpenSwitch s ctx parent next head)
    (hok : linkSwitch ctx parent next s = .ok ((), s')) :
    (isIdentity head.expr s = .ok (false, s) → EvaluatedOnce s'.blocks ctx parent next head) ↔
      isIdentity head.expr s = .ok (true, s) ∨ ctx.cases.length = 1 ∨ 4 < ctx.cases.length := by
  rcases isIdentity_of_ref h.ref with ⟨identity, hidentity⟩
  have hread : isIdentity head.expr s = .ok (identity, s) := by rw [hidentity]; rfl
  rw [hread]
  cases identity with
  | true => simp
  | false =>
    have hnot : parent ∉ ctx.targets next := fun hmem => (h.targets parent hmem).2 rfl
    have hcount : ∀ code code' target,
        Linking s.blocks.length s.symbols.length (ctx.targets next) parent head code s' →
        SwitchPath s'.blocks (ctx.targets next) parent code' target →
        evaluations head.expr (code'.drop head.code.length) = evaluations head.expr code :=
      fun code code' target hlinking hpath =>
        hlinking.graph.path_evaluations h.symbol h.jump1 h.table hnot hpath
    by_cases hfew : ctx.cases.length ≤ 4
    · rcases linkSwitch_few h hidentity hfew () s' hok with
        ⟨⟨code, hcode, hlinking⟩, code', target, hpath⟩
      constructor
      · intro honce
        have hone := honce rfl code' target hpath
        rw [hcount code code' target hlinking hpath, hcode] at hone
        exact Or.inr (Or.inl hone)
      · rintro (hfalse | hone | hmany) -
        · cases hfalse
        · intro code' target hpath
          rw [hcount code code' target hlinking hpath, hcode, hone]
        · omega
    · have hmany : 4 < ctx.cases.length := Nat.lt_of_not_le hfew
      rcases linkSwitch_many h hidentity hmany () s' hok with ⟨code, hcode, hlinking⟩
      constructor
      · exact fun _ => Or.inr (Or.inr hmany)
      · intro _ _ code' target hpath
        rw [hcount code code' target hlinking hpath, hcode]

end Once

/-- The symbol of `int f()`. -/
def calleeSymbol : Symbol where
  id := 0
  name := "f"
  type := { type := .function, ref := 1 }
  symtype := .declaration
  linkage := .external

/-- The head of `switch (f())`. -/
def callHead : Block where
  expr :=
    { op := .call
      type := basicTypeInt
      l :=
        { kind := .address
          type := { type := .function, isPointer := true, ref := 1 }
          symbol := some calleeSymbol } }

/-- The state after the body of a switch on the call with two labels was read: the
head, the labels and the block after the switch. -/
def callState : EvalState where
  types := [{ type := .function, next := basicTypeInt, isIncomplete := true }]
  symbols := [calleeSymbol]
  blocks := [callHead, {}, {}, {}]

/-- `case 1:` -/
def callCtxOne : SwitchContext where
  cases := [{ label := 1, value := varInt 1 }]

/-- `case 1:` and `case 2:` -/
def callCtxTwo : SwitchContext where
  cases := [{ label := 1, value := varInt 1 }, { label := 2, value := varInt 2 }]

/-- A call with one case is made once on every path. -/
theorem switch_evaluatedOnce_one_case :
    ∃ s', @linkSwitch HostFloat.zero callCtxOne 0 3 callState = .ok ((), s') ∧
      EvaluatedOnce s'.blocks callCtxOne 0 3 callHead := by
  refine ⟨_, rfl, ?_⟩
  refine (@switch_evaluatedOnce_iff HostFloat.zero callState _ callCtxOne 0 3 callHead ?_ rfl).mpr
    (Or.inr (Or.inl rfl)) rfl
  exact ⟨rfl, rfl, rfl, rfl, rfl, rfl, by decide, by decide, by decide⟩

/-- With two cases the head makes the call twice. -/
theorem switch_call_two_cases :
    ∃ s', @linkSwitch HostFloat.zero callCtxTwo 0 3 callState = .ok ((), s') ∧
      isIdentity callHead.expr callState = .ok (false, callState) ∧
      ¬ EvaluatedOnce s'.blocks callCtxTwo 0 3 callHead := by
  refine ⟨_, rfl, rfl, ?_⟩
  intro honce
  have htwo := honce _ 1 (SwitchPath.step (b := 0) (c := 4) (by decide) rfl (by decide)
    (SwitchPath.step (b := 4) (c := 1) (by decide) rfl (by decide) (SwitchPath.stop (by decide))))
  exact absurd htwo (by decide)

end Kcs
