import Kcs.Vm.Linearise

/-!
# The traversal of a function

`vm_gen_node` visits the blocks of a function depth first.  A visit is described by
what it appends and by the blocks that it leaves complete, so that visits compose.

Main results:

- Theorem {lit}`vmGenNode_visits`: every block that is met is emitted once, with its
  successors.
- Theorem {lit}`vmGenNode_isSome`: the recursion ends.
-/

namespace Kcs.Vm

open Option List

variable {env : GenEnv} {nodes : List Node} {name : String} {node : Node} {b : BlockId}
  {s s' s'' : NodeState} {g : GenState}

/-! ## Visiting blocks -/

/-- A part of the traversal that visits the given blocks. -/
structure Covers (env : GenEnv) (nodes : List Node) (roots : List BlockId) (s s' : NodeState) :
    Prop where
  extend : Extends nodes s s'
  met : ∀ b ∈ roots, b ∈ s'.black
  done : ∀ c ∈ s'.black, c ∉ s.black → Done env nodes s' c
  reachable : ∀ c ∈ s'.black, c ∉ s.black → ∃ b ∈ roots, Reachable nodes b c
  references : ∀ i d, s.gen.prog.length ≤ i → s'.gen.prog[i]? = some d →
    isReference d.opcode = true → ∃ b ∈ s'.black, RefersTo nodes d b
  ended : Ended s.gen → Ended s'.gen

/-- A visit of one block: unless it is black, its label comes next. -/
structure Visits (env : GenEnv) (nodes : List Node) (b : BlockId) (s s' : NodeState) : Prop
    extends Covers env nodes [b] s s' where
  label : b ∉ s.black → ∃ name, labelOf nodes b = some name ∧
    LabelAt s'.gen.prog s'.gen.labels name s.gen.prog.length
  left : b ∉ s.black → Ended s'.gen

theorem Covers.refl (h : Ready s.gen) : Covers env nodes [] s s where
  extend := Extends.refl h
  met := by simp
  done := fun c hc hnew => absurd hc hnew
  reachable := fun c hc hnew => absurd hc hnew
  references := by
    intro i d hi hd
    rw [getElem?_eq_none hi] at hd
    cases hd
  ended := id

theorem Covers.trans {roots roots' : List BlockId} (h : Covers env nodes roots s s')
    (h' : Covers env nodes roots' s' s'') : Covers env nodes (roots ++ roots') s s'' where
  extend := h.extend.trans h'.extend
  met := by
    intro b hb
    rcases mem_append.mp hb with hb | hb
    · exact h'.extend.black_subset (h.met b hb)
    · exact h'.met b hb
  done := by
    intro c hc hnew
    by_cases hmid : c ∈ s'.black
    · exact (h.done c hmid hnew).mono h'.extend
    · exact h'.done c hc hmid
  reachable := by
    intro c hc hnew
    by_cases hmid : c ∈ s'.black
    · rcases h.reachable c hmid hnew with ⟨b, hb, hreach⟩
      exact ⟨b, mem_append_left _ hb, hreach⟩
    · rcases h'.reachable c hc hmid with ⟨b, hb, hreach⟩
      exact ⟨b, mem_append_right _ hb, hreach⟩
  references := by
    intro i d hi hd href
    by_cases hmid : i < s'.gen.prog.length
    · have hmid : s'.gen.prog[i]? = some d := by
        rw [getElem?_eq_getElem hmid, ← hd]
        exact (getElem?_mono h'.extend.prog_le (getElem?_eq_getElem hmid)).symm
      rcases h.references i d hi hmid href with ⟨b, hb, hrefers⟩
      exact ⟨b, h'.extend.black_subset hb, hrefers⟩
    · exact h'.references i d (by omega) hd href
  ended := fun hs => h'.ended (h.ended hs)

/-- Every visit that the recursion makes is a visit. -/
def Visiting (env : GenEnv) (nodes : List Node) (gen : BlockId → NodeState → Option NodeState) :
    Prop :=
  ∀ b s s', Ready s.gen → gen b s = some s' → Visits env nodes b s s'

variable {gen : BlockId → NodeState → Option NodeState}

/-- The next block is jumped to or follows. -/
theorem nextBlock_covers (hgen : Visiting env nodes gen) (hs : Ready s.gen)
    (h : nextBlock nodes gen b s = some s') :
    Covers env nodes [b] s s' ∧ Ended s'.gen ∧
      ((∀ d, s.gen.prog.getLast? = some d → d.opcode ≠ .jmp) →
        GoesTo nodes s'.gen.prog s'.gen.labels b s.gen.prog.length) := by
  unfold nextBlock at h
  split at h
  · rename_i hblack
    rw [map_eq_some_iff] at h
    rcases h with ⟨name, hname, rfl⟩
    have hended := emitVmJmp_ended name 0 hs.mode
    refine ⟨⟨extends_emitVmJmp name 0 hs, by simpa, ?_, ?_, ?_, fun _ => hended⟩, hended, ?_⟩
    · intro c hc hnew
      exact absurd hc hnew
    · intro c hc hnew
      exact absurd hc hnew
    · intro i d hi hd _
      have hcases : s.gen.prog[i]? = some d ∨
          d = { opcode := .jmp, d := .addr { name := name, size := 0 } } := by
        simp only [emitVmJmp] at hd
        split at hd
        · exact Or.inl hd
        · rw [emitVmCode_prog hs.mode] at hd
          exact getElem?_concat_cases hd
      rcases hcases with hold | rfl
      · rw [getElem?_eq_none hi] at hold
        cases hold
      · exact ⟨b, hblack, name, 0, hname, rfl⟩
    · intro hlast
      have hemit : emitVmJmp .jmp name 0 s.gen =
          emitVmCode { opcode := .jmp, d := .addr { name := name, size := 0 } } s.gen := by
        unfold emitVmJmp
        rw [if_neg]
        rw [last_eq_getLast? hs.mode, Option.any_eq_true]
        rintro ⟨d, hd, hop⟩
        exact hlast d hd (by simpa using hop)
      refine ⟨name, hname, Or.inl ⟨0, ?_⟩⟩
      simp only [hemit, emitVmCode_prog hs.mode]
      rw [getElem?_append_right (le_refl _), Nat.sub_self, getElem?_cons_zero]
  · rename_i hwhite
    have hvisit := hgen b s s' hs h
    refine ⟨hvisit.toCovers, hvisit.left hwhite, ?_⟩
    intro _
    rcases hvisit.label hwhite with ⟨name, hname, hlabel⟩
    exact ⟨name, hname, Or.inr hlabel⟩

theorem foldlM_covers (hgen : Visiting env nodes gen) (table : List JumpPair) (hs : Ready s.gen)
    (h : table.foldlM (fun s jp => gen jp.label s) s = some s') :
    Covers env nodes (table.map (·.label)) s s' := by
  induction table generalizing s with
  | nil =>
    simp only [foldlM_nil, Option.pure_def, some.injEq] at h
    subst h
    exact Covers.refl hs
  | cons jp table ih =>
    simp only [foldlM_cons, bind_eq_bind, bind_eq_some_iff] at h
    rcases h with ⟨s1, h1, h⟩
    have hvisit := (hgen jp.label s s1 hs h1).toCovers
    exact hvisit.trans (ih hvisit.extend.ready h)

theorem visits_of_covers {s1 : NodeState} {roots : List BlockId} (hb : b ∉ s.black)
    (hnode : nodes[b]? = some node) (hs : Extends nodes s s1) (hblack : s1.black = s.black ++ [b])
    (hroots : successors node = roots) (hcovers : Covers env nodes roots s1 s')
    (hlabel : LabelAt s1.gen.prog s1.gen.labels node.label s.gen.prog.length)
    (hcode : BlockCode env nodes s'.gen.prog s'.gen.labels node s.gen.prog.length)
    (hown : ∀ i d, s.gen.prog.length ≤ i → s1.gen.prog[i]? = some d →
      isReference d.opcode = true → ∃ r ∈ roots, RefersTo nodes d r)
    (hended : Ended s'.gen) : Visits env nodes b s s' := by
  have hlabel' := hlabel.mono hcovers.extend.prog_le hcovers.extend.labels_le
  have hmem : b ∈ s'.black := hcovers.extend.black_subset (by simp [hblack])
  have hedge : ∀ c, IsEdge nodes b c → c ∈ roots := by
    rintro c ⟨node', hnode', hc⟩
    rw [hnode, some.injEq] at hnode'
    subst hnode'
    rwa [hroots] at hc
  refine ⟨⟨hs.trans hcovers.extend, by simpa, ?_, ?_, ?_, fun _ => hended⟩, ?_, fun _ => hended⟩
  · intro c hc hnew
    by_cases hcb : c = b
    · subst hcb
      exact ⟨⟨node, _, hnode, hlabel', hcode⟩, fun d hd => hcovers.met d (hedge d hd)⟩
    · exact hcovers.done c hc (by simp [hblack, hnew, hcb])
  · intro c hc hnew
    refine ⟨b, by simp, ?_⟩
    by_cases hcb : c = b
    · subst hcb
      exact Relation.ReflTransGen.refl
    · rcases hcovers.reachable c hc (by simp [hblack, hnew, hcb]) with ⟨r, hr, hreach⟩
      exact Relation.ReflTransGen.head ⟨node, hnode, by rw [hroots]; exact hr⟩ hreach
  · intro i d hi hd href
    by_cases hlt : i < s1.gen.prog.length
    · have hd1 : s1.gen.prog[i]? = some d := by
        rw [getElem?_eq_getElem hlt, ← hd]
        exact (getElem?_mono hcovers.extend.prog_le (getElem?_eq_getElem hlt)).symm
      rcases hown i d hi hd1 href with ⟨r, hr, hrefers⟩
      exact ⟨r, hcovers.met r hr, hrefers⟩
    · exact hcovers.references i d (by omega) hd href
  · intro _
    exact ⟨node.label, by simp [labelOf, hnode], hlabel'⟩

/-! ## The shapes of a block -/

theorem emitTableEntries_extends (table : List JumpPair) (hs : Ready s.gen)
    (h : emitTableEntries nodes table s.gen = some g) :
    Extends nodes s { s with gen := g } ∧ (Ended s.gen → Ended g) ∧
      (∀ k jp, table[k]? = some jp → ∃ name, labelOf nodes jp.label = some name ∧
        g.prog[s.gen.prog.length + k]? =
          some { opcode := .tblEntry, d := .addr { name := name } }) ∧
      ∀ (i : Nat) d, g.prog[i]? = some d → s.gen.prog[i]? = some d ∨
        ∃ jp ∈ table, RefersTo nodes d jp.label := by
  unfold emitTableEntries at h
  induction table generalizing s with
  | nil =>
    simp only [foldlM_nil, Option.pure_def, some.injEq] at h
    subst h
    exact ⟨Extends.refl hs, id, by simp, fun i d hd => Or.inl hd⟩
  | cons jp table ih =>
    simp only [foldlM_cons, bind_eq_bind, bind_eq_some_iff, map_eq_some_iff] at h
    rcases h with ⟨-, ⟨name, hname, rfl⟩, h⟩
    have hemit : Extends nodes s
        { s with gen := emitVmCode (.mk .tblEntry .none (.addr { name := name })) s.gen } :=
      extends_emitVmCode hs (by simp)
    rcases ih hemit.ready h with ⟨hext, hended, hentries, hnew⟩
    refine ⟨hemit.trans hext, fun _ => hended (emitVmCode_ended hs.mode rfl (by simp)), ?_, ?_⟩
    · intro k jp' hk
      cases k with
      | zero =>
        rw [getElem?_cons_zero, some.injEq] at hk
        subst hk
        refine ⟨name, hname, getElem?_mono hext.prog_le ?_⟩
        simp [emitVmCode_prog hs.mode]
      | succ k =>
        rw [getElem?_cons_succ] at hk
        rcases hentries k jp' hk with ⟨name', hname', hcode⟩
        refine ⟨name', hname', ?_⟩
        rw [← hcode]
        simp only [emitVmCode_prog hs.mode, length_append, length_singleton]
        congr 1
        omega
    · intro i d hd
      rcases hnew i d hd with hd | ⟨jp', hjp', hrefers⟩
      · simp only [emitVmCode_prog hs.mode] at hd
        rcases getElem?_concat_cases hd with hd | rfl
        · exact Or.inl hd
        · exact Or.inr ⟨jp, by simp, name, 0, hname, rfl⟩
      · exact Or.inr ⟨jp', by simp [hjp'], hrefers⟩

section Shapes

variable {g' : GenState} {tail : List VmCode}

theorem vmGenExpr_form {base : List VmCode} {l : VmCode} {e : Expression}
    (hform : BlockForm g base l tail) (h : vmGenExpr env e g = some g') :
    g'.labels = g.labels ∧ g'.args = g.args ∧ ∃ tail', BlockForm g' base l tail' ∧ tail' ≠ [] := by
  have hgrows := vmGenExpr_grows h
  exact ⟨hgrows.labels, vmGenExpr_args h, hgrows.form base l tail hform⟩

/-- The jump table. -/
theorem vmGenTable_visits (hgen : Visiting env nodes gen) (hs : Ready s.gen) (hb : b ∉ s.black)
    (hnode : nodes[b]? = some node) (hshape : node.hasJumpTable = true)
    (h : vmGenTable env nodes gen node
      { gen := emitVmLabelCode node.label s.gen, black := s.black ++ [b] } = some s') :
    Visits env nodes b s s' := by
  simp only [vmGenTable, bind_eq_some_iff] at h
  rcases h with ⟨g1, hexpr, g2, hentries, h⟩
  rcases vmGenExpr_form (emitVmLabelCode_form hs node.label) hexpr with
    ⟨hlabels, hargs, tail, hform, hne⟩
  rw [emitVmLabelCode_labels] at hlabels
  rw [emitVmLabelCode_args, hs.args] at hargs
  have hown : Extends nodes s { gen := g1, black := s.black ++ [b] } :=
    extends_of_form hb hnode hform hlabels hargs
  have htable : Extends nodes { gen := g1, black := s.black ++ [b] }
      { gen := emitVmCode { opcode := .jmptbl } g1, black := s.black ++ [b] } :=
    extends_emitVmCode hown.ready (by simp)
  rcases emitTableEntries_extends (s := { gen := _, black := s.black ++ [b] }) node.jumpTable
    htable.ready hentries with ⟨hext, hended, hat, hnew⟩
  have hcovers := foldlM_covers hgen node.jumpTable hext.ready h
  have hmode := hown.ready.mode
  have hlen := hform.length_prog
  have hle := hext.prog_le.trans hcovers.extend.prog_le
  refine visits_of_covers hb hnode (hown.trans (htable.trans hext)) rfl
    (by simp [successors, hshape]) hcovers ?_ ?_ ?_
    (hcovers.ended (hended (emitVmCode_ended hmode rfl (by simp))))
  · exact (hform.labelAt hlabels).mono (htable.trans hext).prog_le (htable.trans hext).labels_le
  · apply BlockCode.table g1.prog.length hshape
    · have := length_pos_iff.mpr hne
      omega
    · exact hform.straightTo.mono (htable.prog_le.trans hle)
    · apply getElem?_mono hle
      simp [emitVmCode_prog hmode]
    · intro k jp hk
      rcases hat k jp hk with ⟨name, hname, hcode⟩
      refine ⟨name, hname, getElem?_mono hcovers.extend.prog_le ?_⟩
      rw [← hcode]
      simp [emitVmCode_prog hmode]
  · intro i d hi hd href
    rcases hnew i d hd with hd | ⟨jp, hjp, hrefers⟩
    · simp only [emitVmCode_prog hmode] at hd
      rcases getElem?_concat_cases hd with hd | rfl
      · rw [hform.not_reference hi hd] at href
        cases href
      · cases href
    · exact ⟨jp.label, List.mem_map_of_mem hjp, hrefers⟩

/-- The head of a loop. -/
theorem vmGenHead_visits {body next : BlockId} (hgen : Visiting env nodes gen) (hs : Ready s.gen)
    (hb : b ∉ s.black) (hnode : nodes[b]? = some node) (htable : node.hasJumpTable = false)
    (hbody : node.body = some body) (hjump0 : node.jump0 = some next) (hjump1 : node.jump1 = none)
    (hcode : node.code = [])
    (h : ((vmGenBody env nodes gen node
      { gen := emitVmLabelCode node.label s.gen, black := s.black ++ [b] }).bind fun s =>
        (vmGenStatements env node.code s.gen).bind fun g =>
          vmGenExit env nodes gen node { s with gen := g }) = some s') :
    Visits env nodes b s s' := by
  simp only [vmGenBody, hbody, hjump0, hjump1, hcode, vmGenExit, bind_eq_some_iff] at h
  rcases h with ⟨s2, ⟨name, hname, size, -, hvisit⟩, g3, hstatements, h⟩
  have hform := emitVmLabelCode_form hs node.label
  rw [emitVmJmp_eq _ _ _ hform] at hvisit
  have hown : Extends nodes s
      { gen := emitVmLabelCode node.label s.gen, black := s.black ++ [b] } :=
    extends_of_form hb hnode hform (emitVmLabelCode_labels _ _) (by simp [hs.args])
  have hjump : Extends nodes
      { gen := emitVmLabelCode node.label s.gen, black := s.black ++ [b] }
      { gen := emitVmCode { opcode := .jmp, d := .addr { name := name, size := size } }
          (emitVmLabelCode node.label s.gen),
        black := s.black ++ [b] } :=
    extends_emitVmCode hown.ready (by simp)
  have hfirst := (hgen body _ _ hjump.ready hvisit).toCovers
  -- The head has no statements.
  have hg3 : g3 = s2.gen := by
    simp only [vmGenStatements, foldlM_nil, Option.pure_def, bind_some,
      hfirst.extend.ready.args, isEmpty_nil, if_true, some.injEq] at hstatements
    exact hstatements.symm
  subst hg3
  have hsecond := (hgen next s2 s' hfirst.extend.ready h).toCovers
  have hcovers := hfirst.trans hsecond
  have hmode := hown.ready.mode
  refine visits_of_covers hb hnode (hown.trans hjump) rfl ?_ hcovers ?_ ?_ ?_
    (hcovers.ended (emitVmCode_ended hmode rfl (by simp)))
  · simp [successors, htable, hbody, hjump0, hjump1]
  · exact (hform.labelAt (emitVmLabelCode_labels _ _)).mono hjump.prog_le hjump.labels_le
  · refine BlockCode.head next name htable (by simp [hbody]) hjump0 hname ⟨size, ?_⟩
    apply getElem?_mono hcovers.extend.prog_le
    have hlen := hform.length_prog
    simp only [length_nil, Nat.add_zero] at hlen
    rw [emitVmCode_prog hmode, ← hlen]
    simp
  · intro i d hi hd href
    simp only [emitVmCode_prog hmode] at hd
    rcases getElem?_concat_cases hd with hd | rfl
    · rw [hform.not_reference hi hd] at href
      cases href
    · exact ⟨next, by simp, name, size, hname, rfl⟩

theorem vmGenReturn_visits {size : Int}
    (hb : b ∉ s.black) (hnode : nodes[b]? = some node) (htable : node.hasJumpTable = false)
    (hbody : node.body = none) (hjump0 : node.jump0 = none) (hjump1 : node.jump1 = none)
    (hform : BlockForm g s.gen.prog (labelCode s.gen.labels.length) tail)
    (hlabels : g.labels = s.gen.labels ++ [{ name := node.label }]) (hargs : g.args = [])
    (hsize : if node.hasReturnValue then intSizeOf env node.expr.type = some size else size = 0) :
    Visits env nodes b s { gen := emitVmRet size g, black := s.black ++ [b] } := by
  rcases emitVmRet_eq size hform with ⟨g', tail', hform', hlabels', hargs', hret⟩
  rw [hlabels] at hlabels'
  rw [hargs] at hargs'
  have hown : Extends nodes s { gen := g', black := s.black ++ [b] } :=
    extends_of_form hb hnode hform' hlabels' hargs'
  have hcode : Extends nodes { gen := g', black := s.black ++ [b] }
      { gen := emitVmRet size g, black := s.black ++ [b] } := by
    rw [hret]
    exact extends_emitVmCode hown.ready (by simp)
  have hmode := hown.ready.mode
  refine visits_of_covers hb hnode (hown.trans hcode) rfl ?_ (Covers.refl hcode.ready) ?_ ?_ ?_ ?_
  · simp [successors, htable, hbody, hjump0, hjump1]
  · exact (hform'.labelAt hlabels').mono hcode.prog_le hcode.labels_le
  · refine BlockCode.ret g'.prog.length size htable hbody hjump0 hjump1 ?_ ?_ hsize ?_
    · rw [hform'.length_prog]
      omega
    · exact hform'.straightTo.mono hcode.prog_le
    · simp [hret, emitVmCode_prog hmode]
  · intro i d hi hd href
    simp only [hret, emitVmCode_prog hmode] at hd
    rcases getElem?_concat_cases hd with hd | rfl
    · rw [hform'.not_reference hi hd] at href
      cases href
    · cases href
  · rw [hret]
    exact emitVmCode_ended hmode rfl (by simp)

/-- A block with a branch. -/
theorem vmGenBranch_visits {next target : BlockId} {size : Int}
    (hgen : Visiting env nodes gen) (hb : b ∉ s.black)
    (hnode : nodes[b]? = some node) (htable : node.hasJumpTable = false)
    (hbody : node.body = none) (hjump0 : node.jump0 = some next)
    (hjump1 : node.jump1 = some target)
    (hform : BlockForm g s.gen.prog (labelCode s.gen.labels.length) tail) (hne : tail ≠ [])
    (hlabels : g.labels = s.gen.labels ++ [{ name := node.label }]) (hargs : g.args = [])
    (hname : labelOf nodes target = some name)
    (h : (nextBlock nodes gen next
      { gen := emitVmJmp .jnz name size g, black := s.black ++ [b] }).bind
        (nextBlock nodes gen target) = some s') :
    Visits env nodes b s s' := by
  rw [bind_eq_some_iff] at h
  rcases h with ⟨s2, hnext, htarget⟩
  rw [emitVmJmp_eq _ _ _ hform] at hnext
  have hown : Extends nodes s { gen := g, black := s.black ++ [b] } :=
    extends_of_form hb hnode hform hlabels hargs
  have hjump : Extends nodes { gen := g, black := s.black ++ [b] }
      { gen := emitVmCode { opcode := .jnz, d := .addr { name := name, size := size } } g,
        black := s.black ++ [b] } :=
    extends_emitVmCode hown.ready (by simp)
  have hmode := hown.ready.mode
  rcases nextBlock_covers hgen hjump.ready hnext with ⟨hfirst, -, hgoes⟩
  rcases nextBlock_covers hgen hfirst.extend.ready htarget with ⟨hsecond, hended, -⟩
  have hcovers := hfirst.trans hsecond
  have hgoes := hgoes (by
    intro d hd
    rw [emitVmCode_prog hmode, getLast?_concat, some.injEq] at hd
    subst hd
    simp)
  refine visits_of_covers hb hnode (hown.trans hjump) rfl ?_ hcovers ?_ ?_ ?_ hended
  · simp [successors, htable, hbody, hjump0, hjump1]
  · exact (hform.labelAt hlabels).mono hjump.prog_le hjump.labels_le
  · refine BlockCode.branch g.prog.length next target name htable hbody hjump0 hjump1 ?_ ?_
      hname ⟨size, ?_⟩ ?_
    · have := length_pos_iff.mpr hne
      rw [hform.length_prog]
      omega
    · exact hform.straightTo.mono (hjump.prog_le.trans hcovers.extend.prog_le)
    · apply getElem?_mono hcovers.extend.prog_le
      simp [emitVmCode_prog hmode]
    · have hgoes := hgoes.mono hsecond.extend.prog_le hsecond.extend.labels_le
      simpa [emitVmCode_prog hmode] using hgoes
  · intro i d hi hd href
    simp only [emitVmCode_prog hmode] at hd
    rcases getElem?_concat_cases hd with hd | rfl
    · rw [hform.not_reference hi hd] at href
      cases href
    · exact ⟨target, by simp, name, size, hname, rfl⟩

theorem vmGenSingle_visits {next : BlockId}
    (hgen : Visiting env nodes gen) (hb : b ∉ s.black)
    (hnode : nodes[b]? = some node) (htable : node.hasJumpTable = false)
    (hbody : node.body = none) (hjump0 : node.jump0 = some next) (hjump1 : node.jump1 = none)
    (hform : BlockForm g s.gen.prog (labelCode s.gen.labels.length) tail)
    (hlabels : g.labels = s.gen.labels ++ [{ name := node.label }]) (hargs : g.args = [])
    (hsilent : tail = [] ↔ ∀ s ∈ node.code, isSilent env s = true)
    (h : nextBlock nodes gen next { gen := g, black := s.black ++ [b] } = some s') :
    Visits env nodes b s s' := by
  have hown : Extends nodes s { gen := g, black := s.black ++ [b] } :=
    extends_of_form hb hnode hform hlabels hargs
  rcases nextBlock_covers hgen hown.ready h with ⟨hcovers, hended, hgoes⟩
  have hgoes := hgoes (by
    intro d hd hop
    rcases hform.last_eq hd with hlabel | hstraight
    · simp [hop] at hlabel
    · simp [hop, isControl] at hstraight)
  refine visits_of_covers hb hnode hown rfl ?_ hcovers (hform.labelAt hlabels) ?_ ?_ hended
  · simp [successors, htable, hbody, hjump0, hjump1]
  · have hlen := hform.length_prog
    refine BlockCode.single g.prog.length next htable hbody hjump0 hjump1 (by omega) ?_
      (hform.straightTo.mono hcovers.extend.prog_le) hgoes
    rw [← hsilent, hlen, ← length_eq_zero_iff]
    omega
  · intro i d hi hd href
    rw [hform.not_reference hi hd] at href
    cases href

end Shapes

/-! ## The traversal -/

/-- Every visit appends the code of the blocks that are met, each once, and their
successors are met too. -/
theorem vmGenNode_visits (hwf : ∀ node ∈ nodes, WellFormed nodes node) (fuel : Nat) :
    Visiting env nodes (vmGenNode env nodes fuel) := by
  induction fuel with
  | zero =>
    intro b s s' _ h
    simp [vmGenNode] at h
  | succ fuel ih =>
    intro b s s' hs h
    rw [vmGenNode] at h
    split at h
    · rename_i hblack
      rw [some.injEq] at h
      subst h
      refine ⟨⟨Extends.refl hs, by simpa, ?_, ?_, ?_, id⟩, fun hb => absurd hblack hb,
        fun hb => absurd hblack hb⟩
      · exact fun c hc hnew => absurd hc hnew
      · exact fun c hc hnew => absurd hc hnew
      · intro i d hi hd
        rw [getElem?_eq_none hi] at hd
        cases hd
    · rename_i hb
      rw [bind_eq_some_iff] at h
      rcases h with ⟨node, hnode, h⟩
      have hnodewf := hwf node (mem_of_getElem? hnode)
      simp only at h
      split at h
      · rename_i htable
        exact vmGenTable_visits ih hs hb hnode htable h
      · rename_i htable
        have htable : node.hasJumpTable = false := by simpa using htable
        cases hbody : node.body with
        | some body =>
          rcases hnodewf.body htable (by simp [hbody]) with ⟨hcode, hsome, hjump1⟩
          rcases isSome_iff_exists.mp hsome with ⟨next, hjump0⟩
          exact vmGenHead_visits ih hs hb hnode htable hbody hjump0 hjump1 hcode h
        | none =>
          simp only [vmGenBody, hbody, bind_some, bind_eq_some_iff] at h
          rcases h with ⟨g, hstatements, h⟩
          rcases vmGenStatements_form (by simp [hs.args]) (emitVmLabelCode_form hs node.label)
            hstatements with ⟨hlabels, hargs, tail, hform, hsilent⟩
          rw [emitVmLabelCode_labels] at hlabels
          unfold vmGenExit at h
          cases hjump0 : node.jump0 with
          | none =>
            cases hjump1 : node.jump1 with
            | some target =>
              have := hnodewf.jump1 htable (by simp [hjump1])
              simp [hjump0] at this
            | none =>
              simp only [hbody, hjump0, hjump1] at h
              split at h
              · rename_i hvalue
                simp only [bind_eq_some_iff, map_eq_some_iff] at h
                rcases h with ⟨g', hexpr, size, hsize, rfl⟩
                rcases vmGenExpr_form hform hexpr with ⟨hlabels', hargs', tail', hform', -⟩
                apply vmGenReturn_visits hb hnode htable hbody hjump0 hjump1 hform'
                  (hlabels'.trans hlabels) (hargs'.trans hargs)
                rw [if_pos hvalue]
                exact hsize
              · rename_i hvalue
                rw [some.injEq] at h
                subst h
                apply vmGenReturn_visits hb hnode htable hbody hjump0 hjump1 hform hlabels hargs
                rw [if_neg hvalue]
          | some next =>
            cases hjump1 : node.jump1 with
            | some target =>
              simp only [hbody, hjump0, hjump1, bind_eq_some_iff (x := vmGenExpr _ _ _),
                bind_eq_some_iff (x := labelOf _ _), bind_eq_some_iff (x := intSizeOf _ _)] at h
              rcases h with ⟨g', hexpr, name, hname, size, -, h⟩
              rcases vmGenExpr_form hform hexpr with ⟨hlabels', hargs', tail', hform', hne⟩
              exact vmGenBranch_visits ih hb hnode htable hbody hjump0 hjump1 hform' hne
                (hlabels'.trans hlabels) (hargs'.trans hargs) hname h
            | none =>
              simp only [hbody, hjump0, hjump1] at h
              exact vmGenSingle_visits ih hb hnode htable hbody hjump0 hjump1 hform hlabels hargs
                hsilent h

/-! ## The recursion ends -/

/-- No assertion fails in the statements and the expression of a block. -/
structure Generates (env : GenEnv) (node : Node) : Prop where
  statements : ∀ g, g.args = [] → (vmGenStatements env node.code g).isSome
  expr : node.hasJumpTable ∨ node.jump1.isSome ∨ node.hasReturnValue →
    ∀ g, (vmGenExpr env node.expr g).isSome
  size : (intSizeOf env node.expr.type).isSome

/-- The number of blocks that are not black. -/
def white (nodes : List Node) (black : List BlockId) : Nat :=
  (Finset.range nodes.length \ black.toFinset).card

theorem white_mono {black black' : List BlockId} (h : black ⊆ black') :
    white nodes black' ≤ white nodes black := by
  apply Finset.card_le_card
  intro b hb
  simp only [Finset.mem_sdiff, Finset.mem_range, List.mem_toFinset] at hb ⊢
  exact ⟨hb.1, fun hmem => hb.2 (h hmem)⟩

theorem white_lt {black : List BlockId} (hb : b ∉ black) (hlt : b < nodes.length) :
    white nodes (black ++ [b]) < white nodes black := by
  apply Finset.card_lt_card
  rw [Finset.ssubset_iff_of_subset]
  · exact ⟨b, by simp [hb, hlt], by simp⟩
  · intro c hc
    simp only [Finset.mem_sdiff, Finset.mem_range, List.mem_toFinset, mem_append] at hc ⊢
    exact ⟨hc.1, fun hmem => hc.2 (Or.inl hmem)⟩

/-- Visits have a result while fewer than the given number of blocks are white. -/
def Total (nodes : List Node) (gen : BlockId → NodeState → Option NodeState) (n : Nat) : Prop :=
  ∀ b s, Ready s.gen → b < nodes.length → white nodes s.black < n → ∃ s', gen b s = some s'

theorem labelOf_of_lt (hb : b < nodes.length) : ∃ name, labelOf nodes b = some name :=
  ⟨(nodes[b]).label, by simp [labelOf, getElem?_eq_getElem hb]⟩

theorem nextBlock_isSome {n : Nat} (htotal : Total nodes gen n) (hs : Ready s.gen)
    (hb : b < nodes.length) (hwhite : white nodes s.black < n) :
    ∃ s', nextBlock nodes gen b s = some s' := by
  unfold nextBlock
  split
  · rcases labelOf_of_lt hb with ⟨name, hname⟩
    simp [hname]
  · exact htotal b s hs hb hwhite

theorem foldlM_isSome {n : Nat} (hgen : Visiting env nodes gen) (htotal : Total nodes gen n)
    (table : List JumpPair) (hs : Ready s.gen) (htable : ∀ jp ∈ table, jp.label < nodes.length)
    (hwhite : white nodes s.black < n) :
    ∃ s', table.foldlM (fun s jp => gen jp.label s) s = some s' := by
  induction table generalizing s with
  | nil => exact ⟨s, rfl⟩
  | cons jp table ih =>
    rcases htotal jp.label s hs (htable jp (by simp)) hwhite with ⟨s1, h1⟩
    have hvisit := (hgen jp.label s s1 hs h1).extend
    have hwhite1 : white nodes s1.black ≤ white nodes s.black := white_mono hvisit.black_subset
    rcases ih hvisit.ready (fun jp hjp => htable jp (by simp [hjp])) (by omega) with ⟨s', h'⟩
    exact ⟨s', by simp [foldlM_cons, h1, h']⟩

theorem emitTableEntries_isSome (table : List JumpPair)
    (htable : ∀ jp ∈ table, jp.label < nodes.length) (g : GenState) :
    ∃ g', emitTableEntries nodes table g = some g' := by
  unfold emitTableEntries
  induction table generalizing g with
  | nil => exact ⟨g, rfl⟩
  | cons jp table ih =>
    rcases labelOf_of_lt (htable jp (by simp)) with ⟨name, hname⟩
    rcases ih (fun jp hjp => htable jp (by simp [hjp]))
      (emitVmCode (.mk .tblEntry .none (.addr { name := name })) g) with ⟨g', h'⟩
    exact ⟨g', by simpa [foldlM_cons, hname] using h'⟩

/-- The recursion ends when its bound is more than the number of white blocks. -/
theorem vmGenNode_isSome (hwf : ∀ node ∈ nodes, WellFormed nodes node)
    (hgenerates : ∀ node ∈ nodes, Generates env node) (fuel : Nat) :
    Total nodes (vmGenNode env nodes fuel) fuel := by
  induction fuel with
  | zero =>
    intro b s _ _ hwhite
    omega
  | succ fuel ih =>
    intro b s hs hlt hwhite
    rw [vmGenNode]
    split
    · exact ⟨s, rfl⟩
    · rename_i hb
      have hvisiting : Visiting env nodes (vmGenNode env nodes fuel) := vmGenNode_visits hwf fuel
      have hnode := getElem?_eq_getElem hlt
      generalize nodes[b] = node at hnode
      have hmem := mem_of_getElem? hnode
      have hnodewf := hwf node hmem
      have hnodegen := hgenerates node hmem
      have hless : white nodes (s.black ++ [b]) < fuel := by
        have : white nodes (s.black ++ [b]) < white nodes s.black := white_lt hb hlt
        omega
      have hform := emitVmLabelCode_form hs node.label
      have hready : Ready (emitVmLabelCode node.label s.gen) := ⟨hform.mode, by simp [hs.args]⟩
      rcases isSome_iff_exists.mp hnodegen.size with ⟨size, hsize⟩
      simp only [hnode, bind_some]
      split
      · rename_i htable
        have hsucc : ∀ jp ∈ node.jumpTable, jp.label < nodes.length := by
          intro jp hjp
          apply hnodewf.successors
          rw [successors, if_pos htable]
          exact List.mem_map_of_mem hjp
        rcases isSome_iff_exists.mp (hnodegen.expr (Or.inl htable) _) with ⟨g1, hexpr⟩
        rcases emitTableEntries_isSome node.jumpTable hsucc (emitVmCode { opcode := .jmptbl } g1)
          with ⟨g2, hentries⟩
        rcases vmGenExpr_form hform hexpr with ⟨hlabels, hargs, tail, hform', -⟩
        have hready1 : Ready (emitVmCode { opcode := .jmptbl } g1) := by
          constructor
          · simp [emitVmCode, GenState.setCode, hform'.mode]
          · rw [emitVmCode_args, hargs, hready.args]
        have hready2 := (emitTableEntries_extends (s := { gen := _ }) node.jumpTable hready1
          hentries).1.ready
        rcases foldlM_isSome (s := { gen := g2, black := s.black ++ [b] }) hvisiting ih
          node.jumpTable hready2 hsucc hless with ⟨s', h'⟩
        exact ⟨s', by simp [vmGenTable, hexpr, hentries, h']⟩
      · rename_i htable
        have htable : node.hasJumpTable = false := by simpa using htable
        have hsucc : ∀ c, c ∈ node.body.toList ++ node.jump0.toList ++ node.jump1.toList →
            c < nodes.length := by
          intro c hc
          apply hnodewf.successors
          rwa [successors, if_neg (by simp [htable])]
        cases hbody : node.body with
        | some body =>
          rcases hnodewf.body htable (by simp [hbody]) with ⟨hcode, hsome, hjump1⟩
          rcases isSome_iff_exists.mp hsome with ⟨next, hjump0⟩
          rcases labelOf_of_lt (hsucc next (by simp [hjump0])) with ⟨name, hname⟩
          have hjump : Extends nodes
              { gen := emitVmLabelCode node.label s.gen, black := s.black ++ [b] }
              { gen := emitVmJmp .jmp name size (emitVmLabelCode node.label s.gen),
                black := s.black ++ [b] } :=
            extends_emitVmJmp name size hready
          rcases ih body _ hjump.ready (hsucc body (by simp [hbody])) hless with ⟨s2, h2⟩
          have hvisit := (hvisiting body _ s2 hjump.ready h2).extend
          have hwhite2 : white nodes s2.black ≤ white nodes (s.black ++ [b]) :=
            white_mono hvisit.black_subset
          rcases ih next s2 hvisit.ready (hsucc next (by simp [hjump0]))
            (lt_of_le_of_lt hwhite2 hless) with ⟨s', h'⟩
          refine ⟨s', ?_⟩
          simp [vmGenBody, hbody, hjump0, hjump1, hname, hsize, h2, hcode, vmGenStatements,
            hvisit.ready.args, vmGenExit, h']
        | none =>
          rcases isSome_iff_exists.mp
            (hnodegen.statements (emitVmLabelCode node.label s.gen) hready.args) with ⟨g, hstatements⟩
          rcases vmGenStatements_form (by simp [hs.args]) hform hstatements with
            ⟨hlabels, hargs, tail, hform', -⟩
          simp only [vmGenBody, hbody, bind_some, hstatements]
          unfold vmGenExit
          cases hjump0 : node.jump0 with
          | none =>
            cases hjump1 : node.jump1 with
            | some target =>
              have := hnodewf.jump1 htable (by simp [hjump1])
              simp [hjump0] at this
            | none =>
              simp only [hbody]
              split
              · rename_i hvalue
                rcases isSome_iff_exists.mp
                  (hnodegen.expr (Or.inr (Or.inr hvalue)) g) with ⟨g', hexpr⟩
                simp [hexpr, hsize]
              · simp
          | some next =>
            have hnext : next < nodes.length := hsucc next (by simp [hjump0])
            cases hjump1 : node.jump1 with
            | some target =>
              have htarget : target < nodes.length := hsucc target (by simp [hjump1])
              rcases labelOf_of_lt htarget with ⟨name, hname⟩
              rcases isSome_iff_exists.mp
                (hnodegen.expr (Or.inr (Or.inl (by simp [hjump1]))) g) with ⟨g', hexpr⟩
              rcases vmGenExpr_form hform' hexpr with ⟨-, hargs', tail', hform'', -⟩
              have hready1 : Ready (emitVmJmp .jnz name size g') := by
                rw [emitVmJmp_eq _ _ _ hform'']
                constructor
                · simp [emitVmCode, GenState.setCode, hform''.mode]
                · rw [emitVmCode_args, hargs', hargs]
              rcases nextBlock_isSome
                (s := { gen := emitVmJmp .jnz name size g', black := s.black ++ [b] }) ih hready1
                hnext hless with ⟨s2, h2⟩
              have hcovers := (nextBlock_covers hvisiting hready1 h2).1.extend
              have hwhite2 : white nodes s2.black ≤ white nodes (s.black ++ [b]) :=
                white_mono hcovers.black_subset
              rcases nextBlock_isSome ih hcovers.ready htarget (lt_of_le_of_lt hwhite2 hless) with
                ⟨s', h'⟩
              refine ⟨s', ?_⟩
              simp only [hbody, hexpr, hname, hsize, bind_some]
              rw [h2]
              exact h'
            | none =>
              rcases nextBlock_isSome (s := { gen := g, black := s.black ++ [b] }) ih
                ⟨hform'.mode, hargs⟩ hnext hless with ⟨s', h'⟩
              exact ⟨s', by simp [hbody, h']⟩

end Kcs.Vm
