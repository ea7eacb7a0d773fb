import Kcs.Vm.Straight

/-!
# Code of the blocks of a function

The blocks of a function in the order in which `vm_gen_node` emits them: depth
first, each block when it is first met.  A block is followed by its first
successor, unless that one has been emitted before and is jumped to.

Main results:

- Lemma {lit}`extends_of_form`: the label and the code of a block are appended.
- Lemma {lit}`emitVmJmp_eq`, {lit}`emitVmRet_eq`: in a block no jump and no return is left out.
-/

namespace Kcs.Vm

open List

/-! ## Nodes -/

/-- `struct block` with its label and, at the head of a loop, the body. -/
structure Node extends Block where
  label : String
  body : Option BlockId := none
deriving DecidableEq, Repr, Inhabited

/-- The state of the generator and the black blocks, in the order in which they were
colored. -/
structure NodeState where
  gen : GenState
  black : List BlockId := []
deriving DecidableEq, Repr

/-- `sym_name` of the label of a block. -/
def labelOf (nodes : List Node) (b : BlockId) : Option String := (nodes[b]?).map (·.label)

section Generate

variable (env : GenEnv) (nodes : List Node)

/-- `NEXT_BLOCK` -/
def nextBlock (gen : BlockId → NodeState → Option NodeState) (b : BlockId) (s : NodeState) :
    Option NodeState :=
  if b ∈ s.black then
    (labelOf nodes b).map fun name => { s with gen := emitVmJmp .jmp name 0 s.gen }
  else gen b s

/-- The entries behind `VM_JMPTBL`. -/
def emitTableEntries (table : List JumpPair) (g : GenState) : Option GenState :=
  table.foldlM
    (fun g jp => (labelOf nodes jp.label).map fun name =>
      emitVmCode { opcode := .tblEntry, d := .addr { name := name } } g)
    g

/-- The branch of `vm_gen_node` for jump tables. -/
def vmGenTable (gen : BlockId → NodeState → Option NodeState) (node : Node) (s : NodeState) :
    Option NodeState :=
  (vmGenExpr env node.expr s.gen).bind fun g =>
    (emitTableEntries nodes node.jumpTable (emitVmCode { opcode := .jmptbl } g)).bind fun g =>
      node.jumpTable.foldlM (fun s jp => gen jp.label s) { s with gen := g }

/-- The body of a loop, behind a jump to the condition. -/
def vmGenBody (gen : BlockId → NodeState → Option NodeState) (node : Node) (s : NodeState) :
    Option NodeState :=
  match node.body, node.jump0, node.jump1 with
  | none, _, _ => some s
  | some body, some next, none =>
    (labelOf nodes next).bind fun name =>
      (intSizeOf env node.expr.type).bind fun size =>
        gen body { s with gen := emitVmJmp .jmp name size s.gen }
  | some _, _, _ => none

/-- The end of `vm_gen_node`: the successors, or a return. -/
def vmGenExit (gen : BlockId → NodeState → Option NodeState) (node : Node) (s : NodeState) :
    Option NodeState :=
  match node.body, node.jump0, node.jump1 with
  | some _, some next, _ => gen next s
  | some _, none, _ => none
  | none, none, none =>
    if node.hasReturnValue then
      (vmGenExpr env node.expr s.gen).bind fun g =>
        (intSizeOf env node.expr.type).map fun size => { s with gen := emitVmRet size g }
    else some { s with gen := emitVmRet 0 s.gen }
  | none, some next, some target =>
    (vmGenExpr env node.expr s.gen).bind fun g =>
      (labelOf nodes target).bind fun name =>
        (intSizeOf env node.expr.type).bind fun size =>
          (nextBlock nodes gen next { s with gen := emitVmJmp .jnz name size g }).bind
            (nextBlock nodes gen target)
  | none, some next, none => nextBlock nodes gen next s
  | none, none, some _ => none

/-- `vm_gen_node`.  The number bounds the depth of the recursion; a failed assertion
has no result. -/
def vmGenNode : Nat → BlockId → NodeState → Option NodeState
  | 0, _, _ => none
  | fuel + 1, b, s =>
    if b ∈ s.black then some s
    else
      (nodes[b]?).bind fun node =>
        let s := { gen := emitVmLabelCode node.label s.gen, black := s.black ++ [b] }
        if node.hasJumpTable then vmGenTable env nodes (vmGenNode fuel) node s
        else
          (vmGenBody env nodes (vmGenNode fuel) node s).bind fun s =>
            (vmGenStatements env node.code s.gen).bind fun g =>
              vmGenExit env nodes (vmGenNode fuel) node { s with gen := g }

end Generate

/-! ## Graphs -/

/-- The blocks that `vm_gen_node` goes on to. -/
def successors (node : Node) : List BlockId :=
  if node.hasJumpTable then node.jumpTable.map (·.label)
  else node.body.toList ++ node.jump0.toList ++ node.jump1.toList

/-- An edge of the graph. -/
def IsEdge (nodes : List Node) (a b : BlockId) : Prop :=
  ∃ node, nodes[a]? = some node ∧ b ∈ successors node

/-- There is a path from one block to another. -/
def Reachable (nodes : List Node) : BlockId → BlockId → Prop := Relation.ReflTransGen (IsEdge nodes)

/-- What the parser guarantees of a block: the successors exist, a second jump
comes with a first one, and a block with a body is the head of a loop without code of its
own. -/
structure WellFormed (nodes : List Node) (node : Node) : Prop where
  successors : ∀ b ∈ successors node, b < nodes.length
  jump1 : node.hasJumpTable = false → node.jump1.isSome → node.jump0.isSome
  body : node.hasJumpTable = false → node.body.isSome →
    node.code = [] ∧ node.jump0.isSome ∧ node.jump1 = none

/-! ## Places in a program -/

/-- The instruction that marks a label. -/
def labelCode (i : Nat) : VmCode := { opcode := .label, type := .label, d := .lindex i }

/-- The label with the given name stands at a place. -/
def LabelAt (prog : List VmCode) (labels : List VmLabel) (name : String) (q : Nat) : Prop :=
  ∃ i, prog[q]? = some (labelCode i) ∧ labels[i]? = some { name := name }

/-- A jump to the given label stands at a place. -/
def JumpAt (prog : List VmCode) (op : VmOpcode) (name : String) (q : Nat) : Prop :=
  ∃ size, prog[q]? = some { opcode := op, d := .addr { name := name, size := size } }

/-- The code from one place up to another does not jump. -/
def StraightTo (prog : List VmCode) (q q' : Nat) : Prop :=
  ∀ i, q ≤ i → i < q' → ∃ c, prog[i]? = some c ∧ isControl c.opcode = false

/-- From a place control goes to a block: by a jump, or because the block follows. -/
def GoesTo (nodes : List Node) (prog : List VmCode) (labels : List VmLabel) (b : BlockId)
    (q : Nat) : Prop :=
  ∃ name, labelOf nodes b = some name ∧ (JumpAt prog .jmp name q ∨ LabelAt prog labels name q)

/-- The code of a block whose label stands at the given place. -/
inductive BlockCode (env : GenEnv) (nodes : List Node) (prog : List VmCode)
    (labels : List VmLabel) (node : Node) (q : Nat) : Prop
  | table (q' : Nat) (shape : node.hasJumpTable = true) (lt : q + 1 < q')
      (straight : StraightTo prog (q + 1) q') (exit : prog[q']? = some { opcode := .jmptbl })
      (entries : ∀ k jp, node.jumpTable[k]? = some jp → ∃ name,
        labelOf nodes jp.label = some name ∧
          prog[q' + 1 + k]? = some { opcode := .tblEntry, d := .addr { name := name } })
  | head (next : BlockId) (name : String) (noTable : node.hasJumpTable = false)
      (shape : node.body.isSome) (jump0 : node.jump0 = some next)
      (hname : labelOf nodes next = some name) (exit : JumpAt prog .jmp name (q + 1))
  | ret (q' : Nat) (size : Int) (noTable : node.hasJumpTable = false) (noBody : node.body = none)
      (jump0 : node.jump0 = none) (jump1 : node.jump1 = none) (lt : q < q')
      (straight : StraightTo prog (q + 1) q')
      (hsize : if node.hasReturnValue then intSizeOf env node.expr.type = some size else size = 0)
      (exit : prog[q']? = some { opcode := .ret, d := .size size })
  | branch (q' : Nat) (next target : BlockId) (name : String)
      (noTable : node.hasJumpTable = false) (noBody : node.body = none)
      (jump0 : node.jump0 = some next) (jump1 : node.jump1 = some target)
      (lt : q + 1 < q') (straight : StraightTo prog (q + 1) q')
      (hname : labelOf nodes target = some name) (taken : JumpAt prog .jnz name q')
      (exit : GoesTo nodes prog labels next (q' + 1))
  | single (q' : Nat) (next : BlockId) (noTable : node.hasJumpTable = false)
      (noBody : node.body = none) (jump0 : node.jump0 = some next) (jump1 : node.jump1 = none)
      (lt : q < q') (silent : q' = q + 1 ↔ ∀ s ∈ node.code, isSilent env s = true)
      (straight : StraightTo prog (q + 1) q') (exit : GoesTo nodes prog labels next q')

/-- Instructions that name a label. -/
def isReference (op : VmOpcode) : Bool := op = .jmp || op = .jz || op = .jnz || op = .tblEntry

/-- An instruction names the label of a block. -/
def RefersTo (nodes : List Node) (c : VmCode) (b : BlockId) : Prop :=
  ∃ name size, labelOf nodes b = some name ∧
    c = { opcode := c.opcode, d := .addr { name := name, size := size } }

/-- A block whose code is complete, with all its successors begun. -/
structure Done (env : GenEnv) (nodes : List Node) (s : NodeState) (b : BlockId) : Prop where
  code : ∃ node q, nodes[b]? = some node ∧ LabelAt s.gen.prog s.gen.labels node.label q ∧
    BlockCode env nodes s.gen.prog s.gen.labels node q
  closed : ∀ c, IsEdge nodes b c → c ∈ s.black

/-- The labels that the code marks. -/
def lindexes (prog : List VmCode) : List Nat :=
  prog.filterMap fun c =>
    match c.opcode, c.d with
    | .label, .lindex i => some i.toNat
    | _, _ => none

/-! ## Code that is appended keeps what was there -/

variable {env : GenEnv} {nodes : List Node} {prog prog' : List VmCode}
  {labels labels' : List VmLabel} {name : String} {q q' : Nat} {node : Node} {b c : BlockId}
  {s s' s'' : NodeState} {g : GenState}

variable {i : Nat}

theorem getElem?_mono {α : Type} {xs ys : List α} {x : α} (h : xs <+: ys)
    (hx : xs[i]? = some x) : ys[i]? = some x := by
  rcases h with ⟨zs, rfl⟩
  rw [getElem?_append_left (List.getElem?_eq_some_iff.mp hx).1, hx]

theorem LabelAt.mono (hprog : prog <+: prog') (hlabels : labels <+: labels')
    (h : LabelAt prog labels name q) : LabelAt prog' labels' name q := by
  rcases h with ⟨i, hcode, hlabel⟩
  exact ⟨i, getElem?_mono hprog hcode, getElem?_mono hlabels hlabel⟩

theorem JumpAt.mono {op : VmOpcode} (hprog : prog <+: prog') (h : JumpAt prog op name q) :
    JumpAt prog' op name q := by
  rcases h with ⟨size, hcode⟩
  exact ⟨size, getElem?_mono hprog hcode⟩

theorem StraightTo.mono (hprog : prog <+: prog') (h : StraightTo prog q q') :
    StraightTo prog' q q' := by
  intro i hle hlt
  rcases h i hle hlt with ⟨c, hcode, hc⟩
  exact ⟨c, getElem?_mono hprog hcode, hc⟩

theorem GoesTo.mono (hprog : prog <+: prog') (hlabels : labels <+: labels')
    (h : GoesTo nodes prog labels b q) : GoesTo nodes prog' labels' b q := by
  rcases h with ⟨name, hname, h⟩
  refine ⟨name, hname, ?_⟩
  rcases h with h | h
  · exact Or.inl (h.mono hprog)
  · exact Or.inr (h.mono hprog hlabels)

theorem BlockCode.mono (hprog : prog <+: prog') (hlabels : labels <+: labels')
    (h : BlockCode env nodes prog labels node q) : BlockCode env nodes prog' labels' node q := by
  cases h with
  | table q' shape lt straight exit entries =>
    apply BlockCode.table q' shape lt (straight.mono hprog) (getElem?_mono hprog exit)
    intro k jp hk
    rcases entries k jp hk with ⟨name, hname, hcode⟩
    exact ⟨name, hname, getElem?_mono hprog hcode⟩
  | head next name noTable shape jump0 hname exit =>
    exact BlockCode.head next name noTable shape jump0 hname (exit.mono hprog)
  | ret q' size noTable noBody jump0 jump1 lt straight hsize exit =>
    exact BlockCode.ret q' size noTable noBody jump0 jump1 lt (straight.mono hprog) hsize
      (getElem?_mono hprog exit)
  | branch q' next target name noTable noBody jump0 jump1 lt straight hname taken exit =>
    exact BlockCode.branch q' next target name noTable noBody jump0 jump1 lt (straight.mono hprog)
      hname (taken.mono hprog) (exit.mono hprog hlabels)
  | single q' next noTable noBody jump0 jump1 lt silent straight exit =>
    exact BlockCode.single q' next noTable noBody jump0 jump1 lt silent (straight.mono hprog)
      (exit.mono hprog hlabels)

/-! ## Extending the code -/

/-- The labels of blocks as entries of the list of labels. -/
def blockLabels (nodes : List Node) (bs : List BlockId) : List VmLabel :=
  bs.map fun b => { name := (labelOf nodes b).getD "" }

/-- The generator is between two blocks of a function. -/
structure Ready (g : GenState) : Prop where
  mode : g.isGlobalMode = false
  args : g.args = []

/-- Code that is appended, and the labels that it marks: those of the blocks that
become black, each once and in their order. -/
structure Extends (nodes : List Node) (s s' : NodeState) : Prop where
  ready : Ready s'.gen
  code : ∃ seg bs, s'.gen.prog = s.gen.prog ++ seg ∧ s'.black = s.black ++ bs ∧
    s'.gen.labels = s.gen.labels ++ blockLabels nodes bs ∧
    lindexes seg = List.range' s.gen.labels.length bs.length ∧ bs.Nodup ∧ ∀ b ∈ bs, b ∉ s.black

@[simp]
theorem lindexes_append (xs ys : List VmCode) : lindexes (xs ++ ys) = lindexes xs ++ lindexes ys :=
  filterMap_append

theorem lindexes_eq_nil (h : ∀ c ∈ prog, c.opcode ≠ .label) : lindexes prog = [] := by
  unfold lindexes
  rw [filterMap_eq_nil_iff]
  intro c hc
  have := h c hc
  split
  · rename_i hop _
    exact absurd hop this
  · rfl

theorem Extends.refl (h : Ready s.gen) : Extends nodes s s where
  ready := h
  code := ⟨[], [], by simp [blockLabels, lindexes]⟩

theorem Extends.trans (h : Extends nodes s s') (h' : Extends nodes s' s'') :
    Extends nodes s s'' where
  ready := h'.ready
  code := by
    rcases h.code with ⟨seg, bs, hprog, hblack, hlabels, hindex, hnodup, hnew⟩
    rcases h'.code with ⟨seg', bs', hprog', hblack', hlabels', hindex', hnodup', hnew'⟩
    refine ⟨seg ++ seg', bs ++ bs', ?_, ?_, ?_, ?_, ?_, ?_⟩
    · rw [hprog', hprog, append_assoc]
    · rw [hblack', hblack, append_assoc]
    · rw [hlabels', hlabels, blockLabels, blockLabels, blockLabels, map_append, append_assoc]
    · have hlen : s'.gen.labels.length = s.gen.labels.length + 1 * bs.length := by
        simp [hlabels, blockLabels]
      rw [lindexes_append, hindex, hindex', hlen, length_append, ← range'_append]
    · rw [nodup_append]
      refine ⟨hnodup, hnodup', ?_⟩
      intro b hb b' hb' heq
      subst heq
      exact hnew' b hb' (by simp [hblack, hb])
    · intro b hb
      rcases mem_append.mp hb with hb | hb
      · exact hnew b hb
      · intro hmem
        exact hnew' b hb (by simp [hblack, hmem])

theorem Extends.prog_le (h : Extends nodes s s') : s.gen.prog <+: s'.gen.prog := by
  rcases h.code with ⟨seg, bs, hprog, -⟩
  exact ⟨seg, hprog.symm⟩

theorem Extends.labels_le (h : Extends nodes s s') : s.gen.labels <+: s'.gen.labels := by
  rcases h.code with ⟨seg, bs, -, -, hlabels, -⟩
  exact ⟨_, hlabels.symm⟩

theorem Extends.black_subset (h : Extends nodes s s') : s.black ⊆ s'.black := by
  rcases h.code with ⟨seg, bs, -, hblack, -⟩
  rw [hblack]
  exact subset_append_left _ _

theorem Done.mono (hs : Extends nodes s s') (h : Done env nodes s b) : Done env nodes s' b where
  code := by
    rcases h.code with ⟨node, q, hnode, hlabel, hcode⟩
    exact ⟨node, q, hnode, hlabel.mono hs.prog_le hs.labels_le, hcode.mono hs.prog_le hs.labels_le⟩
  closed := fun c hc => hs.black_subset (h.closed c hc)

theorem extends_emitVmCode {c : VmCode} (h : Ready s.gen) (hc : c.opcode ≠ .label) :
    Extends nodes s { s with gen := emitVmCode c s.gen } where
  ready := by
    constructor
    · simp [emitVmCode, GenState.setCode, h.mode]
    · simp [h.args]
  code := by
    refine ⟨[c], [], ?_, by simp, ?_, ?_, by simp, by simp⟩
    · simp [emitVmCode, GenState.setCode, GenState.code, h.mode]
    · simp [emitVmCode, GenState.setCode, h.mode, blockLabels]
    · rw [lindexes_eq_nil (by simpa using hc)]
      rfl

variable {tail : List VmCode}

/-- The label of a block and the code behind it. -/
theorem extends_of_form (hb : b ∉ s.black) (hnode : nodes[b]? = some node)
    (hform : BlockForm g s.gen.prog (labelCode s.gen.labels.length) tail)
    (hlabels : g.labels = s.gen.labels ++ [{ name := node.label }]) (hargs : g.args = []) :
    Extends nodes s { gen := g, black := s.black ++ [b] } where
  ready := ⟨hform.mode, hargs⟩
  code := by
    refine ⟨labelCode s.gen.labels.length :: tail, [b], hform.prog, rfl, ?_, ?_, by simp, by simpa⟩
    · simp [hlabels, blockLabels, labelOf, hnode]
    · have htail : lindexes tail = [] := by
        apply lindexes_eq_nil
        intro c hc hlabel
        have := hform.straight c hc
        simp [hlabel, isControl] at this
      have hcons : lindexes (labelCode s.gen.labels.length :: tail) =
          s.gen.labels.length :: lindexes tail := by
        simp [lindexes, labelCode]
      rw [hcons, htail]
      rfl

variable {base : List VmCode} {l d : VmCode}

theorem BlockForm.not_reference
    (h : BlockForm g base l tail) (hi : base.length ≤ i) (hd : g.prog[i]? = some d) :
    isReference d.opcode = false := by
  rw [h.prog, getElem?_append_right hi] at hd
  rcases mem_cons.mp (mem_of_getElem? hd) with rfl | hmem
  · simp [isReference, h.label]
  · have hstraight := h.straight d hmem
    cases hop : d.opcode <;> simp_all [isReference, isControl]

theorem getElem?_concat_cases {xs : List VmCode} {d e : VmCode}
    (h : (xs ++ [d])[i]? = some e) : xs[i]? = some e ∨ e = d := by
  by_cases hi : i < xs.length
  · rw [getElem?_append_left hi] at h
    exact Or.inl h
  · rw [getElem?_append_right (by omega)] at h
    have hmem := mem_of_getElem? h
    exact Or.inr (mem_singleton.mp hmem)

theorem emitVmLabelCode_form (h : Ready g) (name : String) :
    BlockForm (emitVmLabelCode name g) g.prog (labelCode g.labels.length) [] where
  mode := by simp [emitVmLabelCode, emitVmCode, GenState.setCode, h.mode]
  prog := by
    simp [emitVmLabelCode, emitVmCode, GenState.setCode, GenState.code, h.mode, labelCode]
  label := rfl
  straight := by simp
  head := by simp

@[simp]
theorem emitVmLabelCode_labels (name : String) (g : GenState) :
    (emitVmLabelCode name g).labels = g.labels ++ [{ name := name }] := by
  simp only [emitVmLabelCode, emitVmCode]
  exact labels_setCode _

@[simp]
theorem emitVmLabelCode_args (name : String) (g : GenState) :
    (emitVmLabelCode name g).args = g.args :=
  emitVmCode_args _ _

/-! ## Leaving a block -/

/-- The program ends with an instruction behind which control does not go on, or with
a jump. -/
def Ended (g : GenState) : Prop :=
  ∃ c, g.prog.getLast? = some c ∧ isControl c.opcode = true ∧ c.opcode ≠ .label

theorem BlockForm.last_eq (h : BlockForm g base l tail)
    (hd : g.prog.getLast? = some d) : d.opcode = .label ∨ isControl d.opcode = false := by
  rw [h.prog, getLast?_append_of_ne_nil _ (by simp)] at hd
  rcases mem_cons.mp (mem_of_getLast? hd) with rfl | hmem
  · exact Or.inl h.label
  · exact Or.inr (h.straight d hmem)

theorem last_eq_getLast? (h : g.isGlobalMode = false) : g.last = g.prog.getLast? := by
  simp [GenState.last, GenState.code, h]

theorem emitVmCode_prog (h : g.isGlobalMode = false) (d : VmCode) :
    (emitVmCode d g).prog = g.prog ++ [d] := by
  simp [emitVmCode, GenState.setCode, GenState.code, h]

theorem emitVmCode_labels (d : VmCode) (g : GenState) : (emitVmCode d g).labels = g.labels :=
  labels_setCode _

/-- In a block no jump is left out. -/
theorem emitVmJmp_eq (op : VmOpcode) (name : String)
    (size : Int) (h : BlockForm g base l tail) :
    emitVmJmp op name size g =
      emitVmCode { opcode := op, d := .addr { name := name, size := size } } g := by
  unfold emitVmJmp
  rw [if_neg]
  rw [last_eq_getLast? h.mode, Option.any_eq_true]
  rintro ⟨d, hd, hjmp⟩
  have hop : d.opcode = .jmp := by simpa using hjmp
  rcases h.last_eq hd with hlabel | hstraight
  · simp [hop] at hlabel
  · simp [hop, isControl] at hstraight

/-- In a block no return is left out.  A store to a variable of the function is taken
back. -/
theorem emitVmRet_eq (size : Int)
    (h : BlockForm g base l tail) :
    ∃ g' tail', BlockForm g' base l tail' ∧ g'.labels = g.labels ∧ g'.args = g.args ∧
      emitVmRet size g = emitVmCode { opcode := .ret, d := .size size } g' := by
  have hstay : ∀ d, g.prog.getLast? = some d → ¬ (d.opcode = .jmp ∨ d.opcode = .ret) := by
    intro d hd hop
    rcases h.last_eq hd with hlabel | hstraight
    · rcases hop with hop | hop <;> simp [hop] at hlabel
    · rcases hop with hop | hop <;> simp [hop, isControl] at hstraight
  have hany : (g.prog.getLast?.any fun d => d.opcode = .jmp || d.opcode = .ret) ≠ true := by
    rw [Ne, Option.any_eq_true]
    rintro ⟨d, hd, hop⟩
    exact hstay d hd (by simpa using hop)
  have hmode : (!g.isGlobalMode && g.prog.getLast?.any isLocalPop) =
      g.prog.getLast?.any isLocalPop := by
    rw [h.mode, Bool.not_false, Bool.true_and]
  unfold emitVmRet
  simp only [hmode, if_neg hany]
  by_cases hpop : g.prog.getLast?.any isLocalPop = true
  · rw [if_pos hpop]
    rcases Option.any_eq_true _ _ |>.mp hpop with ⟨d, hd, hlocal⟩
    have hop : d.opcode = .pop := by
      simp only [isLocalPop, Bool.and_eq_true, decide_eq_true_eq] at hlocal
      exact hlocal.1.1
    rcases h.dropPop (by rw [last_eq_getLast? h.mode]; exact hd) hop with ⟨tail', hform, -⟩
    exact ⟨_, tail', hform, rfl, rfl, rfl⟩
  · rw [if_neg hpop]
    exact ⟨g, tail, h, rfl, rfl, rfl⟩

theorem BlockForm.straightTo (h : BlockForm g base l tail) :
    StraightTo g.prog (base.length + 1) g.prog.length := by
  intro i hle hlt
  rw [h.prog] at hlt ⊢
  rw [getElem?_append_right (by omega)]
  have hi : i - base.length = (i - base.length - 1) + 1 := by omega
  rw [hi, getElem?_cons_succ]
  have hbound : i - base.length - 1 < tail.length := by
    rw [length_append, length_cons] at hlt
    omega
  exact ⟨tail[i - base.length - 1], getElem?_eq_getElem hbound, h.straight _ (getElem_mem hbound)⟩

theorem BlockForm.length_prog (h : BlockForm g base l tail) :
    g.prog.length = base.length + 1 + tail.length := by
  rw [h.prog, length_append, length_cons]
  omega

theorem BlockForm.labelAt
    (h : BlockForm g base (labelCode labels.length) tail)
    (hlabels : g.labels = labels ++ [{ name := name }]) :
    LabelAt g.prog g.labels name base.length := by
  refine ⟨labels.length, ?_, ?_⟩
  · rw [h.prog, getElem?_append_right (le_refl _), Nat.sub_self, getElem?_cons_zero]
  · rw [hlabels, getElem?_append_right (le_refl _), Nat.sub_self, getElem?_cons_zero]

theorem extends_emitVmJmp (name : String) (size : Int) (h : Ready s.gen) :
    Extends nodes s { s with gen := emitVmJmp .jmp name size s.gen } := by
  unfold emitVmJmp
  split
  · exact Extends.refl h
  · exact extends_emitVmCode h (by simp)

theorem emitVmCode_ended (hmode : g.isGlobalMode = false)
    (hd : isControl d.opcode = true) (hlabel : d.opcode ≠ .label) : Ended (emitVmCode d g) := by
  refine ⟨d, ?_, hd, hlabel⟩
  rw [emitVmCode_prog hmode, getLast?_concat]

theorem emitVmJmp_ended (name : String) (size : Int) (h : g.isGlobalMode = false) :
    Ended (emitVmJmp .jmp name size g) := by
  unfold emitVmJmp
  split
  · rename_i hlast
    rw [last_eq_getLast? h, Option.any_eq_true] at hlast
    rcases hlast with ⟨d, hd, hop⟩
    have hop : d.opcode = .jmp := by simpa using hop
    exact ⟨d, hd, by simp [hop, isControl], by simp [hop]⟩
  · exact emitVmCode_ended h rfl (by simp)

end Kcs.Vm
