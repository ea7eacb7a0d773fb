import Kcs.Vm.Program
import Kcs.Vm.Resolve

/-!
# The edges of the graph in the code

After the labels have been resolved, control that leaves the code of a block comes
to the code of the successor that the graph names.  Both run into the same instruction,
possibly through unconditional jumps.  The resolution itself does not end when blocks
without an instruction form a cycle.

Main results:

- Theorem {lit}`linearised_iff`: every edge is realised exactly when no reachable block
  comes back to itself without an instruction.
-/

namespace Kcs.Vm

open Option List

/-! ## Control -/

/-- Where control goes from an unconditional instruction, as `vmrunlir.c` does. -/
def runNext (exec : List VmCode) (i : Int) : Option Int :=
  (codeAt exec i).bind fun c =>
    match c.opcode with
    | .jmp => some (i + c.addr.index)
    | .nop => some (i + 1)
    | _ => none

/-- Where control goes from a branch, when the slot on top is not zero or is. -/
def follow (exec : List VmCode) (i : Int) (taken : Bool) : Option Int :=
  (codeAt exec i).bind fun c =>
    match c.opcode with
    | .jmp => some (i + c.addr.index)
    | .nop => some (i + 1)
    | .jz => some (if taken then i + 1 else i + c.addr.index)
    | .jnz => some (if taken then i + c.addr.index else i + 1)
    | _ => none

/-- Where control goes from `VM_JMPTBL`, when the slot on top is the given number. -/
def tableTarget (exec : List VmCode) (i : Int) (k : Nat) : Option Int :=
  (codeAt exec (i + k + 1)).map fun c => i + k + 1 + c.addr.index

/-- Control runs from one place to another. -/
def RunsTo (exec : List VmCode) (a b : Int) : Prop :=
  a ≤ b ∧ ∀ i, a ≤ i → i < b → ∃ c, codeAt exec i = some c ∧ isControl c.opcode = false

/-- Control that leaves a block goes to the successor of the block, or returns. -/
inductive Leaves (env : GenEnv) (place : BlockId → Option Int) (exec : List VmCode) (node : Node)
    (start : Int) : Prop
  | table (stop : Int) (c : VmCode) (shape : node.hasJumpTable = true)
      (runs : RunsTo exec start stop) (exit : codeAt exec stop = some c) (hc : c.opcode = .jmptbl)
      (entries : ∀ k jp, node.jumpTable[k]? = some jp → ∃ t y, tableTarget exec stop k = some t ∧
        place jp.label = some y ∧ Meets (runNext exec) t y)
  | head (next : BlockId) (y : Int) (noTable : node.hasJumpTable = false)
      (shape : node.body.isSome) (jump0 : node.jump0 = some next) (hplace : place next = some y)
      (exit : Meets (runNext exec) start y)
  | ret (stop size : Int) (noTable : node.hasJumpTable = false) (noBody : node.body = none)
      (jump0 : node.jump0 = none) (jump1 : node.jump1 = none) (runs : RunsTo exec start stop)
      (hsize : if node.hasReturnValue then intSizeOf env node.expr.type = some size else size = 0)
      (exit : codeAt exec stop = some { opcode := .ret, d := .size size })
  | branch (stop : Int) (next target : BlockId) (y0 y1 t0 t1 : Int)
      (noTable : node.hasJumpTable = false) (noBody : node.body = none)
      (jump0 : node.jump0 = some next) (jump1 : node.jump1 = some target)
      (runs : RunsTo exec start stop) (hplace0 : place next = some y0)
      (hplace1 : place target = some y1) (taken : follow exec stop true = some t1)
      (hmeets1 : Meets (runNext exec) t1 y1) (notTaken : follow exec stop false = some t0)
      (hmeets0 : Meets (runNext exec) t0 y0)
  | single (stop : Int) (next : BlockId) (y : Int) (noTable : node.hasJumpTable = false)
      (noBody : node.body = none) (jump0 : node.jump0 = some next) (jump1 : node.jump1 = none)
      (runs : RunsTo exec start stop) (hplace : place next = some y)
      (exit : Meets (runNext exec) stop y)

/-- The names of the labels in a program, in the order of the code. -/
def labelNames (prog : List VmCode) (labels : List VmLabel) : List String :=
  (lindexes prog).map fun i => ((labels[i]?).map (·.name)).getD ""

/-- The reachable blocks of all functions are emitted once, and control that leaves one
of them goes where the graph says. -/
structure Realised (env : GenEnv) (funs : List Function) (start : List String)
    (prog : List VmCode) (labels : List VmLabel) (exec : List VmCode) : Prop where
  emitted : ∃ orders, List.Forall₂ IsOrder funs orders ∧
    labelNames prog labels = start ++ (List.zipWith functionNames funs orders).flatten ++
      ["_setup_global"]
  edges : ∀ f ∈ funs, ∀ b, Reachable f.nodes f.body b → ∃ node place, f.nodes[b]? = some node ∧
    labelPlace prog labels node.label = some place ∧
      Leaves env (fun b => (labelOf f.nodes b).bind (labelPlace prog labels)) exec node place

/-- Control passes a block to the next one without an instruction of the block: it is the head of a
loop, or it has one successor and no code. -/
def Passes (env : GenEnv) (nodes : List Node) (b c : BlockId) : Prop :=
  ∃ node, nodes[b]? = some node ∧ node.hasJumpTable = false ∧ node.jump0 = some c ∧
    (node.body.isSome ∨
      node.body = none ∧ node.jump1 = none ∧ ∀ s ∈ node.code, isSilent env s = true)

/-- The program that initializes global variables and calls `main`: a label, and code that
does not jump. -/
structure GlobalCode (builtins : List String) (isSave : Bool) (glbl : List VmCode) : Prop where
  label : glbl.head? = some (labelCode (builtins.length + (startLabels isSave).length - 1))
  code : glbl.tail ≠ []
  straight : ∀ c ∈ glbl.tail, isControl c.opcode = false ∨ c.opcode = .halt

/-- No instruction stores the address of a built-in function. -/
def StoresNoBuiltin (globals : List VmLabel) (prog : List VmCode) (labels : List VmLabel) : Prop :=
  ∀ c ∈ prog, isReference c.opcode = false →
    ∀ i, ∃ d, reassignCode (updateLabelIndex prog labels).2 globals i c = some d

variable {env : GenEnv} {nodes : List Node} {funs : List Function} {f : Function}
  {builtins : List String} {isSave : Bool} {prog exec0 exec : List VmCode}
  {labels globals : List VmLabel} {name : String} {q q' i fuel : Nat} {c d : VmCode}
  {b w : BlockId} {node : Node} {a : Int}

/-! ## The first instruction of a block -/

theorem BlockCode.first (hnode : nodes[b]? = some node)
    (h : BlockCode env nodes prog labels node q) :
    (∃ c, prog[q + 1]? = some c ∧ c.opcode ≠ .label ∧ c.opcode ≠ .jmp) ∨
      ∃ w, Passes env nodes b w ∧ GoesTo nodes prog labels w (q + 1) := by
  have hstraight : ∀ q', StraightTo prog (q + 1) q' → q + 1 < q' →
      ∃ c, prog[q + 1]? = some c ∧ c.opcode ≠ .label ∧ c.opcode ≠ .jmp := by
    intro q' hs hlt
    rcases hs (q + 1) (le_refl _) hlt with ⟨c, hc, hcontrol⟩
    refine ⟨c, hc, ?_, ?_⟩
    · intro hop
      simp [hop, isControl] at hcontrol
    · intro hop
      simp [hop, isControl] at hcontrol
  cases h with
  | table q' shape lt straight exit entries => exact Or.inl (hstraight q' straight lt)
  | head next name noTable shape jump0 hname exit =>
    exact Or.inr ⟨next, ⟨node, hnode, noTable, jump0, Or.inl shape⟩, name, hname, Or.inl exit⟩
  | ret q' size noTable noBody jump0 jump1 lt straight hsize exit =>
    by_cases heq : q' = q + 1
    · subst heq
      exact Or.inl ⟨_, exit, by simp, by simp⟩
    · exact Or.inl (hstraight q' straight (by omega))
  | branch q' next target name noTable noBody jump0 jump1 lt straight hname taken exit =>
    exact Or.inl (hstraight q' straight lt)
  | single q' next noTable noBody jump0 jump1 lt silent straight exit =>
    by_cases heq : q' = q + 1
    · have hsilent := silent.mp heq
      subst heq
      exact Or.inr ⟨next, ⟨node, hnode, noTable, jump0, Or.inr ⟨noBody, jump1, hsilent⟩⟩, exit⟩
    · exact Or.inl (hstraight q' straight (by omega))

theorem BlockCode.goesTo (hnode : nodes[b]? = some node)
    (h : BlockCode env nodes prog labels node q) (hpass : Passes env nodes b w) :
    GoesTo nodes prog labels w (q + 1) := by
  rcases hpass with ⟨node', hnode', hno, hjump0, hshape⟩
  rw [hnode, some.injEq] at hnode'
  subst hnode'
  cases h with
  | table q' shape lt straight exit entries => simp [shape] at hno
  | head next name noTable shape jump0 hname exit =>
    rw [jump0, some.injEq] at hjump0
    subst hjump0
    exact ⟨name, hname, Or.inl exit⟩
  | ret q' size noTable noBody jump0 jump1 lt straight hsize exit => simp [jump0] at hjump0
  | branch q' next target name noTable noBody jump0 jump1 lt straight hname taken exit =>
    simp [noBody, jump1] at hshape
  | single q' next noTable noBody jump0 jump1 lt silent straight exit =>
    rw [jump0, some.injEq] at hjump0
    subst hjump0
    simp only [noBody, isSome_none, Bool.false_eq_true, false_or, true_and] at hshape
    have hq := silent.mpr hshape.2
    subst hq
    exact exit

theorem Passes.unique {w' : BlockId} (h : Passes env nodes b w) (h' : Passes env nodes b w') :
    w = w' := by
  rcases h with ⟨node, hnode, -, hjump, -⟩
  rcases h' with ⟨node', hnode', -, hjump', -⟩
  rw [hnode, some.injEq] at hnode'
  subst hnode'
  rw [hjump, some.injEq] at hjump'
  exact hjump'

theorem Passes.isEdge (h : Passes env nodes b w) : IsEdge nodes b w := by
  rcases h with ⟨node, hnode, hno, hjump, -⟩
  exact ⟨node, hnode, by simp [successors, hno, hjump]⟩

/-! ## Linked programs -/

/-- A program whose labels can be resolved. -/
structure Linked (env : GenEnv) (funs : List Function) (prog : List VmCode)
    (labels : List VmLabel) : Prop where
  nodup : (lindexes prog).Nodup
  functions : ∀ f ∈ funs, HasFunction env f prog labels
  target : ∀ f ∈ funs, ∀ b name, Reachable f.nodes f.body b → labelOf f.nodes b = some name →
    ∀ q, LabelAt prog labels name q → Target prog labels name q
  references : ∀ (i : Nat) c, prog[i]? = some c → isReference c.opcode = true →
    ∃ name size q, c.d = .addr { name := name, size := size } ∧ c.type = .none ∧
      Target prog labels name q ∧
      ((∃ f ∈ funs, ∃ b, Reachable f.nodes f.body b ∧ labelOf f.nodes b = some name ∧
        LabelAt prog labels name q) ∨
        ∃ d, prog[q + 1]? = some d ∧ d.opcode ≠ .label ∧ d.opcode ≠ .jmp)

/-- The place of a reachable block. -/
def StandsAt (f : Function) (prog : List VmCode) (labels : List VmLabel) (b : BlockId) (q : Nat) :
    Prop :=
  Reachable f.nodes f.body b ∧ ∃ name, labelOf f.nodes b = some name ∧
    LabelAt prog labels name q

section

variable (h : Linked env funs prog labels) (hf : f ∈ funs)
include h hf

theorem Linked.standsAt (hb : Reachable f.nodes f.body b) : ∃ q, StandsAt f prog labels b q := by
  rcases (h.functions f hf).code b hb with ⟨node, q, hnode, hlabel, -⟩
  exact ⟨q, hb, node.label, by simp [labelOf, hnode], hlabel⟩

theorem Linked.target_of_standsAt (hb : StandsAt f prog labels b q) :
    ∃ name, labelOf f.nodes b = some name ∧ Target prog labels name q := by
  rcases hb with ⟨hreach, name, hname, hlabel⟩
  exact ⟨name, hname, h.target f hf b name hreach hname q hlabel⟩

theorem Linked.blockCode (hb : StandsAt f prog labels b q) :
    ∃ node, f.nodes[b]? = some node ∧ BlockCode env f.nodes prog labels node q := by
  rcases hb with ⟨hreach, name, hname, hlabel⟩
  rcases (h.functions f hf).code b hreach with ⟨node, q', hnode, hlabel', hcode⟩
  have hname' : node.label = name := by
    rw [labelOf, hnode, map_some, some.injEq] at hname
    exact hname
  rw [hname'] at hlabel'
  have heq := (h.target f hf b name hreach hname q hlabel).unique h.nodup
    (h.target f hf b name hreach hname q' hlabel')
  subst heq
  exact ⟨node, hnode, hcode⟩

end

theorem StandsAt.placeOf_succ (hb : StandsAt f prog labels b q) :
    placeOf prog (q + 1) = placeOf prog q := by
  rcases hb with ⟨-, name, -, i, hcode, -⟩
  rw [Vm.placeOf_succ hcode]
  rfl

/-! ## Distances in the resolved program -/

/-- The program in which the distances have been set, before the jumps are optimized. -/
structure Assigned (prog : List VmCode) (labels globals : List VmLabel) (exec0 : List VmCode) :
    Prop where
  run : reassignFrom (updateLabelIndex prog labels).2 globals 0 (updateLabelIndex prog labels).1 =
    some exec0

theorem Assigned.code (h : Assigned prog labels globals exec0) (hc : prog[q]? = some c)
    (hlabel : c.opcode ≠ .label) :
    ∃ d, exec0[placeOf prog q]? = some d ∧
      reassignCode (updateLabelIndex prog labels).2 globals (placeOf prog q) c = some d := by
  have hget := getElem?_placeOf hc hlabel
  rw [← updateLabelIndex_fst prog labels] at hget
  rcases (reassignFrom_spec h.run).2 _ c hget with ⟨d, hd, hcode⟩
  rw [Nat.zero_add] at hcode
  exact ⟨d, hd, hcode⟩

theorem Assigned.jump (h : Assigned prog labels globals exec0) (hnodup : (lindexes prog).Nodup)
    {op : VmOpcode} {size : Int}
    (hc : prog[q]? = some { opcode := op, d := .addr { name := name, size := size } })
    (href : isReference op = true) (ht : Target prog labels name q') :
    exec0[placeOf prog q]? = some (.mk op .none
      (.addr { name := name, size := size, index := placeOf prog q' - placeOf prog q })) := by
  have hlabel : op ≠ .label := by
    rintro rfl
    cases href
  rcases h.code hc hlabel with ⟨d, hd, hcode⟩
  rw [reassignCode_reference hnodup href ht, some.injEq] at hcode
  rw [hd, ← hcode]

theorem exists_placeOf (h : (prog.filter fun c => c.opcode ≠ .label)[i]? = some c) :
    ∃ q, prog[q]? = some c ∧ placeOf prog q = i ∧ c.opcode ≠ .label := by
  induction prog using List.reverseRecOn with
  | nil => simp at h
  | append_singleton prog d ih =>
    rw [filter_append] at h
    by_cases hi : i < (prog.filter fun c => c.opcode ≠ .label).length
    · rw [getElem?_append_left hi] at h
      rcases ih h with ⟨q, hq, hplace, hlabel⟩
      have hlt := (List.getElem?_eq_some_iff.mp hq).1
      refine ⟨q, by rw [getElem?_append_left hlt, hq], ?_, hlabel⟩
      rw [placeOf_append_of_le _ _ (by omega), hplace]
    · rw [getElem?_append_right (by omega)] at h
      have hd : d.opcode ≠ .label := by
        intro hd
        simp [hd] at h
      have hfilter : [d].filter (fun c => c.opcode ≠ .label) = [d] := by simp [hd]
      rw [hfilter] at h
      have hzero : i - (prog.filter fun c => c.opcode ≠ .label).length = 0 := by
        have := (List.getElem?_eq_some_iff.mp h).1
        rw [length_singleton] at this
        omega
      rw [hzero, getElem?_cons_zero, some.injEq] at h
      subst h
      refine ⟨prog.length, by simp, ?_, hd⟩
      rw [placeOf_append_of_le _ _ (le_refl _), placeOf_length]
      omega

/-! ## Chains of jumps -/

theorem reachable_of_passes (hb : Reachable f.nodes f.body b) (h : Passes env f.nodes b w) :
    Reachable f.nodes f.body w :=
  Relation.ReflTransGen.tail hb h.isEdge

theorem StandsAt.lt (hb : StandsAt f prog labels b q) : q < prog.length := by
  rcases hb with ⟨-, name, -, i, hcode, -⟩
  exact (List.getElem?_eq_some_iff.mp hcode).1

/-- A jump at the place of a block goes to a block that control comes to without an
instruction. -/
theorem Linked.jumpNext (h : Linked env funs prog labels)
    (hassigned : Assigned prog labels globals exec0) (hf : f ∈ funs)
    (hb : StandsAt f prog labels b q) (hnext : jumpNext exec0 (placeOf prog q) = some a) :
    ∃ w q', Relation.TransGen (Passes env f.nodes) b w ∧ StandsAt f prog labels w q' ∧
      a = placeOf prog q' := by
  -- Blocks that fall through to the next one come at greater positions.
  have hbound : ∃ n, prog.length ≤ n + q := ⟨prog.length, Nat.le_add_right _ _⟩
  rcases hbound with ⟨n, hn⟩
  induction n generalizing b q with
  | zero =>
    have := hb.lt
    omega
  | succ n ih =>
    rcases h.blockCode hf hb with ⟨node, hnode, hcode⟩
    have hsame := hb.placeOf_succ
    rcases hcode.first hnode with ⟨c, hc, hlabel, hjmp⟩ | ⟨w, hpass, name, hname, hcomes⟩
    · rcases hassigned.code hc hlabel with ⟨d, hd, hreassign⟩
      rw [hsame] at hd
      rcases jumpNext_eq_some_iff.mp hnext with ⟨i, d', hi, hd', hop, -⟩
      rw [Int.natCast_inj] at hi
      subst hi
      rw [hd, some.injEq] at hd'
      subst hd'
      rw [reassignCode_opcode hreassign] at hop
      exact absurd hop hjmp
    · have hreach := reachable_of_passes hb.1 hpass
      rcases hcomes with ⟨size, hjump⟩ | hlabel
      · rcases h.standsAt hf hreach with ⟨q', hw⟩
        rcases h.target_of_standsAt hf hw with ⟨name', hname', htarget⟩
        rw [hname, some.injEq] at hname'
        subst hname'
        have hget := hassigned.jump h.nodup hjump rfl htarget
        rw [hsame] at hget
        rcases jumpNext_eq_some_iff.mp hnext with ⟨i, d, hi, hd, -, ha⟩
        rw [Int.natCast_inj] at hi
        subst hi
        rw [hget, some.injEq] at hd
        subst hd
        refine ⟨w, q', Relation.TransGen.single hpass, hw, ?_⟩
        rw [ha]
        show (placeOf prog q : Int) + ((placeOf prog q' : Int) - placeOf prog q) = placeOf prog q'
        omega
      · have hw : StandsAt f prog labels w (q + 1) := ⟨hreach, name, hname, hlabel⟩
        rw [← hsame] at hnext
        rcases ih hw hnext (by omega) with ⟨w', q', htrans, hw', ha⟩
        exact ⟨w', q', Relation.TransGen.head hpass htrans, hw', ha⟩

theorem Linked.settles (h : Linked env funs prog labels)
    (hassigned : Assigned prog labels globals exec0) (hf : f ∈ funs) (hwf : f.WellFormed env)
    (hacyclic : ∀ b, Reachable f.nodes f.body b → ¬ Relation.TransGen (Passes env f.nodes) b b)
    (hb : StandsAt f prog labels b q) : Settles (Vm.jumpNext exec0) (placeOf prog q) := by
  let r : Fin f.nodes.length → Fin f.nodes.length → Prop := fun y x =>
    Reachable f.nodes f.body x ∧ Relation.TransGen (Passes env f.nodes) x y
  have htrans : IsTrans _ r := ⟨fun z y x hzy hyx => ⟨hyx.1, hyx.2.trans hzy.2⟩⟩
  have hirrefl : Std.Irrefl r := ⟨fun x hx => hacyclic x hx.1 hx.2⟩
  have hfounded : WellFounded r := Finite.wellFounded_of_trans_of_irrefl r
  let place : Fin f.nodes.length → Int → Prop := fun x a =>
    ∃ q, StandsAt f prog labels x q ∧ a = placeOf prog q
  apply settles_of_relation place hfounded
  · rintro x _ a ⟨q, hx, rfl⟩ hnext
    rcases h.jumpNext hassigned hf hx hnext with ⟨w, q', hpath, hw, rfl⟩
    exact ⟨⟨w, hwf.lt_of_reachable hw.1⟩, ⟨hx.1, hpath⟩, q', hw, rfl⟩
  · exact (⟨q, hb, rfl⟩ : place ⟨b, hwf.lt_of_reachable hb.1⟩ (placeOf prog q))

theorem exists_passes_of_cycle (hcycle : Relation.TransGen (Passes env nodes) b b)
    (hw : Relation.ReflTransGen (Passes env nodes) b w) : ∃ w', Passes env nodes w w' := by
  have hback : Relation.TransGen (Passes env nodes) w b := by
    induction hw with
    | refl => exact hcycle
    | tail _ hstep ih =>
      rcases Relation.TransGen.head'_iff.mp ih with ⟨w', hw', hpath⟩
      rw [hstep.unique hw']
      exact Relation.TransGen.trans_right hpath hcycle
  rcases Relation.TransGen.head'_iff.mp hback with ⟨w', hw', -⟩
  exact ⟨w', hw'⟩

section

variable (h : Linked env funs prog labels) (hassigned : Assigned prog labels globals exec0)
include h hassigned

theorem Linked.diverges (hf : f ∈ funs)
    (hb : Reachable f.nodes f.body b) (hcycle : Relation.TransGen (Passes env f.nodes) b b)
    (fuel : Nat) : jumpOptimization fuel exec0 = none := by
  let places : Set Nat := {p | ∃ w q, Relation.ReflTransGen (Passes env f.nodes) b w ∧
    StandsAt f prog labels w q ∧ p = placeOf prog q}
  apply jumpOptimization_eq_none places
  · rcases h.standsAt hf hb with ⟨q, hq⟩
    exact ⟨_, b, q, Relation.ReflTransGen.refl, hq, rfl⟩
  · rintro _ ⟨w, q, hpath, hw, rfl⟩
    have hbound : ∃ n, prog.length ≤ n + q := ⟨prog.length, Nat.le_add_right _ _⟩
    rcases hbound with ⟨n, hn⟩
    induction n generalizing w q with
    | zero =>
      have := hw.lt
      omega
    | succ n ih =>
      rcases exists_passes_of_cycle hcycle hpath with ⟨w', hpass⟩
      have hpath' := hpath.tail hpass
      have hreach := reachable_of_passes hw.1 hpass
      have hsame := hw.placeOf_succ
      rcases h.blockCode hf hw with ⟨node, hnode, hcode⟩
      rcases hcode.goesTo hnode hpass with ⟨name, hname, ⟨size, hjump⟩ | hlabel⟩
      · rcases h.standsAt hf hreach with ⟨q', hw'⟩
        rcases h.target_of_standsAt hf hw' with ⟨name', hname', htarget⟩
        rw [hname, some.injEq] at hname'
        subst hname'
        have hget := hassigned.jump h.nodup hjump rfl htarget
        rw [hsame] at hget
        refine ⟨_, placeOf prog q', hget, rfl, ⟨w', q', hpath', hw', rfl⟩, ?_⟩
        show (placeOf prog q : Int) + ((placeOf prog q' : Int) - placeOf prog q) = placeOf prog q'
        omega
      · have hw' : StandsAt f prog labels w' (q + 1) := ⟨hreach, name, hname, hlabel⟩
        rw [← hsame]
        exact ih w' (q + 1) hpath' hw' (by omega)

theorem Linked.jump_target (hc : exec0[i]? = some c)
    (hjump : isJump c.opcode = true) :
    ∃ q, (i : Int) + c.addr.index = placeOf prog q ∧
      ((∃ f ∈ funs, ∃ b, StandsAt f prog labels b q) ∨
        Vm.jumpNext exec0 (placeOf prog q) = none) := by
  have hexec := reassignFrom_spec hassigned.run
  rw [updateLabelIndex_fst] at hexec
  have hi : i < (prog.filter fun c => c.opcode ≠ .label).length := by
    rw [← hexec.1]
    exact (List.getElem?_eq_some_iff.mp hc).1
  rcases exists_placeOf (getElem?_eq_getElem hi) with ⟨q, hq, hplace, hlabel⟩
  generalize (prog.filter fun c => c.opcode ≠ .label)[i] = e at hq hlabel
  rcases hassigned.code hq hlabel with ⟨d, hd, hreassign⟩
  rw [hplace, hc, some.injEq] at hd
  subst hd
  have href : isReference e.opcode = true := by
    rw [← reassignCode_opcode hreassign]
    simp only [isJump, Bool.or_eq_true, decide_eq_true_eq] at hjump
    simp only [isReference, Bool.or_eq_true, decide_eq_true_eq]
    exact Or.inl hjump
  rcases h.references q e hq href with ⟨name, size, q', hd, htype, htarget, hto⟩
  rcases e with ⟨op, type, operand⟩
  simp only at hd htype href
  subst hd htype
  have hget := hassigned.jump h.nodup hq href htarget
  rw [hplace, hc, some.injEq] at hget
  subst hget
  refine ⟨q', ?_, ?_⟩
  · show (i : Int) + ((placeOf prog q' : Int) - i) = placeOf prog q'
    omega
  · rcases hto with ⟨f, hf, b, hb, hname, hlabel'⟩ | ⟨d, hd, hnolabel, hnojmp⟩
    · exact Or.inl ⟨f, hf, b, hb, name, hname, hlabel'⟩
    · refine Or.inr ?_
      rcases htarget.found with ⟨p, -, hcode, -⟩
      have hsame : placeOf prog (q' + 1) = placeOf prog q' := by
        rw [placeOf_succ hcode]
        rfl
      rcases hassigned.code hd hnolabel with ⟨d', hd', hreassign'⟩
      rw [hsame] at hd'
      rw [Vm.jumpNext, codeAt_natCast, hd', bind_some,
        if_neg (by rwa [reassignCode_opcode hreassign'])]

theorem Linked.settles_jump (hwf : ∀ f ∈ funs, f.WellFormed env)
    (hacyclic : ∀ f ∈ funs, ∀ b, Reachable f.nodes f.body b →
      ¬ Relation.TransGen (Passes env f.nodes) b b)
    (hc : exec0[i]? = some c) (hjump : isJump c.opcode = true) :
    Settles (Vm.jumpNext exec0) (i + c.addr.index) := by
  rcases h.jump_target hassigned hc hjump with ⟨q, hq, ⟨f, hf, b, hb⟩ | hnone⟩
  · rw [hq]
    exact h.settles hassigned hf (hwf f hf) (hacyclic f hf) hb
  · rw [hq]
    constructor
    intro a ha
    rw [hnone] at ha
    cases ha

theorem Linked.optimizes (hwf : ∀ f ∈ funs, f.WellFormed env)
    (hacyclic : ∀ f ∈ funs, ∀ b, Reachable f.nodes f.body b →
      ¬ Relation.TransGen (Passes env f.nodes) b b) :
    ∃ fuel exec, jumpOptimization fuel exec0 = some exec := by
  apply jumpOptimization_isSome
  · intro i c hc hjump
    rcases h.jump_target hassigned hc hjump with ⟨q, hq, -⟩
    omega
  · intro i c hc hjump
    exact h.settles_jump hassigned hwf hacyclic hc hjump

end

/-! ## Leaving a block -/

/-- The program after the optimization of jumps. -/
structure Finished (prog : List VmCode) (labels globals : List VmLabel) (exec0 exec : List VmCode) :
    Prop extends Assigned prog labels globals exec0 where
  optimized : ∀ i c, exec0[i]? = some c → ∃ d, exec[i]? = some d ∧ Optimized exec0 i c d

theorem Finished.shortcuts (h : Finished prog labels globals exec0 exec) :
    Shortcuts (runNext exec) (Vm.jumpNext exec0) := by
  intro a b hab
  rcases jumpNext_eq_some_iff.mp hab with ⟨i, c, rfl, hc, hjmp, rfl⟩
  rcases h.optimized i c hc with ⟨d, hd, hopt⟩
  rcases hopt.jump (by simp [isJump, hjmp]) with ⟨t, hleads, ⟨hop, hindex⟩ | ⟨hop, ht⟩⟩
  · refine ⟨t, ?_, hleads⟩
    simp only [runNext, codeAt_natCast, hd, bind_some, hop, hjmp, hindex]
    congr 1
    omega
  · refine ⟨t, ?_, hleads⟩
    simp only [runNext, codeAt_natCast, hd, bind_some, hop, ht]

theorem Finished.code (h : Finished prog labels globals exec0 exec) (hc : prog[q]? = some c)
    (hlabel : c.opcode ≠ .label) (hjump : isJump c.opcode = false) :
    ∃ d, exec[placeOf prog q]? = some d ∧
      reassignCode (updateLabelIndex prog labels).2 globals (placeOf prog q) c = some d := by
  rcases h.toAssigned.code hc hlabel with ⟨d, hd, hreassign⟩
  rcases h.optimized _ d hd with ⟨e, he, hopt⟩
  rw [hopt.other (by rwa [reassignCode_opcode hreassign])] at he
  exact ⟨d, he, hreassign⟩

theorem Finished.runsTo (h : Finished prog labels globals exec0 exec)
    (hs : StraightTo prog q q') (hle : q ≤ q') :
    RunsTo exec (placeOf prog q) (placeOf prog q') := by
  induction q', hle using Nat.le_induction with
  | base => exact ⟨le_refl _, fun i hi hlt => by omega⟩
  | succ q' hle ih =>
    rcases ih (fun i hi hlt => hs i hi (by omega)) with ⟨hmono, hruns⟩
    rcases hs q' hle (by omega) with ⟨c, hc, hcontrol⟩
    have hlabel : c.opcode ≠ .label := by
      intro hop
      simp [hop, isControl] at hcontrol
    have hjump : isJump c.opcode = false := by
      cases hop : c.opcode <;> simp_all [isJump, isControl]
    have hsucc : placeOf prog (q' + 1) = placeOf prog q' + 1 := by
      rw [placeOf_succ hc, if_neg hlabel]
    rcases h.code hc hlabel hjump with ⟨d, hd, hreassign⟩
    refine ⟨by omega, ?_⟩
    intro i hi hlt
    by_cases hi' : i < placeOf prog q'
    · exact hruns i hi hi'
    · have heq : i = (placeOf prog q' : Nat) := by omega
      subst heq
      exact ⟨d, by rw [codeAt_natCast, hd], by rw [reassignCode_opcode hreassign]; exact hcontrol⟩

section Leaving

variable (h : Linked env funs prog labels) (hfin : Finished prog labels globals exec0 exec)
  (hf : f ∈ funs) (hsettles : ∀ b q, StandsAt f prog labels b q →
    Settles (Vm.jumpNext exec0) (placeOf prog q))

include h hfin hf hsettles

omit h hf in
theorem meets_target (hw : StandsAt f prog labels w q) {t : Int}
    (hleads : Leads (Vm.jumpNext exec0) (placeOf prog q) t) :
    Meets (runNext exec) t (placeOf prog q) :=
  (meets_of_leads hfin.shortcuts (hsettles w q hw) hleads).symm

theorem goesTo_meets (hw : StandsAt f prog labels w q) (hgoes : GoesTo f.nodes prog labels w q') :
    Meets (runNext exec) (placeOf prog q') (placeOf prog q) := by
  rcases h.target_of_standsAt hf hw with ⟨name, hname, htarget⟩
  rcases hgoes with ⟨name', hname', ⟨size, hjump⟩ | hlabel⟩
  · rw [hname, some.injEq] at hname'
    subst hname'
    have hget := hfin.toAssigned.jump h.nodup hjump rfl htarget
    have hnext : Vm.jumpNext exec0 (placeOf prog q') = some (placeOf prog q : Int) := by
      rw [jumpNext_eq_some_iff]
      refine ⟨_, _, rfl, hget, rfl, ?_⟩
      show (placeOf prog q : Int) =
        (placeOf prog q' : Int) + ((placeOf prog q : Int) - placeOf prog q')
      omega
    rcases hfin.shortcuts _ _ hnext with ⟨t, ht, hleads⟩
    exact Meets.head ht (meets_target hfin hsettles hw hleads)
  · have hw' : StandsAt f prog labels w q' := ⟨hw.1, name', hname', hlabel⟩
    rcases h.target_of_standsAt hf hw' with ⟨name'', hname'', htarget'⟩
    rw [hname, some.injEq] at hname''
    subst hname''
    rw [htarget.unique h.nodup htarget']
    exact Meets.refl _

theorem jnz_follow (hw : StandsAt f prog labels w q) (hname : labelOf f.nodes w = some name)
    (hjump : JumpAt prog .jnz name q') :
    ∃ t, follow exec (placeOf prog q') true = some t ∧
      Meets (runNext exec) t (placeOf prog q) ∧
      follow exec (placeOf prog q') false = some (placeOf prog (q' + 1) : Int) := by
  rcases h.target_of_standsAt hf hw with ⟨name', hname', htarget⟩
  rw [hname, some.injEq] at hname'
  subst hname'
  rcases hjump with ⟨size, hjump⟩
  have hsucc : placeOf prog (q' + 1) = placeOf prog q' + 1 := by
    rw [placeOf_succ hjump]
    rfl
  have hget := hfin.toAssigned.jump h.nodup hjump rfl htarget
  rcases hfin.optimized _ _ hget with ⟨d, hd, hopt⟩
  rcases hopt.jump rfl with ⟨t, hleads, hcases⟩
  have hstart : (placeOf prog q' : Int) + ((placeOf prog q : Int) - placeOf prog q') =
      placeOf prog q := by
    omega
  simp only [VmCode.addr, hstart] at hleads
  refine ⟨t, ?_, meets_target hfin hsettles hw hleads, ?_⟩
  · rcases hcases with ⟨hop, hindex⟩ | ⟨hop, ht⟩
    · simp only [follow, codeAt_natCast, hd, bind_some, hop, if_true, hindex]
      congr 1
      omega
    · simp only [follow, codeAt_natCast, hd, bind_some, hop, ht]
  · rcases hcases with ⟨hop, -⟩ | ⟨hop, -⟩
    · simp [follow, codeAt_natCast, hd, hop, hsucc]
    · simp [follow, codeAt_natCast, hd, hop, hsucc]

omit hsettles in
theorem tableTarget_eq {stop : Nat} {k : Nat} (hw : StandsAt f prog labels w q)
    (hname : labelOf f.nodes w = some name)
    (hentry : prog[q']? = some { opcode := .tblEntry, d := .addr { name := name } })
    (hplace : placeOf prog q' = stop + 1 + k) :
    tableTarget exec stop k = some (placeOf prog q : Int) := by
  rcases h.target_of_standsAt hf hw with ⟨name', hname', htarget⟩
  rw [hname, some.injEq] at hname'
  subst hname'
  have hget := hfin.toAssigned.jump h.nodup hentry rfl htarget
  rcases hfin.optimized _ _ hget with ⟨d, hd, hopt⟩
  rw [hopt.other rfl, hplace] at hd
  have hindex : (stop : Int) + k + 1 = ((stop + 1 + k : Nat) : Int) := by
    push_cast
    omega
  rw [tableTarget, hindex, codeAt_natCast, hd, map_some]
  simp [VmCode.addr]

/-- Control that leaves a block goes where the graph says. -/
theorem leaves_of_standsAt (hnode : f.nodes[b]? = some node) (hb : StandsAt f prog labels b q) :
    Leaves env (fun b => (labelOf f.nodes b).bind (labelPlace prog labels)) exec node
      (placeOf prog q) := by
  rcases h.blockCode hf hb with ⟨node', hnode', hcode⟩
  rw [hnode, some.injEq] at hnode'
  subst hnode'
  have hsame := hb.placeOf_succ
  have hruns : ∀ q', StraightTo prog (q + 1) q' → q + 1 ≤ q' →
      RunsTo exec (placeOf prog q) (placeOf prog q') := by
    intro q' hs hle
    rw [← hsame]
    exact hfin.runsTo hs hle
  -- Every successor stands somewhere.
  have hnext : ∀ w, w ∈ successors node → ∃ q', StandsAt f prog labels w q' ∧
      (labelOf f.nodes w).bind (labelPlace prog labels) = some (placeOf prog q' : Int) := by
    intro w hw
    rcases h.standsAt hf (Relation.ReflTransGen.tail hb.1 ⟨node, hnode, hw⟩) with ⟨q', hw'⟩
    rcases h.target_of_standsAt hf hw' with ⟨name, hname, htarget⟩
    exact ⟨q', hw', by rw [hname, bind_some, htarget.labelPlace h.nodup]⟩
  cases hcode with
  | table q' shape lt straight exit entries =>
    rcases hfin.code exit (by simp) rfl with ⟨d, hd, hreassign⟩
    have hcount : ∀ k, k ≤ node.jumpTable.length →
        placeOf prog (q' + 1 + k) = placeOf prog q' + 1 + k := by
      intro k
      induction k with
      | zero =>
        intro _
        rw [Nat.add_zero, placeOf_succ exit]
        rfl
      | succ k ih =>
        intro hk
        rcases entries k _ (getElem?_eq_getElem (by omega)) with ⟨name, -, hentry⟩
        rw [← Nat.add_assoc, placeOf_succ hentry, ih (by omega)]
        simp
        omega
    refine Leaves.table (placeOf prog q') d shape (hruns q' straight (by omega))
      (by rw [codeAt_natCast, hd]) (by rw [reassignCode_opcode hreassign]) ?_
    intro k jp hk
    rcases entries k jp hk with ⟨name, hname, hentry⟩
    have hmem : jp.label ∈ successors node := by
      rw [successors, if_pos shape]
      exact List.mem_map_of_mem (mem_of_getElem? hk)
    rcases hnext jp.label hmem with ⟨qw, hw, hplace⟩
    have hlt := (List.getElem?_eq_some_iff.mp hk).1
    exact ⟨_, _, tableTarget_eq h hfin hf hw hname hentry (hcount k (by omega)), hplace,
      Meets.refl _⟩
  | head next name noTable shape jump0 hname exit =>
    rcases hnext next (by simp [successors, noTable, jump0]) with ⟨qw, hw, hplace⟩
    refine Leaves.head next _ noTable shape jump0 hplace ?_
    rw [← hsame]
    exact goesTo_meets h hfin hf hsettles hw ⟨name, hname, Or.inl exit⟩
  | ret q' size noTable noBody jump0 jump1 lt straight hsize exit =>
    rcases hfin.code exit (by simp) rfl with ⟨d, hd, hreassign⟩
    refine Leaves.ret (placeOf prog q') size noTable noBody jump0 jump1
      (hruns q' straight (by omega)) hsize ?_
    rw [codeAt_natCast, hd, ← hreassign]
    rfl
  | branch q' next target name noTable noBody jump0 jump1 lt straight hname taken exit =>
    rcases hnext next (by simp [successors, noTable, jump0]) with ⟨q0, hw0, hplace0⟩
    rcases hnext target (by simp [successors, noTable, jump1]) with ⟨q1, hw1, hplace1⟩
    rcases jnz_follow h hfin hf hsettles hw1 hname taken with ⟨t, htaken, hmeets, hnot⟩
    exact Leaves.branch (placeOf prog q') next target _ _ _ t noTable noBody jump0 jump1
      (hruns q' straight (by omega)) hplace0 hplace1 htaken hmeets hnot
      (goesTo_meets h hfin hf hsettles hw0 exit)
  | single q' next noTable noBody jump0 jump1 lt silent straight exit =>
    rcases hnext next (by simp [successors, noTable, jump0]) with ⟨qw, hw, hplace⟩
    exact Leaves.single (placeOf prog q') next _ noTable noBody jump0 jump1
      (hruns q' straight (by omega)) hplace (goesTo_meets h hfin hf hsettles hw exit)

end Leaving

/-! ## The whole program -/

variable {glbl : List VmCode} {g : GenState}

/-- The code at the start of a program. -/
def startCode (builtins : List String) (isSave : Bool) : List VmCode :=
  if isSave then []
  else [labelCode builtins.length, { opcode := .jmp, d := .addr { name := "_setup_global" } }]

theorem vmInit_prog : (vmInit builtins isSave).prog = startCode builtins isSave := by
  cases isSave <;>
    simp [vmInit, startCode, emitVmEnter, emitVmLabelCode, emitVmJmp, emitVmCode, GenState.setCode,
      GenState.code, GenState.last, labelCode, builtinLabels]

theorem vmInit_labels : (vmInit builtins isSave).labels =
    builtinLabels builtins ++ (startLabels isSave).map fun name => { name := name } := by
  cases isSave <;>
    simp [vmInit, startLabels, emitVmEnter, emitVmLabelCode, emitVmJmp, emitVmCode,
      GenState.setCode, GenState.code, GenState.last]

theorem vmInit_ready : Ready (vmInit builtins isSave) := by
  cases isSave <;> constructor <;>
    simp [vmInit, emitVmEnter, emitVmLabelCode, emitVmJmp, emitVmCode, GenState.setCode,
      GenState.code, GenState.last]

theorem builtinLabels_names : (builtinLabels builtins).map (·.name) = builtins := by
  rw [builtinLabels, List.map_map]
  exact zipIdx_map_fst 0 builtins

theorem builtinLabels_length : (builtinLabels builtins).length = builtins.length := by
  simp [builtinLabels]

theorem GlobalCode.lindexes (h : GlobalCode builtins isSave glbl) :
    Vm.lindexes glbl = [builtins.length + (startLabels isSave).length - 1] := by
  have hlabel := h.label
  cases glbl with
  | nil => simp at hlabel
  | cons c rest =>
    rw [head?_cons, some.injEq] at hlabel
    subst hlabel
    have hrest : Vm.lindexes rest = [] := by
      apply lindexes_eq_nil
      intro c hc hop
      rcases h.straight c hc with hcontrol | hhalt
      · simp [hop, isControl] at hcontrol
      · simp [hop] at hhalt
    have hcons : ∀ i, Vm.lindexes (labelCode i :: rest) = i :: Vm.lindexes rest := by
      intro i
      simp [Vm.lindexes, labelCode]
    rw [hcons, hrest]

theorem map_range'_names (before more : List VmLabel) :
    (List.range' before.length more.length).map
        (fun i => (((before ++ more)[i]?).map (·.name)).getD "") = more.map (·.name) := by
  apply ext_getElem
  · simp
  · intro i hi hi'
    simp only [length_map, length_range'] at hi
    simp [getElem?_append_right, getElem?_eq_getElem hi]

theorem getVmLabel_of_count (hcount : (labels.map (·.name)).count name ≤ 1)
    (hi : (labels[i]?).map (·.name) = some name) : getVmLabel labels name = some i := by
  rw [map_eq_some_iff] at hi
  rcases hi with ⟨label, hget, hname⟩
  rw [getVmLabel_eq_some_iff]
  refine ⟨⟨label, hget, hname⟩, ?_⟩
  intro j label' hj hget' hname'
  have hlt := (List.getElem?_eq_some_iff.mp hget).1
  have htwo : 2 ≤ (labels.map (·.name)).count name := by
    rw [← duplicate_iff_two_le_count, duplicate_iff_exists_distinct_get]
    refine ⟨⟨j, by simp; omega⟩, ⟨i, by simpa using hlt⟩, by simpa using hj, ?_, ?_⟩
    · simp only [get_eq_getElem, getElem_map]
      rw [(List.getElem?_eq_some_iff.mp hget').2, hname']
    · simp only [get_eq_getElem, getElem_map]
      rw [(List.getElem?_eq_some_iff.mp hget).2, hname]
  omega

theorem placeOf_pos (hc : prog[1]? = some c) (hlabel : c.opcode ≠ .label) (hq : 2 ≤ q) :
    0 < placeOf prog q := by
  rw [placeOf, countP_pos_iff]
  refine ⟨c, ?_, by simpa using hlabel⟩
  apply mem_of_getElem? (i := 1)
  rw [getElem?_take, if_pos (by omega), hc]

/-- What the functions of a program append to its start. -/
structure Compiled (env : GenEnv) (builtins : List String) (isSave : Bool) (funs : List Function)
    (g : GenState) (orders : List (List BlockId)) : Prop where
  isOrder : List.Forall₂ IsOrder funs orders
  appends : Appends funs orders (vmInit builtins isSave) g
  functions : ∀ f ∈ funs, HasFunction env f g.prog g.labels
  entry : ∀ f, funs.head? = some f →
    (vmInit builtins isSave).prog ++ functionEntry f (vmInit builtins isSave) <+: g.prog

theorem exists_compiled (hwf : ∀ f ∈ funs, f.WellFormed env) (builtins : List String)
    (isSave : Bool) : ∃ g orders, vmGenFunctions env funs (vmInit builtins isSave) = some g ∧
      Compiled env builtins isSave funs g orders := by
  have hready : Ready (vmInit builtins isSave) := vmInit_ready
  rcases vmGenFunctions_spec hwf hready with
    ⟨g, orders, hrun, horders, happends, hcodes, hentry⟩
  exact ⟨g, orders, hrun, horders, happends, hcodes, hentry⟩

theorem lindexes_startCode : Vm.lindexes (startCode builtins isSave) =
    if isSave then [] else [builtins.length] := by
  cases isSave <;> simp [startCode, Vm.lindexes, labelCode]

section Compiled

variable {orders : List (List BlockId)} (hc : Compiled env builtins isSave funs g orders)
  (hwf : ∀ f ∈ funs, f.WellFormed env) (hdistinct : DistinctLabels builtins funs)
  (hglbl : GlobalCode builtins isSave glbl)

include hc

theorem Compiled.names : g.labels.map (·.name) =
    builtins ++ startLabels isSave ++ (List.zipWith functionNames funs orders).flatten := by
  rcases hc.appends.code with ⟨seg, more, -, hlabels, -, hnames⟩
  rw [hlabels, map_append, hnames, vmInit_labels, map_append, builtinLabels_names]
  simp [Function.comp_def]

include hwf hdistinct in
theorem Compiled.count_le (hf : f ∈ funs)
    (hname : labelOf f.nodes b = some name) :
    (g.labels.map (·.name)).count name ≤ 1 := by
  rw [labelOf, map_eq_some_iff] at hname
  rcases hname with ⟨node, hnode, rfl⟩
  rcases hdistinct.apart f hf node (mem_of_getElem? hnode) with
    ⟨hbuiltin, hstartup, hsetup, hfunction⟩
  have hstart : (startLabels isSave).count node.label = 0 := by
    rw [count_eq_zero]
    cases isSave <;> simp [startLabels, hstartup, hsetup]
  rw [hc.names, count_append, count_append, count_eq_zero.mpr hbuiltin, hstart]
  have hle := count_blockNames_le hwf hc.isOrder (fun f' hf' => (hfunction f' hf').symm)
  have hone := nodup_iff_count_le_one.mp hdistinct.blocks node.label
  omega

theorem Compiled.lindexes : ∃ seg more, g.prog = startCode builtins isSave ++ seg ∧
    g.labels = (vmInit builtins isSave).labels ++ more ∧
    Vm.lindexes seg = List.range' (builtins.length + (startLabels isSave).length) more.length ∧
    more.map (·.name) = (List.zipWith functionNames funs orders).flatten := by
  rcases hc.appends.code with ⟨seg, more, hprog, hlabels, hindex, hnames⟩
  rw [vmInit_prog] at hprog
  rw [vmInit_labels, length_append, builtinLabels_length, length_map] at hindex
  exact ⟨seg, more, hprog, hlabels, hindex, hnames⟩

include hglbl in
theorem Compiled.nodup : (Vm.lindexes (g.prog ++ glbl)).Nodup := by
  rcases hc.lindexes with ⟨seg, more, hprog, -, hindex, -⟩
  rw [lindexes_append, hprog, lindexes_append, hindex, hglbl.lindexes, lindexes_startCode]
  have hrange : (List.range' (builtins.length + (startLabels isSave).length)
      more.length).Nodup := nodup_range'
  have hrest : (List.range' (builtins.length + (startLabels isSave).length) more.length ++
      [builtins.length + (startLabels isSave).length - 1]).Nodup := by
    rw [nodup_append]
    refine ⟨hrange, by simp, ?_⟩
    intro a ha b hb
    rcases mem_range'.mp ha with ⟨i, -, rfl⟩
    rw [mem_singleton.mp hb]
    cases isSave <;> simp [startLabels] <;> omega
  rw [append_assoc, nodup_append]
  refine ⟨by split <;> simp, hrest, ?_⟩
  intro a ha b hb
  cases isSave with
  | true => simp at ha
  | false =>
    simp only [Bool.false_eq_true, if_false, mem_singleton] at ha
    subst ha
    rcases mem_append.mp hb with hb | hb
    · rcases mem_range'.mp hb with ⟨i, -, rfl⟩
      simp only [startLabels, Bool.false_eq_true, if_false, length_cons, length_nil]
      omega
    · rw [mem_singleton.mp hb]
      simp [startLabels]

theorem Compiled.start_name {i : Nat} (hi : (startLabels isSave)[i]? = some name) :
    (g.labels[builtins.length + i]?).map (·.name) = some name := by
  rcases hc.lindexes with ⟨seg, more, -, hlabels, -⟩
  have hlt := (List.getElem?_eq_some_iff.mp hi).1
  have hlen : (vmInit builtins isSave).labels.length =
      builtins.length + (startLabels isSave).length := by
    rw [vmInit_labels, length_append, builtinLabels_length, length_map]
  rw [hlabels, getElem?_append_left (by omega), vmInit_labels,
    getElem?_append_right (by rw [builtinLabels_length]; omega), builtinLabels_length,
    Nat.add_sub_cancel_left, getElem?_map, hi]
  rfl

include hglbl in
theorem Compiled.labelNames : labelNames (g.prog ++ glbl) g.labels =
    (startLabels isSave).dropLast ++ (List.zipWith functionNames funs orders).flatten ++
      ["_setup_global"] := by
  rcases hc.lindexes with ⟨seg, more, hprog, hlabels, hindex, hnames⟩
  have hlen : (vmInit builtins isSave).labels.length =
      builtins.length + (startLabels isSave).length := by
    rw [vmInit_labels, length_append, builtinLabels_length, length_map]
  have hseg : (List.range' (builtins.length + (startLabels isSave).length) more.length).map
      (fun i => ((g.labels[i]?).map (·.name)).getD "") = more.map (·.name) := by
    rw [hlabels, ← hlen]
    exact map_range'_names _ _
  rw [Vm.labelNames, lindexes_append, hprog, lindexes_append, hindex, hglbl.lindexes,
    lindexes_startCode, map_append, map_append, hseg, hnames]
  cases isSave with
  | true =>
    have h0 := hc.start_name (i := 0) rfl
    rw [Nat.add_zero] at h0
    simp [startLabels, h0]
  | false =>
    have h0 := hc.start_name (i := 0) rfl
    have h1 := hc.start_name (i := 1) rfl
    rw [Nat.add_zero] at h0
    simp [startLabels, h0, h1]

theorem Compiled.first (hf : f ∈ funs) (glbl : List VmCode) :
    (∃ i name, (g.prog ++ glbl)[0]? = some (labelCode i) ∧
      (g.labels[i]?).map (·.name) = some name ∧
        (name = "_startup" ∨ ∃ f ∈ funs, name = f.name)) ∧
      ∃ c, (g.prog ++ glbl)[1]? = some c ∧ c.opcode ≠ .label := by
  rcases hc.lindexes with ⟨seg, more, hprog, hlabels, -, hnames⟩
  cases isSave with
  | false =>
    have hstart := hc.start_name (i := 0) rfl
    refine ⟨⟨builtins.length, _, ?_, hstart, Or.inl rfl⟩, ?_⟩
    · simp [hprog, startCode]
    · exact ⟨{ opcode := .jmp, d := .addr { name := "_setup_global" } }, by simp [hprog, startCode],
        by simp⟩
  | true =>
    rcases funs with _ | ⟨f0, funs⟩
    · cases hf
    · have hentry := hc.entry f0 rfl
      rcases hentry with ⟨rest, hentry⟩
      rw [vmInit_prog] at hentry
      rcases orders with _ | ⟨order, orders⟩
      · cases hc.isOrder
      · refine ⟨⟨(vmInit builtins true).labels.length, f0.name, ?_, ?_, Or.inr ⟨f0, by simp, rfl⟩⟩,
          ?_⟩
        · simp [← hentry, startCode, functionEntry]
        · rw [hlabels, getElem?_append_right (le_refl _), Nat.sub_self, ← getElem?_map, hnames]
          simp [functionNames]
        · exact ⟨{ opcode := .enter, d := .size f0.stackSize },
            by simp [← hentry, startCode, functionEntry], by simp⟩

include hwf hdistinct in
theorem Compiled.target (hf : f ∈ funs) (hname : labelOf f.nodes b = some name)
    (hlabel : LabelAt (g.prog ++ glbl) g.labels name q) :
    Target (g.prog ++ glbl) g.labels name q := by
  rcases hlabel with ⟨i, hcode, hi⟩
  have hi : (g.labels[i]?).map (·.name) = some name := by rw [hi]; rfl
  refine ⟨⟨i, getVmLabel_of_count (hc.count_le hwf hdistinct hf hname) hi, hcode, hi⟩, ?_⟩
  rcases hc.first hf glbl with ⟨⟨j, name', hfirst, hj, hname'⟩, c, hsecond, hc'⟩
  apply placeOf_pos hsecond hc'
  -- The first two places hold another label and an instruction.
  rcases q with _ | _ | q
  · rw [hfirst, some.injEq, labelCode, labelCode, VmCode.mk.injEq, VmOperand.lindex.injEq,
      Int.natCast_inj] at hcode
    rw [hcode.2.2, hi, some.injEq] at hj
    rw [labelOf, map_eq_some_iff] at hname
    rcases hname with ⟨node, hnode, rfl⟩
    rcases hdistinct.apart f hf node (mem_of_getElem? hnode) with
      ⟨-, hstartup, -, hfunction⟩
    rcases hname' with rfl | ⟨f', hf', rfl⟩
    · exact absurd hj hstartup
    · exact absurd hj (hfunction f' hf')
  · rw [Nat.zero_add, hsecond, some.injEq] at hcode
    rw [hcode] at hc'
    exact absurd rfl hc'
  · omega

include hdistinct hglbl in
theorem Compiled.setup_target (hrun : isSave = false) :
    Target (g.prog ++ glbl) g.labels "_setup_global" g.prog.length := by
  subst hrun
  rcases hc.lindexes with ⟨seg, more, hprog, hlabels, -⟩
  have h0 := hc.start_name (i := 0) rfl
  have h1 := hc.start_name (i := 1) rfl
  have hglobal := hglbl.label
  have hsecond : (g.prog ++ glbl)[1]? =
      some { opcode := .jmp, d := .addr { name := "_setup_global" } } := by
    simp [hprog, startCode]
  refine ⟨⟨builtins.length + 1, ?_, ?_, h1⟩, ?_⟩
  · rw [map_eq_some_iff] at h1
    rcases h1 with ⟨label, hget, hname⟩
    rw [getVmLabel_eq_some_iff]
    refine ⟨⟨label, hget, hname⟩, ?_⟩
    intro j label' hj hget' hname'
    have hnames := congrArg (·[j]?) hc.names
    simp only [getElem?_map, hget', map_some, hname'] at hnames
    by_cases hlt : j < builtins.length
    · rw [append_assoc, getElem?_append_left hlt] at hnames
      exact hdistinct.setup (mem_of_getElem? hnames.symm)
    · have hj : j = builtins.length := by omega
      subst hj
      simp [startLabels] at hnames
  · rw [getElem?_append_right (le_refl _), Nat.sub_self, ← head?_eq_getElem?, hglobal]
    rfl
  · apply placeOf_pos hsecond (by simp)
    simp [hprog, startCode]

include hwf hdistinct hglbl in
/-- The labels of the program can be resolved. -/
theorem Compiled.linked : Linked env funs (g.prog ++ glbl) g.labels where
  nodup := hc.nodup hglbl
  functions := by
    intro f hf
    exact (hc.functions f hf).mono (prefix_append _ _) (prefix_refl _)
  target := by
    intro f hf b name _ hname q hlabel
    exact hc.target hwf hdistinct hf hname hlabel
  references := by
    intro i d hd href
    by_cases hi : i < g.prog.length
    · rw [getElem?_append_left hi] at hd
      by_cases hstart : i < (vmInit builtins isSave).prog.length
      · -- The jump at the start.
        rw [vmInit_prog] at hstart
        rcases hc.lindexes with ⟨seg, more, hprog, -⟩
        cases hsave : isSave with
        | true => simp [hsave, startCode] at hstart
        | false =>
          subst hsave
          have hglobal := hglbl.label
          have hnext : ∃ e, (g.prog ++ glbl)[g.prog.length + 1]? = some e ∧ e.opcode ≠ .label ∧
              e.opcode ≠ .jmp := by
            rcases glbl with _ | ⟨e0, rest⟩
            · simp at hglobal
            · rcases rest with _ | ⟨e, rest⟩
              · exact absurd rfl hglbl.code
              · refine ⟨e, by simp, ?_⟩
                rcases hglbl.straight e (by simp) with hcontrol | hhalt
                · constructor
                  · intro hop
                    simp [hop, isControl] at hcontrol
                  · intro hop
                    simp [hop, isControl] at hcontrol
                · simp [hhalt]
          rw [hprog, getElem?_append_left hstart] at hd
          have hmem := mem_of_getElem? hd
          simp only [startCode, Bool.false_eq_true, if_false, mem_cons, not_mem_nil,
            or_false] at hmem
          rcases hmem with rfl | rfl
          · cases href
          · exact ⟨"_setup_global", 0, g.prog.length, rfl, rfl,
              hc.setup_target hdistinct hglbl rfl, Or.inr hnext⟩
      · rcases hc.appends.references i d (by omega) hd href with
          ⟨f, hf, b, hb, name, size, hname, hrefers⟩
        rcases (hc.functions f hf).code b hb with ⟨node, q, hnode, hlabel, -⟩
        have hname' : node.label = name := by
          rw [labelOf, hnode, map_some, some.injEq] at hname
          exact hname
        rw [hname'] at hlabel
        have hlabel := hlabel.mono (prefix_append _ glbl) (prefix_refl _)
        refine ⟨name, size, q, by rw [hrefers], by rw [hrefers],
          hc.target hwf hdistinct hf hname hlabel, Or.inl ⟨f, hf, b, hb, hname, hlabel⟩⟩
    · rw [getElem?_append_right (by omega)] at hd
      have hglobal := hglbl.label
      rcases glbl with _ | ⟨e0, rest⟩
      · simp at hd
      · rw [head?_cons, some.injEq] at hglobal
        rcases mem_cons.mp (mem_of_getElem? hd) with rfl | hmem
        · rw [hglobal] at href
          cases href
        · rcases hglbl.straight d hmem with hcontrol | hhalt
          · cases hop : d.opcode <;> simp_all [isReference, isControl]
          · simp [hhalt, isReference] at href

end Compiled

theorem Linked.exists_assigned (h : Linked env funs prog labels)
    (hpush : StoresNoBuiltin globals prog labels) :
    ∃ exec0, Assigned prog labels globals exec0 := by
  have hall : ∀ i c, (updateLabelIndex prog labels).1[i]? = some c →
      ∃ d, reassignCode (updateLabelIndex prog labels).2 globals (0 + i) c = some d := by
    intro i c hc
    rw [updateLabelIndex_fst] at hc
    rcases exists_placeOf hc with ⟨q, hq, -, -⟩
    by_cases href : isReference c.opcode = true
    · rcases h.references q c hq href with ⟨name, size, q', hd, htype, htarget, -⟩
      rcases c with ⟨op, type, operand⟩
      simp only at hd htype href
      subst hd htype
      exact ⟨_, reassignCode_reference h.nodup href htarget⟩
    · exact hpush c (mem_of_getElem? hq) (by simpa using href) (0 + i)
  rcases reassignFrom_isSome hall with ⟨exec0, hexec⟩
  exact ⟨exec0, ⟨hexec⟩⟩

/-- Every reachable block is emitted once and every edge is realised exactly when no
reachable block comes back to itself without an instruction; otherwise the resolution of
labels does not end. -/
theorem linearised_iff (hwf : ∀ f ∈ funs, f.WellFormed env)
    (hdistinct : DistinctLabels builtins funs) (hglbl : GlobalCode builtins isSave glbl)
    (hpush : ∀ g, vmGenFunctions env funs (vmInit builtins isSave) = some g →
      StoresNoBuiltin globals (g.prog ++ glbl) g.labels) :
    (∃ g fuel exec, vmGenFunctions env funs (vmInit builtins isSave) = some g ∧
      reassignLabelIndex fuel globals (g.prog ++ glbl) g.labels = some exec ∧
      Realised env funs (startLabels isSave).dropLast (g.prog ++ glbl) g.labels exec) ↔
    ∀ f ∈ funs, ∀ b, Reachable f.nodes f.body b →
      ¬ Relation.TransGen (Passes env f.nodes) b b := by
  rcases exists_compiled hwf builtins isSave with ⟨g, orders, hrun, hc⟩
  have hlinked := hc.linked hwf hdistinct hglbl
  constructor
  · rintro ⟨g', fuel, exec, hrun', hexec, -⟩ f hf b hb hcycle
    rw [hrun, some.injEq] at hrun'
    subst hrun'
    simp only [reassignLabelIndex, bind_eq_some_iff] at hexec
    rcases hexec with ⟨exec0, hassigned, hopt⟩
    rw [hlinked.diverges ⟨hassigned⟩ hf hb hcycle fuel] at hopt
    cases hopt
  · intro hacyclic
    rcases hlinked.exists_assigned (hpush g hrun) with ⟨exec0, hassigned⟩
    rcases hlinked.optimizes hassigned hwf hacyclic with ⟨fuel, exec, hopt⟩
    have hfin : Finished (g.prog ++ glbl) g.labels globals exec0 exec :=
      ⟨hassigned, (jumpOptimization_spec hopt).2⟩
    refine ⟨g, fuel, exec, hrun, ?_, ⟨orders, hc.isOrder, hc.labelNames hglbl⟩, ?_⟩
    · simp only [reassignLabelIndex, hassigned.run, bind_some, hopt]
    · intro f hf b hb
      rcases hlinked.standsAt hf hb with ⟨q, hq⟩
      rcases hlinked.blockCode hf hq with ⟨node, hnode, -⟩
      rcases hlinked.target_of_standsAt hf hq with ⟨name, hname, htarget⟩
      have hlabel : node.label = name := by
        rw [labelOf, hnode, map_some, some.injEq] at hname
        exact hname
      refine ⟨node, placeOf (g.prog ++ glbl) q, hnode, ?_, ?_⟩
      · rw [hlabel, htarget.labelPlace hlinked.nodup]
      · exact leaves_of_standsAt hlinked hfin hf
          (fun b q hb => hlinked.settles hassigned hf (hwf f hf) (hacyclic f hf) hb) hnode hq

/-! ## Examples -/

/-- No types and no symbols. -/
def plainEnv : GenEnv where
  types := []
  symName := (·.name)
  globalOffset := fun _ => -1
  stackOffset := fun _ => 0
  depth := fun _ => 0
  string := fun _ => []
  symbol := fun id => { id := id, name := "", type := { type := .int } }

/-- The constant one, as an expression. -/
def oneExpr : Expression where
  op := .cast
  type := { type := .int }
  l := { kind := .immediate, type := { type := .int }, imm := { lo := 1 } }

/-- `do ; while (1)` with a condition that is evaluated: the second block goes back to the
first or returns. -/
def loopNodes : List Node :=
  [{ label := ".L1", jump0 := some 1 },
    { label := ".L2", expr := oneExpr, jump0 := some 2, jump1 := some 0 }, { label := ".L3" }]

/-- `for (;;) ;` -/
def emptyLoopNodes : List Node :=
  [{ label := ".L1", jump0 := some 1 }, { label := ".L2", jump0 := some 1 }]

/-- A function without locals. -/
def plainFunction (nodes : List Node) : Function where
  name := "main"
  stackSize := 0
  nodes := nodes
  body := 0

/-- Global code that only halts. -/
def plainGlobal : List VmCode :=
  [labelCode 0, { opcode := .enter, d := .size 8 }, { opcode := .halt }]

example : (vmGenFunctions plainEnv [plainFunction loopNodes] (vmInit [] true)).bind (fun g =>
    reassignLabelIndex 5 [] (g.prog ++ plainGlobal) g.labels) = some
    [{ opcode := .enter, d := .size 0 }, { opcode := .push, type := .int32, d := .imm { lo := 1 } },
      { opcode := .jnz, d := .addr { name := ".L1", index := -1, size := 4 } },
      { opcode := .ret, d := .size 0 },
      { opcode := .jmp, d := .addr { name := ".L1", index := -3 } },
      { opcode := .enter, d := .size 8 }, { opcode := .halt }] := by
  rfl

/-- Every edge of a loop with a condition is realised. -/
theorem loop_realised : ∃ g fuel exec,
    vmGenFunctions plainEnv [plainFunction loopNodes] (vmInit [] true) = some g ∧
      reassignLabelIndex fuel [] (g.prog ++ plainGlobal) g.labels = some exec ∧
      Realised plainEnv [plainFunction loopNodes] (startLabels true).dropLast
        (g.prog ++ plainGlobal) g.labels exec := by
  have hexpr : ∀ g, (vmGenExpr plainEnv oneExpr g).isSome := fun _ => rfl
  have hstatements : ∀ g, g.args = [] → (vmGenStatements plainEnv [] g).isSome := by
    intro g hg
    simp [vmGenStatements, hg]
  refine (linearised_iff ?_ ⟨?_, ?_, ?_⟩ ⟨rfl, ?_, ?_⟩ ?_).mpr ?_
  · intro f hf
    rw [mem_singleton.mp hf]
    refine ⟨?_, by decide, ?_⟩
    · intro node hnode
      simp only [plainFunction, loopNodes, mem_cons, not_mem_nil, or_false] at hnode
      rcases hnode with rfl | rfl | rfl <;> constructor <;> simp [successors, plainFunction, loopNodes]
    · intro node hnode
      simp only [plainFunction, loopNodes, mem_cons, not_mem_nil, or_false] at hnode
      rcases hnode with rfl | rfl | rfl
      · exact ⟨hstatements, by simp, rfl⟩
      · exact ⟨hstatements, fun _ => hexpr, rfl⟩
      · exact ⟨hstatements, by simp, rfl⟩
  · simp
  · decide
  · intro f hf node hnode
    rw [mem_singleton.mp hf] at hnode
    simp only [plainFunction, loopNodes, mem_cons, not_mem_nil, or_false] at hnode
    rcases hnode with rfl | rfl | rfl <;> simp [plainFunction]
  · simp [plainGlobal]
  · intro c hc
    simp only [plainGlobal, tail_cons, mem_cons, not_mem_nil, or_false] at hc
    rcases hc with rfl | rfl <;> simp [isControl]
  · intro g hg
    have hcode : g.prog ++ plainGlobal =
        [labelCode 1, { opcode := .enter, d := .size 0 }, labelCode 2, labelCode 3,
          { opcode := .push, type := .int32, d := .imm { lo := 1 } },
          { opcode := .jnz, d := .addr { name := ".L1", size := 4 } }, labelCode 4,
          { opcode := .ret, d := .size 0 }, { opcode := .jmp, d := .addr { name := ".L1" } },
          labelCode 0, { opcode := .enter, d := .size 8 }, { opcode := .halt }] := by
      rw [← some.inj hg]
      rfl
    intro c hc href i
    rw [hcode] at hc
    simp only [mem_cons, not_mem_nil, or_false] at hc
    rcases hc with rfl | rfl | rfl | rfl | rfl | rfl | rfl | rfl | rfl | rfl | rfl | rfl <;>
      first
      | exact ⟨_, rfl⟩
      | cases href
  · intro f hf b _ hcycle
    rw [mem_singleton.mp hf] at hcycle
    -- Only the first block is passed, to the second one.
    have hpass : ∀ b c, Passes plainEnv (plainFunction loopNodes).nodes b c → b = 0 ∧ c = 1 := by
      rintro b c ⟨node, hnode, -, hjump, hshape⟩
      rcases b with _ | _ | _ | b
      · simp only [plainFunction, loopNodes, getElem?_cons_zero, some.injEq] at hnode
        subst hnode
        exact ⟨rfl, (some.inj hjump).symm⟩
      · simp only [plainFunction, loopNodes, getElem?_cons_succ, getElem?_cons_zero,
          some.injEq] at hnode
        subst hnode
        simp at hshape
      · simp only [plainFunction, loopNodes, getElem?_cons_succ, getElem?_cons_zero,
          some.injEq] at hnode
        subst hnode
        simp at hjump
      · simp [plainFunction, loopNodes] at hnode
    rcases Relation.TransGen.head'_iff.mp hcycle with ⟨w, hw, hrest⟩
    rcases hpass _ _ hw with ⟨rfl, rfl⟩
    rcases hrest.cases_head with heq | ⟨w, hw', -⟩
    · cases heq
    · cases (hpass _ _ hw').1

/-- An empty endless loop is not realised: the resolution of its labels does not end. -/
theorem empty_loop_not_realised :
    ¬ ∃ g fuel exec, vmGenFunctions plainEnv [plainFunction emptyLoopNodes] (vmInit [] true) =
        some g ∧
      reassignLabelIndex fuel [] (g.prog ++ plainGlobal) g.labels = some exec ∧
      Realised plainEnv [plainFunction emptyLoopNodes] (startLabels true).dropLast
        (g.prog ++ plainGlobal) g.labels exec := by
  rintro ⟨g, fuel, exec, hrun, hexec, -⟩
  let code : List VmCode :=
    [{ opcode := .enter, d := .size 0 },
      { opcode := .jmp, d := .addr { name := ".L2", index := 0, size := 0 } },
      { opcode := .enter, d := .size 8 }, { opcode := .halt }]
  have hcode : ∀ g, vmGenFunctions plainEnv [plainFunction emptyLoopNodes] (vmInit [] true) =
      some g → reassignFrom (updateLabelIndex (g.prog ++ plainGlobal) g.labels).2 [] 0
        (updateLabelIndex (g.prog ++ plainGlobal) g.labels).1 = some code := by
    intro g hg
    rw [← some.inj hg]
    rfl
  simp only [reassignLabelIndex, hcode g hrun, bind_some] at hexec
  rw [jumpOptimization_eq_none {1} ⟨1, rfl⟩] at hexec
  · cases hexec
  · rintro i rfl
    exact ⟨_, 1, rfl, rfl, rfl, rfl⟩

end Kcs.Vm
