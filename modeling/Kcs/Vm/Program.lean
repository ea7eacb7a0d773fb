import Kcs.Vm.Traversal

/-!
# Programs of several functions

`vm_gen_lir` appends the code of one function after another.  The labels of the
program are those of the start, and for each function its name and its reachable
blocks.

Main results:

- Theorem {lit}`vmGenFunctions_spec`: the same for all functions of a program.
-/

namespace Kcs.Vm

open List

/-! ## Functions -/

/-- What `vm_gen_lir` reads of a function definition: its name, the size of its
locals, its blocks, and the first of them. -/
structure Function where
  name : String
  stackSize : Int
  nodes : List Node
  body : BlockId
deriving Repr, Inhabited

section Generate

variable (env : GenEnv)

/-- `vm_gen_lir` for a function. -/
def vmGenFunction (f : Function) (g : GenState) : Option GenState :=
  let g := emitVmEnter f.stackSize (emitVmLabelCode f.name g)
  (vmGenNode env f.nodes (f.nodes.length + 1) f.body { gen := g }).map fun s =>
    if s.gen.prog.getLast?.any (·.opcode = .ret) then s.gen else emitVmRet 0 s.gen

/-- The functions of a program in their order. -/
def vmGenFunctions (funs : List Function) (g : GenState) : Option GenState :=
  funs.foldlM (fun g f => vmGenFunction env f g) g

end Generate

/-- The labels of the built-in functions. -/
def builtinLabels (builtins : List String) : List VmLabel :=
  builtins.zipIdx.map fun p => { index := -(p.2 + 1), name := p.1 }

/-- The labels at the start of a program, which is to be saved or to be run. -/
def startLabels (isSave : Bool) : List String :=
  if isSave then ["_setup_global"] else ["_startup", "_setup_global"]

/-- `vm_init` -/
def vmInit (builtins : List String) (isSave : Bool) : GenState :=
  let g : GenState := { labels := builtinLabels builtins }
  let g :=
    if isSave then g else emitVmJmp .jmp "_setup_global" 0 (emitVmLabelCode "_startup" g)
  let g := emitVmEnter 0 (emitVmLabelCode "_setup_global" { g with isGlobalMode := true })
  { g with isGlobalMode := false }

/-- What the parser guarantees of a function, and that no assertion fails in its
blocks. -/
structure Function.WellFormed (env : GenEnv) (f : Function) : Prop where
  nodes : ∀ node ∈ f.nodes, Vm.WellFormed f.nodes node
  body : f.body < f.nodes.length
  generates : ∀ node ∈ f.nodes, Generates env node

/-- The printed names of different blocks differ, also from all other labels. -/
structure DistinctLabels (builtins : List String) (funs : List Function) : Prop where
  setup : "_setup_global" ∉ builtins
  blocks : (funs.flatMap fun f => f.nodes.map (·.label)).Nodup
  apart : ∀ f ∈ funs, ∀ node ∈ f.nodes, node.label ∉ builtins ∧ node.label ≠ "_startup" ∧
    node.label ≠ "_setup_global" ∧ ∀ f' ∈ funs, node.label ≠ f'.name

/-- The order in which the blocks of a function are emitted: those that are reachable,
each once. -/
structure IsOrder (f : Function) (order : List BlockId) : Prop where
  nodup : order.Nodup
  mem_iff : ∀ b, b ∈ order ↔ Reachable f.nodes f.body b

/-- The names of the labels of a function. -/
def functionNames (f : Function) (order : List BlockId) : List String :=
  f.name :: order.map fun b => (labelOf f.nodes b).getD ""

/-- The code of the reachable blocks of a function in a program. -/
structure HasFunction (env : GenEnv) (f : Function) (prog : List VmCode)
    (labels : List VmLabel) : Prop where
  code : ∀ b, Reachable f.nodes f.body b → ∃ node q, f.nodes[b]? = some node ∧
    LabelAt prog labels node.label q ∧ BlockCode env f.nodes prog labels node q

variable {env : GenEnv} {f : Function} {funs : List Function} {g g' : GenState}
  {builtins : List String} {isSave : Bool} {order : List BlockId} {prog prog' : List VmCode}
  {labels labels' : List VmLabel}

theorem HasFunction.mono (hprog : prog <+: prog') (hlabels : labels <+: labels')
    (h : HasFunction env f prog labels) : HasFunction env f prog' labels' where
  code := by
    intro b hb
    rcases h.code b hb with ⟨node, q, hnode, hlabel, hcode⟩
    exact ⟨node, q, hnode, hlabel.mono hprog hlabels, hcode.mono hprog hlabels⟩

/-- Code that is appended to a program: its labels, and the labels of blocks that it
names. -/
structure Appends (funs : List Function) (orders : List (List BlockId)) (g g' : GenState) :
    Prop where
  ready : Ready g'
  code : ∃ seg more, g'.prog = g.prog ++ seg ∧ g'.labels = g.labels ++ more ∧
    lindexes seg = List.range' g.labels.length more.length ∧
    more.map (·.name) = (List.zipWith functionNames funs orders).flatten
  references : ∀ i d, g.prog.length ≤ i → g'.prog[i]? = some d → isReference d.opcode = true →
    ∃ f ∈ funs, ∃ b, Reachable f.nodes f.body b ∧ RefersTo f.nodes d b

theorem Appends.prog_le {orders : List (List BlockId)} (h : Appends funs orders g g') :
    g.prog <+: g'.prog := by
  rcases h.code with ⟨seg, more, hprog, -⟩
  exact ⟨seg, hprog.symm⟩

theorem Appends.labels_le {orders : List (List BlockId)} (h : Appends funs orders g g') :
    g.labels <+: g'.labels := by
  rcases h.code with ⟨seg, more, -, hlabels, -⟩
  exact ⟨more, hlabels.symm⟩

/-! ## One function -/

/-- The first two instructions of a function. -/
def functionEntry (f : Function) (g : GenState) : List VmCode :=
  [labelCode g.labels.length, { opcode := .enter, d := .size f.stackSize }]

theorem emitVmEnter_labels (n : Int) (g : GenState) : (emitVmEnter n g).labels = g.labels :=
  emitVmCode_labels _ _

theorem emitVmRet_of_ended (hmode : g.isGlobalMode = false) (h : Ended g) (size : Int) :
    emitVmRet size g = g ∨ emitVmRet size g = emitVmCode { opcode := .ret, d := .size size } g := by
  rcases h with ⟨c, hc, hcontrol, -⟩
  have hpop : g.prog.getLast?.any isLocalPop = false := by
    rw [hc]
    simp only [Option.any_some, isLocalPop, Bool.and_eq_false_iff]
    refine Or.inl (Or.inl ?_)
    rw [decide_eq_false_iff_not]
    intro hop
    simp [hop, isControl] at hcontrol
  unfold emitVmRet
  simp only [hmode, hpop, Bool.and_false, Bool.false_eq_true, if_false]
  split
  · exact Or.inl rfl
  · exact Or.inr rfl

/-- A function appends its name and its reachable blocks, each once. -/
theorem vmGenFunction_spec (hf : f.WellFormed env) (hg : Ready g) :
    ∃ g' order, vmGenFunction env f g = some g' ∧ IsOrder f order ∧ Appends [f] [order] g g' ∧
      HasFunction env f g'.prog g'.labels ∧ g.prog ++ functionEntry f g <+: g'.prog := by
  let g1 := emitVmEnter f.stackSize (emitVmLabelCode f.name g)
  have hform := emitVmLabelCode_form hg f.name
  have hready1 : Ready g1 := by
    constructor
    · simp [g1, emitVmEnter, emitVmCode, GenState.setCode, hform.mode]
    · simp [g1, emitVmEnter, hg.args]
  have hprog1 : g1.prog = g.prog ++ functionEntry f g := by
    simp only [g1, functionEntry, emitVmEnter]
    rw [emitVmCode_prog hform.mode, hform.prog]
    simp
  have hlabels1 : g1.labels = g.labels ++ [{ name := f.name }] := by
    simp only [g1]
    rw [emitVmEnter_labels, emitVmLabelCode_labels]
  have hwhite : white f.nodes ([] : List BlockId) < f.nodes.length + 1 := by
    simp [white]
  rcases vmGenNode_isSome hf.nodes hf.generates (f.nodes.length + 1) f.body { gen := g1 } hready1
    hf.body hwhite with ⟨s, hs⟩
  have hvisit := vmGenNode_visits hf.nodes _ f.body _ _ hready1 hs
  have hended := hvisit.left (by simp)
  have hmode := hvisit.extend.ready.mode
  rcases hvisit.extend.code with ⟨seg, bs, hprog, hblack, hlabels, hindex, hnodup, -⟩
  simp only [nil_append] at hblack
  subst hblack
  have hreach : ∀ b, Reachable f.nodes f.body b → b ∈ s.black := by
    intro b hb
    induction hb with
    | refl => exact hvisit.met f.body (by simp)
    | tail _ hedge ih => exact (hvisit.done _ ih (by simp)).closed _ hedge
  have horder : IsOrder f s.black := by
    refine ⟨hnodup, fun b => ⟨?_, hreach b⟩⟩
    intro hb
    rcases hvisit.reachable b hb (by simp) with ⟨r, hr, hpath⟩
    rw [mem_singleton.mp hr] at hpath
    exact hpath
  have hlast : ∃ g', vmGenFunction env f g = some g' ∧ Ready g' ∧ g'.labels = s.gen.labels ∧
      (g'.prog = s.gen.prog ∨ g'.prog = s.gen.prog ++ [{ opcode := .ret, d := .size 0 }]) := by
    have hsome : vmGenFunction env f g = some
        (if s.gen.prog.getLast?.any (·.opcode = .ret) then s.gen else emitVmRet 0 s.gen) := by
      unfold vmGenFunction
      simp only
      rw [hs, Option.map_some]
    refine ⟨_, hsome, ?_⟩
    split
    · exact ⟨hvisit.extend.ready, rfl, Or.inl rfl⟩
    · rcases emitVmRet_of_ended hmode hended 0 with hret | hret
      · rw [hret]
        exact ⟨hvisit.extend.ready, rfl, Or.inl rfl⟩
      · rw [hret]
        refine ⟨⟨?_, ?_⟩, emitVmCode_labels _ _, Or.inr (emitVmCode_prog hmode _)⟩
        · simp [emitVmCode, GenState.setCode, hmode]
        · rw [emitVmCode_args, hvisit.extend.ready.args]
  rcases hlast with ⟨g', hg', hready, hlabels', hprog'⟩
  have hle : s.gen.prog <+: g'.prog := by
    rcases hprog' with h | h
    · rw [h]
    · rw [h]
      exact prefix_append _ _
  refine ⟨g', s.black, hg', horder, ⟨hready, ?_, ?_⟩, ?_, ?_⟩
  · have hmore : g'.labels = g.labels ++ ({ name := f.name } :: blockLabels f.nodes s.black) := by
      rw [hlabels', hlabels, hlabels1, append_assoc]
      rfl
    have hfirst : lindexes (functionEntry f g) = [g.labels.length] := by
      simp [functionEntry, lindexes, labelCode]
    have hrange : lindexes (functionEntry f g ++ seg) =
        List.range' g.labels.length (s.black.length + 1) := by
      simp only at hindex
      rw [lindexes_append, hfirst, hindex, hlabels1, length_append, length_singleton, range'_succ]
      rfl
    have hnames : ({ name := f.name } :: blockLabels f.nodes s.black : List VmLabel).map
        (·.name) = (List.zipWith functionNames [f] [s.black]).flatten := by
      simp [blockLabels, functionNames]
    rcases hprog' with h | h
    · refine ⟨functionEntry f g ++ seg, _, ?_, hmore, ?_, hnames⟩
      · rw [h, hprog, hprog1, append_assoc]
      · rw [hrange]
        simp [blockLabels]
    · refine ⟨functionEntry f g ++ seg ++ [{ opcode := .ret, d := .size 0 }], _, ?_, hmore, ?_, hnames⟩
      · rw [h, hprog, hprog1, append_assoc, append_assoc, append_assoc]
      · rw [lindexes_append, hrange]
        simp [blockLabels, lindexes]
  · intro i d hi hd href
    refine ⟨f, by simp, ?_⟩
    have hcases : s.gen.prog[i]? = some d ∨ d = { opcode := .ret, d := .size 0 } := by
      rcases hprog' with h | h
      · rw [h] at hd
        exact Or.inl hd
      · rw [h] at hd
        exact getElem?_concat_cases hd
    rcases hcases with hd | rfl
    · by_cases hlt : i < g1.prog.length
      · have hd1 : g1.prog[i]? = some d := by
          rw [getElem?_eq_getElem hlt, ← hd]
          exact (getElem?_mono hvisit.extend.prog_le (getElem?_eq_getElem hlt)).symm
        rw [hprog1, getElem?_append_right hi] at hd1
        have hmem := mem_of_getElem? hd1
        simp only [functionEntry, mem_cons, not_mem_nil, or_false] at hmem
        rcases hmem with rfl | rfl
        · cases href
        · cases href
      · rcases hvisit.references i d (by simpa using hlt) hd href with ⟨b, hb, hrefers⟩
        exact ⟨b, (horder.mem_iff b).mp hb, hrefers⟩
    · cases href
  · constructor
    intro b hb
    rcases (hvisit.done b (hreach b hb) (by simp)).code with ⟨node, q, hnode, hlabel, hcode⟩
    have hlabelsle : s.gen.labels <+: g'.labels := by rw [hlabels']
    exact ⟨node, q, hnode, hlabel.mono hle hlabelsle, hcode.mono hle hlabelsle⟩
  · rw [← hprog1]
    exact hvisit.extend.prog_le.trans hle

/-! ## All functions -/

theorem Appends.refl (hg : Ready g) : Appends [] [] g g where
  ready := hg
  code := ⟨[], [], by simp [lindexes]⟩
  references := by
    intro i d hi hd
    rw [getElem?_eq_none hi] at hd
    cases hd

theorem Appends.cons {g'' : GenState} {orders : List (List BlockId)}
    (h : Appends [f] [order] g g') (h' : Appends funs orders g' g'') :
    Appends (f :: funs) (order :: orders) g g'' where
  ready := h'.ready
  code := by
    rcases h.code with ⟨seg, more, hprog, hlabels, hindex, hnames⟩
    rcases h'.code with ⟨seg', more', hprog', hlabels', hindex', hnames'⟩
    refine ⟨seg ++ seg', more ++ more', ?_, ?_, ?_, ?_⟩
    · rw [hprog', hprog, append_assoc]
    · rw [hlabels', hlabels, append_assoc]
    · rw [lindexes_append, hindex, hindex', hlabels, length_append, length_append,
        ← range'_append, Nat.one_mul]
    · rw [map_append, hnames, hnames']
      simp
  references := by
    intro i d hi hd href
    by_cases hmid : i < g'.prog.length
    · have hmid : g'.prog[i]? = some d := by
        rw [getElem?_eq_getElem hmid, ← hd]
        exact (getElem?_mono h'.prog_le (getElem?_eq_getElem hmid)).symm
      rcases h.references i d hi hmid href with ⟨f', hf', b, hb, hrefers⟩
      rw [mem_singleton] at hf'
      subst hf'
      exact ⟨f', by simp, b, hb, hrefers⟩
    · rcases h'.references i d (by omega) hd href with ⟨f', hf', b, hb, hrefers⟩
      exact ⟨f', by simp [hf'], b, hb, hrefers⟩

/-- Every function of a program appends its name and its reachable blocks, each
once. -/
theorem vmGenFunctions_spec (hfuns : ∀ f ∈ funs, f.WellFormed env) (hg : Ready g) :
    ∃ g' orders, vmGenFunctions env funs g = some g' ∧ List.Forall₂ IsOrder funs orders ∧
      Appends funs orders g g' ∧ (∀ f ∈ funs, HasFunction env f g'.prog g'.labels) ∧
      ∀ f, funs.head? = some f → g.prog ++ functionEntry f g <+: g'.prog := by
  unfold vmGenFunctions
  induction funs generalizing g with
  | nil => exact ⟨g, [], rfl, List.Forall₂.nil, Appends.refl hg, by simp, by simp⟩
  | cons f funs ih =>
    rcases vmGenFunction_spec (hfuns f (by simp)) hg with
      ⟨g1, order, hgen, horder, happends, hcode, hentry⟩
    rcases ih (fun f' hf' => hfuns f' (by simp [hf'])) happends.ready with
      ⟨g', orders, hrun, horders, happends', hcodes, -⟩
    refine ⟨g', order :: orders, by simp [foldlM_cons, hgen, hrun],
      List.Forall₂.cons horder horders, happends.cons happends', ?_, ?_⟩
    · intro f' hf'
      rcases mem_cons.mp hf' with rfl | hf'
      · exact hcode.mono happends'.prog_le happends'.labels_le
      · exact hcodes f' hf'
    · intro f' hf'
      rw [head?_cons, Option.some.injEq] at hf'
      subst hf'
      exact hentry.trans happends'.prog_le

/-! ## Names -/

theorem Function.WellFormed.lt_of_reachable (hf : f.WellFormed env) {b : BlockId}
    (hb : Reachable f.nodes f.body b) : b < f.nodes.length := by
  cases hb with
  | refl => exact hf.body
  | tail _ hedge =>
    rcases hedge with ⟨node, hnode, hmem⟩
    exact (hf.nodes node (mem_of_getElem? hnode)).successors b hmem

theorem count_functionNames_le (hf : f.WellFormed env) (horder : IsOrder f order) {name : String}
    (hname : f.name ≠ name) :
    (functionNames f order).count name ≤ (f.nodes.map (·.label)).count name := by
  have hall : f.nodes.map (·.label) =
      (List.range f.nodes.length).map fun b => (labelOf f.nodes b).getD "" := by
    apply ext_getElem
    · simp
    · intro i hi hi'
      simp only [length_map] at hi
      simp [labelOf, getElem?_eq_getElem hi]
  have hsub : order.Subperm (List.range f.nodes.length) := by
    apply subperm_of_subset horder.nodup
    intro b hb
    rw [mem_range]
    exact hf.lt_of_reachable ((horder.mem_iff b).mp hb)
  rw [functionNames, count_cons_of_ne (by simpa using hname), hall]
  rcases hsub with ⟨l, hperm, hsublist⟩
  rw [← (hperm.map _).count_eq]
  exact (hsublist.map _).count_le name

theorem count_blockNames_le {orders : List (List BlockId)} (hfuns : ∀ f ∈ funs, f.WellFormed env)
    (horders : List.Forall₂ IsOrder funs orders) {name : String}
    (hname : ∀ f ∈ funs, f.name ≠ name) :
    (List.zipWith functionNames funs orders).flatten.count name ≤
      (funs.flatMap fun f => f.nodes.map (·.label)).count name := by
  induction horders with
  | nil => simp
  | cons horder _ ih =>
    simp only [zipWith_cons_cons, flatten_cons, flatMap_cons, count_append]
    exact Nat.add_le_add (count_functionNames_le (hfuns _ (by simp)) horder (hname _ (by simp)))
      (ih (fun f hf => hfuns f (by simp [hf])) (fun f hf => hname f (by simp [hf])))

end Kcs.Vm
