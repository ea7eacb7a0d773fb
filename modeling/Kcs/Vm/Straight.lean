import Kcs.Vm.Generate

/-!
# Code of statements and expressions in a block

Within a block the generator only works on the instructions behind the label of the
block: it appends, and it changes or takes back what it has appended.  None of these
instructions jumps or is a label.

Main results:

- Theorem {lit}`vmGenExpr_grows`: the code of an expression is never empty.
- Theorem {lit}`vmGenStatements_form`: the code of the statements of a block stays
  in the block, and is empty exactly when all statements are silent.
-/

namespace Kcs.Vm

open Option List

/-! ## Code in a block -/

/-- Instructions that change the place of execution or mark one. -/
def isControl : VmOpcode → Bool
  | .label | .halt | .jmp | .jz | .jnz | .ret | .jmptbl | .tblEntry => true
  | _ => false

/-- The program ends with a label and code behind it that does not jump.  The first
instruction behind the label stores nothing that was pushed before. -/
structure BlockForm (g : GenState) (base : List VmCode) (l : VmCode) (tail : List VmCode) :
    Prop where
  mode : g.isGlobalMode = false
  prog : g.prog = base ++ l :: tail
  label : l.opcode = .label
  straight : ∀ c ∈ tail, isControl c.opcode = false
  head : ∀ c, tail.head? = some c → c.opcode ≠ .pop

/-- A step of the generator that stays in the block. -/
structure Keeps (g g' : GenState) : Prop where
  labels : g'.labels = g.labels
  form : ∀ base l tail, BlockForm g base l tail →
    ∃ tail', BlockForm g' base l tail' ∧ (tail ≠ [] → tail' ≠ [])

/-- A step of the generator that leaves code in the block. -/
structure Grows (g g' : GenState) : Prop where
  labels : g'.labels = g.labels
  form : ∀ base l tail, BlockForm g base l tail → ∃ tail', BlockForm g' base l tail' ∧ tail' ≠ []

/-- A step of the generator that stays in a block with code. -/
structure Follows (g g' : GenState) : Prop where
  labels : g'.labels = g.labels
  form : ∀ base l tail, BlockForm g base l tail → tail ≠ [] →
    ∃ tail', BlockForm g' base l tail' ∧ tail' ≠ []

variable {env : GenEnv} {g g' g'' : GenState} {base tail : List VmCode} {l c : VmCode} {v : Var}
  {e : Expression}

theorem Grows.keeps (h : Grows g g') : Keeps g g' where
  labels := h.labels
  form := by
    intro base l tail hform
    rcases h.form base l tail hform with ⟨tail', hform', hne⟩
    exact ⟨tail', hform', fun _ => hne⟩

theorem Keeps.follows (h : Keeps g g') : Follows g g' where
  labels := h.labels
  form := by
    intro base l tail hform hne
    rcases h.form base l tail hform with ⟨tail', hform', hne'⟩
    exact ⟨tail', hform', hne' hne⟩

theorem Grows.trans (h : Grows g g') (h' : Follows g' g'') : Grows g g'' where
  labels := h'.labels.trans h.labels
  form := by
    intro base l tail hform
    rcases h.form base l tail hform with ⟨tail', hform', hne⟩
    exact h'.form base l tail' hform' hne

theorem Follows.trans (h : Follows g g') (h' : Follows g' g'') : Follows g g'' where
  labels := h'.labels.trans h.labels
  form := by
    intro base l tail hform hne
    rcases h.form base l tail hform hne with ⟨tail', hform', hne'⟩
    exact h'.form base l tail' hform' hne'

theorem Keeps.trans_grows (h : Keeps g g') (h' : Grows g' g'') : Grows g g'' where
  labels := h'.labels.trans h.labels
  form := by
    intro base l tail hform
    rcases h.form base l tail hform with ⟨tail', hform', -⟩
    exact h'.form base l tail' hform'

theorem Keeps.trans (h : Keeps g g') (h' : Keeps g' g'') : Keeps g g'' where
  labels := h'.labels.trans h.labels
  form := by
    intro base l tail hform
    rcases h.form base l tail hform with ⟨tail', hform', hne⟩
    rcases h'.form base l tail' hform' with ⟨tail'', hform'', hne'⟩
    exact ⟨tail'', hform'', fun h => hne' (hne h)⟩

theorem Keeps.of_eq (hlabels : g'.labels = g.labels) (hmode : g'.isGlobalMode = g.isGlobalMode)
    (hprog : g'.prog = g.prog) : Keeps g g' where
  labels := hlabels
  form := by
    intro base l tail hform
    refine ⟨tail, ⟨hmode.trans hform.mode, hprog.trans hform.prog, hform.label, hform.straight,
      hform.head⟩, id⟩

/-! ## Emitting one instruction -/

theorem emitVmCode_follows (hc : isControl c.opcode = false) : Follows g (emitVmCode c g) where
  labels := by
    unfold emitVmCode GenState.setCode
    split <;> rfl
  form := by
    intro base l tail hform hne
    refine ⟨tail ++ [c], ⟨?_, ?_, hform.label, ?_, ?_⟩, by simp⟩
    · simp [emitVmCode, GenState.setCode, hform.mode]
    · simp [emitVmCode, GenState.setCode, GenState.code, hform.mode, hform.prog]
    · intro d hd
      rcases mem_append.mp hd with hd | hd
      · exact hform.straight d hd
      · rw [mem_singleton.mp hd]
        exact hc
    · intro d hd
      apply hform.head d
      rwa [head?_append_of_ne_nil _ hne] at hd

theorem emitVmCode_grows (hc : isControl c.opcode = false) (hpop : c.opcode ≠ .pop) :
    Grows g (emitVmCode c g) where
  labels := by
    unfold emitVmCode GenState.setCode
    split <;> rfl
  form := by
    intro base l tail hform
    by_cases hne : tail = []
    · refine ⟨tail ++ [c], ⟨?_, ?_, hform.label, ?_, ?_⟩, by simp⟩
      · simp [emitVmCode, GenState.setCode, hform.mode]
      · simp [emitVmCode, GenState.setCode, GenState.code, hform.mode, hform.prog]
      · intro d hd
        rw [hne, nil_append] at hd
        rw [mem_singleton.mp hd]
        exact hc
      · intro d hd
        rw [hne, nil_append, head?_cons, some.injEq] at hd
        rw [← hd]
        exact hpop
    · exact (emitVmCode_follows hc).form base l tail hform hne

theorem emitVmPushImm_grows (type : VmOptype) (imm : Value) (g : GenState) :
    Grows g (emitVmPushImm type imm g) :=
  emitVmCode_grows rfl (by simp)

variable {op : VmOpcode}

theorem emitVmOp_grows (type : VmOptype) (g : GenState)
    (hop : isControl op = false) (hpop : op ≠ .pop) : Grows g (emitVmOp op type g) :=
  emitVmCode_grows hop hpop

theorem emitVmAddOffset_keeps (offset : BitVec 64) (g : GenState) :
    Keeps g (emitVmAddOffset offset g) := by
  unfold emitVmAddOffset
  split
  · exact Keeps.of_eq rfl rfl rfl
  · exact ((emitVmPushImm_grows _ _ g).trans
      (emitVmOp_grows _ _ rfl (by decide)).keeps.follows).keeps

theorem emitVmPushString_grows (string : List (BitVec 8)) (g : GenState) :
    Grows g (emitVmPushString string g) := by
  have hkeeps : Keeps g { g with globalImage := g.globalImage ++ string ++ [0] } :=
    Keeps.of_eq rfl rfl rfl
  exact hkeeps.trans_grows (emitVmCode_grows rfl (by simp))

theorem emitVmFieldShift_keeps (v : Var) (g : GenState)
    (hop : isControl op = false) (hpop : op ≠ .pop) : Keeps g (emitVmFieldShift op v g) := by
  unfold emitVmFieldShift
  split
  · exact ((emitVmPushImm_grows _ _ g).trans (emitVmOp_grows _ _ hop hpop).keeps.follows).keeps
  · exact Keeps.of_eq rfl rfl rfl

theorem emitVmMask_grows (mask : Nat) (g : GenState) : Grows g (emitVmMask mask g) :=
  (emitVmPushImm_grows _ _ g).trans (emitVmOp_grows _ _ rfl (by decide)).keeps.follows

/-! ## Taking back and changing the last instruction -/

theorem BlockForm.last_of_ne_nil (h : BlockForm g base l tail) (hne : tail ≠ []) :
    g.last = tail.getLast? := by
  rw [GenState.last, GenState.code, if_neg (by simp [h.mode]), h.prog,
    getLast?_append_of_ne_nil _ (by simp)]
  cases tail with
  | nil => exact absurd rfl hne
  | cons c tail => simp [getLast?_cons_cons]

theorem BlockForm.tail_ne_nil_of_last (h : BlockForm g base l tail) (hlast : g.last = some c)
    (hc : c.opcode ≠ .label) : tail ≠ [] := by
  rintro rfl
  rw [GenState.last, GenState.code, if_neg (by simp [h.mode]), h.prog,
    getLast?_append_of_ne_nil _ (by simp), getLast?_singleton, some.injEq] at hlast
  rw [← hlast] at hc
  exact hc h.label

theorem BlockForm.replaceLast {d : VmCode} (h : BlockForm g base l tail) (hlast : g.last = some c)
    (hc : c.opcode ≠ .label) (hd : isControl d.opcode = false)
    (hpop : d.opcode = .pop → c.opcode = .pop) :
    ∃ tail', BlockForm (g.setCode (g.code.dropLast ++ [d])) base l tail' ∧ tail' ≠ [] := by
  have hne := h.tail_ne_nil_of_last hlast hc
  have hmem := h.last_of_ne_nil hne
  rw [hlast] at hmem
  refine ⟨tail.dropLast ++ [d], ⟨?_, ?_, h.label, ?_, ?_⟩, by simp⟩
  · simp [GenState.setCode, h.mode]
  · have hdrop : (base ++ l :: tail).dropLast = base ++ l :: tail.dropLast := by
      rw [dropLast_append_of_ne_nil (by simp), dropLast_cons_of_ne_nil hne]
    simp [GenState.setCode, GenState.code, h.mode, h.prog, hdrop]
  · intro b hb
    rcases mem_append.mp hb with hb | hb
    · exact h.straight b (mem_of_mem_dropLast hb)
    · rw [mem_singleton.mp hb]
      exact hd
  · intro b hb
    by_cases hdrop : tail.dropLast = []
    · rw [hdrop, nil_append, head?_cons, some.injEq] at hb
      subst hb
      -- The only instruction is the one that is replaced.
      have hsingle : tail = [c] := by
        have := dropLast_append_getLast? c hmem.symm
        rw [hdrop, nil_append] at this
        exact this.symm
      intro hb
      exact h.head c (by rw [hsingle]; rfl) (hpop hb)
    · rw [head?_append_of_ne_nil _ hdrop] at hb
      apply h.head b
      rw [← hb]
      have := dropLast_append_getLast? c hmem.symm
      rw [← this, head?_append_of_ne_nil _ hdrop]
      rw [dropLast_concat]

theorem BlockForm.dropPop (h : BlockForm g base l tail) (hlast : g.last = some c)
    (hc : c.opcode = .pop) :
    ∃ tail', BlockForm { g with prog := g.prog.dropLast } base l tail' ∧ tail' ≠ [] := by
  have hne := h.tail_ne_nil_of_last hlast (by simp [hc])
  have hmem := h.last_of_ne_nil hne
  rw [hlast] at hmem
  have hsplit := dropLast_append_getLast? c hmem.symm
  have hdrop : tail.dropLast ≠ [] := by
    intro hdrop
    rw [hdrop, nil_append] at hsplit
    exact h.head c (by rw [← hsplit]; rfl) hc
  refine ⟨tail.dropLast, ⟨h.mode, ?_, h.label, ?_, ?_⟩, hdrop⟩
  · show g.prog.dropLast = _
    rw [h.prog, dropLast_append_of_ne_nil (by simp), dropLast_cons_of_ne_nil hne]
  · intro b hb
    exact h.straight b (mem_of_mem_dropLast hb)
  · intro b hb
    apply h.head b
    rw [← hb, ← hsplit, head?_append_of_ne_nil _ hdrop, dropLast_concat]

theorem Grows.of_form (hlabels : g'.labels = g.labels)
    (hform : ∀ base l tail, BlockForm g base l tail →
      ∃ tail', BlockForm g' base l tail' ∧ tail' ≠ []) : Grows g g' :=
  ⟨hlabels, hform⟩

/-! ## Loads and stores -/

theorem labels_setCode (code : List VmCode) : (g.setCode code).labels = g.labels := by
  unfold GenState.setCode
  split <;> rfl

theorem takeBack_grows (hlast : g.last = some c) (hc : c.opcode = .pop) :
    Grows g (takeBack v c g) := by
  apply Grows.of_form
  · unfold takeBack
    split
    · rfl
    · exact labels_setCode _
  · intro base l tail hform
    unfold takeBack
    split
    · exact hform.dropPop hlast hc
    · exact hform.replaceLast hlast (by simp [hc]) rfl (by simp)

theorem emitVmLoad_grows (h : emitVmLoad env v g = some g') : Grows g g' := by
  unfold emitVmLoad at h
  simp only [bind_eq_some_iff] at h
  rcases h with ⟨sym, -, size, -, h⟩
  split at h
  · rename_i c hlast
    rw [filter_eq_some_iff] at hlast
    have hpop : c.opcode = .pop := by
      have := hlast.2
      simp only [isReloaded, Bool.and_eq_true, decide_eq_true_eq] at this
      exact this.2.1.1.1
    rw [some.injEq] at h
    exact h ▸ takeBack_grows hlast.1 hpop
  · have hpush : Grows g (emitVmCode
        { opcode := .push, type := getVmopVarType v, d := .addr (vmAddress env v sym size) } g) :=
      emitVmCode_grows rfl (by simp)
    split at h
    · rw [map_eq_some_iff] at h
      rcases h with ⟨mask, -, rfl⟩
      exact (hpush.trans (emitVmFieldShift_keeps v _ rfl (by decide)).follows).trans
        (emitVmMask_grows mask _).keeps.follows
    · rw [some.injEq] at h
      exact h ▸ hpush

theorem emitVmLoadAddress_grows (h : emitVmLoadAddress env v g = some g') : Grows g g' := by
  unfold emitVmLoadAddress at h
  simp only [bind_eq_some_iff, map_eq_some_iff] at h
  rcases h with ⟨sym, -, size, -, rfl⟩
  split
  · exact emitVmCode_grows rfl (by simp)
  · exact emitVmCode_grows rfl (by simp)

theorem vmLoadImmediate_grows (h : vmLoadImmediate env v g = some g') : Grows g g' := by
  unfold vmLoadImmediate emitVmPushInt at h
  split at h
  · split at h
    · split at h
      · rw [some.injEq] at h
        exact h ▸ (emitVmPushString_grows _ g).trans (emitVmAddOffset_keeps _ _).follows
      · cases h
    · rw [some.injEq] at h
      exact h ▸ emitVmPushImm_grows _ _ g
  · rw [some.injEq] at h
    exact h ▸ emitVmPushImm_grows _ _ g
  · rw [some.injEq] at h
    exact h ▸ emitVmPushImm_grows _ _ g
  · rw [some.injEq] at h
    exact h ▸ emitVmPushImm_grows _ _ g
  · rw [some.injEq] at h
    exact h ▸ emitVmPushImm_grows _ _ g
  · rw [some.injEq] at h
    exact h ▸ emitVmPushImm_grows _ _ g
  · rw [some.injEq] at h
    exact h ▸ emitVmPushImm_grows _ _ g
  · rw [some.injEq] at h
    exact h ▸ emitVmPushImm_grows _ _ g
  · rw [some.injEq] at h
    exact h ▸ emitVmPushImm_grows _ _ g
  · rw [map_eq_some_iff] at h
    rcases h with ⟨sym, -, rfl⟩
    exact emitVmPushString_grows _ g
  · cases h

theorem protect_keeps (b : Bool) (g : GenState) : Keeps g { g with protectRemoveTempvar := b } :=
  Keeps.of_eq rfl rfl rfl

theorem vmLoadPointer_grows {sym : Symbol} (h : vmLoadPointer env sym g = some g') :
    Grows g g' := by
  simp only [vmLoadPointer] at h
  split at h
  · rw [some.injEq] at h
    exact h ▸ emitVmPushString_grows _ g
  · rw [map_eq_some_iff] at h
    rcases h with ⟨g1, hload, rfl⟩
    exact ((protect_keeps true g).trans_grows (emitVmLoad_grows hload)).trans
      (protect_keeps false g1).follows

theorem vmLoadVar_grows (h : vmLoadVar env v g = some g') : Grows g g' := by
  unfold vmLoadVar at h
  split at h
  · exact vmLoadImmediate_grows h
  · exact emitVmLoad_grows h
  · exact emitVmLoadAddress_grows h
  · simp only [bind_eq_some_iff] at h
    rcases h with ⟨sym, -, g1, hpointer, hderef⟩
    unfold emitVmDeref at hderef
    simp only [bind_eq_some_iff, map_eq_some_iff] at hderef
    rcases hderef with ⟨-, -, size, -, rfl⟩
    exact ((vmLoadPointer_grows hpointer).trans (emitVmAddOffset_keeps _ _).follows).trans
      (emitVmCode_follows rfl)

theorem vmStoreVar_follows (h : vmStoreVar env v g = some g') : Follows g g' := by
  unfold vmStoreVar at h
  split at h
  · unfold emitVmStore at h
    simp only [bind_eq_some_iff] at h
    rcases h with ⟨sym, -, h⟩
    split at h
    · unfold emitVmFieldMerge at h
      simp only [Option.map_map, map_eq_some_iff] at h
      rcases h with ⟨mask, -, rfl⟩
      have hunit : Grows (emitVmFieldShift .shl v g) (emitVmCode
          { opcode := .push, type := .varu, d := .addr (vmAddress env v sym 4) }
          (emitVmFieldShift .shl v g)) :=
        emitVmCode_grows rfl (by simp)
      exact ((((emitVmFieldShift_keeps v g rfl (by decide)).follows.trans
        hunit.keeps.follows).trans (emitVmMask_grows mask _).keeps.follows).trans
          (emitVmOp_grows _ _ rfl (by decide)).keeps.follows).trans (emitVmCode_follows rfl)
    · rw [map_eq_some_iff] at h
      rcases h with ⟨size, -, rfl⟩
      exact emitVmCode_follows rfl
  · unfold emitVmDerefStore at h
    simp only [bind_eq_some_iff, map_eq_some_iff] at h
    rcases h with ⟨sym, -, size, -, rfl⟩
    exact emitVmCode_follows rfl
  · cases h

theorem vmStoreBitfieldZero_grows (h : vmStoreBitfieldZero env v g = some g') : Grows g g' := by
  unfold vmStoreBitfieldZero at h
  simp only [bind_eq_some_iff, map_eq_some_iff] at h
  rcases h with ⟨sym, -, size, -, mask, -, rfl⟩
  have hpush : Grows g (emitVmCode
      { opcode := .push, type := .varu, d := .addr (vmAddress env v sym size) } g) :=
    emitVmCode_grows rfl (by simp)
  exact (hpush.trans (emitVmMask_grows mask _).keeps.follows).trans (emitVmCode_follows rfl)

/-! ## Expressions -/

variable {type : VmOptype}

theorem loads_grow {v w : Var} (hop : isControl op = false)
    (hpop : op ≠ .pop)
    (h : ((vmLoadVar env v g).bind fun g => (vmLoadVar env w g).map (emitVmOp op type)) =
      some g') : Grows g g' := by
  simp only [bind_eq_some_iff, map_eq_some_iff] at h
  rcases h with ⟨g1, h1, g2, h2, rfl⟩
  exact ((vmLoadVar_grows h1).trans (vmLoadVar_grows h2).keeps.follows).trans
    (emitVmOp_grows _ _ hop hpop).keeps.follows

theorem vmGenSwapped_grows {op swapped : VmOpcode}
    (hop : isControl op = false ∧ op ≠ .pop) (hswapped : isControl swapped = false ∧ swapped ≠ .pop)
    (h : vmGenSwapped env e op swapped type g = some g') : Grows g g' := by
  unfold vmGenSwapped at h
  split at h
  · exact loads_grow hswapped.1 hswapped.2 h
  · exact loads_grow hop.1 hop.2 h

theorem vmGenOrdered_grows
    (hop : isControl op = false ∧ op ≠ .pop) (h : vmGenOrdered env e op type g = some g') :
    Grows g g' :=
  loads_grow hop.1 hop.2 h

theorem iterate_emitVmOp_keeps (type : VmOptype) (n : Nat) (g : GenState)
    (hop : isControl op = false) (hpop : op ≠ .pop) : Keeps g ((emitVmOp op type)^[n] g) := by
  induction n generalizing g with
  | zero => exact Keeps.of_eq rfl rfl rfl
  | succ n ih =>
    rw [Function.iterate_succ_apply]
    exact (emitVmOp_grows type g hop hpop).keeps.trans (ih _)

theorem vmGenIncdec_grows (hop : isControl op = false) (hpop : op ≠ .pop)
    (h : vmGenIncdec env e op g = some g') : Grows g g' := by
  simp only [vmGenIncdec, map_eq_some_iff] at h
  rcases h with ⟨g1, h1, rfl⟩
  exact (vmLoadVar_grows h1).trans (iterate_emitVmOp_keeps _ _ _ hop hpop).follows

theorem emitVmCleanup_keeps (size : Int) (g : GenState) : Keeps g (emitVmCleanup size g) := by
  unfold emitVmCleanup
  split
  · exact (emitVmCode_grows rfl (by simp)).keeps
  · exact Keeps.of_eq rfl rfl rfl

theorem vmGenCall_grows (h : vmGenCall env e g = some g') : Grows g g' := by
  unfold vmGenCall at h
  simp only [bind_eq_some_iff, map_eq_some_iff] at h
  rcases h with ⟨sym, -, g1, h, rfl⟩
  have hreset : Keeps g1 { g1 with argsSize := 0 } := Keeps.of_eq rfl rfl rfl
  refine Grows.trans ?_ hreset.follows
  split at h
  · rw [some.injEq] at h
    exact h ▸ emitVmCode_grows rfl (by simp)
  · split at h
    · rw [some.injEq] at h
      exact h ▸ emitVmCode_grows rfl (by simp)
    · rw [map_eq_some_iff] at h
      rcases h with ⟨g2, hcall, rfl⟩
      unfold emitVmCall at hcall
      simp only [bind_eq_some_iff, map_eq_some_iff] at hcall
      rcases hcall with ⟨-, -, size, -, rfl⟩
      exact (emitVmCode_grows rfl (by simp)).trans (emitVmCleanup_keeps _ _).follows

/-- The code of an expression is never empty. -/
theorem vmGenExpr_grows (h : vmGenExpr env e g = some g') : Grows g g' := by
  have hunary : ∀ op type, isControl op = false → op ≠ .pop →
      (vmLoadVar env e.l g).map (emitVmOp op type) = some g' → Grows g g' := by
    intro op type hop hpop h
    rw [map_eq_some_iff] at h
    rcases h with ⟨g1, h1, rfl⟩
    exact (vmLoadVar_grows h1).trans (emitVmOp_grows _ _ hop hpop).keeps.follows
  unfold vmGenExpr at h
  cases hop : e.op with
  | cast =>
    simp only [hop, bind_eq_some_iff, map_eq_some_iff] at h
    rcases h with ⟨equal, -, g1, h1, rfl⟩
    split
    · exact vmLoadVar_grows h1
    · exact (vmLoadVar_grows h1).trans (emitVmCode_follows rfl)
  | call =>
    simp only [hop] at h
    exact vmGenCall_grows h
  | vaArg => simp [hop] at h
  | not | neg =>
    simp only [hop] at h
    exact hunary _ _ rfl (by decide) h
  | add | sub =>
    simp only [hop] at h
    split at h
    · exact vmGenIncdec_grows rfl (by decide) h
    · first
        | exact vmGenSwapped_grows (by decide) (by decide) h
        | exact vmGenOrdered_grows (by decide) h
  | div | mod | shl | shr =>
    simp only [hop] at h
    exact vmGenOrdered_grows (by decide) h
  | mul | and | or | xor | eq | ne | ge | gt =>
    simp only [hop] at h
    exact vmGenSwapped_grows (by decide) (by decide) h

/-! ## Arguments that wait -/

@[simp]
theorem setCode_args (code : List VmCode) (g : GenState) : (g.setCode code).args = g.args := by
  unfold GenState.setCode
  split <;> rfl

@[simp]
theorem emitVmCode_args (c : VmCode) (g : GenState) : (emitVmCode c g).args = g.args :=
  setCode_args _ g

@[simp]
theorem emitVmOp_args (op : VmOpcode) (type : VmOptype) (g : GenState) :
    (emitVmOp op type g).args = g.args :=
  emitVmCode_args _ g

@[simp]
theorem emitVmPushImm_args (type : VmOptype) (imm : Value) (g : GenState) :
    (emitVmPushImm type imm g).args = g.args :=
  emitVmCode_args _ g

@[simp]
theorem emitVmPushString_args (string : List (BitVec 8)) (g : GenState) :
    (emitVmPushString string g).args = g.args :=
  emitVmCode_args _ _

@[simp]
theorem emitVmAddOffset_args (offset : BitVec 64) (g : GenState) :
    (emitVmAddOffset offset g).args = g.args := by
  unfold emitVmAddOffset
  split <;> simp

@[simp]
theorem emitVmFieldShift_args (op : VmOpcode) (v : Var) (g : GenState) :
    (emitVmFieldShift op v g).args = g.args := by
  unfold emitVmFieldShift
  split <;> simp

@[simp]
theorem emitVmCleanup_args (size : Int) (g : GenState) : (emitVmCleanup size g).args = g.args := by
  unfold emitVmCleanup
  split <;> simp

@[simp]
theorem iterate_emitVmOp_args (op : VmOpcode) (type : VmOptype) (n : Nat) (g : GenState) :
    ((emitVmOp op type)^[n] g).args = g.args := by
  induction n generalizing g with
  | zero => rfl
  | succ n ih => rw [Function.iterate_succ_apply, ih, emitVmOp_args]

theorem emitVmLoad_args (h : emitVmLoad env v g = some g') : g'.args = g.args := by
  unfold emitVmLoad at h
  simp only [bind_eq_some_iff] at h
  rcases h with ⟨sym, -, size, -, h⟩
  split at h
  · rw [some.injEq] at h
    subst h
    unfold takeBack
    split <;> simp
  · split at h
    · rw [map_eq_some_iff] at h
      rcases h with ⟨mask, -, rfl⟩
      simp [emitVmMask]
    · rw [some.injEq] at h
      simp [← h]

theorem vmLoadVar_args (h : vmLoadVar env v g = some g') : g'.args = g.args := by
  unfold vmLoadVar at h
  split at h
  · unfold vmLoadImmediate emitVmPushInt at h
    aesop
  · exact emitVmLoad_args h
  · unfold emitVmLoadAddress at h
    simp only [bind_eq_some_iff, map_eq_some_iff] at h
    rcases h with ⟨sym, -, size, -, rfl⟩
    split <;> simp
  · simp only [bind_eq_some_iff] at h
    rcases h with ⟨sym, -, g1, hpointer, hderef⟩
    unfold emitVmDeref at hderef
    simp only [bind_eq_some_iff, map_eq_some_iff] at hderef
    rcases hderef with ⟨-, -, size, -, rfl⟩
    simp only [emitVmCode_args, emitVmAddOffset_args]
    simp only [vmLoadPointer] at hpointer
    split at hpointer
    · rw [some.injEq] at hpointer
      simp [← hpointer]
    · rw [map_eq_some_iff] at hpointer
      rcases hpointer with ⟨g2, hload, rfl⟩
      have hargs := emitVmLoad_args hload
      exact hargs

theorem loads_args {v w : Var}
    (h : ((vmLoadVar env v g).bind fun g => (vmLoadVar env w g).map (emitVmOp op type)) =
      some g') : g'.args = g.args := by
  simp only [bind_eq_some_iff, map_eq_some_iff] at h
  rcases h with ⟨g1, h1, g2, h2, rfl⟩
  rw [emitVmOp_args, vmLoadVar_args h2, vmLoadVar_args h1]

theorem vmGenSwapped_args {op swapped : VmOpcode}
    (h : vmGenSwapped env e op swapped type g = some g') : g'.args = g.args := by
  unfold vmGenSwapped at h
  split at h
  · exact loads_args h
  · exact loads_args h

theorem vmGenCall_args (h : vmGenCall env e g = some g') : g'.args = g.args := by
  simp only [vmGenCall, emitVmCall, bind_eq_some_iff, map_eq_some_iff] at h
  rcases h with ⟨sym, -, g1, h, rfl⟩
  split at h
  · rw [some.injEq] at h
    simp [← h]
  · split at h
    · rw [some.injEq] at h
      simp [← h]
    · simp only [map_eq_some_iff, bind_eq_some_iff] at h
      rcases h with ⟨g2, ⟨-, -, size, -, rfl⟩, rfl⟩
      simp

theorem vmGenExpr_args (h : vmGenExpr env e g = some g') : g'.args = g.args := by
  have hunary : ∀ op type, (vmLoadVar env e.l g).map (emitVmOp op type) = some g' →
      g'.args = g.args := by
    intro op type h
    rw [map_eq_some_iff] at h
    rcases h with ⟨g1, h1, rfl⟩
    rw [emitVmOp_args, vmLoadVar_args h1]
  have hincdec : ∀ op, vmGenIncdec env e op g = some g' → g'.args = g.args := by
    intro op h
    simp only [vmGenIncdec, map_eq_some_iff] at h
    rcases h with ⟨g1, h1, rfl⟩
    rw [iterate_emitVmOp_args, vmLoadVar_args h1]
  unfold vmGenExpr at h
  cases hop : e.op with
  | cast =>
    simp only [hop, bind_eq_some_iff, map_eq_some_iff] at h
    rcases h with ⟨equal, -, g1, h1, rfl⟩
    split
    · exact vmLoadVar_args h1
    · rw [emitVmCast, emitVmCode_args, vmLoadVar_args h1]
  | call =>
    simp only [hop] at h
    exact vmGenCall_args h
  | vaArg => simp [hop] at h
  | not | neg =>
    simp only [hop] at h
    exact hunary _ _ h
  | add =>
    simp only [hop] at h
    split at h
    · exact hincdec _ h
    · exact vmGenSwapped_args h
  | sub =>
    simp only [hop] at h
    split at h
    · exact hincdec _ h
    · exact loads_args h
  | div | mod | shl | shr =>
    simp only [hop] at h
    exact loads_args h
  | mul | and | or | xor | eq | ne | ge | gt =>
    simp only [hop] at h
    exact vmGenSwapped_args h

/-! ## Statements -/

section Statements

variable (env : GenEnv)

/-- Number of elements that an assignment of a string to an array stores. -/
def stringCount (v : Var) : Option Nat :=
  (sizeOf env.types v.type).bind fun total =>
    (typeNext env.types v.type).bind fun type =>
      (sizeOf env.types type).map fun size => total / size

/-- Statements without code: `va_start`, and the assignment of a string to an array
without elements. -/
def isSilent (s : Statement) : Bool :=
  match s.st with
  | .vaStart => true
  | .assign =>
    !(!s.t.isField && !s.t.type.isVoid && isConstantZero s.expr && s.t.kind ≠ .deref) &&
      (s.t.type.isArray && s.expr.type.isArray && s.expr.op = .cast) && stringCount env s.t = some 0
  | _ => false

end Statements

theorem emitVmPop_follows (h : emitVmPop env v g = some g') : Follows g g' := by
  unfold emitVmPop at h
  rw [map_eq_some_iff] at h
  rcases h with ⟨size, -, rfl⟩
  split
  · rename_i type n hlast
    refine ⟨rfl, ?_⟩
    intro base l tail hform hne
    have hcode : g.code = g.prog := by simp [GenState.code, hform.mode]
    have hlast' : g.last = some { opcode := .clup, type := type, d := .size n } := by
      rw [GenState.last, hcode]
      exact hlast
    rcases hform.replaceLast (d := { opcode := .clpop, type := type, d := .size (n + size) }) hlast'
      (by simp) rfl (by simp) with ⟨tail', hform', hne'⟩
    refine ⟨tail', ?_, hne'⟩
    rw [hcode, GenState.setCode, if_neg (by simp [hform.mode])] at hform'
    exact hform'
  · exact emitVmCode_follows rfl

theorem emitVmFillZero_grows (h : emitVmFillZero env v g = some g') : Grows g g' := by
  unfold emitVmFillZero at h
  simp only [bind_eq_some_iff, map_eq_some_iff] at h
  rcases h with ⟨sym, -, size, -, rfl⟩
  split
  · rename_i c hlast
    rw [filter_eq_some_iff] at hlast
    have hop : c.opcode = .fzero := by
      have := hlast.2
      simp only [Bool.and_eq_true, decide_eq_true_eq] at this
      exact this.1
    apply Grows.of_form
    · exact labels_setCode _
    · intro base l tail hform
      exact hform.replaceLast hlast.1 (by simp [hop]) (by simp [hop, isControl]) (by simp)
  · exact emitVmCode_grows rfl (by simp)

theorem vmGenStringElements_keeps {type : CType} {size n : Nat} {string : List (BitVec 8)}
    (h : vmGenStringElements env v type size string n g = some g') :
    Keeps g g' ∧ (n ≠ 0 → Grows g g') ∧ (n = 0 → g' = g) := by
  unfold vmGenStringElements at h
  have hstep : ∀ (is : List Nat) (g g' : GenState), is.foldlM (fun g i =>
      vmStoreVar env { v with type := type, offset := v.offset + BitVec.ofNat 64 (i * size) }
        (emitVmPushImm .int32 (vmImm 32 (BitVec.ofInt 32 ((string[i]?).getD 0).toInt).toNat) g))
      g = some g' → Keeps g g' ∧ (is ≠ [] → Grows g g') := by
    intro is
    induction is with
    | nil =>
      intro g g' h
      simp only [foldlM_nil, Option.pure_def, some.injEq] at h
      exact ⟨h ▸ Keeps.of_eq rfl rfl rfl, fun h => absurd rfl h⟩
    | cons i is ih =>
      intro g g' h
      simp only [foldlM_cons, bind_eq_bind, bind_eq_some_iff] at h
      rcases h with ⟨g1, h1, h2⟩
      have hgrow : Grows g g1 := (emitVmPushImm_grows _ _ g).trans (vmStoreVar_follows h1)
      have hgrow' := hgrow.trans (ih g1 g' h2).1.follows
      exact ⟨hgrow'.keeps, fun _ => hgrow'⟩
  rcases hstep _ _ _ h with ⟨hkeeps, hgrows⟩
  refine ⟨hkeeps, ?_, ?_⟩
  · intro hn
    apply hgrows
    simpa using hn
  · intro hn
    subst hn
    simpa using h.symm

theorem vmGenAssign_form {s : Statement} (hst : s.st = .assign)
    (h : vmGenAssign env s.t s.expr g = some g') :
    (isSilent env s = false → Grows g g') ∧ (isSilent env s = true → g' = g) := by
  unfold vmGenAssign at h
  simp only [isSilent, hst]
  split at h
  · rename_i hzero
    simp only [hzero, Bool.not_true, Bool.false_and, Bool.false_eq_true, false_implies,
      and_true, forall_const]
    exact emitVmFillZero_grows h
  · rename_i hzero
    split at h
    · rename_i harray
      unfold vmGenStringArray at h
      simp only [bind_eq_some_iff] at h
      rcases h with ⟨sym, -, total, htotal, type, htype, size, hsize, h⟩
      rcases vmGenStringElements_keeps h with ⟨-, hgrows, hsame⟩
      have hcount : stringCount env s.t = some (total / size) := by
        simp [stringCount, htotal, htype, hsize]
      simp only [hzero, harray, hcount, some.injEq, Bool.not_false, Bool.true_and,
        decide_eq_true_eq, decide_eq_false_iff_not]
      exact ⟨hgrows, hsame⟩
    · rename_i harray
      simp only [harray, Bool.and_false, Bool.false_and, Bool.false_eq_true, false_implies,
        and_true, forall_const]
      split at h
      · unfold vmGenFieldConstant at h
        simp only [bind_eq_some_iff] at h
        rcases h with ⟨mask, -, h⟩
        split at h
        · exact vmStoreBitfieldZero_grows h
        · rw [map_eq_some_iff] at h
          rcases h with ⟨g1, h1, rfl⟩
          exact (((protect_keeps _ g).trans_grows (emitVmPushImm_grows _ _ _)).trans
            (vmStoreVar_follows h1)).trans (protect_keeps false g1).follows
      · unfold vmGenStored at h
        simp only [bind_eq_some_iff, map_eq_some_iff] at h
        rcases h with ⟨g1, h1, g2, h2, rfl⟩
        exact (((protect_keeps _ g).trans_grows (vmGenExpr_grows h1)).trans
          (vmStoreVar_follows h2)).trans (protect_keeps false g2).follows

theorem pushArgs_form (h : pushArgs env g = some g') :
    g'.args = [] ∧ (g.args ≠ [] → Grows g g') ∧ (g.args = [] → g' = { g with args := [] }) := by
  unfold pushArgs at h
  rw [map_eq_some_iff] at h
  rcases h with ⟨g1, h, rfl⟩
  have hstep : ∀ (es : List Expression) (g g1 : GenState), es.foldlM (fun g e =>
      (vmGenExpr env e g).bind fun g =>
        (intSizeOf env e.type).map fun size => { g with argsSize := g.argsSize + pad8 size }) g =
      some g1 → Keeps g g1 ∧ (es ≠ [] → Grows g g1) := by
    intro es
    induction es with
    | nil =>
      intro g g1 h
      simp only [foldlM_nil, Option.pure_def, some.injEq] at h
      exact ⟨h ▸ Keeps.of_eq rfl rfl rfl, fun h => absurd rfl h⟩
    | cons e es ih =>
      intro g g1 h
      simp only [foldlM_cons, bind_eq_bind, bind_eq_some_iff, map_eq_some_iff] at h
      rcases h with ⟨-, ⟨g2, h2, size, -, rfl⟩, h⟩
      have hsize : Keeps g2 { g2 with argsSize := g2.argsSize + pad8 size } :=
        Keeps.of_eq rfl rfl rfl
      have hgrow := ((vmGenExpr_grows h2).trans hsize.follows).trans (ih _ _ h).1.follows
      exact ⟨hgrow.keeps, fun _ => hgrow⟩
  refine ⟨rfl, ?_, ?_⟩
  · intro hne
    have hargs : Keeps g1 { g1 with args := [] } := Keeps.of_eq rfl rfl rfl
    exact ((hstep _ _ _ h).2 (by simpa using hne)).trans hargs.follows
  · intro hnil
    rw [hnil] at h
    simp only [reverse_nil, foldlM_nil, Option.pure_def, some.injEq] at h
    rw [h]

/-- A statement: code is left or an argument waits unless the statement is silent,
and then nothing changes but that waiting arguments are pushed. -/
theorem vmGenStatement_form {s : Statement} (h : vmGenStatement env s g = some g') :
    Keeps g g' ∧ (isSilent env s = false → g'.args ≠ [] ∨ Grows g g') ∧
      (isSilent env s = true → (g.args ≠ [] → Grows g g') ∧ (g.args = [] → g' = g)) := by
  unfold vmGenStatement at h
  split at h
  · rename_i hst
    rw [some.injEq] at h
    subst h
    refine ⟨Keeps.of_eq rfl rfl rfl, fun _ => Or.inl (by simp), ?_⟩
    intro hsilent
    simp [isSilent, hst] at hsilent
  · rename_i hparam
    rw [bind_eq_some_iff] at h
    rcases h with ⟨g1, hflush, h⟩
    have hflush' : Keeps g g1 ∧ (g.args ≠ [] → Grows g g1) ∧ (g.args = [] → g1 = g) := by
      by_cases hargs : g.args = []
      · rw [if_pos (by simp [hargs]), some.injEq] at hflush
        subst hflush
        exact ⟨Keeps.of_eq rfl rfl rfl, fun hne => absurd hargs hne, fun _ => rfl⟩
      · rw [if_neg (by simpa using hargs)] at hflush
        have hgrows := (pushArgs_form hflush).2.1 hargs
        exact ⟨hgrows.keeps, fun _ => hgrows, fun hnil => absurd hnil hargs⟩
    rcases hflush' with ⟨hkeeps, hgrows, hsame⟩
    have hquiet : isSilent env s = true → g' = g1 → Keeps g g' ∧
        (isSilent env s = false → g'.args ≠ [] ∨ Grows g g') ∧
        (isSilent env s = true → (g.args ≠ [] → Grows g g') ∧ (g.args = [] → g' = g)) := by
      intro htrue heq
      subst heq
      exact ⟨hkeeps, fun hfalse => by simp [htrue] at hfalse, fun _ => ⟨hgrows, hsame⟩⟩
    have hloud : isSilent env s = false → Grows g1 g' → Keeps g g' ∧
        (isSilent env s = false → g'.args ≠ [] ∨ Grows g g') ∧
        (isSilent env s = true → (g.args ≠ [] → Grows g g') ∧ (g.args = [] → g' = g)) := by
      intro hfalse hgrow
      have hall := hkeeps.trans_grows hgrow
      exact ⟨hall.keeps, fun _ => Or.inr hall, fun htrue => by simp [hfalse] at htrue⟩
    split at h
    · rename_i hst
      rcases vmGenAssign_form hst h with ⟨hgrow, heq⟩
      by_cases hs : isSilent env s = true
      · exact hquiet hs (heq hs)
      · have hs' : isSilent env s = false := by simpa using hs
        exact hloud hs' (hgrow hs')
    · rename_i hst
      rw [bind_eq_some_iff] at h
      rcases h with ⟨g2, h2, h3⟩
      exact hloud (by simp [isSilent, hst]) ((vmGenExpr_grows h2).trans (emitVmPop_follows h3))
    · rename_i hst
      simp only [bind_eq_some_iff] at h
      rcases h with ⟨id, -, g2, h2, h3⟩
      unfold emitVmAlloca at h3
      simp only [bind_eq_some_iff, map_eq_some_iff] at h3
      rcases h3 with ⟨sym, -, size, -, rfl⟩
      exact hloud (by simp [isSilent, hst])
        ((vmGenExpr_grows h2).trans (emitVmCode_follows rfl))
    · rename_i hassign hexpr hvla
      have hst : s.st = .vaStart := by
        cases hcase : s.st <;> simp_all
      rw [some.injEq] at h
      exact hquiet (by simp [isSilent, hst]) h.symm

/-- The statements of a block leave code behind the label of the block, unless all
of them are silent. -/
theorem vmGenStatements_form {code : List Statement} (hargs : g.args = [])
    (hform : BlockForm g base l []) (h : vmGenStatements env code g = some g') :
    g'.labels = g.labels ∧ g'.args = [] ∧ ∃ tail, BlockForm g' base l tail ∧
      (tail = [] ↔ ∀ s ∈ code, isSilent env s = true) := by
  unfold vmGenStatements at h
  rw [bind_eq_some_iff] at h
  rcases h with ⟨g1, hfold, h⟩
  -- Code is left or an argument waits once a statement has not been silent.
  have hstep : ∀ (code : List Statement) (g g1 : GenState) (tail : List VmCode),
      BlockForm g base l tail → code.foldlM (fun g s => vmGenStatement env s g) g = some g1 →
      g1.labels = g.labels ∧ ∃ tail', BlockForm g1 base l tail' ∧
        ((tail' = [] ∧ g1.args = []) ↔
          (tail = [] ∧ g.args = []) ∧ ∀ s ∈ code, isSilent env s = true) := by
    intro code
    induction code with
    | nil =>
      intro g g1 tail hform h
      simp only [foldlM_nil, Option.pure_def, some.injEq] at h
      subst h
      exact ⟨rfl, tail, hform, by simp⟩
    | cons s code ih =>
      intro g g1 tail hform h
      simp only [foldlM_cons, bind_eq_bind, bind_eq_some_iff] at h
      rcases h with ⟨g2, h2, h⟩
      rcases vmGenStatement_form h2 with ⟨hkeeps, hloud, hsilent⟩
      have hnext : ∃ tail2, BlockForm g2 base l tail2 ∧ ((tail2 = [] ∧ g2.args = []) ↔
          (tail = [] ∧ g.args = []) ∧ isSilent env s = true) := by
        cases hs : isSilent env s with
        | false =>
          rcases hloud hs with hargs | hgrow
          · rcases hkeeps.form base l tail hform with ⟨tail2, hform2, -⟩
            exact ⟨tail2, hform2, by simp [hargs]⟩
          · rcases hgrow.form base l tail hform with ⟨tail2, hform2, hne⟩
            exact ⟨tail2, hform2, by simp [hne]⟩
        | true =>
          by_cases hargs : g.args = []
          · have hg := (hsilent hs).2 hargs
            subst hg
            exact ⟨tail, hform, by simp⟩
          · rcases ((hsilent hs).1 hargs).form base l tail hform with ⟨tail2, hform2, hne⟩
            exact ⟨tail2, hform2, by simp [hne, hargs]⟩
      rcases hnext with ⟨tail2, hform2, hiff⟩
      rcases ih g2 g1 tail2 hform2 h with ⟨hlabels, tail', hform', hiff'⟩
      refine ⟨hlabels.trans hkeeps.labels, tail', hform', ?_⟩
      rw [hiff', hiff, forall_mem_cons, and_assoc]
  rcases hstep code g g1 [] hform hfold with ⟨hlabels, tail, hform1, hiff⟩
  simp only [hargs, and_self, true_and] at hiff
  by_cases hargs1 : g1.args = []
  · rw [if_pos (by simp [hargs1]), some.injEq] at h
    subst h
    refine ⟨hlabels, hargs1, tail, hform1, ?_⟩
    rw [← hiff]
    simp [hargs1]
  · rw [if_neg (by simpa using hargs1)] at h
    rcases pushArgs_form h with ⟨hargs', hgrow, -⟩
    have hgrow := hgrow hargs1
    rcases hgrow.form base l tail hform1 with ⟨tail', hform', hne⟩
    refine ⟨hgrow.labels.trans hlabels, hargs', tail', hform', ?_⟩
    rw [← hiff]
    simp [hargs1, hne]

end Kcs.Vm
