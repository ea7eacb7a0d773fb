import Kcs.Vm.Kept

/-!
# Elision of stores and loads

In a block in which temporaries are read once, code that takes stores back leaves
all other variables as the code without elision does, provided that no instruction
looks at bytes of a kept slot above those of its type.

Main results:

- Theorem {lit}`elision_refines`: blocks of such assignments leave the same
  variables, and values with the same low bytes on the stack.
- Theorem {lit}`successor_elision_wrong`: a truth value of a sum that is lost.
-/

namespace Kcs.Vm

open Option List Memory

variable {env : GenEnv} {L : Layout} {g g' p p' : GenState} {base code pcode : List VmCode}
  {c d : VmCode} {s s₀ t u u₀ w w' : State} {D D' : List (Nat × Nat)} {k k' : LoadContext}
  {v : Var} {e : Expression} {i : CInteger} {a n m x x' y y' z z' : Nat}

/-! ## Stores -/

/-- The instruction that stores a value of integer or pointer type. -/
def storeCode (env : GenEnv) (v : Var) (sym : Symbol) (size : Int) : VmCode :=
  if v.kind = .deref then
    { opcode := .depop
      type := storeOptype v
      d := .addr { vmAddress env v sym size with index := baseOf env sym } }
  else { opcode := .pop, type := storeOptype v, d := .addr (vmAddress env v sym size) }

/-- Address of the pointer through which a value is stored. -/
def pointerAddr (env : GenEnv) (L : Layout) (s : State) (v : Var) (sym : Symbol) : Nat :=
  varAddr L s { vmAddress env v sym 0 with index := baseOf env sym }

/-- Address at which a value is stored. -/
def storePlace (env : GenEnv) (L : Layout) (s : State) (v : Var) (sym : Symbol) : Nat :=
  if v.kind = .deref then
    ((s.mem.load (pointerAddr env L s v sym) 8 + toInt32 v.offset.toNat) % 2 ^ 64).toNat
  else varAddr L s (vmAddress env v sym 0)

theorem vmStoreVar_word (hword : wordOf v.type = some i) (hfield : v.isField = false)
    (h : vmStoreVar env v g = some g') :
    ∃ sym, v.symbol = some sym ∧ g' = emitVmCode (storeCode env v sym (byteSize i)) g := by
  unfold vmStoreVar at h
  cases hkind : v.kind with
  | immediate | address => simp [hkind] at h
  | direct =>
    simp only [hkind, emitVmStore, hfield, intSizeOf_wordOf hword, bind_eq_some_iff,
      Bool.false_eq_true, if_false, map_some, some.injEq] at h
    rcases h with ⟨sym, hsym, rfl⟩
    exact ⟨sym, hsym, by simp [storeCode, hkind]⟩
  | deref =>
    simp only [hkind, emitVmDerefStore, intSizeOf_wordOf hword, bind_eq_some_iff,
      map_some, some.injEq] at h
    rcases h with ⟨sym, hsym, rfl⟩
    exact ⟨sym, hsym, by simp [storeCode, hkind]⟩

theorem storeBytes_word (hword : wordOf v.type = some i) :
    storeBytes (storeOptype v) = some (byteSize i) := by
  have htype : storeOptype v = getVmOptype v.type := by simp [storeOptype, (wordOf_kinds hword).1]
  rw [htype]
  rcases wordOf_cases hword with ⟨hp, rfl⟩ | ⟨-, hop, -⟩
  · have hkind : v.type.typeOf = .pointer := by simpa [CType.isPointerType] using hp
    unfold getVmOptype
    rw [hkind]
    cases v.type.isUnsignedType <;> rfl
  · have hcharp : getVmOptype v.type ≠ .charp := by
      intro h
      rw [h] at hop
      cases hop
    rw [storeBytes, if_neg hcharp, hop, map_some]

/-- Store the low bytes of the slot on top and take it off the stack. -/
def State.popTo (L : Layout) (s : State) (a n : Nat) : State :=
  { s with mem := s.mem.store a n (s.top L), sp := s.sp - 8 }

theorem storeCode_runs (L : Layout) (w : State) (sym : Symbol) (hword : wordOf v.type = some i)
    (hnull : v.kind = .deref → nullPage ≤ w.mem.load (pointerAddr env L w v sym) 8) :
    execData L (storeCode env v sym (byteSize i)) w =
      some (w.popTo L (storePlace env L w v sym) (byteSize i)) := by
  have hbytes := storeBytes_word hword
  have htype : storeOptype v ≠ .none := by
    intro h
    rw [h] at hbytes
    cases hbytes
  by_cases hkind : v.kind = .deref
  · have hnull' := hnull hkind
    have hpointer : ¬ w.mem.load (pointerAddr env L w v sym) 8 < nullPage := by omega
    simp only [storeCode, hkind, if_true, execData, execDepop, hbytes, storePlace]
    exact if_neg hpointer
  · simp only [storeCode, hkind, if_false, execData, execPop, hbytes]
    simp only [storePlace, hkind, if_false]
    rfl

theorem Agree.store (h : Agree L D t u) (hw : Pushed L t w z) (hw' : Pushed L u w' z')
    (hlow : SameLow n z z') (a : Nat) :
    Agree L D (w.popTo L a n) (w'.popTo L a n) where
  sp := by
    have := h.sp
    simp only [State.popTo, hw.sp, hw'.sp]
    omega
  bp := (hw.bp.trans h.bp).trans hw'.bp.symm
  gp := (hw.gp.trans h.gp).trans hw'.gp.symm
  mem := by
    intro b hb hapart
    have hfree : (w'.popTo L a n).free L = u.free L := by
      simp only [State.popTo, State.free, hw'.sp]
      omega
    rw [hfree] at hb
    have hfree' : t.free L = u.free L := by simp only [State.free, h.sp]
    have hbyte : w.mem.store a n (w.top L) b = w'.mem.store a n (w'.top L) b := by
      rw [hw.top, hw'.top, ← store_mod, show z % 256 ^ n = z' % 256 ^ n from hlow, store_mod]
      by_cases hin : a ≤ b ∧ b < a + n
      · rw [store_inside hin.1 hin.2, store_inside hin.1 hin.2]
      · rw [store_outside (by omega), store_outside (by omega),
          hw.mem b (hfree' ▸ hb), hw'.mem b hb]
        exact h.mem b hb hapart
    exact hbyte

theorem realSize_of_storeBytes {type : VmOptype} (h : storeBytes type = some n) :
    realSize type = none := by
  cases type <;> first | rfl | cases h

theorem popOk_storeCode (hword : wordOf v.type = some i) (sym : Symbol) :
    PopOk (storeCode env v sym (byteSize i)) := by
  have hbytes := storeBytes_word hword
  intro hop htype
  unfold storeCode at hop htype ⊢
  split at hop
  · cases hop
  · rename_i hkind
    rw [if_neg hkind]
    refine ⟨_, rfl, ?_, ?_, ?_⟩
    · apply toInt32_congr
      have hwrap : toInt32 v.offset.toNat % 2 ^ 32 = (v.offset.toNat : Int) % 2 ^ 32 :=
        IntFormat.wrap_emod_width (f := CInteger.int.format) _
      change (baseOf env sym + (v.offset.toNat : Int)) % 2 ^ 32 =
        (baseOf env sym + toInt32 v.offset.toNat) % 2 ^ 32
      rw [Int.add_emod, ← hwrap, ← Int.add_emod]
    · intro m hm
      rw [hbytes, some.injEq] at hm
      rw [← hm]
      rfl
    · intro m hm
      have hnone : realSize (storeOptype v) = some m := hm
      rw [realSize_of_storeBytes hbytes] at hnone
      cases hnone

/-! ## Zeros -/

/-- The instruction that fills zeros. -/
def zeroCode (a : VmAddress) : VmCode := { opcode := .fzero, d := .addr a }

/-- Zeros that continue those of an instruction. -/
def joinsZero (c : VmCode) (a : VmAddress) : Bool :=
  c.opcode = .fzero && c.addr.index + c.addr.size = a.index

/-- An instruction that fills more zeros. -/
def grownZero (c : VmCode) (a : VmAddress) : VmCode :=
  { c with d := .addr { c.addr with size := c.addr.size + a.size } }

theorem emitVmFillZero_eq {front : List VmCode} (hmode : g.isGlobalMode = false)
    (hprog : g.prog = front ++ [c]) (h : emitVmFillZero env v g = some g') :
    ∃ a, (v.symbol.bind fun sym =>
        (intSizeOf env v.type).map fun size => vmAddress env v sym size) = some a ∧
      g' = if joinsZero c a then { g with prog := front ++ [grownZero c a] }
        else emitVmCode (zeroCode a) g := by
  simp only [emitVmFillZero, bind_eq_some_iff, map_eq_some_iff] at h
  rcases h with ⟨sym, hsym, size, hsize, rfl⟩
  have hcode : g.code = front ++ [c] := by rw [GenState.code_of_mode hmode, hprog]
  have hlast : g.last = some c := by
    rw [GenState.last, hcode]
    exact getLast?_concat
  refine ⟨vmAddress env v sym size, by simp [hsym, hsize], ?_⟩
  rw [hlast]
  by_cases hjoin : joinsZero c (vmAddress env v sym size) = true
  · have hfilter : (some c).filter (fun c => decide (c.opcode = .fzero) &&
        decide (c.addr.index + c.addr.size = (vmAddress env v sym size).index)) = some c := by
      rw [filter_some]
      exact if_pos hjoin
    simp only [hfilter, hjoin, if_true, GenState.setCode, hcode, dropLast_concat, hmode]
    rfl
  · have hfilter : (some c).filter (fun c => decide (c.opcode = .fzero) &&
        decide (c.addr.index + c.addr.size = (vmAddress env v sym size).index)) = none := by
      rw [filter_some]
      exact if_neg hjoin
    simp only [hfilter, hjoin, if_false, Bool.false_eq_true]
    rfl

theorem Agree.zero (h : Agree L D t u) (hop : c.opcode = .fzero) {a : VmAddress}
    (hd : c.d = .addr a) :
    ∃ t' u', execData L c t = some t' ∧ execData L c u = some u' ∧ Agree L D t' u' ∧
      t'.sp = t.sp ∧ t'.bp = t.bp ∧ t'.gp = t.gp := by
  have hexec : ∀ s, execData L c s = execFzero L c s := by
    intro s
    simp [execData, hop]
  rw [hexec, hexec]
  unfold execFzero
  rw [hd]
  simp only
  split
  · refine ⟨_, _, rfl, rfl, ⟨h.sp, h.bp, h.gp, ?_⟩, rfl, rfl, rfl⟩
    intro b hb hapart
    have hsame := h.mem b hb hapart
    rw [h.varAddr_eq]
    by_cases hin : varAddr L u a ≤ b ∧ b < varAddr L u a + a.size.toNat
    · exact (store_inside hin.1 hin.2).trans (store_inside hin.1 hin.2).symm
    · exact ((store_outside (by omega)).trans hsame).trans
        (store_outside (by omega)).symm
  · exact ⟨t, u, rfl, rfl, h, rfl, rfl, rfl⟩

/-! ## Blocks of assignments -/

section Blocks

variable (env : GenEnv) (L : Layout)

/-- The state of the generator in which the expression of an assignment is generated. -/
def guarded (v : Var) (g : GenState) : GenState :=
  { g with protectRemoveTempvar := isTemporaryVar v && v.kind = .deref }

/-- An assignment of an integer or a pointer, without bit-fields and calls. -/
structure WordAssign (st : Statement) : Prop where
  assign : st.st = .assign
  target : WordOperand st.t
  expr : WordExpr st.expr

/-- An assignment that may be generated with elision.

The operands may be loaded so, no instruction reads the bytes of a kept slot above those of its
type unless they extend the value, and a pointer through which the value is stored is not null, lies
outside the free part of the stack and is no temporary that has been read. -/
structure AssignOk (g : GenState) (s : State) (k : LoadContext) (u : State) (D : List (Nat × Nat))
    (v : Var) (e : Expression) : Prop where
  operands : OperandsOk env L g k u D e
  kept : KeptRight env L g s v e
  pointer : v.kind = .deref → ∀ sym, v.symbol = some sym →
    nullPage ≤ u.mem.load (pointerAddr env L u v sym) 8 ∧
      Clear L u (pointerAddr env L u v sym) 8 ∧
      ApartFrom (D ++ exprTemps env L u e) (pointerAddr env L u v sym) 8

end Blocks

/-- What the code of a block with elision and that without it have reached: both end with an
instruction, behind which the states agree but for temporaries that have been read. -/
structure Matched (L : Layout) (base : List VmCode) (s₀ : State) (D : List (Nat × Nat))
    (g p : GenState) (code pcode : List VmCode) (c d : VmCode) (s t u₀ u : State) : Prop where
  point : AtPoint L g (base ++ code) c s t
  run : execCode L code s₀ = some s
  bp : t.bp = s₀.bp
  gp : t.gp = s₀.gp
  sp : 8 ≤ t.sp
  args : g.args = []
  stored : c.opcode = .pop → (storeBytes c.type).isSome = true
  pmode : p.isGlobalMode = false
  pprog : p.prog = (base ++ pcode) ++ [d]
  prun : execCode L pcode s₀ = some u₀
  pstep : execData L d u₀ = some u
  labels : p.labels = g.labels
  image : p.globalImage = g.globalImage
  agree : Agree L D t u
  zero : c.opcode = .fzero ∨ d.opcode = .fzero →
    d = c ∧ Agree L D s u₀ ∧ s.sp = t.sp ∧ s.bp = t.bp ∧ s.gp = t.gp

section

variable (h : Matched L base s₀ D g p code pcode c d s t u₀ u)
include h

theorem Matched.context :
    p.context = g.context := by
  simp only [GenState.context, h.labels, h.image]

theorem Matched.run_concat :
    execCode L (code ++ [c]) s₀ = some t ∧ execCode L (pcode ++ [d]) s₀ = some u := by
  constructor
  · rw [execCode_append, h.run]
    simp [h.point.step]
  · rw [execCode_append, h.prun]
    simp [h.pstep]

/-- Filling zeros. -/
theorem Matched.fillZero (hgen : emitVmFillZero env v g = some g') (hplain : emitVmFillZero env v p = some p') :
    ∃ code' pcode' c' d' s' t' u₀' u',
      Matched L base s₀ D g' p' code' pcode' c' d' s' t' u₀' u' := by
  rcases emitVmFillZero_eq h.point.mode h.point.prog hgen with ⟨a, ha, rfl⟩
  rcases emitVmFillZero_eq h.pmode h.pprog hplain with ⟨a', ha', rfl⟩
  have hsame : a' = a := some.inj (ha'.symm.trans ha)
  subst hsame
  have hroom := h.point.room
  by_cases hjoin : joinsZero c a' = true
  · have hop : c.opcode = .fzero := by
      simp only [joinsZero, Bool.and_eq_true, decide_eq_true_eq] at hjoin
      exact hjoin.1
    rcases h.zero (Or.inl hop) with ⟨rfl, hagree, hsp, hbp, hgp⟩
    simp only [hjoin, if_true]
    rcases hagree.zero (c := grownZero d a') hop rfl with
      ⟨t', u', ht, hu, hagree', hsp', hbp', hgp'⟩
    refine ⟨code, pcode, grownZero d a', grownZero d a', s, t', u₀, u', ?_⟩
    exact
      { point :=
          { mode := h.point.mode
            prog := rfl
            step := ht
            pop := fun hpop => by simp [grownZero, hop] at hpop
            before := fun hpop => by simp [grownZero, hop] at hpop
            sp := h.point.sp
            room := by simpa only [State.free, hsp', hsp] using hroom }
        run := h.run
        bp := (hbp'.trans hbp).trans h.bp
        gp := (hgp'.trans hgp).trans h.gp
        sp := by
          rw [hsp', hsp]
          exact h.sp
        args := h.args
        stored := fun hpop => by simp [grownZero, hop] at hpop
        pmode := h.pmode
        pprog := rfl
        prun := h.prun
        pstep := hu
        labels := h.labels
        image := h.image
        agree := hagree'
        zero := fun _ => ⟨rfl, hagree, hsp'.symm, hbp'.symm, hgp'.symm⟩ }
  · have hjoin' : joinsZero d a' = false := by
      by_cases hop : d.opcode = .fzero
      · rcases h.zero (Or.inr hop) with ⟨rfl, -⟩
        simpa using hjoin
      · simp [joinsZero, hop]
    have hjoin : joinsZero c a' = false := by simpa using hjoin
    simp only [hjoin, hjoin', Bool.false_eq_true, if_false]
    rcases h.agree.zero (c := zeroCode a') rfl rfl with
      ⟨t', u', ht, hu, hagree, hsp, hbp, hgp⟩
    rcases h.run_concat with ⟨hrun, hprun⟩
    refine ⟨code ++ [c], pcode ++ [d], zeroCode a', zeroCode a', t, t', u, u', ?_⟩
    have hemits := Emits.code h.point.mode (zeroCode a')
    have hemits' := Emits.code h.pmode (zeroCode a')
    exact
      { point :=
          { mode := hemits.mode
            prog := by rw [hemits.prog, h.point.prog, append_assoc base]
            step := ht
            pop := fun hpop => by cases hpop
            before := fun hpop => by cases hpop
            sp := h.sp
            room := by simpa only [State.free, hsp] using hroom }
        run := hrun
        bp := hbp.trans h.bp
        gp := hgp.trans h.gp
        sp := by
          rw [hsp]
          exact h.sp
        args := (emitVmCode_args _ _).trans h.args
        stored := fun hpop => by cases hpop
        pmode := hemits'.mode
        pprog := by rw [hemits'.prog, h.pprog, append_assoc base]
        prun := hprun
        pstep := hu
        labels := by rw [hemits'.labels, hemits.labels, h.labels]
        image := by rw [hemits'.image, hemits.image, h.image]
        agree := hagree
        zero := fun _ => ⟨rfl, h.agree, hsp.symm, hbp.symm, hgp.symm⟩ }

end

theorem vmGenExpr_image (he : WordExpr e)
    (hstrings : loadsTwo e = true → exprSwap env g e = true →
      loadedString env e.l = [] ∨ loadedString env e.r = [])
    (h : vmGenExpr env e g = some g') : g'.globalImage = g.globalImage ++ exprStrings env e := by
  rw [vmGenExpr_eq env e g he.call, bind_eq_some_iff] at h
  rcases h with ⟨g₁, hload, h⟩
  rw [map_eq_some_iff] at h
  rcases h with ⟨ops, -, rfl⟩
  rw [emitCode_image, vmLoadOperands_image he hstrings hload]

theorem AtPoint.guarded (h : AtPoint L g base c s t) (v : Var) :
    AtPoint L (guarded v g) base c s t :=
  ⟨h.mode, h.prog, h.step, h.pop, h.before, h.sp, h.room⟩

theorem tempBytes_congr (hbp : t.bp = u.bp) (hgp : t.gp = u.gp) (v : Var) :
    tempBytes env L t v = tempBytes env L u v := by
  simp only [tempBytes, varAddr, hbp, hgp]

theorem exprTemps_congr (hbp : t.bp = u.bp) (hgp : t.gp = u.gp) (e : Expression) :
    exprTemps env L t e = exprTemps env L u e := by
  simp only [exprTemps, tempBytes_congr hbp hgp]

theorem tempBytes_firstOperand (g : GenState) :
    ∀ r ∈ tempBytes env L s (firstOperand env g e), r ∈ exprTemps env L s e := by
  intro r hr
  rw [firstOperand_eq] at hr
  unfold exprTemps
  cases htwo : loadsTwo e with
  | false =>
    simp only [htwo, Bool.false_and, Bool.false_eq_true, if_false] at hr
    exact mem_append_left _ hr
  | true =>
    split at hr
    · exact mem_append_right _ hr
    · exact mem_append_left _ hr

theorem Agree.storePlace_eq {sym : Symbol} (h : Agree L D t u) (hw : Pushed L t w z)
    (hpointer : v.kind = .deref → Clear L u (pointerAddr env L u v sym) 8 ∧
      ApartFrom D (pointerAddr env L u v sym) 8) :
    (v.kind = .deref → w.mem.load (pointerAddr env L w v sym) 8 =
      u.mem.load (pointerAddr env L u v sym) 8) ∧
      storePlace env L w v sym = storePlace env L u v sym := by
  have hvar : ∀ a, varAddr L w a = varAddr L u a := by
    intro a
    rw [← h.varAddr_eq]
    simp only [varAddr, hw.bp, hw.gp]
  have hload : v.kind = .deref → w.mem.load (pointerAddr env L w v sym) 8 =
      u.mem.load (pointerAddr env L u v sym) 8 := by
    intro hkind
    rcases hpointer hkind with ⟨hclear, hapart⟩
    have hfree : t.free L = u.free L := by simp only [State.free, h.sp]
    have hclear' : Clear L t (pointerAddr env L u v sym) 8 := by rwa [Clear, hfree]
    rw [pointerAddr, hvar, ← pointerAddr, hw.load hclear', h.load hclear hapart]
  refine ⟨hload, ?_⟩
  unfold storePlace
  split
  · rename_i hkind
    rw [hload hkind]
  · rw [hvar]

theorem Matched.below_agree (h : Matched L base s₀ D g p code pcode c d s t u₀ u)
    (he : WordExpr e) {g₁ : GenState} (hpoint : AtPoint L g₁ (base ++ code) c s t) :
    Agree L (D ++ exprTemps env L s₀ e) (secondState env L g₁ c s t (firstOperand env g₁ e)) u := by
  have hword : ∃ j, wordOf (firstOperand env g₁ e).type = some j := by
    rw [firstOperand_eq]
    split
    · rename_i htwo
      rw [Bool.and_eq_true] at htwo
      exact (he.right htwo.1).word
    · exact he.left.word
  rcases hword with ⟨j, hj⟩
  refine ((hpoint.secondState_agree env hj h.stored).trans h.agree).mono ?_
  intro r hr
  rcases mem_append.mp hr with hr | hr
  · rw [tempBytes_congr h.bp h.gp] at hr
    exact mem_append_right _ (tempBytes_firstOperand _ r hr)
  · exact mem_append_left _ hr

theorem Matched.exprs {g₁ p₁ : GenState}
    (h : Matched L base s₀ D g p code pcode c d s t u₀ u) (he : WordExpr e)
    (hok : AssignOk env L (guarded v g) s g.context u D v e)
    (hexpr : vmGenExpr env e (guarded v g) = some g₁) (hpexpr : pushExpr env e p = some p₁) :
    ∃ z z' code' w pcode' w' below, SameLow (valueBytes v e) z z' ∧ g₁.isGlobalMode = false ∧
      (∀ d, g₁.last = some d → d.opcode ≠ .pop ∧ d.opcode ≠ .jmp) ∧
      g₁.prog = (base ++ code) ++ code' ∧ execCode L code' s = some w ∧ Pushed L below w z ∧
      Emits p p₁ pcode' (exprStrings env e) ∧ execCode L pcode' u = some w' ∧ Pushed L u w' z' ∧
      Agree L (D ++ exprTemps env L s₀ e) below u := by
  have hpoint := h.point.guarded v
  have hroom := h.point.room
  rcases hok.operands.value with ⟨z', hz'⟩
  have hplain := hz'
  simp only [plainSlot, bind_eq_some_iff] at hz'
  rcases hz' with ⟨⟨x', y'⟩, hoperands, hoperator⟩
  rcases hok.operands.slots hpoint he h.stored h.agree hoperands with ⟨x, y, hslots⟩
  rcases hslots.exprSlot he hok.kept hoperator with ⟨z, hz, hlow⟩
  rcases vmGenExpr_elided hpoint he hslots hz hexpr with
    ⟨⟨hmode, hjmp, code', w, hprog, hrun, hpushed⟩, hlast⟩
  have hcontext := h.context
  have hfree : u.free L = t.free L := by simp only [State.free, h.agree.sp]
  rcases pushExpr_leaves h.pmode he (by omega) (hcontext ▸ hok.operands.clear)
    (hcontext ▸ hplain) hpexpr with ⟨pcode', w', hemits, hrun', hpushed'⟩
  refine ⟨z, z', code', w, pcode', w', _, hlow, hmode, fun d hd => ⟨hlast d hd, hjmp d hd⟩, hprog,
    hrun, hpushed, hemits, hrun', hpushed', ?_⟩
  exact h.below_agree he hpoint

/-- Storing a value. -/
theorem Matched.store (h : Matched L base s₀ D g p code pcode c d s t u₀ u) (hv : WordOperand v)
    (he : WordExpr e) (hok : AssignOk env L (guarded v g) s g.context u D v e)
    (hgen : vmGenStored env v e g = some g')
    (hplain : (pushExpr env e p).bind (vmStoreVar env v) = some p') :
    ∃ code' pcode' c' d' s' t' u₀' u',
      Matched L base s₀ (D ++ exprTemps env L s₀ e) g' p' code' pcode' c' d' s' t' u₀' u' := by
  have hroom := h.point.room
  have hbpu : u.bp = s₀.bp := h.agree.bp.symm.trans h.bp
  have hgpu : u.gp = s₀.gp := h.agree.gp.symm.trans h.gp
  rcases hv with ⟨⟨i, hi⟩, hfield⟩
  simp only [vmGenStored, bind_eq_some_iff, map_eq_some_iff] at hgen
  rcases hgen with ⟨g₁, hexpr, g₂, hstore, rfl⟩
  rw [bind_eq_some_iff] at hplain
  rcases hplain with ⟨p₁, hpexpr, hpstore⟩
  rcases h.exprs he hok hexpr hpexpr with
    ⟨z, z', code', w, pcode', w', below, hlow, hmode, hlast, hprog, hrun, hpushed, hemits, hrun',
      hpushed', hagree⟩
  have hbelow := hagree.sp
  rcases vmStoreVar_word hi hfield hstore with ⟨sym, hsym, rfl⟩
  rcases vmStoreVar_word hi hfield hpstore with ⟨sym', hsym', rfl⟩
  have hsame : sym' = sym := some.inj (hsym'.symm.trans hsym)
  subst hsame
  have hpointer : v.kind = .deref → Clear L u (pointerAddr env L u v sym') 8 ∧
      ApartFrom (D ++ exprTemps env L s₀ e) (pointerAddr env L u v sym') 8 := by
    intro hkind
    rcases hok.pointer hkind sym' hsym with ⟨-, hclear, hapart⟩
    rw [exprTemps_congr hbpu hgpu] at hapart
    exact ⟨hclear, hapart⟩
  rcases hagree.storePlace_eq hpushed hpointer with ⟨hload, hplace⟩
  rcases (Agree.refl L (D ++ exprTemps env L s₀ e) u).storePlace_eq hpushed' hpointer with
    ⟨hload', hplace'⟩
  have hexec := storeCode_runs L w sym' hi fun hkind => by
    rw [hload hkind]
    exact (hok.pointer hkind sym' hsym).1
  have hexec' := storeCode_runs L w' sym' hi fun hkind => by
    rw [hload' hkind]
    exact (hok.pointer hkind sym' hsym).1
  have hbytes : byteSize i ≤ valueBytes v e := by
    simp only [valueBytes, wordBytes, hi, map_some, getD_some]
    exact le_max_left _ _
  have hstored := hagree.store hpushed hpushed' (hlow.mono hbytes) (storePlace env L u v sym')
  rw [hplace] at hexec
  rw [hplace'] at hexec'
  rcases h.run_concat with ⟨-, hprun⟩
  have hopcode : (storeCode env v sym' (byteSize i)).opcode ≠ .fzero := by
    unfold storeCode
    split <;> simp
  have hemits₂ := Emits.code hmode (storeCode env v sym' (byteSize i))
  have hemits₂' := Emits.code hemits.mode (storeCode env v sym' (byteSize i))
  refine ⟨code ++ code', (pcode ++ [d]) ++ pcode', storeCode env v sym' (byteSize i),
    storeCode env v sym' (byteSize i), w, w.popTo L (storePlace env L u v sym') (byteSize i), w',
    w'.popTo L (storePlace env L u v sym') (byteSize i), ?_⟩
  exact
    { point :=
        { mode := hemits₂.mode
          prog := by
            have := hemits₂.prog
            rw [hprog, append_assoc base] at this
            exact this
          step := hexec
          pop := popOk_storeCode hi sym'
          before := by
            intro _ d' hd'
            have hg₁ : g₁.last = some d' := by
              rw [GenState.last, GenState.code_of_mode hmode, hprog, append_assoc]
              exact hd'
            exact hlast d' hg₁
          sp := by
            rw [hpushed.sp]
            omega
          room := by
            have hsp := h.agree.sp
            simp only [State.popTo, State.free, hpushed.sp] at hroom ⊢
            omega }
      run := by
        rw [execCode_append, h.run]
        exact hrun
      bp := by
        have := hagree.bp
        exact (hpushed.bp.trans this).trans hbpu
      gp := by
        have := hagree.gp
        exact (hpushed.gp.trans this).trans hgpu
      sp := by
        have hsp := h.sp
        have := h.agree.sp
        simp only [State.popTo, hpushed.sp]
        omega
      args := by
        have hargs : (emitVmCode (storeCode env v sym' (byteSize i)) g₁).args = [] := by
          rw [emitVmCode_args, vmGenExpr_args hexpr]
          exact h.args
        exact hargs
      stored := fun hpop => by
        have hbytes' : storeBytes (storeCode env v sym' (byteSize i)).type = some (byteSize i) := by
          rw [← storeBytes_word hi]
          unfold storeCode
          split <;> rfl
        rw [hbytes']
        rfl
      pmode := hemits₂'.mode
      pprog := by
        rw [hemits₂'.prog, hemits.prog, h.pprog]
        simp only [append_assoc]
      prun := by
        rw [execCode_append, hprun]
        exact hrun'
      pstep := hexec'
      labels := by
        rw [hemits₂'.labels, hemits.labels, h.labels]
        have := hemits₂.labels
        rw [(vmGenExpr_grows hexpr).labels] at this
        exact this.symm
      image := by
        rw [hemits₂'.image, hemits.image, h.image, append_nil]
        have := hemits₂.image
        rw [vmGenExpr_image he hok.operands.strings hexpr, append_nil] at this
        exact this.symm
      agree := hstored
      zero := fun hzero => by
        rcases hzero with hzero | hzero <;> exact absurd hzero hopcode }

/-! ## Runs of a block -/

section Run

variable (env : GenEnv) (L : Layout)

/-- The code behind given code. -/
def behind (base : List VmCode) (g : GenState) : List VmCode := g.prog.drop base.length

/-- The start of a block: the program ends with its label, and the machine has room. -/
structure BlockStart (g : GenState) (base : List VmCode) (l : VmCode) (s : State) : Prop where
  mode : g.isGlobalMode = false
  prog : g.prog = base ++ [l]
  label : l.opcode = .label
  args : g.args = []
  sp : 8 ≤ s.sp
  room : s.free L + 40 ≤ L.limit

/-- An assignment behind others may be generated with elision, in the states that the code of the
others reaches. -/
def StepOk (base : List VmCode) (g₀ : GenState) (s₀ : State) (pre : List Statement)
    (st : Statement) : Prop :=
  fillsZero st.t st.expr = false →
    ∀ g p s u, vmGenStatements env pre g₀ = some g → pushAssigns env pre g₀ = some p →
      execCode L (behind base g).dropLast s₀ = some s → execCode L (behind base p) s₀ = some u →
      AssignOk env L (guarded st.t g) s g.context u (readTemps env L s₀ pre) st.t st.expr

/-- Behind the same statements the code of an expression with elision leaves the same values as
that without: the same low bytes of the operands, whichever has been loaded first, and of the
result. -/
structure ValuesAgree (base : List VmCode) (s₀ : State) (g p : GenState) (v : Var)
    (e : Expression) : Prop where
  operands : ∀ g₁ p₁, vmLoadOperands env e (guarded v g) = some g₁ →
    pushOperands env e p = some p₁ →
    ∃ w w', execCode L (behind base g₁) s₀ = some w ∧ execCode L (behind base p₁) s₀ = some w' ∧
      w.sp = w'.sp ∧
      SameLow (wordBytes e.l.type) (leftSlot L (exprSwap env (guarded v g) e) e w)
        (leftSlot L false e w') ∧
      (loadsTwo e = true →
        SameLow (wordBytes e.r.type) (rightSlot L (exprSwap env (guarded v g) e) w)
          (rightSlot L false w'))
  value : ∀ g₁ p₁, vmGenExpr env e (guarded v g) = some g₁ → pushExpr env e p = some p₁ →
    ∃ w w', execCode L (behind base g₁) s₀ = some w ∧ execCode L (behind base p₁) s₀ = some w' ∧
      w.sp = w'.sp ∧ SameLow (wordBytes e.type) (w.top L) (w'.top L)

/-- The code of a block with elision refines that without: it leaves the same bytes everywhere but
in the free part of the stack and in the temporaries that are read, and the same values on the
stack on the way. -/
structure Refines (base : List VmCode) (block : List Statement) (g₀ : GenState) (s₀ : State) :
    Prop where
  memory : ∀ g p, vmGenStatements env block g₀ = some g → pushAssigns env block g₀ = some p →
    ∃ t u, execCode L (behind base g) s₀ = some t ∧ execCode L (behind base p) s₀ = some u ∧
      t.sp = u.sp ∧ ∀ a n, Clear L u a n → ApartFrom (readTemps env L s₀ block) a n →
        t.mem.load a n = u.mem.load a n
  values : ∀ pre st post, block = pre ++ st :: post → fillsZero st.t st.expr = false →
    ∀ g p, vmGenStatements env pre g₀ = some g → pushAssigns env pre g₀ = some p →
      ValuesAgree env L base s₀ g p st.t st.expr

end Run

theorem behind_append (h : g.prog = base ++ code) : behind base g = code := by
  rw [behind, h, drop_left]

/-- The values on the stack. -/
theorem Matched.values (h : Matched L base s₀ D g p code pcode c d s t u₀ u) (he : WordExpr e)
    (hok : AssignOk env L (guarded v g) s g.context u D v e) :
    ValuesAgree env L base s₀ g p v e where
  operands := by
    intro g₁ p₁ hload hpload
    have hpoint := h.point.guarded v
    have hroom := h.point.room
    have hcontext := h.context
    have hfree : u.free L = t.free L := by simp only [State.free, h.agree.sp]
    rcases hok.operands.value with ⟨z', hz'⟩
    simp only [plainSlot, bind_eq_some_iff] at hz'
    rcases hz' with ⟨⟨x', y'⟩, hoperands, -⟩
    rcases hok.operands.slots hpoint he h.stored h.agree hoperands with ⟨x, y, hslots⟩
    rcases vmLoadOperands_runs hpoint he hslots hload with ⟨-, -, code', w, hprog, hrun, hpushed⟩
    rcases pushOperands_pushed h.pmode he (by omega) (hcontext ▸ hok.operands.clear)
      (hcontext ▸ hoperands) hpload with ⟨pcode', w', hemits, hrun', hpushed'⟩
    rcases hpushed.slots with ⟨hsp, hleft, hright⟩
    rcases hpushed'.loads.slots with ⟨hsp', hleft', hright'⟩
    have hbelow : (secondState env L (guarded v g) c s t _).sp = u.sp :=
      (h.below_agree he hpoint).sp
    refine ⟨w, w', ?_, ?_, by omega, ?_, fun htwo => ?_⟩
    · rw [behind_append (hprog.trans (append_assoc _ _ _)), execCode_append, h.run]
      exact hrun
    · have hpprog : p₁.prog = base ++ ((pcode ++ [d]) ++ pcode') := by
        rw [hemits.prog, h.pprog]
        simp only [append_assoc]
      rw [behind_append hpprog, execCode_append, h.run_concat.2]
      exact hrun'
    · rw [hleft, hleft']
      exact hslots.left.2.2
    · rw [hright htwo, hright' htwo]
      exact (hslots.right htwo).2.2
  value := by
    intro g₁ p₁ hexpr hpexpr
    rcases h.exprs he hok hexpr hpexpr with
      ⟨z, z', code', w, pcode', w', below, hlow, -, -, hprog, hrun, hpushed, hemits, hrun',
        hpushed', hagree⟩
    refine ⟨w, w', ?_, ?_, ?_, ?_⟩
    · rw [behind_append (hprog.trans (append_assoc _ _ _)), execCode_append, h.run]
      exact hrun
    · have hpprog : p₁.prog = base ++ ((pcode ++ [d]) ++ pcode') := by
        rw [hemits.prog, h.pprog]
        simp only [append_assoc]
      rw [behind_append hpprog, execCode_append, h.run_concat.2]
      exact hrun'
    · rw [hpushed.sp, hpushed'.sp, hagree.sp]
    · rw [hpushed.top, hpushed'.top]
      exact hlow.mono (le_max_right _ _)

theorem BlockStart.matched {l : VmCode} (h : BlockStart L g base l s₀) :
    Matched L base s₀ [] g g [] [] l l s₀ s₀ s₀ s₀ := by
  have hpop : l.opcode ≠ .pop := by simp [h.label]
  have hstep : execData L l s₀ = some s₀ := by simp [execData, h.label]
  exact
    { point :=
        { mode := h.mode
          prog := by rw [h.prog, append_nil]
          step := hstep
          pop := fun hop => absurd hop hpop
          before := fun hop => absurd hop hpop
          sp := h.sp
          room := h.room }
      run := rfl
      bp := rfl
      gp := rfl
      sp := h.sp
      args := h.args
      stored := fun hop => absurd hop hpop
      pmode := h.mode
      pprog := by rw [h.prog, append_nil]
      prun := rfl
      pstep := hstep
      labels := rfl
      image := rfl
      agree := Agree.refl _ _ _
      zero := fun hzero => by simp [h.label] at hzero }

theorem exprTemps_of_fillsZero (h : fillsZero v e = true) : exprTemps env L s e = [] := by
  simp only [fillsZero, isConstantZero, isConstantImm, Bool.and_eq_true, decide_eq_true_eq] at h
  rcases h with ⟨⟨-, ⟨⟨hop, hkind⟩, -⟩, -⟩, -⟩
  simp [exprTemps, tempBytes, loadsTwo, hop, hkind, OpType.binaryOp]

theorem vmGenStatement_word {st : Statement} (hst : WordAssign st) (hargs : g.args = []) :
    vmGenStatement env st g =
      if fillsZero st.t st.expr then emitVmFillZero env st.t g
      else vmGenStored env st.t st.expr g := by
  rcases hst.target.word with ⟨i, hi⟩
  have harray : st.t.type.isArray = false := by
    rcases wordOf_cases hi with ⟨hp, -⟩ | ⟨-, -, -, hint, -⟩
    · have hkind : st.t.type.typeOf = .pointer := by simpa [CType.isPointerType] using hp
      simp [CType.isArray, hkind]
    · unfold CType.isInteger at hint
      unfold CType.isArray
      cases hkind : st.t.type.typeOf <;> rw [hkind] at hint <;>
        first | rfl | exact absurd hint (by decide)
  simp only [vmGenStatement, hst.assign, hargs, isEmpty_nil, if_true, bind_some,
    vmGenAssign, harray, hst.target.plain, Bool.false_and, Bool.false_eq_true, if_false]
  simp only [fillsZero, hst.target.plain]

/-- Every block of assignments that may be generated with elision keeps the states matched. -/
theorem matched_run {l : VmCode} (hstart : BlockStart L g base l s₀) (block : List Statement)
    (hwords : ∀ st ∈ block, WordAssign st)
    (hok : ∀ pre st post, block = pre ++ st :: post → StepOk env L base g s₀ pre st) :
    ∀ g' p', vmGenStatements env block g = some g' → pushAssigns env block g = some p' →
      ∃ code pcode c d s t u₀ u,
        Matched L base s₀ (readTemps env L s₀ block) g' p' code pcode c d s t u₀ u := by
  -- The fold of the statements never leaves arguments that wait.
  have hfold : ∀ g' p', block.foldlM (fun g st => vmGenStatement env st g) g = some g' →
      pushAssigns env block g = some p' → ∃ code pcode c d s t u₀ u,
        Matched L base s₀ (readTemps env L s₀ block) g' p' code pcode c d s t u₀ u := by
    induction block using List.reverseRecOn with
    | nil =>
      intro g' p' hgen hplain
      simp only [foldlM_nil, Option.pure_def, some.injEq, pushAssigns] at hgen hplain
      subst hgen hplain
      exact ⟨_, _, _, _, _, _, _, _, hstart.matched⟩
    | append_singleton block st ih =>
      intro g' p' hgen hplain
      simp only [pushAssigns, foldlM_append, bind_eq_bind, bind_eq_some_iff,
        foldlM_cons, foldlM_nil, Option.pure_def] at hgen hplain
      rcases hgen with ⟨g₁, hgen₁, g₂, hgen, hg⟩
      rcases hplain with ⟨p₁, hplain₁, p₂, hplain, hp⟩
      cases hg
      cases hp
      have hst := hwords st (by simp)
      have hprefix : ∀ pre st' post, block = pre ++ st' :: post →
          StepOk env L base g s₀ pre st' := by
        intro pre st' post hblock
        exact hok pre st' (post ++ [st]) (by simp [hblock])
      rcases ih (fun st' hst' => hwords st' (by simp [hst'])) hprefix g₁ p₁ hgen₁ hplain₁ with
        ⟨code, pcode, c, d, s, t, u₀, u, hmatched⟩
      rw [vmGenStatement_word hst hmatched.args] at hgen
      have htemps : readTemps env L s₀ (block ++ [st]) =
          readTemps env L s₀ block ++ exprTemps env L s₀ st.expr := by
        simp [readTemps]
      rw [htemps]
      cases hzero : fillsZero st.t st.expr with
      | true =>
        rw [exprTemps_of_fillsZero hzero, append_nil]
        simp only [hzero, if_true, pushAssign] at hgen hplain
        exact hmatched.fillZero hgen hplain
      | false =>
        simp only [hzero, Bool.false_eq_true, if_false, pushAssign] at hgen hplain
        have hgen₁' : vmGenStatements env block g = some g₁ := by
          simp [vmGenStatements, hgen₁, hmatched.args]
        have hrun : execCode L (behind base g₁).dropLast s₀ = some s := by
          rw [behind_append (hmatched.point.prog.trans (append_assoc _ _ _)), dropLast_concat]
          exact hmatched.run
        have hprun : execCode L (behind base p₁) s₀ = some u := by
          rw [behind_append (hmatched.pprog.trans (append_assoc _ _ _))]
          exact hmatched.run_concat.2
        have hassign := hok block st [] rfl hzero g₁ p₁ s u hgen₁' hplain₁ hrun hprun
        exact hmatched.store hst.target hst.expr hassign hgen hplain
  intro g' p' hgen hplain
  simp only [vmGenStatements, bind_eq_some_iff] at hgen
  rcases hgen with ⟨g₁, hgen₁, hgen⟩
  rcases hfold g₁ p' hgen₁ hplain with ⟨code, pcode, c, d, s, t, u₀, u, hmatched⟩
  simp only [hmatched.args, isEmpty_nil, if_true, some.injEq] at hgen
  subst hgen
  exact ⟨code, pcode, c, d, s, t, u₀, u, hmatched⟩

/-- Blocks of assignments in which no kept slot is read above its type: elision leaves the same
variables and the same values on the stack. -/
theorem elision_refines (env : GenEnv) (L : Layout) (base : List VmCode) (l : VmCode)
    (block : List Statement) (g : GenState) (s : State) (hstart : BlockStart L g base l s)
    (hwords : ∀ st ∈ block, WordAssign st)
    (hok : ∀ pre st post, block = pre ++ st :: post → StepOk env L base g s pre st) :
    Refines env L base block g s where
  memory := by
    intro g' p' hgen hplain
    rcases matched_run hstart block hwords hok g' p' hgen hplain with
      ⟨code, pcode, c, d, s', t, u₀, u, h⟩
    rcases h.run_concat with ⟨hrun, hprun⟩
    refine ⟨t, u, ?_, ?_, h.agree.sp, fun a n hclear hapart => h.agree.load hclear hapart⟩
    · rwa [behind_append (h.point.prog.trans (append_assoc _ _ _))]
    · rwa [behind_append (h.pprog.trans (append_assoc _ _ _))]
  values := by
    intro pre st post hblock hzero g' p' hgen hplain
    have hpre : ∀ pre' st' post', pre = pre' ++ st' :: post' →
        StepOk env L base g s pre' st' := by
      intro pre' st' post' hsplit
      exact hok pre' st' (post' ++ st :: post) (by simp [hblock, hsplit])
    have hwords' : ∀ st' ∈ pre, WordAssign st' :=
      fun st' hst' => hwords st' (by simp [hblock, hst'])
    rcases matched_run hstart pre hwords' hpre g' p' hgen hplain with
      ⟨code, pcode, c, d, s', t, u₀, u, h⟩
    have hrun : execCode L (behind base g').dropLast s = some s' := by
      rw [behind_append (h.point.prog.trans (append_assoc _ _ _)), dropLast_concat]
      exact h.run
    have hprun : execCode L (behind base p') s = some u := by
      rw [behind_append (h.pprog.trans (append_assoc _ _ _))]
      exact h.run_concat.2
    have hassign := hok pre st post hblock hzero g' p' s' u hgen hplain hrun hprun
    exact h.values (hwords st (by simp [hblock])).expr hassign

/-! ## A block that loses a truth value -/

/-- A compiler temporary. -/
def sampleTemp : Var where
  kind := .direct
  type := basicTypeInt
  symbol := some { id := 2, name := ".t1", type := basicTypeInt }

/-- `.t1 = x + 1` -/
def tempSuccessor : Statement where
  st := .assign
  t := sampleTemp
  expr := intSuccessor

/-- `y = .t1 * x` -/
def productOfTemp : Statement where
  st := .assign
  t := sampleVar 1 basicTypeInt
  expr := { op := .mul, type := basicTypeInt, l := sampleTemp, r := sampleVar 0 basicTypeInt }

/-- `b = (_Bool) .t1` -/
def truthOfTemp : Statement where
  st := .assign
  t := sampleVar 1 basicTypeBool
  expr := { op := .cast, type := basicTypeBool, l := sampleTemp }

theorem sample_blockStart (mem : Memory) :
    BlockStart sampleLayout sampleGen [] { opcode := .label, type := .label, d := .lindex 0 }
      (sampleState mem) where
  mode := rfl
  prog := rfl
  label := rfl
  args := rfl
  sp := by simp [sampleState]
  room := by simp [sampleState, sampleLayout, State.free]

theorem tempSuccessor_word : WordAssign tempSuccessor where
  assign := rfl
  target := ⟨⟨.int, rfl⟩, rfl⟩
  expr := ⟨by decide, by decide, ⟨.int, rfl⟩, ⟨⟨.int, rfl⟩, rfl⟩, fun h => absurd h (by decide)⟩

theorem productOfTemp_word : WordAssign productOfTemp where
  assign := rfl
  target := ⟨⟨.int, rfl⟩, rfl⟩
  expr := ⟨by decide, by decide, ⟨.int, rfl⟩, ⟨⟨.int, rfl⟩, rfl⟩, fun _ => ⟨⟨.int, rfl⟩, rfl⟩⟩

theorem truthOfTemp_word : WordAssign truthOfTemp where
  assign := rfl
  target := ⟨⟨_, rfl⟩, rfl⟩
  expr := ⟨by decide, by decide, ⟨_, rfl⟩, ⟨⟨.int, rfl⟩, rfl⟩, fun h => absurd h (by decide)⟩

/-- `y = (x + 1) * x` is the same with elision for `x = 6`. -/
theorem elision_refines_product :
    Refines sampleEnv sampleLayout [] [tempSuccessor, productOfTemp] sampleGen
      (sampleState (longMemory 6)) := by
  apply elision_refines sampleEnv sampleLayout []
    { opcode := .label, type := .label, d := .lindex 0 } [tempSuccessor, productOfTemp] sampleGen
    (sampleState (longMemory 6)) (sample_blockStart (longMemory 6))
  · intro st hst
    rw [mem_cons, mem_singleton] at hst
    rcases hst with rfl | rfl
    · exact tempSuccessor_word
    · exact productOfTemp_word
  · intro pre st post hblock _ g p s u hgen hplain hrun hprun
    rcases pre with - | ⟨st₁, - | ⟨st₂, - | ⟨st₃, pre⟩⟩⟩
    · simp only [nil_append, List.cons.injEq] at hblock
      rcases hblock with ⟨rfl, -⟩
      cases hgen.symm.trans rfl
      cases hplain.symm.trans rfl
      cases hrun.symm.trans rfl
      cases hprun.symm.trans rfl
      exact
        { operands :=
            { value := ⟨7, rfl⟩
              clear := by decide
              apart := by decide
              once := fun h => absurd h (by decide)
              strings := fun h => absurd h (by decide) }
          kept := fun i h => absurd h (by decide)
          pointer := fun h => absurd h (by decide) }
    · simp only [cons_append, nil_append, List.cons.injEq] at hblock
      rcases hblock with ⟨rfl, rfl, -⟩
      cases hgen.symm.trans rfl
      cases hplain.symm.trans rfl
      cases hrun.symm.trans rfl
      cases hprun.symm.trans rfl
      -- The sum stays on the stack; a product reads four bytes of it.
      exact
        { operands :=
            { value := ⟨42, rfl⟩
              clear := by decide
              apart := by decide
              once := by decide
              strings := fun _ h => absurd h (by decide) }
          kept := by
            intro i _ hi
            cases hi
            exact Or.inl (by decide)
          pointer := fun h => absurd h (by decide) }
    · simp at hblock
    · simp at hblock

/-- `b = (_Bool) (x + 1)` is lost for `x = -1`: the increment leaves the upper half of the slot,
so that the code with elision stores one, and that without elision zero. -/
theorem successor_elision_wrong :
    BlockStart sampleLayout sampleGen [] { opcode := .label, type := .label, d := .lindex 0 }
        (sampleState (longMemory 4294967295)) ∧
      (∀ st ∈ [tempSuccessor, truthOfTemp], WordAssign st) ∧
      ¬ Refines sampleEnv sampleLayout [] [tempSuccessor, truthOfTemp] sampleGen
        (sampleState (longMemory 4294967295)) := by
  refine ⟨sample_blockStart _, ?_, ?_⟩
  · intro st hst
    rw [mem_cons, mem_singleton] at hst
    rcases hst with rfl | rfl
    · exact tempSuccessor_word
    · exact truthOfTemp_word
  · intro hrefines
    rcases hrefines.memory _ _ rfl rfl with ⟨t, u, ht, hu, -, hload⟩
    cases ht.symm.trans rfl
    cases hu.symm.trans rfl
    have hsame := hload 4168 1 (Or.inl (by decide)) (by decide)
    exact absurd hsame (by decide)

end Kcs.Vm
