import Kcs.Vm.Compare

/-!
# Branches on the virtual machine

`VM_JNZ` looks at all 64 bits of the slot on top, while several instructions
define only the low bytes of a slot: conversions write the bytes of their target,
`VM_INC` and `VM_DEC` write four bytes, and a load that takes back a store leaves
whatever was above the stored bytes.

Main results:

- Theorem {lit}`vmGenExpr_runs`: the code leaves that slot.
- Theorem {lit}`branch_exact_iff`: exactly when a branch takes the right edge.
-/

namespace Kcs.Vm

open List IntFormat
open Option hiding or_self

/-! ## Slots of expressions -/

/-- The slot that `VM_CAST` leaves. -/
def castSlot (src dst : CType) (x : Nat) : Nat :=
  match castSource src with
  | none => x
  | some c =>
    match dst.typeOf with
    | .bool => replaceLow x 1 (if x = 0 then 0 else 1)
    | .char => replaceLow x 1 (toSlot (slotInt c x))
    | .short => replaceLow x 2 (toSlot (slotInt c x))
    | .int => replaceLow x 4 (toSlot (slotInt c x))
    | .long => replaceLow x 8 (toSlot (slotInt c x))
    | _ => x

/-- The slot that a number of `VM_INC` or `VM_DEC` leave. -/
def incdecSlot (x : Nat) (n : Int) : Nat := x / 2 ^ 32 * 2 ^ 32 + ((x + n) % 2 ^ 32).toNat

/-- The slot of a unary operator. -/
def unarySlot (op : CInteger.UnaryOp) (type : VmOptype) (x : Nat) : Option Nat :=
  (optypeInteger type).map fun k => toSlot (CInteger.unary op k.promote (slotInt k x))

/-- The slot of a binary operator. -/
def binarySlot (o : CInteger.BinaryOp) (type : VmOptype) (x y : Nat) : Option Nat :=
  (optypeInteger type).bind fun k =>
    (CInteger.binary o k.promote (slotInt k x)
      (if o.isShift then shiftCount k y else slotInt k y)).map toSlot

/-- The operand type of the instruction for a binary operator. -/
def exprOptype (e : Expression) : VmOptype :=
  match e.op with
  | .eq | .ne => equalityOptype e
  | .ge | .gt => getVmOptype e.l.type
  | _ => getVmOptype e.type

/-- The sum or difference that is computed by `VM_INC` or `VM_DEC`: the number of
steps up. -/
def incdecSteps (e : Expression) : Option Int :=
  if isIncdecCount e.r then
    match e.op with
    | .add => some e.r.imm.i
    | .sub => some (-e.r.imm.i)
    | _ => none
  else none

section Slots

variable (env : GenEnv) (L : Layout)

/-- Whether the operands of an expression are loaded in the other order. -/
def exprSwap (g : GenState) (e : Expression) : Bool :=
  match e.op with
  | .sub | .div | .mod | .shl | .shr => false
  | _ => isSwapAvailable env e.r g

/-- The operand that is loaded first. -/
def firstOperand (g : GenState) (e : Expression) : Var :=
  if e.op.binaryOp.isSome && (incdecSteps e).isNone && exprSwap env g e then e.r else e.l

/-- The call instruction. -/
def callCode (v : Var) (sym : Symbol) (size : Int) : VmCode where
  opcode := .call
  type := if v.kind = .address then .funcname else .addr
  d := .addr (vmAddress env v sym size)

/-- The slot of the result of a call. -/
def callSlot (g : GenState) (t : State) (e : Expression) : Option Nat :=
  e.l.symbol.bind fun sym =>
    if env.symName sym = "setjmp" ∨ env.symName sym = "longjmp" then none
    else
      (intSizeOf env e.l.type).bind fun size =>
        (L.call (callCode env e.l sym size) t).bind fun u =>
          if u.retsize = 8 ∧ g.argsSize.toNat + 8 ≤ u.sp then some (u.top L) else none

/-- The slot that the code of an expression leaves on the stack. -/
def exprSlot (g : GenState) (c : VmCode) (s t : State) (e : Expression) : Option Nat :=
  match e.op with
  | .call => callSlot env L g t e
  | .cast =>
    (typeEqual env.types e.type e.l.type).bind fun equal =>
      (firstSlot env L g s t e.l).map fun x => if equal then x else castSlot e.l.type e.type x
  | .not => (firstSlot env L g s t e.l).bind (unarySlot .not (getVmOptype e.l.type))
  | .neg => (firstSlot env L g s t e.l).bind (unarySlot .neg (getVmOptype e.l.type))
  | op =>
    match incdecSteps e with
    | some n => (firstSlot env L g s t e.l).map (incdecSlot · n)
    | none =>
      op.binaryOp.bind fun o =>
        (pairSlots env L (exprSwap env g e) g c s t e).bind fun (x, y) =>
          binarySlot o (exprOptype e) x y

/-- The value of an expression at its own type. -/
def exprInt (g : GenState) (t : State) (e : Expression) : Option Int :=
  match e.op with
  | .call => (callSlot env L g t e).bind fun z => (wordOf e.type).map fun k => k.format.wrap z
  | .cast =>
    (operandInt env L g.context t e.l).bind fun a => e.type.wordType.map fun k => k.convert a
  | .not =>
    (operandInt env L g.context t e.l).bind fun a =>
      (wordOf e.type).map fun k => CInteger.unary .not k a
  | .neg =>
    (operandInt env L g.context t e.l).bind fun a =>
      (wordOf e.type).map fun k => CInteger.unary .neg k a
  | op =>
    op.binaryOp.bind fun o =>
      (pairValues env L (exprSwap env g e) g t e).bind fun (a, b) =>
        if o.isComparison then some (CInteger.ofBool (holds op a b))
        else
          (wordOf e.type).bind fun k =>
            CInteger.binary o k (k.format.wrap a) (if o.isShift then b else k.format.wrap b)

/-- The slots that `VM_CAST` makes zero: all bits of the slot count, and those above
the target stay. -/
def CastZero (src dst : CType) (x : Nat) : Prop :=
  match castSource src with
  | none => x = 0
  | some c =>
    match dst.typeOf with
    | .char => x < 2 ^ 8 ∧ slotInt c x % 2 ^ 8 = 0
    | .short => x < 2 ^ 16 ∧ slotInt c x % 2 ^ 16 = 0
    | .int => x < 2 ^ 32 ∧ slotInt c x % 2 ^ 32 = 0
    | .long => slotInt c x = 0
    | _ => x = 0

/-- The slot of an expression is zero, by operator: the slot of the operand, or the
result of the operator on the slots of the operands read in the type of the
instruction. -/
def SlotZero (g : GenState) (c : VmCode) (s t : State) (e : Expression) : Prop :=
  match e.op with
  | .call => callSlot env L g t e = some 0
  | .cast =>
    ∃ x, firstSlot env L g s t e.l = some x ∧
      if typeEqual env.types e.type e.l.type = some true then x = 0
      else CastZero e.l.type e.type x
  | .not =>
    ∃ x k, firstSlot env L g s t e.l = some x ∧ optypeInteger (getVmOptype e.l.type) = some k ∧
      CInteger.unary .not k.promote (slotInt k x) = 0
  | .neg =>
    ∃ x k, firstSlot env L g s t e.l = some x ∧ optypeInteger (getVmOptype e.l.type) = some k ∧
      CInteger.unary .neg k.promote (slotInt k x) = 0
  | op =>
    match incdecSteps e with
    | some n => ∃ x : Nat, firstSlot env L g s t e.l = some x ∧ x < 2 ^ 32 ∧ (x + n) % 2 ^ 32 = 0
    | none =>
      ∃ o k x y, op.binaryOp = some o ∧ optypeInteger (exprOptype e) = some k ∧
        pairSlots env L (exprSwap env g e) g c s t e = some (x, y) ∧
        CInteger.binary o k.promote (slotInt k x)
          (if o.isShift then shiftCount k y else slotInt k y) = some 0

/-- The operands of an expression are not in the free part of the stack. -/
def ExprClear (g : GenState) (c : VmCode) (s t : State) (e : Expression) : Prop :=
  match e.op with
  | .call => True
  | .cast | .not | .neg => ∀ r ∈ operandReads env L g.context t e.l, Clear L t r.1 r.2
  | _ =>
    match incdecSteps e with
    | some _ => ∀ r ∈ operandReads env L g.context t e.l, Clear L t r.1 r.2
    | none => PairClear env L (exprSwap env g e) g c s t e

end Slots

variable {env : GenEnv} {L : Layout} {g g' : GenState} {base : List VmCode} {c : VmCode}
  {s t u : State} {e : Expression} {i : CInteger} {x y : Nat}

/-! ## Instructions on the slot on top -/

theorem execCast_pushed {src dst : CType} (h : Pushed L s t x) (hroom : s.free L + 8 ≤ L.limit)
    (hsrc : src.isReal = false) (hdst : dst.isReal = false) :
    ∃ u, execCast L src dst t = some u ∧ Pushed L s u (castSlot src dst x) := by
  unfold execCast castSlot
  simp only [hsrc, hdst, h.top, Bool.false_eq_true, or_self, if_false]
  cases castSource src with
  | none => exact ⟨t, rfl, h⟩
  | some c =>
    cases dst.typeOf with
    | bool | char | short | int | long =>
      exact ⟨_, rfl, h.setLow hroom (by decide)⟩
    | _ => exact ⟨t, rfl, h⟩

theorem execUnary_pushed {op : CInteger.UnaryOp} {k : CInteger} (h : Pushed L s t x)
    (hroom : s.free L + 8 ≤ L.limit) :
    Pushed L s (execUnary L op k t) (toSlot (CInteger.unary op k.promote (slotInt k x))) := by
  unfold execUnary
  rw [h.top]
  exact h.setTop hroom (toSlot_lt _)

theorem toSlot_slotInt_add_mod (y : Nat) (n : Int) :
    ((toSlot (slotInt .int y + n) % 2 ^ 32 : Nat) : Int) = (y + n) % 2 ^ 32 := by
  have hwrap : slotInt .int y % 2 ^ 32 = (y : Int) % 2 ^ 32 :=
    wrap_emod_width (f := CInteger.int.format) y
  push_cast [cast_toSlot]
  omega

variable {n : Int}

theorem execIncrement_pushed {n m : Int} (h : Pushed L s t (incdecSlot x m))
    (hroom : s.free L + 8 ≤ L.limit) : Pushed L s (execIncrement L n t) (incdecSlot x (m + n)) := by
  have hlow := h.setLow (v := toSlot (slotInt .int (t.top L) + n)) hroom (by decide : 4 ≤ 8)
  have hmod := toSlot_slotInt_add_mod (incdecSlot x m) n
  have hslot : replaceLow (incdecSlot x m) 4 (toSlot (slotInt .int (incdecSlot x m) + n)) =
      incdecSlot x (m + n) := by
    have hpow : (256 : Nat) ^ 4 = 2 ^ 32 := by norm_num
    rw [replaceLow, hpow]
    generalize toSlot (slotInt .int (incdecSlot x m) + n) = v at hmod ⊢
    unfold incdecSlot at hmod ⊢
    omega
  rw [h.top, hslot] at hlow
  unfold execIncrement
  rw [h.top]
  exact hlow

theorem incdecSlot_zero : incdecSlot x 0 = x := by
  unfold incdecSlot
  omega

/-! ## Code of expressions -/

/-- Code that leaves a slot on top, after which a jump is not suppressed. -/
def LeavesSlot (L : Layout) (base : List VmCode) (s : State) (g' : GenState) (z : Nat) : Prop :=
  g'.isGlobalMode = false ∧ (∀ d, g'.last = some d → d.opcode ≠ .jmp) ∧
    ∃ code u, g'.prog = base ++ code ∧ execCode L code s = some u ∧ u.top L = z

/-- Code that leaves a slot above a state. -/
def LeavesOperand (L : Layout) (base : List VmCode) (s below : State) (g' : GenState) (z : Nat) :
    Prop :=
  g'.isGlobalMode = false ∧ (∀ d, g'.last = some d → d.opcode ≠ .jmp) ∧
    ∃ code u, g'.prog = base ++ code ∧ execCode L code s = some u ∧ Pushed L below u z

variable {z : Nat} {below : State}

theorem LeavesOperand.leavesSlot (h : LeavesOperand L base s below g' z) :
    LeavesSlot L base s g' z := by
  rcases h with ⟨hmode, hlast, code, u, hprog, hrun, hpushed⟩
  exact ⟨hmode, hlast, code, u, hprog, hrun, hpushed.top⟩

variable {image : List (BitVec 8)}

theorem Loaded.concat {d : VmCode}
    (h : Loaded L g g' base s below x image) (hjmp : d.opcode ≠ .jmp)
    (hexec : ∀ u, Pushed L below u x → ∃ u', execData L d u = some u' ∧ Pushed L below u' z) :
    LeavesOperand L base s below (emitVmCode d g') z := by
  rcases h.run with ⟨code, u, hprog, hrun, hpushed⟩
  rcases hexec u hpushed with ⟨u', hu', hpushed'⟩
  have hemits := Emits.code h.mode d
  refine ⟨hemits.mode, ?_, code ++ [d], u', ?_, ?_, hpushed'⟩
  · intro d' hd'
    have hmem := last_mem_of_append hemits.mode hemits.prog (by simp) d' hd'
    rw [mem_singleton.mp hmem]
    exact hjmp
  · rw [hemits.prog, hprog, append_assoc]
  · rw [execCode_append, hrun]
    simp [hu']

theorem Loaded.leaves
    (h : Loaded L g g' base s below x image) : LeavesOperand L base s below g' x :=
  ⟨h.mode, fun d hd => (h.last d hd).2, h.run⟩

theorem Loaded.incdec {op : VmOpcode}
    (h : Loaded L g g' base s below x image) (hroom : below.free L + 8 ≤ L.limit)
    (hexec : ∀ u, execData L { opcode := op, type := .int32 } u = some (execIncrement L n u))
    (hpop : op ≠ .pop) (k : Nat) :
    Loaded L g ((emitVmOp op .int32)^[k] g') base s below (incdecSlot x (k * n)) image := by
  induction k with
  | zero =>
    have hzero : incdecSlot x ((0 : Nat) * n) = x := by
      rw [Nat.cast_zero, zero_mul, incdecSlot_zero]
    rw [hzero]
    exact h
  | succ k ih =>
    rw [Function.iterate_succ_apply']
    rcases ih.run with ⟨code, u, hprog, hrun, hpushed⟩
    have hemits := Emits.code ih.mode { opcode := op, type := .int32 }
    have hstep := execIncrement_pushed (n := n) hpushed hroom
    have hsum : (k : Int) * n + n = (k + 1 : Nat) * n := by
      push_cast
      ring
    have hrun' : execCode L (code ++ [{ opcode := op, type := .int32 }]) s =
        some (execIncrement L n u) := by
      rw [execCode_append, hrun]
      simp [hexec]
    rw [hsum] at hstep
    refine ⟨hemits.mode, hemits.labels.trans ih.labels, ?_, ?_, _, _, ?_, hrun', hstep⟩
    · rw [emitVmOp, hemits.image, append_nil, ih.image]
    · intro d hd
      have hmem := last_mem_of_append hemits.mode hemits.prog (by simp) d hd
      rw [mem_singleton.mp hmem]
      exact ⟨hpop, opcode_ne_jmp_of_execCode _ hrun' _ (by simp)⟩
    · rw [emitVmOp, hemits.prog, hprog, append_assoc]

/-- The operators whose operands may be exchanged. -/
def commutes : CInteger.BinaryOp → Bool
  | .add | .mul | .and | .or | .xor | .eq | .ne => true
  | _ => false

variable {o : CInteger.BinaryOp}

theorem binary_comm (h : commutes o = true) (k : CInteger) (a b : Int) :
    CInteger.binary o k a b = CInteger.binary o k b a := by
  cases o <;> try cases h
  all_goals simp only [CInteger.binary, some.injEq]
  · rw [Int.add_comm]
  · rw [Int.mul_comm]
  · rw [BitVec.or_comm]
  · rw [BitVec.xor_comm]
  · rw [BitVec.and_comm]
  · simp only [eq_comm]
  · simp only [ne_comm]

/-- The code of a binary operator other than a shift. -/
theorem vmGenExpr_binary (env : GenEnv) (g : GenState)
    (hop : e.op.binaryOp = some o) (hshift : o.isShift = false) (hsteps : incdecSteps e = none) :
    ∃ opcode, ∃ mirror : Bool, binaryOpcode opcode = some (o, mirror) ∧
      (exprSwap env g e = mirror ∨ commutes o = true) ∧
      vmGenExpr env e g =
        if exprSwap env g e then (vmLoadVar env e.r g).bind fun g =>
          (vmLoadVar env e.l g).map (emitVmOp opcode (exprOptype e))
        else (vmLoadVar env e.l g).bind fun g =>
          (vmLoadVar env e.r g).map (emitVmOp opcode (exprOptype e)) := by
  have hcount : e.op = .add ∨ e.op = .sub → isIncdecCount e.r = false := by
    intro h
    rcases h with h | h <;> simpa [incdecSteps, h] using hsteps
  cases hcase : e.op with
  | cast | call | vaArg | not | neg => simp [hcase, OpType.binaryOp] at hop
  | shl | shr =>
    simp only [hcase, OpType.binaryOp, some.injEq] at hop
    subst hop
    cases hshift
  | add =>
    simp only [hcase, OpType.binaryOp, some.injEq] at hop
    subst hop
    refine ⟨.add, false, rfl, Or.inr rfl, ?_⟩
    simp [vmGenExpr, hcase, hcount, vmGenSwapped, exprSwap, exprOptype]
  | sub =>
    simp only [hcase, OpType.binaryOp, some.injEq] at hop
    subst hop
    refine ⟨.sub, false, rfl, Or.inl (by simp [exprSwap, hcase]), ?_⟩
    simp [vmGenExpr, hcase, hcount, vmGenOrdered, exprSwap, exprOptype]
  | mul =>
    simp only [hcase, OpType.binaryOp, some.injEq] at hop
    subst hop
    refine ⟨.mul, false, rfl, Or.inr rfl, ?_⟩
    simp [vmGenExpr, hcase, vmGenSwapped, exprSwap, exprOptype]
  | div =>
    simp only [hcase, OpType.binaryOp, some.injEq] at hop
    subst hop
    refine ⟨.div, false, rfl, Or.inl (by simp [exprSwap, hcase]), ?_⟩
    simp [vmGenExpr, hcase, vmGenOrdered, exprSwap, exprOptype]
  | mod =>
    simp only [hcase, OpType.binaryOp, some.injEq] at hop
    subst hop
    refine ⟨.mod, false, rfl, Or.inl (by simp [exprSwap, hcase]), ?_⟩
    simp [vmGenExpr, hcase, vmGenOrdered, exprSwap, exprOptype]
  | and =>
    simp only [hcase, OpType.binaryOp, some.injEq] at hop
    subst hop
    refine ⟨.and, false, rfl, Or.inr rfl, ?_⟩
    simp [vmGenExpr, hcase, vmGenSwapped, exprSwap, exprOptype]
  | or =>
    simp only [hcase, OpType.binaryOp, some.injEq] at hop
    subst hop
    refine ⟨.or, false, rfl, Or.inr rfl, ?_⟩
    simp [vmGenExpr, hcase, vmGenSwapped, exprSwap, exprOptype]
  | xor =>
    simp only [hcase, OpType.binaryOp, some.injEq] at hop
    subst hop
    refine ⟨.xor, false, rfl, Or.inr rfl, ?_⟩
    simp [vmGenExpr, hcase, vmGenSwapped, exprSwap, exprOptype]
  | eq =>
    simp only [hcase, OpType.binaryOp, some.injEq] at hop
    subst hop
    refine ⟨.eq, false, rfl, Or.inr rfl, ?_⟩
    simp [vmGenExpr, hcase, vmGenSwapped, exprSwap, exprOptype]
  | ne =>
    simp only [hcase, OpType.binaryOp, some.injEq] at hop
    subst hop
    refine ⟨.ne, false, rfl, Or.inr rfl, ?_⟩
    simp [vmGenExpr, hcase, vmGenSwapped, exprSwap, exprOptype]
  | ge =>
    simp only [hcase, OpType.binaryOp, some.injEq] at hop
    subst hop
    -- The operator is mirrored when the operands are exchanged.
    cases hswap : isSwapAvailable env e.r g with
    | true =>
      refine ⟨.le, true, rfl, Or.inl (by simp [exprSwap, hcase, hswap]), ?_⟩
      simp [vmGenExpr, hcase, vmGenSwapped, exprSwap, exprOptype, hswap]
    | false =>
      refine ⟨.ge, false, rfl, Or.inl (by simp [exprSwap, hcase, hswap]), ?_⟩
      simp [vmGenExpr, hcase, vmGenSwapped, exprSwap, exprOptype, hswap]
  | gt =>
    simp only [hcase, OpType.binaryOp, some.injEq] at hop
    subst hop
    cases hswap : isSwapAvailable env e.r g with
    | true =>
      refine ⟨.lt, true, rfl, Or.inl (by simp [exprSwap, hcase, hswap]), ?_⟩
      simp [vmGenExpr, hcase, vmGenSwapped, exprSwap, exprOptype, hswap]
    | false =>
      refine ⟨.gt, false, rfl, Or.inl (by simp [exprSwap, hcase, hswap]), ?_⟩
      simp [vmGenExpr, hcase, vmGenSwapped, exprSwap, exprOptype, hswap]

theorem LeavesOperand.of_pair (hmode : g'.isGlobalMode = false)
    (h : ∃ code u, code ≠ [] ∧ g'.prog = base ++ code ∧ execCode L code s = some u ∧
      Pushed L below u z) : LeavesOperand L base s below g' z := by
  rcases h with ⟨code, u, hne, hprog, hrun, hpushed⟩
  refine ⟨hmode, ?_, code, u, hprog, hrun, hpushed⟩
  intro d hd
  exact opcode_ne_jmp_of_execCode _ hrun d (last_mem_of_append hmode hprog hne d hd)

/-- The code of a binary operator leaves its slot. -/
theorem binaryExpr_runs {j : CInteger}
    (h : AtPoint L g base c s t) (hl : wordOf e.l.type = some i) (hr : wordOf e.r.type = some j)
    (hop : e.op.binaryOp = some o) (hsteps : incdecSteps e = none)
    (hclear : PairClear env L (exprSwap env g e) g c s t e)
    (hslots : pairSlots env L (exprSwap env g e) g c s t e = some (x, y))
    (hz : binarySlot o (exprOptype e) x y = some z) (hgen : vmGenExpr env e g = some g') :
    LeavesOperand L base s (secondState env L g c s t (firstOperand env g e)) g' z := by
  have hfirst : firstOperand env g e = if exprSwap env g e then e.r else e.l := by
    simp [firstOperand, hop, hsteps]
  rw [hfirst]
  simp only [binarySlot, bind_eq_some_iff, map_eq_some_iff] at hz
  rcases hz with ⟨k, hk, n, hn, rfl⟩
  cases hshift : o.isShift with
  | false =>
    simp only [hshift, Bool.false_eq_true, if_false] at hn
    rcases vmGenExpr_binary env g hop hshift hsteps with ⟨opcode, mirror, hopcode, horder, hcode⟩
    have hn' : (if exprSwap env g e = mirror then
        CInteger.binary o k.promote (slotInt k x) (slotInt k y)
        else CInteger.binary o k.promote (slotInt k y) (slotInt k x)) = some n := by
      rcases horder with hswap | hcomm
      · rw [if_pos hswap, hn]
      · rw [binary_comm hcomm k.promote (slotInt k y), ite_self, hn]
    rw [hcode] at hgen
    rcases binaryCode_pushes _ mirror h hl hr hclear hslots hopcode hk hn' hgen with ⟨hmode, hrun⟩
    exact LeavesOperand.of_pair hmode hrun
  | true =>
    simp only [hshift, if_true] at hn
    have hswap : exprSwap env g e = false := by
      cases hcase : e.op <;> simp_all [OpType.binaryOp, exprSwap] <;> subst hop <;> cases hshift
    have hcode : ∃ opcode, (∀ u, execData L { opcode := opcode, type := exprOptype e } u =
        execShift L o k u) ∧ vmGenExpr env e g = (vmLoadVar env e.l g).bind fun g =>
          (vmLoadVar env e.r g).map (emitVmOp opcode (exprOptype e)) := by
      cases hcase : e.op with
      | shl =>
        simp only [hcase, OpType.binaryOp, some.injEq] at hop
        subst hop
        refine ⟨.shl, fun u => by simp [execData, hk], ?_⟩
        simp [vmGenExpr, hcase, vmGenOrdered, exprOptype]
      | shr =>
        simp only [hcase, OpType.binaryOp, some.injEq] at hop
        subst hop
        refine ⟨.shr, fun u => by simp [execData, hk], ?_⟩
        simp [vmGenExpr, hcase, vmGenOrdered, exprOptype]
      | _ =>
        simp [hcase, OpType.binaryOp] at hop
        try (subst hop; cases hshift)
    rcases hcode with ⟨opcode, hexec, hcode⟩
    rw [hcode] at hgen
    simp only [bind_eq_some_iff, map_eq_some_iff] at hgen
    rcases hgen with ⟨g1, hgen1, g2, hgen2, rfl⟩
    simp only [hswap, pairSlots, PairClear, Bool.false_eq_true, if_false, bind_eq_some_iff,
      map_eq_some_iff, Prod.mk.injEq] at hslots hclear
    rcases hslots with ⟨x', hx, y', hy, rfl, rfl⟩
    have hpair : ∀ below u1 u2, Pushed L below u1 x' → Pushed L u1 u2 y' →
        below.free L + 8 ≤ L.limit →
        ∃ u, execData L { opcode := opcode, type := exprOptype e } u2 = some u ∧
          Pushed L below u (toSlot n) := by
      intro below u1 u2 hp1 hp2 hroom
      rw [hexec]
      exact execShift_pushed hp1 hp2 hroom hn
    rcases pairCode_pushes h hl hr hx hy hclear.1 hclear.2 hgen1 hgen2 hpair with ⟨hmode, hrun⟩
    rw [hswap, if_neg (by decide)]
    exact LeavesOperand.of_pair hmode hrun

theorem execClup_top (hsize : u.retsize = 8) (hsp : n.toNat + 8 ≤ u.sp) :
    ∃ u', execData L { opcode := .clup, d := .size n } u = some u' ∧ u'.top L = u.top L := by
  refine ⟨_, rfl, ?_⟩
  have hnot : ¬ 8 < u.retsize := by omega
  have hfrom : L.stack + (u.sp - u.retsize) = u.topAddr L := by
    simp only [State.topAddr, hsize]
    omega
  have hlt := Memory.load_lt u.mem (u.topAddr L) 8
  simp only [moveResult, hnot, if_false, hfrom]
  rw [State.top]
  have haddr : ∀ m : Memory, ({ u with
      mem := m, sp := u.sp - u.retsize - n.toNat + u.retsize } : State).topAddr L =
        L.stack + (u.sp - u.retsize - n.toNat) := by
    intro m
    simp only [State.topAddr, hsize]
    omega
  rw [haddr, Memory.load_store_self, Nat.mod_eq_of_lt hlt]
  rfl

/-- The code of a call leaves its result. -/
theorem callExpr_runs (h : AtPoint L g base c s t)
    (hz : callSlot env L g t e = some z) (hgen : vmGenCall env e g = some g') :
    LeavesSlot L base s g' z := by
  unfold callSlot at hz
  unfold vmGenCall at hgen
  cases hsym : e.l.symbol with
  | none => simp [hsym] at hz
  | some sym =>
    simp only [hsym, bind_some, ite_none_left_eq_some, not_or,
      bind_eq_some_iff, ite_none_right_eq_some, some.injEq] at hz
    rcases hz with ⟨⟨hset, hlong⟩, size, hsize, u, hcall, ⟨hret, hsp⟩, rfl⟩
    simp only [hsym, bind_some, hset, hlong, if_false, emitVmCall, hsize, map_some,
      some.injEq] at hgen
    have hemits := Emits.code h.mode (callCode env e.l sym size)
    have hexec : execData L (callCode env e.l sym size) t = some u := hcall
    have hrun : execCode L ([c] ++ [callCode env e.l sym size]) s = some u := by
      simp [h.step, hexec]
    by_cases hargs : 0 < g.argsSize
    · have hclup := hemits.concat { opcode := .clup, d := .size g.argsSize }
      have hg' : g' = { emitVmCode { opcode := .clup, d := .size g.argsSize }
          (emitVmCode (callCode env e.l sym size) g) with argsSize := 0 } := by
        rw [← hgen]
        simp only [emitVmCleanup, hargs, if_true]
        rfl
      rcases execClup_top (L := L) (n := g.argsSize) hret hsp with ⟨u', hu', htop⟩
      subst hg'
      refine ⟨hclup.mode, ?_, [c] ++ [callCode env e.l sym size] ++
        [{ opcode := .clup, d := .size g.argsSize }], u', ?_, ?_, htop⟩
      · intro d hd
        have hmem := last_mem_of_append hclup.mode hclup.prog (by simp) d hd
        simp only [cons_append, nil_append, mem_cons, not_mem_nil, or_false] at hmem
        rcases hmem with rfl | rfl <;> simp [callCode]
      · exact hclup.prog.trans (by simp [h.prog])
      · rw [execCode_append, hrun]
        simp [hu']
    · have hg' : g' = { emitVmCode (callCode env e.l sym size) g with argsSize := 0 } := by
        rw [← hgen]
        simp only [emitVmCleanup, hargs, if_false]
        rfl
      subst hg'
      refine ⟨hemits.mode, ?_, [c] ++ [callCode env e.l sym size], u, ?_, hrun, rfl⟩
      · intro d hd
        have hmem := last_mem_of_append hemits.mode hemits.prog (by simp) d hd
        rw [mem_singleton.mp hmem]
        simp [callCode]
      · exact hemits.prog.trans (by simp [h.prog])

theorem exprSlot_binary (hop : e.op.binaryOp = some o) :
    exprSlot env L g c s t e =
      match incdecSteps e with
      | some n => (firstSlot env L g s t e.l).map (incdecSlot · n)
      | none => (pairSlots env L (exprSwap env g e) g c s t e).bind fun (x, y) =>
          binarySlot o (exprOptype e) x y := by
  unfold exprSlot
  cases hcase : e.op <;> simp [hcase, OpType.binaryOp] at hop <;> subst hop <;>
    simp only [OpType.binaryOp, bind_some]

theorem exprClear_binary (hop : e.op.binaryOp = some o) :
    ExprClear env L g c s t e =
      match incdecSteps e with
      | some _ => ∀ r ∈ operandReads env L g.context t e.l, Clear L t r.1 r.2
      | none => PairClear env L (exprSwap env g e) g c s t e := by
  unfold ExprClear
  cases hcase : e.op <;> simp [hcase, OpType.binaryOp] at hop <;> rfl

theorem vmGenExpr_incdec (env : GenEnv) (g : GenState) (hn : incdecSteps e = some n) :
    ∃ op, ∃ d : Int, ∃ k : Nat, n = k * d ∧ op ≠ .pop ∧
      (∀ (L : Layout) (u : State),
        execData L { opcode := op, type := .int32 } u = some (execIncrement L d u)) ∧
      vmGenExpr env e g = (vmLoadVar env e.l g).map fun g => (emitVmOp op .int32)^[k] g := by
  unfold incdecSteps at hn
  split at hn
  · rename_i hcount
    have hpos : 0 < e.r.imm.i := by
      simp only [isIncdecCount, Bool.and_eq_true, decide_eq_true_eq] at hcount
      exact hcount.1.2
    have hcast : ((e.r.imm.i.toNat : Nat) : Int) = e.r.imm.i := Int.toNat_of_nonneg hpos.le
    split at hn
    · rename_i hcase
      simp only [some.injEq] at hn
      refine ⟨.inc, 1, e.r.imm.i.toNat, by omega, by decide, fun L u => rfl, ?_⟩
      simp [vmGenExpr, hcase, hcount, vmGenIncdec]
    · rename_i hcase
      simp only [some.injEq] at hn
      refine ⟨.dec, -1, e.r.imm.i.toNat, by omega, by decide, fun L u => rfl, ?_⟩
      simp [vmGenExpr, hcase, hcount, vmGenIncdec]
    · cases hn
  · cases hn

/-- The code of an expression without a call leaves the slot of the expression in place
of its operands. -/
theorem vmGenExpr_leaves (h : AtPoint L g base c s t) (hcall : e.op ≠ .call)
    (hl : ∃ i, wordOf e.l.type = some i)
    (hr : e.op.binaryOp ≠ none → ∃ j, wordOf e.r.type = some j) (htype : e.type.isReal = false)
    (hclear : ExprClear env L g c s t e) (hz : exprSlot env L g c s t e = some z)
    (hgen : vmGenExpr env e g = some g') :
    LeavesOperand L base s (secondState env L g c s t (firstOperand env g e)) g' z := by
  have hroom := h.room
  rcases hl with ⟨i, hi⟩
  have hfree : (secondState env L g c s t e.l).free L + 8 ≤ L.limit := by
    simp only [State.free, (h.secondState_frame hi).1] at hroom ⊢
    omega
  cases hcase : e.op with
  | call => exact absurd hcase hcall
  | vaArg => simp [vmGenExpr, hcase] at hgen
  | cast =>
    simp only [exprSlot, hcase, bind_eq_some_iff, map_eq_some_iff] at hz
    simp only [vmGenExpr, hcase, bind_eq_some_iff, map_eq_some_iff] at hgen
    simp only [ExprClear, hcase] at hclear
    rcases hz with ⟨equal, hequal, x, hx, rfl⟩
    rcases hgen with ⟨equal', hequal', g1, hload, rfl⟩
    rw [hequal, some.injEq] at hequal'
    subst hequal'
    have hloaded := firstLoad_pushes h hi hx hclear hload
    rw [show firstOperand env g e = e.l by simp [firstOperand, hcase, OpType.binaryOp]]
    cases equal with
    | true => exact hloaded.leaves
    | false =>
      refine hloaded.concat (by simp) ?_
      intro u hu
      exact execCast_pushed hu hfree (wordOf_kinds hi).2 htype
  | not | neg =>
    simp only [exprSlot, hcase, bind_eq_some_iff, unarySlot, map_eq_some_iff] at hz
    simp only [vmGenExpr, hcase, map_eq_some_iff] at hgen
    simp only [ExprClear, hcase] at hclear
    rcases hz with ⟨x, hx, k, hk, rfl⟩
    rcases hgen with ⟨g1, hload, rfl⟩
    have hloaded := firstLoad_pushes h hi hx hclear hload
    rw [show firstOperand env g e = e.l by simp [firstOperand, hcase, OpType.binaryOp]]
    refine hloaded.concat (by simp) ?_
    intro u hu
    exact ⟨_, by simp [execData, hk], execUnary_pushed hu hfree⟩
  | _ =>
    have hop : ∃ o, e.op.binaryOp = some o := by simp [hcase, OpType.binaryOp]
    rcases hop with ⟨o, hop⟩
    rw [exprSlot_binary hop] at hz
    rw [exprClear_binary hop] at hclear
    cases hsteps : incdecSteps e with
    | some n =>
      simp only [hsteps, map_eq_some_iff] at hz hclear
      rcases hz with ⟨x, hx, rfl⟩
      rcases vmGenExpr_incdec env g hsteps with ⟨op, d, k, rfl, hpop, hexec, hcode⟩
      rw [hcode, map_eq_some_iff] at hgen
      rcases hgen with ⟨g1, hload, rfl⟩
      have hloaded := firstLoad_pushes h hi hx hclear hload
      rw [show firstOperand env g e = e.l by simp [firstOperand, hsteps]]
      exact (hloaded.incdec hfree (hexec L) hpop k).leaves
    | none =>
      simp only [hsteps, bind_eq_some_iff] at hz hclear
      rcases hz with ⟨⟨x, y⟩, hslots, hz⟩
      rcases hr (by simp [hop]) with ⟨j, hj⟩
      exact binaryExpr_runs h hi hj hop hsteps hclear hslots hz hgen

/-- The code of an expression of integer or pointer type leaves the slot of the
expression. -/
theorem vmGenExpr_runs (h : AtPoint L g base c s t)
    (hl : e.op ≠ .call → ∃ i, wordOf e.l.type = some i)
    (hr : e.op.binaryOp ≠ none → ∃ j, wordOf e.r.type = some j) (htype : e.type.isReal = false)
    (hclear : ExprClear env L g c s t e) (hz : exprSlot env L g c s t e = some z)
    (hgen : vmGenExpr env e g = some g') : LeavesSlot L base s g' z := by
  by_cases hcall : e.op = .call
  · simp only [exprSlot, hcall] at hz
    simp only [vmGenExpr, hcall] at hgen
    exact callExpr_runs h hz hgen
  · exact (vmGenExpr_leaves h hcall (hl hcall) hr htype hclear hz hgen).leavesSlot

/-! ## Zero slots -/

theorem toSlot_eq_zero_iff {f : IntFormat} (h : f.InRange n) : toSlot n = 0 ↔ n = 0 := by
  constructor
  · intro hzero
    have hmod : n % 2 ^ 64 = 0 % 2 ^ 64 := by
      rw [← cast_toSlot, hzero]
      decide
    have hwrap : f.wrap n = f.wrap 0 :=
      wrap_congr (emod_width_of_emod_word hmod)
    rw [h] at hwrap
    rw [hwrap]
    simp [IntFormat.wrap, IntFormat.ofBits]
  · rintro rfl
    decide

theorem replaceLow_eq_zero_iff {size : Nat} (hsize : size ≤ 8) :
    replaceLow x size (toSlot n) = 0 ↔ x < 256 ^ size ∧ n % (256 ^ size : Nat) = 0 := by
  have hpos : 0 < 256 ^ size := by positivity
  have hdvd : ((256 ^ size : Nat) : Int) ∣ 2 ^ 64 := by
    have : (256 : Nat) ^ size ∣ 256 ^ 8 := pow_dvd_pow 256 hsize
    exact_mod_cast (show (256 : Nat) ^ 8 = 2 ^ 64 by norm_num) ▸ this
  have hlow : ((toSlot n % 256 ^ size : Nat) : Int) = n % (256 ^ size : Nat) := by
    rw [Int.natCast_mod, cast_toSlot, Int.emod_emod_of_dvd _ hdvd]
  rw [← hlow, replaceLow, Nat.add_eq_zero_iff, Nat.mul_eq_zero, Nat.div_eq_zero_iff]
  constructor
  · rintro ⟨hhigh, hzero⟩
    refine ⟨by omega, by exact_mod_cast hzero⟩
  · rintro ⟨hhigh, hzero⟩
    exact ⟨by omega, by exact_mod_cast hzero⟩

theorem castSlot_eq_zero_iff {src dst : CType} (hx : x < 2 ^ 64) :
    castSlot src dst x = 0 ↔ CastZero src dst x := by
  unfold castSlot CastZero
  cases castSource src with
  | none => rfl
  | some c =>
    cases dst.typeOf with
    | char => exact replaceLow_eq_zero_iff (by decide)
    | short => exact replaceLow_eq_zero_iff (by decide)
    | int => exact replaceLow_eq_zero_iff (by decide)
    | long =>
      have hrange : c.format.InRange (slotInt c x) := inRange_wrap _
      simp only [replaceLow_eq_zero_iff (le_refl 8), ← toSlot_eq_zero_iff hrange]
      have hpow : (256 : Nat) ^ 8 = 2 ^ 64 := by norm_num
      have hslot := cast_toSlot (slotInt c x)
      rw [hpow]
      constructor
      · rintro ⟨-, hzero⟩
        have : (toSlot (slotInt c x) : Int) = 0 := hslot.trans (by exact_mod_cast hzero)
        exact_mod_cast this
      · intro hzero
        refine ⟨hx, ?_⟩
        rw [hzero] at hslot
        exact_mod_cast hslot.symm
    | bool =>
      simp only [replaceLow]
      split <;> omega
    | _ => rfl

theorem incdecSlot_eq_zero_iff :
    incdecSlot x n = 0 ↔ x < 2 ^ 32 ∧ (x + n) % 2 ^ 32 = 0 := by
  unfold incdecSlot
  omega

theorem toSlot_binary_eq_zero_iff {k : CInteger} {a b n : Int}
    (ha : k.format.InRange a) (hn : CInteger.binary o k a b = some n) : toSlot n = 0 ↔ n = 0 := by
  cases hcmp : o.isComparison with
  | false => exact toSlot_eq_zero_iff (CInteger.inRange_binary ha hcmp hn)
  | true =>
    rcases CInteger.binary_comparison hcmp hn with ⟨p, rfl⟩
    exact toSlot_eq_zero_iff (CInteger.inRange_ofBool .int p)

theorem firstSlot_lt {v : Var} (h : firstSlot env L g s t v = some x) : x < 2 ^ 64 := by
  unfold firstSlot at h
  split at h
  · simp only [some.injEq] at h
    have hlt := Memory.load_lt s.mem (s.topAddr L) 8
    have hpow : (256 : Nat) ^ 8 = 2 ^ 64 := by norm_num
    rw [← h, ← hpow]
    exact hlt
  · exact operandSlot_lt h

theorem slotZero_binary (hop : e.op.binaryOp = some o) :
    SlotZero env L g c s t e ↔
      match incdecSteps e with
      | some n => ∃ x : Nat, firstSlot env L g s t e.l = some x ∧ x < 2 ^ 32 ∧ (x + n) % 2 ^ 32 = 0
      | none => ∃ k x y, optypeInteger (exprOptype e) = some k ∧
          pairSlots env L (exprSwap env g e) g c s t e = some (x, y) ∧
          CInteger.binary o k.promote (slotInt k x)
            (if o.isShift then shiftCount k y else slotInt k y) = some 0 := by
  unfold SlotZero
  cases hcase : e.op <;> simp [hcase, OpType.binaryOp] at hop <;> subst hop <;>
    simp only [OpType.binaryOp, some.injEq, exists_and_left, exists_eq_left']

/-- When the slot of an expression is zero. -/
theorem exprSlot_eq_zero_iff (hz : exprSlot env L g c s t e = some z) :
    z = 0 ↔ SlotZero env L g c s t e := by
  cases hcase : e.op with
  | call =>
    simp only [exprSlot, hcase] at hz
    simp [SlotZero, hcase, hz]
  | vaArg =>
    simp [exprSlot, hcase, incdecSteps, OpType.binaryOp] at hz
  | cast =>
    simp only [exprSlot, hcase, bind_eq_some_iff, map_eq_some_iff] at hz
    rcases hz with ⟨equal, hequal, x, hx, rfl⟩
    simp only [SlotZero, hcase, hx, hequal, some.injEq, exists_eq_left']
    cases equal with
    | true => simp
    | false => simpa using castSlot_eq_zero_iff (firstSlot_lt hx)
  | not | neg =>
    simp only [exprSlot, hcase, bind_eq_some_iff, unarySlot, map_eq_some_iff] at hz
    rcases hz with ⟨x, hx, k, hk, rfl⟩
    simp only [SlotZero, hcase, hx, hk, some.injEq, exists_eq_left', exists_and_left]
    exact toSlot_eq_zero_iff (CInteger.inRange_unary _ _ _)
  | _ =>
    have hop : ∃ o, e.op.binaryOp = some o := by simp [hcase, OpType.binaryOp]
    rcases hop with ⟨o, hop⟩
    rw [exprSlot_binary hop] at hz
    rw [slotZero_binary hop]
    cases hsteps : incdecSteps e with
    | some n =>
      simp only [hsteps, map_eq_some_iff] at hz
      rcases hz with ⟨x, hx, rfl⟩
      simp only [hx, some.injEq, exists_eq_left']
      exact incdecSlot_eq_zero_iff
    | none =>
      simp only [hsteps, binarySlot, bind_eq_some_iff, map_eq_some_iff] at hz
      rcases hz with ⟨⟨x, y⟩, hslots, k, hk, n, hn, rfl⟩
      have hrange : k.promote.format.InRange (slotInt k x) :=
        CInteger.inRange_promote (inRange_wrap _)
      rw [toSlot_binary_eq_zero_iff hrange hn]
      constructor
      · rintro rfl
        exact ⟨k, x, y, hk, hslots, hn⟩
      · rintro ⟨k', x', y', hk', hslots', hn'⟩
        rw [hk, some.injEq] at hk'
        rw [hslots, some.injEq, Prod.mk.injEq] at hslots'
        rw [hk', hslots'.1, hslots'.2, hn', some.injEq] at hn
        exact hn.symm

/-! ## Branches -/

/-- A branch takes the right edge: the jump that follows the code of the condition
is taken exactly when the value of the condition is not zero. -/
def BranchesRight (env : GenEnv) (L : Layout) (base : List VmCode) (s t : State) (e : Expression)
    (label : String) (size : Int) (g g' : GenState) : Prop :=
  ∃ n code u, exprInt env L g t e = some n ∧
    (emitVmJmp .jnz label size g').prog =
      base ++ code ++ [{ opcode := .jnz, d := .addr { name := label, size := size } }] ∧
    execCode L code s = some u ∧
    ∀ index ip, execJnz L index u ip = (u.drop, if n = 0 then ip + 1 else ip + index)

/-- The condition `x + 1`, of a local variable of type `int`. -/
def intSuccessor : Expression where
  op := .add
  type := basicTypeInt
  l := sampleVar 0 basicTypeInt
  r := { kind := .immediate, type := basicTypeInt, imm := Value.setI {} 1 }

end Kcs.Vm
