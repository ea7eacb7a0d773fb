import Kcs.Vm.Branch

/-!
# Code that takes nothing back

The code of an assignment when every operand is pushed, from left to right, and
every result is popped, whatever the last instruction is.  The code of
`vm_gen_expr` has the same form: its operands, and behind them the instructions of
the operator.

Main results:

- Theorem {lit}`vmGenExpr_eq`: the generator loads the operands and appends the
  instructions of the operator.
- Theorem {lit}`pushExpr_leaves`: the code of an expression leaves the slot that the
  operator computes from the slots of its operands.
-/

namespace Kcs.Vm

open Option

/-! ## Operands and operators -/

/-- Append instructions. -/
def emitCode (code : List VmCode) (g : GenState) : GenState :=
  code.foldl (fun g c => emitVmCode c g) g

/-- Whether the code of an expression loads both operands. -/
def loadsTwo (e : Expression) : Bool := e.op.binaryOp.isSome && (incdecSteps e).isNone

/-- The instruction of an operator with two operands; a comparison is mirrored when its operands
are exchanged. -/
def operatorOpcode (swap : Bool) : OpType → Option VmOpcode
  | .add => some .add
  | .sub => some .sub
  | .mul => some .mul
  | .div => some .div
  | .mod => some .mod
  | .and => some .and
  | .or => some .or
  | .xor => some .xor
  | .shl => some .shl
  | .shr => some .shr
  | .eq => some .eq
  | .ne => some .ne
  | .ge => some (if swap then .le else .ge)
  | .gt => some (if swap then .lt else .gt)
  | _ => none

section Generate

variable (env : GenEnv)

/-- The instructions behind the operands. -/
def operatorCode (swap : Bool) (e : Expression) : Option (List VmCode) :=
  match e.op with
  | .cast =>
    (typeEqual env.types e.type e.l.type).map fun equal =>
      if equal then [] else [{ opcode := .cast, d := .cast e.l.type e.type }]
  | .not => some [{ opcode := .not, type := getVmOptype e.l.type }]
  | .neg => some [{ opcode := .neg, type := getVmOptype e.l.type }]
  | op =>
    match incdecSteps e with
    | some n =>
      some (List.replicate n.natAbs { opcode := if 0 < n then .inc else .dec, type := .int32 })
    | none => (operatorOpcode swap op).map fun c => [{ opcode := c, type := exprOptype e }]

/-- The operands in the order in which `vm_gen_expr` loads them. -/
def vmLoadOperands (e : Expression) (g : GenState) : Option GenState :=
  if loadsTwo e then
    if exprSwap env g e then (vmLoadVar env e.r g).bind (vmLoadVar env e.l)
    else (vmLoadVar env e.l g).bind (vmLoadVar env e.r)
  else vmLoadVar env e.l g

/-- A variable is pushed without a look at the last instruction.  Operands of other kinds never
take a store back. -/
def pushOperand (v : Var) (g : GenState) : Option GenState :=
  match v.kind with
  | .direct =>
    v.symbol.bind fun sym =>
      (intSizeOf env v.type).map fun size =>
        emitVmCode
          { opcode := .push, type := getVmopVarType v, d := .addr (vmAddress env v sym size) } g
  | _ => vmLoadVar env v g

/-- The operands from left to right. -/
def pushOperands (e : Expression) (g : GenState) : Option GenState :=
  if loadsTwo e then (pushOperand env e.l g).bind (pushOperand env e.r) else pushOperand env e.l g

/-- The code of an expression without elision. -/
def pushExpr (e : Expression) (g : GenState) : Option GenState :=
  (pushOperands env e g).bind fun g => (operatorCode env false e).map fun code => emitCode code g

/-- Whether an assignment is emitted as `VM_FZERO`. -/
def fillsZero (v : Var) (e : Expression) : Bool :=
  !v.isField && !v.type.isVoid && isConstantZero e && v.kind ≠ .deref

/-- The code of an assignment without elision.  Zeros are filled in as ever. -/
def pushAssign (v : Var) (e : Expression) (g : GenState) : Option GenState :=
  if fillsZero v e then emitVmFillZero env v g else (pushExpr env e g).bind (vmStoreVar env v)

/-- The code of assignments without elision. -/
def pushAssigns (code : List Statement) (g : GenState) : Option GenState :=
  code.foldlM (fun g s => pushAssign env s.t s.expr g) g

end Generate

variable {env : GenEnv} {L : Layout} {g g' : GenState} {s t u w : State} {e : Expression}
  {v : Var} {i : CInteger} {x y z : Nat} {code base : List VmCode}

/-! ## The generator by operands and operators -/

theorem emitCode_replicate (c : VmCode) (n : Nat) (g : GenState) :
    emitCode (List.replicate n c) g = (emitVmCode c)^[n] g := by
  induction n generalizing g with
  | zero => rfl
  | succ n ih =>
    rw [List.replicate_succ, Function.iterate_succ_apply]
    exact ih (emitVmCode c g)

theorem incdecSteps_eq_some {n : Int} (h : incdecSteps e = some n) :
    isIncdecCount e.r = true ∧ n.natAbs = e.r.imm.i.toNat ∧
      ((e.op = .add ∧ 0 < n) ∨ (e.op = .sub ∧ n < 0)) := by
  unfold incdecSteps at h
  split at h
  · rename_i hcount
    have hpos : 0 < e.r.imm.i := by
      simp only [isIncdecCount, Bool.and_eq_true, decide_eq_true_eq] at hcount
      exact hcount.1.2
    split at h
    · rename_i hop
      cases h
      exact ⟨hcount, by omega, Or.inl ⟨hop, hpos⟩⟩
    · rename_i hop
      cases h
      exact ⟨hcount, by omega, Or.inr ⟨hop, by omega⟩⟩
    · cases h
  · cases h

/-- The code of an expression loads the operands and appends the instructions of the operator. -/
theorem vmGenExpr_eq (env : GenEnv) (e : Expression) (g : GenState) (hcall : e.op ≠ .call) :
    vmGenExpr env e g =
      (vmLoadOperands env e g).bind fun g' =>
        (operatorCode env (exprSwap env g e) e).map fun code => emitCode code g' := by
  cases hsteps : incdecSteps e with
  | some n =>
    rcases incdecSteps_eq_some hsteps with ⟨hcount, habs, ⟨hop, hsign⟩ | ⟨hop, hsign⟩⟩
    · have hpos : (if 0 < n then VmOpcode.inc else .dec) = .inc := if_pos hsign
      simp only [vmGenExpr, hop, hcount, if_true, vmGenIncdec, vmLoadOperands, loadsTwo, hsteps,
        operatorCode, hpos, emitCode_replicate, habs, isNone_some, Bool.and_false,
        Bool.false_eq_true, if_false, map_some]
      cases vmLoadVar env e.l g <;> rfl
    · have hneg : (if 0 < n then VmOpcode.inc else .dec) = .dec := if_neg (by omega)
      simp only [vmGenExpr, hop, hcount, if_true, vmGenIncdec, vmLoadOperands, loadsTwo, hsteps,
        operatorCode, hneg, emitCode_replicate, habs, isNone_some, Bool.and_false,
        Bool.false_eq_true, if_false, map_some]
      cases vmLoadVar env e.l g <;> rfl
  | none =>
    have hcount : e.op = .add ∨ e.op = .sub → isIncdecCount e.r = false := by
      intro h
      rcases h with h | h <;> simpa [incdecSteps, h] using hsteps
    cases hop : e.op with
    | call => exact absurd hop hcall
    | vaArg => simp [vmGenExpr, hop, operatorCode, hsteps, operatorOpcode]
    | cast =>
      simp only [vmGenExpr, hop, vmLoadOperands, loadsTwo, OpType.binaryOp, operatorCode]
      cases typeEqual env.types e.type e.l.type with
      | none => simp
      | some equal =>
        cases vmLoadVar env e.l g with
        | none => simp
        | some g' => cases equal <;> rfl
    | not | neg =>
      simp only [vmGenExpr, hop, vmLoadOperands, loadsTwo, OpType.binaryOp, operatorCode]
      cases vmLoadVar env e.l g <;> rfl
    | add | mul | and | or | xor | eq | ne | ge | gt =>
      cases hswap : isSwapAvailable env e.r g <;>
        simp [vmGenExpr, hop, hcount, vmGenSwapped, vmLoadOperands, loadsTwo, OpType.binaryOp,
          hsteps, exprSwap, hswap, operatorCode, operatorOpcode, exprOptype, emitCode, emitVmOp,
          map_eq_bind, Option.bind_assoc, Function.comp_def]
    | sub | div | mod | shl | shr =>
      simp [vmGenExpr, hop, hcount, vmGenOrdered, vmLoadOperands, loadsTwo, OpType.binaryOp,
        hsteps, exprSwap, operatorCode, operatorOpcode, exprOptype, emitCode, emitVmOp,
        map_eq_bind, Option.bind_assoc, Function.comp_def]

/-! ## Slots of operators -/

/-- The slot that an operator computes from the slots of its operands; the second one counts for
operators with two operands only. -/
def operatorSlot (env : GenEnv) (e : Expression) (x y : Nat) : Option Nat :=
  match e.op with
  | .call => none
  | .cast =>
    (typeEqual env.types e.type e.l.type).map fun equal =>
      if equal then x else castSlot e.l.type e.type x
  | .not => unarySlot .not (getVmOptype e.l.type) x
  | .neg => unarySlot .neg (getVmOptype e.l.type) x
  | op =>
    match incdecSteps e with
    | some n => some (incdecSlot x n)
    | none => op.binaryOp.bind fun o => binarySlot o (exprOptype e) x y

theorem operatorSlot_binary {o : CInteger.BinaryOp} (hop : e.op.binaryOp = some o)
    (hsteps : incdecSteps e = none) :
    operatorSlot env e x y = binarySlot o (exprOptype e) x y := by
  unfold operatorSlot
  cases hcase : e.op <;> simp [hcase, OpType.binaryOp] at hop <;> subst hop <;>
    simp [hsteps, OpType.binaryOp]

theorem operatorSlot_steps {n : Int} (hsteps : incdecSteps e = some n) :
    operatorSlot env e x y = some (incdecSlot x n) := by
  rcases incdecSteps_eq_some hsteps with ⟨-, -, ⟨hop, -⟩ | ⟨hop, -⟩⟩ <;>
    simp [operatorSlot, hop, hsteps]

theorem exprSlot_eq {c : VmCode} (hcall : e.op ≠ .call) :
    exprSlot env L g c s t e =
      if loadsTwo e then
        (pairSlots env L (exprSwap env g e) g c s t e).bind fun (x, y) => operatorSlot env e x y
      else (firstSlot env L g s t e.l).bind fun x => operatorSlot env e x 0 := by
  cases hop : e.op.binaryOp with
  | some o =>
    rw [exprSlot_binary hop]
    cases hsteps : incdecSteps e with
    | some n =>
      simp only [loadsTwo, hop, hsteps, isNone_some, Bool.and_false, Bool.false_eq_true,
        if_false, operatorSlot_steps hsteps]
      cases firstSlot env L g s t e.l <;> rfl
    | none =>
      simp only [loadsTwo, hop, hsteps, isNone_none, isSome_some, Bool.and_true,
        if_true, operatorSlot_binary hop hsteps]
  | none =>
    have htwo : loadsTwo e = false := by simp [loadsTwo, hop]
    rw [htwo, if_neg (by decide)]
    cases hcase : e.op <;> simp [hcase, OpType.binaryOp] at hop
    case call => exact absurd hcase hcall
    case vaArg =>
      have hsteps : incdecSteps e = none := by simp [incdecSteps, hcase]
      simp [exprSlot, operatorSlot, hcase, hsteps, OpType.binaryOp]
    case cast =>
      simp only [exprSlot, operatorSlot, hcase]
      cases typeEqual env.types e.type e.l.type <;> cases firstSlot env L g s t e.l <;> rfl
    case not => simp only [exprSlot, operatorSlot, hcase]
    case neg => simp only [exprSlot, operatorSlot, hcase]

/-- The operands are on the stack above a state. -/
def OperandsPushed (L : Layout) (e : Expression) (u w : State) (x y : Nat) : Prop :=
  if loadsTwo e then ∃ w', Pushed L u w' x ∧ Pushed L w' w y else Pushed L u w x

theorem execCode_increments (op : VmOpcode) (d : Int) {m : Int}
    (hexec : ∀ u, execData L { opcode := op, type := .int32 } u = some (execIncrement L d u))
    (hroom : u.free L + 8 ≤ L.limit) (h : Pushed L u w (incdecSlot x m)) (n : Nat) :
    ∃ w', execCode L (List.replicate n { opcode := op, type := .int32 }) w = some w' ∧
      Pushed L u w' (incdecSlot x (m + n * d)) := by
  induction n generalizing w m with
  | zero => exact ⟨w, rfl, by simpa using h⟩
  | succ n ih =>
    rcases ih (execIncrement_pushed (n := d) h hroom) with ⟨w', hrun, hpushed⟩
    refine ⟨w', ?_, ?_⟩
    · rw [List.replicate_succ, execCode_cons, hexec]
      exact hrun
    · have hsum : m + d + n * d = m + (n + 1 : Nat) * d := by
        push_cast
        ring
      rwa [hsum] at hpushed

/-- The instructions of an operator compute its slot. -/
theorem operatorCode_runs (hcode : operatorCode env false e = some code)
    (hslot : operatorSlot env e x y = some z) (hroom : u.free L + 8 ≤ L.limit)
    (hl : e.l.type.isReal = false) (htype : e.type.isReal = false)
    (h : OperandsPushed L e u w x y) : ∃ w', execCode L code w = some w' ∧ Pushed L u w' z := by
  have hone : ∀ c, (∃ w', execData L c w = some w' ∧ Pushed L u w' z) →
      ∃ w', execCode L [c] w = some w' ∧ Pushed L u w' z := by
    rintro c ⟨w', hrun, hpushed⟩
    exact ⟨w', by simp [hrun], hpushed⟩
  cases hsteps : incdecSteps e with
  | some n =>
    have hpushed : Pushed L u w (incdecSlot x 0) := by
      rw [incdecSlot_zero]
      simpa [OperandsPushed, loadsTwo, hsteps] using h
    rw [operatorSlot_steps hsteps, some.injEq] at hslot
    subst hslot
    rcases incdecSteps_eq_some hsteps with ⟨-, -, ⟨hop, hsign⟩ | ⟨hop, hsign⟩⟩
    · simp only [operatorCode, hop, hsteps, some.injEq, if_pos hsign] at hcode
      rcases execCode_increments .inc 1 (fun u => rfl) hroom hpushed n.natAbs with
        ⟨w', hrun, hresult⟩
      have hsum : 0 + (n.natAbs : Int) * 1 = n := by omega
      rw [hsum] at hresult
      exact ⟨w', hcode ▸ hrun, hresult⟩
    · have hneg : ¬ 0 < n := by omega
      simp only [operatorCode, hop, hsteps, some.injEq, if_neg hneg] at hcode
      rcases execCode_increments .dec (-1) (fun u => rfl) hroom hpushed n.natAbs with
        ⟨w', hrun, hresult⟩
      have hsum : 0 + (n.natAbs : Int) * -1 = n := by omega
      rw [hsum] at hresult
      exact ⟨w', hcode ▸ hrun, hresult⟩
  | none =>
    cases hop : e.op.binaryOp with
    | some o =>
      rw [operatorSlot_binary hop hsteps, binarySlot, bind_eq_some_iff] at hslot
      rcases hslot with ⟨k, hk, hslot⟩
      rw [map_eq_some_iff] at hslot
      rcases hslot with ⟨n, hn, rfl⟩
      simp only [OperandsPushed, loadsTwo, hop, hsteps, isSome_some, isNone_none,
        Bool.and_true, if_true] at h
      rcases h with ⟨w', hx, hy⟩
      cases hshift : o.isShift with
      | false =>
        simp only [hshift, Bool.false_eq_true, if_false] at hn
        have hbinary : ∃ c, binaryOpcode c = some (o, false) ∧
            code = [{ opcode := c, type := exprOptype e }] := by
          cases hcase : e.op <;> simp [hcase, OpType.binaryOp] at hop <;> subst hop <;>
            simp only [operatorCode, hcase, hsteps, operatorOpcode, map_some,
              some.injEq, Bool.false_eq_true, if_false] at hcode <;>
            first
              | exact ⟨_, rfl, hcode.symm⟩
              | cases hshift
        rcases hbinary with ⟨c, hc, rfl⟩
        apply hone
        rw [execData_binary hc hk]
        exact execBinary_pushed false hx hy hroom (by simpa using hn)
      | true =>
        simp only [hshift, if_true] at hn
        have hshl : ∃ c, code = [{ opcode := c, type := exprOptype e }] ∧
            execData L { opcode := c, type := exprOptype e } w = execShift L o k w := by
          cases hcase : e.op <;> simp [hcase, OpType.binaryOp] at hop <;> subst hop <;>
            first
              | exact absurd hshift (by decide)
              | (simp only [operatorCode, hcase, hsteps, operatorOpcode, map_some,
                   some.injEq] at hcode
                 exact ⟨_, hcode.symm, by simp [execData, hk]⟩)
        rcases hshl with ⟨c, rfl, hexec⟩
        apply hone
        rw [hexec]
        exact execShift_pushed hx hy hroom hn
    | none =>
      have hpushed : Pushed L u w x := by simpa [OperandsPushed, loadsTwo, hop] using h
      cases hcase : e.op <;> simp [hcase, OpType.binaryOp] at hop
      case call => simp [operatorSlot, hcase] at hslot
      case vaArg => simp [operatorSlot, hcase, hsteps, OpType.binaryOp] at hslot
      case cast =>
        simp only [operatorCode, operatorSlot, hcase, map_eq_some_iff] at hcode hslot
        rcases hcode with ⟨equal, hequal, rfl⟩
        rcases hslot with ⟨equal', hequal', rfl⟩
        rw [hequal, some.injEq] at hequal'
        subst hequal'
        cases equal with
        | true => exact ⟨w, rfl, hpushed⟩
        | false => exact hone _ (execCast_pushed hpushed hroom hl htype)
      case not | neg =>
        simp only [operatorCode, operatorSlot, hcase, unarySlot, some.injEq,
          map_eq_some_iff] at hcode hslot
        rcases hslot with ⟨k, hk, rfl⟩
        subst hcode
        exact hone _ ⟨_, by simp [execData, hk], execUnary_pushed hpushed hroom⟩

/-! ## Code of operands -/

section Operands

variable (env : GenEnv) (L : Layout)

/-- The context behind a load. -/
def LoadContext.behind (k : LoadContext) (v : Var) : LoadContext where
  labels := k.labels
  pos := k.pos + (loadedString env v).length

/-- The slots of the operands that are pushed from left to right. -/
def plainOperands (k : LoadContext) (u : State) (e : Expression) : Option (Nat × Nat) :=
  (operandSlot env L k u e.l).bind fun x =>
    if loadsTwo e then (operandSlot env L (k.behind env e.l) u e.r).map fun y => (x, y)
    else some (x, 0)

/-- The slot of an expression whose operands are pushed from left to right. -/
def plainSlot (k : LoadContext) (u : State) (e : Expression) : Option Nat :=
  (plainOperands env L k u e).bind fun (x, y) => operatorSlot env e x y

/-- The bytes that the operands of an expression read. -/
def exprReads (k : LoadContext) (u : State) (e : Expression) : List (Nat × Nat) :=
  operandReads env L k u e.l ++
    if loadsTwo e then operandReads env L (k.behind env e.l) u e.r else []

/-- The bytes that the operands of an expression add to the memory of global data. -/
def exprStrings (e : Expression) : List (BitVec 8) :=
  loadedString env e.l ++ if loadsTwo e then loadedString env e.r else []

/-- An operand of integer or pointer type that is no bit-field. -/
structure WordOperand (v : Var) : Prop where
  word : ∃ i, wordOf v.type = some i
  plain : v.isField = false

/-- An expression over integers and pointers without a call. -/
structure WordExpr (e : Expression) : Prop where
  call : e.op ≠ .call
  vaArg : e.op ≠ .vaArg
  word : ∃ i, wordOf e.type = some i
  left : WordOperand e.l
  right : loadsTwo e = true → WordOperand e.r

end Operands

theorem operandSlot_direct {k : LoadContext} {sym : Symbol} (hkind : v.kind = .direct)
    (hsym : v.symbol = some sym) (hword : wordOf v.type = some i) (hfield : v.isField = false) :
    operandSlot env L k s v = some (toSlot (i.format.wrap
      (s.mem.load (varAddr L s (vmAddress env v sym 0)) (byteSize i)))) := by
  simp [operandSlot, operandInt, operandAddr, isPointerConstant, hkind, hsym, hfield, hword]

theorem pushOperand_pushes (hmode : g.isGlobalMode = false) (hv : WordOperand v)
    (hroom : s.free L + 16 ≤ L.limit)
    (hclear : ∀ r ∈ operandReads env L g.context s v, Clear L s r.1 r.2)
    (hslot : operandSlot env L g.context s v = some x) (hgen : pushOperand env v g = some g') :
    ∃ code, Emits g g' code (loadedString env v) ∧ PushesSlot L code s x := by
  rcases hv with ⟨⟨i, hword⟩, hfield⟩
  by_cases hkind : v.kind = .direct
  · have hstring : loadedString env v = [] := by simp [loadedString, hkind]
    simp only [pushOperand, hkind, bind_eq_some_iff, map_eq_some_iff,
      intSizeOf_wordOf hword, some.injEq] at hgen
    rcases hgen with ⟨sym, hsym, size, hsize, rfl⟩
    rw [operandSlot_direct hkind hsym hword hfield, some.injEq] at hslot
    subst hslot hsize
    rw [hstring]
    refine ⟨_, Emits.code hmode _, PushesSlot.single (by simp) (toSlot_lt _) (by omega) ?_⟩
    exact execData_pushVar hword rfl
  · have hkeep : reloads env g v = false := by simp [reloads, hkind]
    have hload : vmLoadVar env v g = some g' := by
      unfold pushOperand at hgen
      split at hgen
      · contradiction
      · exact hgen
    exact vmLoadVar_pushes hmode hword hkeep hroom hclear hslot hload

/-- Pushing the operands of an expression. -/
theorem pushOperands_pushed (hmode : g.isGlobalMode = false) (he : WordExpr e)
    (hroom : s.free L + 24 ≤ L.limit)
    (hclear : ∀ r ∈ exprReads env L g.context s e, Clear L s r.1 r.2)
    (hslots : plainOperands env L g.context s e = some (x, y))
    (hgen : pushOperands env e g = some g') :
    ∃ code w, Emits g g' code (exprStrings env e) ∧ execCode L code s = some w ∧
      OperandsPushed L e s w x y := by
  simp only [plainOperands, bind_eq_some_iff] at hslots
  rcases hslots with ⟨x', hx, hslots⟩
  have hclear' : ∀ r ∈ operandReads env L g.context s e.l, Clear L s r.1 r.2 :=
    fun r hr => hclear r (List.mem_append_left _ hr)
  cases htwo : loadsTwo e with
  | false =>
    simp only [htwo, Bool.false_eq_true, if_false, some.injEq, Prod.mk.injEq] at hslots
    rcases hslots with ⟨rfl, rfl⟩
    simp only [pushOperands, htwo, Bool.false_eq_true, if_false] at hgen
    rcases pushOperand_pushes hmode he.left (by omega) hclear' hx hgen with
      ⟨code, hemits, -, -, w, hrun, hpushed⟩
    refine ⟨code, w, by simpa [exprStrings, htwo] using hemits, hrun, ?_⟩
    simpa [OperandsPushed, htwo] using hpushed
  | true =>
    simp only [htwo, if_true, map_eq_some_iff, Prod.mk.injEq] at hslots
    rcases hslots with ⟨y', hy, rfl, rfl⟩
    simp only [pushOperands, htwo, if_true, bind_eq_some_iff] at hgen
    rcases hgen with ⟨g1, hgen1, hgen2⟩
    rcases pushOperand_pushes hmode he.left (by omega) hclear' hx hgen1 with
      ⟨code, hemits, -, -, w', hrun, hpushed⟩
    have hcontext : g1.context = g.context.behind env e.l := by
      simp [GenState.context, LoadContext.behind, hemits.labels, hemits.image]
    have hclear'' : ∀ r ∈ operandReads env L (g.context.behind env e.l) s e.r, Clear L s r.1 r.2 :=
      fun r hr => hclear r (by simp [exprReads, htwo, hr])
    have hfree : w'.free L = s.free L + 8 := by
      simp only [State.free, hpushed.sp]
      omega
    rcases operandSlot_pushed hpushed hclear'' with ⟨hslot, hreads⟩
    have habove : ∀ r ∈ operandReads env L g1.context w' e.r, Clear L w' r.1 r.2 := by
      rw [hcontext, hreads]
      intro r hr
      rcases hclear'' r hr with hlow | hhigh
      · left
        omega
      · exact Or.inr hhigh
    rw [← hslot, ← hcontext] at hy
    rcases pushOperand_pushes hemits.mode (he.right htwo) (by omega) habove hy hgen2 with
      ⟨code', hemits', -, -, w, hrun', hpushed'⟩
    refine ⟨code ++ code', w, ?_, ?_, ?_⟩
    · simpa [exprStrings, htwo] using hemits.trans hemits'
    · rw [execCode_append, hrun]
      exact hrun'
    · simp only [OperandsPushed, htwo, if_true]
      exact ⟨w', hpushed, hpushed'⟩

theorem emitCode_emits (hmode : g.isGlobalMode = false) (code : List VmCode) :
    Emits g (emitCode code g) code [] := by
  induction code generalizing g with
  | nil => exact Emits.refl hmode
  | cons c code ih =>
    have hfirst := Emits.code hmode c
    have hall := hfirst.trans (ih hfirst.mode)
    rw [List.append_nil] at hall
    exact hall

/-- The code of an expression without elision leaves the slot of the expression. -/
theorem pushExpr_leaves (hmode : g.isGlobalMode = false) (he : WordExpr e)
    (hroom : s.free L + 24 ≤ L.limit)
    (hclear : ∀ r ∈ exprReads env L g.context s e, Clear L s r.1 r.2)
    (hslot : plainSlot env L g.context s e = some z) (hgen : pushExpr env e g = some g') :
    ∃ code w, Emits g g' code (exprStrings env e) ∧ execCode L code s = some w ∧
      Pushed L s w z := by
  simp only [plainSlot, bind_eq_some_iff] at hslot
  rcases hslot with ⟨⟨x, y⟩, hslots, hslot⟩
  simp only [pushExpr, bind_eq_some_iff, map_eq_some_iff] at hgen
  rcases hgen with ⟨g1, hgen, ops, hops, rfl⟩
  rcases pushOperands_pushed hmode he hroom hclear hslots hgen with
    ⟨code, w, hemits, hrun, hpushed⟩
  rcases he.left.word with ⟨i, hi⟩
  rcases he.word with ⟨j, hj⟩
  rcases operatorCode_runs hops hslot (by omega) (wordOf_kinds hi).2 (wordOf_kinds hj).2
    hpushed with ⟨w', hrun', hpushed'⟩
  refine ⟨code ++ ops, w', ?_, ?_, hpushed'⟩
  · simpa using hemits.trans (emitCode_emits hemits.mode ops)
  · rw [execCode_append, hrun]
    exact hrun'

end Kcs.Vm
