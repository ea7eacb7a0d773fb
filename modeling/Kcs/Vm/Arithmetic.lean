import Kcs.Vm.Branch

/-!
# Arithmetic on the virtual machine

The code of `+`, `-`, `*`, `/`, `%`, `&`, `|`, `^`, `<<`, `>>`, `~` and unary minus.  Every
instruction reads its operands in the low bytes of their slots, so that what an earlier
instruction has left above them does not matter.  The count of a shift is the exception: it is
read as an `int`, and `eval_expr` does not promote it.  It is loaded second and never taken
back from a store, and a load extends it.

Main results:

- Theorem {lit}`vmArithmetic_computes`: the emitted code leaves such a slot in place of the
  operands.
-/

namespace Kcs.Vm

open Option IntFormat

/-! ## Types and operands -/

/-- The count of a shift: an operand of any integer type.  A narrow one is not an address, and
a field is at most as wide as its type. -/
def CountOperand (v : Var) : Prop :=
  ∃ j, wordOf v.type = some j ∧ (j.format.width < 32 →
    v.kind ≠ .address ∧ (v.isField = true → v.fieldWidth ≤ j.format.width))

/-- The types with which `eval_expr` creates an arithmetic expression whose value is read at
{lit}`k`.  Operands and result have one promoted type, except that sums and differences may mix
pointers and integers of one size, and that the count of a shift keeps its own type. -/
def ArithmeticTypes (e : Expression) (k : CInteger) : Prop :=
  wordOf e.type = some k ∧ k.promote = k ∧
    match e.op with
    | .not | .neg => wordOf e.l.type = some k ∧ e.l.type.isPointerType = false
    | .shl | .shr =>
      wordOf e.l.type = some k ∧ e.type.isPointerType = false ∧ CountOperand e.r
    | .add | .sub =>
      ∃ i j, wordOf e.l.type = some i ∧ wordOf e.r.type = some j ∧
        i.format.width = k.format.width ∧ j.format.width = k.format.width
    | .mul | .div | .mod | .and | .or | .xor =>
      wordOf e.l.type = some k ∧ wordOf e.r.type = some k ∧ e.type.isPointerType = false
    | _ => False

/-- A slot that is correct in the low bytes of a type. -/
def SlotHolds (type : CType) (x : Nat) (a : Int) : Prop :=
  ∃ i, wordOf type = some i ∧ slotInt i x = a

section Held

variable (env : GenEnv) (L : Layout)

/-- The slots that the loads of the operands leave are correct in their low bytes. -/
def OperandsHeld (g : GenState) (c : VmCode) (s t : State) (e : Expression) : Prop :=
  if e.op.binaryOp.isSome then
    ∃ a b, pairValues env L (exprSwap env g e) g t e = some (a, b) ∧
      if (incdecSteps e).isSome then
        ∃ x, firstSlot env L g s t e.l = some x ∧ SlotHolds e.l.type x a
      else
        ∃ x y, pairSlots env L (exprSwap env g e) g c s t e = some (x, y) ∧
          SlotHolds e.l.type x a ∧ SlotHolds e.r.type y b
  else
    ∃ x a, firstSlot env L g s t e.l = some x ∧ operandInt env L g.context t e.l = some a ∧
      SlotHolds e.l.type x a

end Held

variable {env : GenEnv} {L : Layout} {g g' : GenState} {base : List VmCode} {c : VmCode}
  {s t : State} {e : Expression} {v : Var} {i j k : CInteger} {x y : Nat} {a b n : Int}

/-! ## Values of operands -/

variable {κ : LoadContext}

theorem operandInt_inRange (hword : wordOf v.type = some i)
    (hfield : v.isField = true → operandAddr env L κ t v = none)
    (ha : operandInt env L κ t v = some a) : i.format.InRange a := by
  have hword64 : ∀ m : Nat, m < 2 ^ 64 → CInteger.ulong.format.InRange m := by
    intro m hm
    rw [inRange_unsigned_iff rfl]
    exact ⟨by omega, by exact_mod_cast hm⟩
  cases hkind : v.kind with
  | immediate =>
    simp only [operandInt, hword, hkind, bind_some] at ha
    split at ha
    · rename_i hpointer
      rcases wordOf_cases hword with ⟨-, rfl⟩ | ⟨hp, -⟩
      · split at ha
        · split at ha
          · simp only [some.injEq] at ha
            rw [← ha]
            exact hword64 _ (toSlot_lt _)
          · cases ha
        · simp only [some.injEq] at ha
          rw [← ha]
          exact hword64 _ v.imm.lo.isLt
      · rw [hpointer] at hp
        cases hp
    · simp only [some.injEq] at ha
      rw [← ha]
      exact inRange_wrap _
  | address =>
    simp only [operandInt, hword, hkind, bind_some, map_eq_some_iff] at ha
    rcases ha with ⟨x, -, rfl⟩
    exact inRange_wrap _
  | direct | deref =>
    simp only [operandInt, hword, hkind, bind_some, map_eq_some_iff] at ha
    rcases ha with ⟨addr, haddr, rfl⟩
    have hplain : v.isField = false := by
      rw [Bool.eq_false_iff]
      intro htrue
      rw [hfield htrue] at haddr
      cases haddr
    rw [hplain, if_neg (by decide)]
    exact inRange_wrap _

/-! ## Counts -/

theorem slotInt_of_lt (hy : y < 2 ^ j.format.width) (hpos : 0 ≤ slotInt j y) :
    slotInt j y = y := by
  have hlt : slotInt j y < 2 ^ j.format.width := (inRange_wrap _).lt_pow_width
  have hmod : slotInt j y % 2 ^ j.format.width = y % 2 ^ j.format.width :=
    wrap_emod_width _
  rwa [Int.emod_eq_of_lt hpos hlt, Int.emod_eq_of_lt (by omega) (by exact_mod_cast hy)] at hmod

theorem slotInt_of_toSlot (hn : j.format.InRange n) (hy : toSlot n = y) (hpos : 0 ≤ slotInt j y) :
    slotInt j y = y := by
  subst hy
  rw [slotInt_toSlot, hn] at hpos ⊢
  have hlt : n < 2 ^ 64 := lt_of_lt_of_le hn.lt_pow_width
    (pow_le_pow_right₀ (by decide) j.format.width_le)
  rw [cast_toSlot, Int.emod_eq_of_lt hpos hlt]

theorem CountOperand.slot_eq (h : CountOperand v) (hword : wordOf v.type = some j)
    (hnarrow : j.format.width < 32) (hslot : operandSlot env L κ s v = some y)
    (hpos : 0 ≤ slotInt j y) : slotInt j y = y := by
  rcases h with ⟨j', hj', hcount⟩
  rw [hword, some.injEq] at hj'
  subst hj'
  rcases hcount hnarrow with ⟨hkind, hfield⟩
  have hpointer : v.type.isPointerType = false := by
    rcases wordOf_cases hword with ⟨-, rfl⟩ | ⟨hp, -⟩
    · exact absurd hnarrow (by decide)
    · exact hp
  simp only [operandSlot, isPointerConstant, hpointer, Bool.and_false, Bool.false_and,
    Bool.false_eq_true, if_false, hkind] at hslot
  split at hslot
  · rename_i hdirect
    rw [Bool.and_eq_true] at hdirect
    simp only [bind_eq_some_iff, ite_none_right_eq_some, some.injEq] at hslot
    rcases hslot with ⟨addr, -, -, hy⟩
    apply slotInt_of_lt _ hpos
    -- The masked field is smaller than two to its width.
    have hwidth : (2 : Int) ^ v.fieldWidth ≤ 2 ^ j.format.width :=
      pow_le_pow_right₀ (by decide) (hfield hdirect.1)
    have hlt := Int.emod_lt_of_pos (slotInt .int (s.mem.load addr 4) / 2 ^ v.fieldOffset)
      (show (0 : Int) < 2 ^ v.fieldWidth by positivity)
    have hlt' : (y : Int) < 2 ^ j.format.width := by
      rw [← hy, Int.toNat_of_nonneg (Int.emod_nonneg _ (by positivity))]
      exact hlt.trans_le hwidth
    exact_mod_cast hlt'
  · split at hslot
    · simp only [hword, bind_eq_some_iff, map_some, some.injEq] at hslot
      rcases hslot with ⟨addr, -, hy⟩
      exact slotInt_of_toSlot (inRange_wrap _) hy hpos
    · simp only [map_eq_some_iff] at hslot
      rcases hslot with ⟨m, hm, hy⟩
      refine slotInt_of_toSlot (operandInt_inRange hword ?_ hm) hy hpos
      intro htrue
      cases hcase : v.kind <;> simp_all [operandAddr]

theorem CountOperand.shiftCount_eq (h : CountOperand v)
    (hk : 32 ≤ k.format.width) (hslot : operandSlot env L κ s v = some y)
    (hheld : SlotHolds v.type y b) (hlo : 0 ≤ b) (hhi : b < 64) : shiftCount k y = b := by
  rcases hheld with ⟨j, hword, hb⟩
  have hint : CInteger.int.format.wrap b = b :=
    (inRange_signed_iff rfl b).mpr ⟨by show -2 ^ 31 ≤ b; omega, by show b < 2 ^ 31; omega⟩
  rw [shiftCount, if_neg (by omega)]
  by_cases hnarrow : j.format.width < 32
  · have hy := h.slot_eq hword hnarrow hslot (by omega)
    rw [← hy, hb, hint]
  · -- Wider counts agree with their slot in 32 bits.
    rw [← hint, ← hb]
    apply wrap_congr
    have hmod : slotInt j y % 2 ^ j.format.width = y % 2 ^ j.format.width :=
      wrap_emod_width _
    have hdvd : (2 : Int) ^ CInteger.int.format.width ∣ 2 ^ j.format.width :=
      pow_dvd_pow 2 (by show 32 ≤ _; omega)
    rw [← Int.emod_emod_of_dvd (y : Int) hdvd, ← hmod, Int.emod_emod_of_dvd _ hdvd]

/-! ## Plain operands -/

/-- An operand whose load is correct: neither a field nor a constant pointer. -/
def PlainOperand (v : Var) : Prop := v.isField = false ∧ isPointerConstant v = false

theorem PlainOperand.operandSlot_holds (h : PlainOperand v)
    (hword : wordOf v.type = some i) (ha : operandInt env L κ t v = some a) :
    ∃ x, operandSlot env L κ t v = some x ∧ slotInt i x = a := by
  rcases h with ⟨hfield, hconstant⟩
  by_cases hkind : v.kind = .address
  · have hslot : operandSlot env L κ t v = addressValue env L κ t v := by
      simp [operandSlot, hconstant, hfield, hkind]
    rw [hslot]
    simp only [operandInt, hword, hkind, bind_some] at ha
    cases hx : addressValue env L κ t v with
    | none => simp [hx] at ha
    | some x =>
      simp only [hx, map_some, some.injEq, pure_def, bind_eq_bind, bind_some] at ha
      exact ⟨x, rfl, ha⟩
  · refine ⟨toSlot a, by simp [operandSlot, hconstant, hfield, hkind, ha], ?_⟩
    rw [slotInt_toSlot]
    exact operandInt_inRange hword (by simp [hfield]) ha

theorem PlainOperand.firstSlot_holds (h : PlainOperand v) (hpoint : AtPoint L g base c s t)
    (hword : wordOf v.type = some i) (ha : operandInt env L g.context t v = some a) :
    ∃ x, firstSlot env L g s t v = some x ∧ slotInt i x = a := by
  unfold firstSlot
  split
  · rename_i hre
    refine ⟨_, rfl, ?_⟩
    rcases hpoint.reloads_iff hword hre with
      ⟨sym, addr, hsym, hkind, hfield, hop, htype, hd, hsize, haddr, -, -⟩
    have hn := byteSize_cases (byteSize_wordOf hword).1
    rcases execPop_eq hd htype hpoint.pop hop hsize hn hpoint.step with ⟨-, hbp, hgp, -, hload⟩
    simp only [operandInt, hword, hkind, operandAddr, hsym, hfield, bind_some,
      map_some, Bool.false_eq_true, if_false, some.injEq] at ha
    have hplace : varAddr L t (vmAddress env v sym 0) = varAddr L s addr := by
      rw [haddr s]
      simp only [varAddr, hbp, hgp]
    rw [← ha, hplace, hload hpoint.sp]
    have hpow : (256 : Nat) ^ byteSize i = 2 ^ i.format.width := by
      rw [← (byteSize_wordOf hword).2.1, pow_mul]
      rfl
    rw [hpow]
    apply wrap_congr
    push_cast
    exact (Int.emod_emod_of_dvd _ dvd_rfl).symm
  · exact h.operandSlot_holds hword ha

/-! ## Slots of results -/

theorem promote_of_width (hk : k.promote = k) (hwidth : i.format.width = k.format.width) :
    i.promote = i := by
  cases i <;> cases k <;>
    first | rfl | exact absurd hk (by decide) | exact absurd hwidth (by decide)

theorem width_of_promote (hk : k.promote = k) : 32 ≤ k.format.width := by
  cases k <;> first | decide | exact absurd hk (by decide)

theorem emod_of_slotInt (ha : slotInt i x = a) (hwidth : i.format.width = k.format.width) :
    a % 2 ^ k.format.width = x % 2 ^ k.format.width := by
  rw [← ha, ← hwidth]
  exact wrap_emod_width _

variable {o : CInteger.BinaryOp}

theorem binarySlot_sum {type : VmOptype} {m : CInteger}
    (ho : o = .add ∨ o = .sub) (hk : k.promote = k) (htype : optypeInteger type = some m)
    (hm : m.format.width = k.format.width) (hi : i.format.width = k.format.width)
    (hj : j.format.width = k.format.width) (ha : slotInt i x = a) (hb : slotInt j y = b)
    (hn : CInteger.binary o k (k.format.wrap a) (k.format.wrap b) = some n) :
    ∃ z, binarySlot o type x y = some z ∧ slotInt k z = n := by
  have hx : slotInt m x % 2 ^ k.format.width = k.format.wrap a % 2 ^ k.format.width := by
    rw [emod_of_slotInt rfl hm, wrap_emod_width, emod_of_slotInt ha hi]
  have hy : slotInt m y % 2 ^ k.format.width = k.format.wrap b % 2 ^ k.format.width := by
    rw [emod_of_slotInt rfl hm, wrap_emod_width, emod_of_slotInt hb hj]
  have hwrap : ∀ p q : Int, p % 2 ^ k.format.width = q % 2 ^ k.format.width →
      k.format.wrap (m.format.wrap p) = k.format.wrap q := by
    intro p q hpq
    apply wrap_congr
    rw [← hpq, ← hm]
    exact wrap_emod_width _
  rcases ho with rfl | rfl
  · simp only [CInteger.binary, some.injEq] at hn
    refine ⟨_, by simp [binarySlot, htype, CInteger.binary, promote_of_width hk hm]; rfl, ?_⟩
    rw [slotInt_toSlot, ← hn]
    exact hwrap _ _ (Int.ModEq.add hx hy)
  · simp only [CInteger.binary, some.injEq] at hn
    refine ⟨_, by simp [binarySlot, htype, CInteger.binary, promote_of_width hk hm]; rfl, ?_⟩
    rw [slotInt_toSlot, ← hn]
    exact hwrap _ _ (Int.ModEq.sub hx hy)

theorem binarySlot_same {type : VmOptype} (hk : k.promote = k)
    (htype : optypeInteger type = some k) (ho : o.isComparison = false) (ha : slotInt k x = a)
    (hb : (if o.isShift then shiftCount k y else slotInt k y) =
      if o.isShift then b else k.format.wrap b)
    (hn : CInteger.binary o k (k.format.wrap a) (if o.isShift then b else k.format.wrap b) =
      some n) :
    ∃ z, binarySlot o type x y = some z ∧ slotInt k z = n := by
  have hrange : k.format.InRange a := by
    rw [← ha]
    exact inRange_wrap _
  rw [hrange] at hn
  refine ⟨toSlot n, ?_, ?_⟩
  · simp [binarySlot, htype, hk, ha, hb, hn]
  · rw [slotInt_toSlot]
    exact CInteger.inRange_binary hrange ho hn

theorem incdecSlot_holds (hwidth : k.format.width = 32) (hi : i.format.width = k.format.width)
    (ha : slotInt i x = a) : slotInt k (incdecSlot x n) = k.format.wrap (k.format.wrap a + n) := by
  have hx := emod_of_slotInt ha hi
  have hwrap : k.format.wrap a % 2 ^ k.format.width = a % 2 ^ k.format.width :=
    wrap_emod_width _
  apply wrap_congr
  rw [hwidth] at hx hwrap ⊢
  have hpos := Int.emod_nonneg ((x : Int) + n) (show (2 ^ 32 : Int) ≠ 0 by decide)
  unfold incdecSlot
  push_cast [Int.toNat_of_nonneg hpos]
  omega

theorem operandInt_incdecCount (hcount : isIncdecCount v = true)
    (hword : wordOf v.type = some j) (hb : operandInt env L κ t v = some b) :
    b = v.imm.i ∧ j.format.width = 32 := by
  simp only [isIncdecCount, Bool.and_eq_true, decide_eq_true_eq] at hcount
  rcases hcount with ⟨⟨⟨hkind, htype⟩, hpos⟩, hmax⟩
  unfold vmIncdecCountMax at hmax
  have hpointer : v.type.isPointerType = false := by simp [CType.isPointerType, htype]
  have hwidth : j.format.width = 32 := by
    rcases wordOf_cases hword with ⟨hp, -⟩ | ⟨-, hop, -⟩
    · rw [hpointer] at hp
      cases hp
    · simp only [getVmOptype, htype] at hop
      split at hop <;> simp only [optypeInteger, some.injEq] at hop <;> subst hop <;> rfl
  refine ⟨?_, hwidth⟩
  simp only [operandInt, hword, bind_some, hkind, hpointer, Bool.false_eq_true, if_false,
    some.injEq] at hb
  have hrange : j.format.InRange v.imm.i := by
    cases hsigned : j.format.signed with
    | false =>
      rw [inRange_unsigned_iff hsigned, hwidth]
      omega
    | true =>
      rw [inRange_signed_iff hsigned, hwidth]
      omega
  rw [← hb, ← hrange]
  apply wrap_congr
  apply emod_width_of_emod_word
  have hcast := BitVec.toInt_eq_toNat_bmod v.imm.lo
  rw [Value.u, Value.i, hcast]
  exact (Int.bmod_emod (x := (v.imm.lo.toNat : Int)) (m := 2 ^ 64)).symm

/-! ## Expressions -/

theorem exprInt_binary (hop : e.op.binaryOp = some o)
    (hcmp : o.isComparison = false) (hword : wordOf e.type = some k)
    (hvalues : pairValues env L (exprSwap env g e) g t e = some (a, b)) :
    exprInt env L g t e =
      CInteger.binary o k (k.format.wrap a) (if o.isShift then b else k.format.wrap b) := by
  unfold exprInt
  cases hcase : e.op <;> simp [hcase, OpType.binaryOp] at hop <;> subst hop <;>
    simp_all [OpType.binaryOp, CInteger.BinaryOp.isComparison]

theorem unarySlot_holds {o : CInteger.UnaryOp} (hword : wordOf e.l.type = some k)
    (hpointer : e.l.type.isPointerType = false) (hk : k.promote = k) (ha : slotInt k x = a) :
    ∃ z, unarySlot o (getVmOptype e.l.type) x = some z ∧ slotInt k z = CInteger.unary o k a := by
  have htype : optypeInteger (getVmOptype e.l.type) = some k := by
    rcases wordOf_cases hword with ⟨hp, -⟩ | ⟨-, htype, -⟩
    · rw [hpointer] at hp
      cases hp
    · exact htype
  refine ⟨_, by rw [unarySlot, htype]; rfl, ?_⟩
  rw [slotInt_toSlot, hk, ha]
  exact CInteger.inRange_unary _ _ _

theorem ArithmeticTypes.binary_cases (env : GenEnv) (g : GenState)
    (hop : e.op.binaryOp = some o) (h : ArithmeticTypes e k) :
    o.isComparison = false ∧ exprOptype e = getVmOptype e.type ∧
      (((o = .add ∨ o = .sub) ∧ ∃ i j, wordOf e.l.type = some i ∧ wordOf e.r.type = some j ∧
          i.format.width = k.format.width ∧ j.format.width = k.format.width) ∨
        (incdecSteps e = none ∧ wordOf e.l.type = some k ∧ e.type.isPointerType = false ∧
          if o.isShift then exprSwap env g e = false ∧ CountOperand e.r
          else wordOf e.r.type = some k)) := by
  rcases h with ⟨-, -, h⟩
  cases hcase : e.op with
  | cast | call | vaArg | not | neg => simp [hcase, OpType.binaryOp] at hop
  | eq | ne | ge | gt => simp [hcase] at h
  | _ =>
    simp only [hcase, OpType.binaryOp, some.injEq] at hop h
    subst hop
    simp_all [CInteger.BinaryOp.isComparison, exprOptype, incdecSteps, exprSwap,
      CInteger.BinaryOp.isShift]

theorem steps_holds {m : Int} (hop : e.op.binaryOp = some o)
    (hsteps : incdecSteps e = some m) (hj : wordOf e.r.type = some j)
    (hwidth : i.format.width = k.format.width) (hwidth' : j.format.width = k.format.width)
    (ha : slotInt i x = a)
    (hvalues : pairValues env L (exprSwap env g e) g t e = some (a, b))
    (hn : CInteger.binary o k (k.format.wrap a) (if o.isShift then b else k.format.wrap b) =
      some n) : slotInt k (incdecSlot x m) = n := by
  have hcount : isIncdecCount e.r = true := by
    unfold incdecSteps at hsteps
    split at hsteps
    · assumption
    · cases hsteps
  simp only [pairValues, bind_eq_some_iff, map_eq_some_iff, Prod.mk.injEq] at hvalues
  rcases hvalues with ⟨a', -, b', hb, -, rfl⟩
  rcases operandInt_incdecCount hcount hj hb with ⟨rfl, h32⟩
  rw [incdecSlot_holds (hwidth' ▸ h32) hwidth ha]
  have hwrap := wrap_emod_width (f := k.format) e.r.imm.i
  simp only [incdecSteps, hcount, if_true] at hsteps
  cases hcase : e.op <;> simp only [hcase, some.injEq, reduceCtorEq] at hsteps
  · simp only [hcase, OpType.binaryOp, some.injEq] at hop
    subst hop hsteps
    simp only [CInteger.binary, CInteger.BinaryOp.isShift, Bool.false_eq_true, if_false,
      some.injEq] at hn
    rw [← hn]
    exact wrap_congr (Int.ModEq.add_left _ hwrap).symm
  · simp only [hcase, OpType.binaryOp, some.injEq] at hop
    subst hop hsteps
    simp only [CInteger.binary, CInteger.BinaryOp.isShift, Bool.false_eq_true, if_false,
      some.injEq] at hn
    rw [← hn, ← sub_eq_add_neg]
    exact wrap_congr (Int.ModEq.sub_left _ hwrap).symm

/-- The slot of an arithmetic operator on two operands. -/
theorem binaryExpr_holds (hop : e.op.binaryOp = some o)
    (htypes : ArithmeticTypes e k) (hheld : OperandsHeld env L g c s t e)
    (hvalue : exprInt env L g t e = some n) :
    ∃ z, exprSlot env L g c s t e = some z ∧ slotInt k z = n := by
  rcases htypes.binary_cases env g hop with ⟨hcmp, hoptype, hcases⟩
  rcases htypes with ⟨hword, hk, -⟩
  simp only [OperandsHeld, hop, isSome_some, if_true] at hheld
  rcases hheld with ⟨a, b, hvalues, hheld⟩
  rw [exprInt_binary hop hcmp hword hvalues] at hvalue
  rw [exprSlot_binary hop]
  cases hsteps : incdecSteps e with
  | some m =>
    simp only [hsteps, isSome_some, if_true] at hheld
    rcases hheld with ⟨x, hx, i, hi, ha⟩
    rcases hcases with ⟨-, i', j, hi', hj, hwidth, hwidth'⟩ | ⟨hnone, -⟩
    · rw [hi, some.injEq] at hi'
      subst hi'
      exact ⟨_, by simp [hx], steps_holds hop hsteps hj hwidth hwidth' ha hvalues hvalue⟩
    · rw [hsteps] at hnone
      cases hnone
  | none =>
    simp only [hsteps, isSome_none, Bool.false_eq_true, if_false] at hheld
    rcases hheld with ⟨x, y, hslots, ⟨i, hi, ha⟩, j, hj, hb⟩
    simp only [hslots, bind_some, hoptype]
    rcases hcases with ⟨ho, i', j', hi', hj', hwidth, hwidth'⟩ | ⟨-, hl, hpointer, hr⟩
    · rw [hi, some.injEq] at hi'
      rw [hj, some.injEq] at hj'
      subst hi' hj'
      rcases optypeInteger_wordOf hword with ⟨m, htype, hm⟩
      have hshift : o.isShift = false := by rcases ho with rfl | rfl <;> rfl
      rw [hshift, if_neg (by decide)] at hvalue
      exact binarySlot_sum ho hk htype hm hwidth hwidth' ha hb hvalue
    · rw [hi, some.injEq] at hl
      subst hl
      have htype : optypeInteger (getVmOptype e.type) = some i := by
        rcases wordOf_cases hword with ⟨hp, -⟩ | ⟨-, htype, -⟩
        · rw [hpointer] at hp
          cases hp
        · exact htype
      refine binarySlot_same hk htype hcmp ha ?_ hvalue
      cases hshift : o.isShift with
      | false =>
        simp only [hshift, Bool.false_eq_true, if_false] at hr ⊢
        rw [hj, some.injEq] at hr
        subst hr
        rw [hb, ← hb]
        exact (inRange_wrap _).symm
      | true =>
        simp only [hshift, if_true] at hr hvalue ⊢
        rcases hr with ⟨hswap, hcount⟩
        simp only [hswap, pairSlots, Bool.false_eq_true, if_false, bind_eq_some_iff,
          map_eq_some_iff, Prod.mk.injEq] at hslots
        rcases hslots with ⟨x', -, y', hy, -, rfl⟩
        have hbounds : 0 ≤ b ∧ b < i.format.width := by
          cases o <;> first | cases hshift; done | skip
          · simp only [CInteger.binary, ite_none_right_eq_some] at hvalue
            exact hvalue.1
          · simp only [CInteger.binary, ite_none_right_eq_some] at hvalue
            exact hvalue.1
        have h64 := i.format.width_le
        exact hcount.shiftCount_eq (width_of_promote hk) hy ⟨j, hj, hb⟩ hbounds.1 (by omega)

theorem exprSlot_holds (htypes : ArithmeticTypes e k) (hheld : OperandsHeld env L g c s t e)
    (hvalue : exprInt env L g t e = some n) :
    ∃ z, exprSlot env L g c s t e = some z ∧ slotInt k z = n := by
  cases hop : e.op.binaryOp with
  | some o => exact binaryExpr_holds hop htypes hheld hvalue
  | none =>
    rcases htypes with ⟨hword, hk, htypes⟩
    simp only [OperandsHeld, hop, isSome_none, Bool.false_eq_true, if_false] at hheld
    rcases hheld with ⟨x, a, hx, ha, i, hi, hslot⟩
    cases hcase : e.op with
    | not | neg =>
      simp only [hcase] at htypes
      rw [htypes.1, some.injEq] at hi
      subst hi
      simp only [exprInt, hcase, ha, hword, bind_some, map_some, some.injEq] at hvalue
      simp only [exprSlot, hcase, hx, bind_some, ← hvalue]
      exact unarySlot_holds htypes.1 htypes.2 hk hslot
    | _ => simp_all [OpType.binaryOp]

/-! ## Emitted code -/

section Computes

variable (env : GenEnv) (L : Layout)

/-- The emitted code computes a value: it leaves a slot that is correct in the low bytes of the
type of the expression, and takes what it pushed besides.  Nothing below changes but the bytes
of an operand that is taken back from its store. -/
def Computes (base : List VmCode) (s t : State) (e : Expression) (g g' : GenState) (n : Int) :
    Prop :=
  ∃ code u, g'.prog = base ++ code ∧ execCode L code s = some u ∧
    SlotHolds e.type (u.top L) n ∧ u.sp = t.sp + 8 ∧ u.bp = t.bp ∧ u.gp = t.gp ∧
    ∀ b, b < t.free L ∨ L.limit ≤ b →
      (∀ i a, wordOf (firstOperand env g e).type = some i →
        operandAddr env L g.context t (firstOperand env g e) = some a →
          b < a ∨ a + byteSize i ≤ b) →
      u.mem b = t.mem b

end Computes

theorem ArithmeticTypes.operands (h : ArithmeticTypes e k) :
    e.op ≠ .call ∧ (∃ i, wordOf e.l.type = some i) ∧
      (e.op.binaryOp ≠ none → ∃ j, wordOf e.r.type = some j) := by
  rcases h with ⟨-, -, h⟩
  cases hcase : e.op with
  | cast | call | vaArg | eq | ne | ge | gt => simp [hcase] at h
  | not | neg =>
    simp only [hcase] at h
    exact ⟨by simp, ⟨k, h.1⟩, by simp [OpType.binaryOp]⟩
  | shl | shr =>
    simp only [hcase] at h
    rcases h with ⟨hl, -, j, hj, -⟩
    exact ⟨by simp, ⟨k, hl⟩, fun _ => ⟨j, hj⟩⟩
  | add | sub =>
    simp only [hcase] at h
    rcases h with ⟨i, j, hi, hj, -⟩
    exact ⟨by simp, ⟨i, hi⟩, fun _ => ⟨j, hj⟩⟩
  | mul | div | mod | and | or | xor =>
    simp only [hcase] at h
    exact ⟨by simp, ⟨k, h.1⟩, fun _ => ⟨k, h.2.1⟩⟩

section Plain

variable (env) (L) (g) (c) (s) (t) (e)

/-- The operand that is loaded second is read as it is in the state before the loads: the store
of the first operand, if it is a temporary, may have been dropped. -/
def SecondKept : Prop :=
  let first := if exprSwap env g e then e.r else e.l
  let second := if exprSwap env g e then e.l else e.r
  ∀ κ, operandInt env L κ (secondState env L g c s t first) second = operandInt env L κ t second

end Plain

theorem pairSlots_of_plain (hpoint : AtPoint L g base c s t) (hi : wordOf e.l.type = some i)
    (hj : wordOf e.r.type = some j) (hl : PlainOperand e.l) (hr : PlainOperand e.r)
    (hkept : SecondKept env L g c s t e)
    (hvalues : pairValues env L (exprSwap env g e) g t e = some (a, b)) :
    ∃ x y, pairSlots env L (exprSwap env g e) g c s t e = some (x, y) ∧
      SlotHolds e.l.type x a ∧ SlotHolds e.r.type y b := by
  simp only [pairValues, bind_eq_some_iff, map_eq_some_iff, Prod.mk.injEq] at hvalues
  rcases hvalues with ⟨a', ha, b', hb, rfl, rfl⟩
  unfold SecondKept at hkept
  unfold pairSlots
  cases hswap : exprSwap env g e with
  | true =>
    simp only [hswap, if_true] at ha hb hkept ⊢
    rcases hr.firstSlot_holds hpoint hj hb with ⟨y, hy, hyb⟩
    rw [← hkept] at ha
    rcases hl.operandSlot_holds hi ha with ⟨x, hx, hxa⟩
    exact ⟨x, y, by simp [hx, hy], ⟨i, hi, hxa⟩, j, hj, hyb⟩
  | false =>
    simp only [hswap, Bool.false_eq_true, if_false] at ha hb hkept ⊢
    rcases hl.firstSlot_holds hpoint hi ha with ⟨x, hx, hxa⟩
    rw [← hkept] at hb
    rcases hr.operandSlot_holds hj hb with ⟨y, hy, hyb⟩
    exact ⟨x, y, by simp [hx, hy], ⟨i, hi, hxa⟩, j, hj, hyb⟩

theorem secondContext_incdecCount (hcount : isIncdecCount v = true) :
    secondContext env g v = g.context := by
  simp only [isIncdecCount, Bool.and_eq_true, decide_eq_true_eq] at hcount
  have hpointer : v.type.isPointerType = false := by simp [CType.isPointerType, hcount.1.1.2]
  simp [secondContext, GenState.context, loadedString, hcount.1.1.1, hpointer]

theorem ArithmeticTypes.values (h : ArithmeticTypes e k) (hvalue : exprInt env L g t e = some n) :
    if e.op.binaryOp.isSome then
      ∃ a b, pairValues env L (exprSwap env g e) g t e = some (a, b)
    else ∃ a, operandInt env L g.context t e.l = some a := by
  rcases h with ⟨-, -, h⟩
  cases hcase : e.op with
  | cast | call | vaArg | eq | ne | ge | gt => simp [hcase] at h
  | not | neg =>
    simp only [exprInt, hcase, bind_eq_some_iff] at hvalue
    rcases hvalue with ⟨a, ha, -⟩
    exact ⟨a, ha⟩
  | _ =>
    simp only [exprInt, hcase, OpType.binaryOp, bind_some, bind_eq_some_iff] at hvalue
    rcases hvalue with ⟨⟨a, b⟩, hvalues, -⟩
    exact ⟨a, b, hvalues⟩

theorem operandsHeld_of_plain (hpoint : AtPoint L g base c s t) (htypes : ArithmeticTypes e k)
    (hl : PlainOperand e.l) (hr : PlainOperand e.r) (hkept : SecondKept env L g c s t e)
    (hvalue : exprInt env L g t e = some n) : OperandsHeld env L g c s t e := by
  rcases htypes.operands with ⟨-, ⟨i, hi⟩, hj⟩
  have hvalues := htypes.values hvalue
  unfold OperandsHeld
  cases hop : e.op.binaryOp with
  | none =>
    simp only [hop, isSome_none, Bool.false_eq_true, if_false] at hvalues ⊢
    rcases hvalues with ⟨a, ha⟩
    rcases hl.firstSlot_holds hpoint hi ha with ⟨x, hx, hslot⟩
    exact ⟨x, a, hx, ha, i, hi, hslot⟩
  | some o =>
    simp only [hop, isSome_some, if_true] at hvalues ⊢
    rcases hj (by simp [hop]) with ⟨j, hj⟩
    rcases hvalues with ⟨a, b, hvalues⟩
    refine ⟨a, b, hvalues, ?_⟩
    split
    · rename_i hsteps
      have hcount : isIncdecCount e.r = true := by
        unfold incdecSteps at hsteps
        split at hsteps
        · assumption
        · cases hsteps
      simp only [pairValues, secondContext_incdecCount hcount, ite_self, bind_eq_some_iff,
        map_eq_some_iff, Prod.mk.injEq] at hvalues
      rcases hvalues with ⟨a', ha, b', -, rfl, -⟩
      rcases hl.firstSlot_holds hpoint hi ha with ⟨x, hx, hslot⟩
      exact ⟨x, hx, i, hi, hslot⟩
    · exact pairSlots_of_plain hpoint hi hj hl hr hkept hvalues

/-- The code of an arithmetic expression computes its value, whatever is above the low bytes of
the slots of its operands. -/
theorem vmArithmetic_computes (env : GenEnv) (L : Layout) (e : Expression) (g g' : GenState)
    (base : List VmCode) (c : VmCode) (s t : State) (k : CInteger) (n : Int)
    (hpoint : AtPoint L g base c s t) (htypes : ArithmeticTypes e k)
    (hclear : ExprClear env L g c s t e) (hheld : OperandsHeld env L g c s t e)
    (hvalue : exprInt env L g t e = some n) (hgen : vmGenExpr env e g = some g') :
    Computes env L base s t e g g' n := by
  rcases htypes.operands with ⟨hcall, hl, hr⟩
  rcases exprSlot_holds htypes hheld hvalue with ⟨z, hz, hslot⟩
  rcases vmGenExpr_leaves hpoint hcall hl hr (wordOf_kinds htypes.1).2 hclear hz hgen with
    ⟨-, -, code, u, hprog, hrun, hpushed⟩
  have hfirst : ∃ i, wordOf (firstOperand env g e).type = some i := by
    unfold firstOperand
    split
    · rename_i hswap
      exact hr (by intro hnone; simp [hnone] at hswap)
    · exact hl
  rcases hfirst with ⟨i, hi⟩
  rcases hpoint.secondState_frame hi with ⟨hsp, hbp, hgp, hmem⟩
  refine ⟨code, u, hprog, hrun, ⟨k, htypes.1, hpushed.top ▸ hslot⟩, ?_, ?_, ?_, ?_⟩
  · rw [hpushed.sp, hsp]
  · rw [hpushed.bp, hbp]
  · rw [hpushed.gp, hgp]
  · intro b hb hkeep
    rw [hpushed.mem b (by simpa only [State.free, hsp] using hb)]
    exact hmem b fun a ha => hkeep i a hi ha

/-- `x + 1` is computed for `x = -1`, although the upper half of the slot is not zero. -/
theorem vmArithmetic_computes_successor :
    Computes sampleEnv sampleLayout [] (sampleState (longMemory 4294967295))
      (sampleState (longMemory 4294967295)) intSuccessor sampleGen
      ((vmGenExpr sampleEnv intSuccessor sampleGen).getD {}) 0 :=
  vmArithmetic_computes sampleEnv sampleLayout intSuccessor sampleGen _ [] _ _ _ .int 0
    (sample_atPoint (longMemory 4294967295)) ⟨rfl, rfl, .int, .int, rfl, rfl, rfl, rfl⟩
    (show ∀ r ∈ operandReads sampleEnv sampleLayout sampleGen.context
      (sampleState (longMemory 4294967295)) (sampleVar 0 basicTypeInt),
      Clear sampleLayout (sampleState (longMemory 4294967295)) r.1 r.2 by decide)
    (operandsHeld_of_plain (sample_atPoint (longMemory 4294967295))
      ⟨rfl, rfl, .int, .int, rfl, rfl, rfl, rfl⟩ ⟨rfl, rfl⟩ ⟨rfl, rfl⟩ (fun _ => rfl) rfl)
    rfl rfl

end Kcs.Vm
