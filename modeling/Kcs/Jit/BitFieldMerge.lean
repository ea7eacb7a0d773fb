import Kcs.Jit.BitFieldRun

/-!
# The bits of a bit-field in machine code

The part of `store_op` that puts the bits of a field into its storage unit.

Main results:

- Lemma {lit}`bitwiseImmReg_spec`: on eight bytes a constant operation is one on four.
- Lemmas {lit}`mergeField_imm` and {lit}`mergeField_reg`: the bits of the storage unit that are
  stored.
-/

namespace Kcs.Jit

open BitVec
open X86 (Machine)

/-! ## Merging the bits of a field -/

section Merge

variable {link : Link} {m : Machine} {v : Var}

theorem execute_append_none {code code' : List Instruction} (h : execute link code m = none) :
    execute link (code ++ code') m = none := by
  unfold execute at h ⊢
  rw [List.foldlM_append, h]
  rfl

/-- A bit of the field. -/
def inField (v : Var) (i : Nat) : Bool := v.fieldOffset ≤ i && i < v.fieldOffset + v.fieldWidth

theorem getLsbD_fieldMask (hwidth : v.fieldWidth < 64) {i : Nat} (hi : i < 64) :
    (fieldMask v).getLsbD i = inField v i := by
  have hones : ∀ k < 64, ((1#64 <<< v.fieldWidth) - 1#64).getLsbD k = decide (k < v.fieldWidth) := by
    intro k hk
    have hpow : 2 ^ v.fieldWidth < 2 ^ 64 := Nat.pow_lt_pow_right (by decide) hwidth
    have hone : (1#64 <<< v.fieldWidth).toNat = 2 ^ v.fieldWidth := by
      rw [toNat_shiftLeft, Nat.shiftLeft_eq]
      simp only [toNat_ofNat]
      omega
    have hnat : ((1#64 <<< v.fieldWidth) - 1#64).toNat = 2 ^ v.fieldWidth - 1 := by
      have hpos : 0 < 2 ^ v.fieldWidth := by positivity
      rw [toNat_sub_of_le, hone]
      · rfl
      · rw [le_def, hone]
        exact hpos
    rw [BitVec.getLsbD, hnat, Nat.testBit_two_pow_sub_one]
  unfold fieldMask inField
  rw [getLsbD_shiftLeft]
  by_cases hle : v.fieldOffset ≤ i
  · rw [hones _ (by omega)]
    simp only [hi, hle, decide_true, Bool.true_and, not_lt.mpr hle, decide_false, Bool.not_false]
    congr 1
    simp only [eq_iff_iff]
    omega
  · simp [hle, Nat.lt_of_not_le hle]

/-- A bitwise operation on one bit. -/
def bitOp (op : X86.BitOp) (x y : Bool) : Bool :=
  match op with
  | .or => x || y
  | .and => x && y

theorem getLsbD_eval (op : X86.BitOp) (x y : BitVec 64) (i : Nat) :
    (op.eval x y).getLsbD i = bitOp op (x.getLsbD i) (y.getLsbD i) := by
  cases op
  · exact getLsbD_or
  · exact getLsbD_and

/-- The width of the constant that `bitwise_imm_reg` emits. -/
def immWidth (w : Nat) : Nat := if w = 8 then 4 else w

/-- `bitwise_imm_reg`: on eight bytes the operation is one on four, which clears the upper half
of the register, and a constant that needs more than four bytes is not encoded. -/
theorem bitwiseImmReg_spec {opc : Opcode} {op : X86.BitOp} {code : X86.Byte} {f w : Nat} {r : Reg}
    (hopc : bitOf opc = some (op, code, f)) (hw : IsWidth w) (hr11 : r ≠ .r11)
    (hr : w = 1 → r.number < 4 ∨ 8 ≤ r.number) (q : BitVec 64) :
    ∃ code, bitwiseImmReg opc (constant q w) ⟨r, w⟩ = some code ∧
      ((w = 8 → in32BitRange q = true) → ∀ link m, ∃ m', execute link code m = some m' ∧
        KeepsOthers [r.number] m m' ∧
        ∀ i < 8 * w, (m'.reg r.number).getLsbD i =
          (decide (i < 8 * immWidth w) && bitOp op ((m.reg r.number).getLsbD i) (q.getLsbD i))) ∧
      (w = 8 → in32BitRange q = false → ∀ link m, execute link code m = none) := by
  have hgood : ∀ link m, ∃ m',
      execute link [⟨opc, .immReg ⟨immWidth w, q⟩ ⟨r, w⟩⟩] m = some m' ∧
        KeepsOthers [r.number] m m' ∧
        ∀ i < 8 * w, (m'.reg r.number).getLsbD i =
          (decide (i < 8 * immWidth w) && bitOp op ((m.reg r.number).getLsbD i) (q.getLsbD i)) := by
    intro link m
    have hv : immWidth w = 1 ∨ immWidth w = 2 ∨ immWidth w = 4 := by
      rcases hw with rfl | rfl | rfl | rfl <;> decide
    have hle : immWidth w ≤ w := by
      rcases hw with rfl | rfl | rfl | rfl <;> decide
    have hone : immWidth w = 1 → w = 1 ∧ (r.number < 4 ∨ 8 ≤ r.number) := by
      intro h1
      have hw1 : w = 1 := by
        rcases hw with rfl | rfl | rfl | rfl <;> first | rfl | exact absurd h1 (by decide)
      exact ⟨hw1, hr hw1⟩
    rcases meaning_bitwise_immReg link q hopc hv hle hone with ⟨imm, himm, hbits⟩
    refine ⟨_, execute_singleton himm, keepsOthers_writeReg _ _ _ _, ?_⟩
    intro i hi
    have hi64 : i < 64 := by
      rcases hw with rfl | rfl | rfl | rfl <;> omega
    show ((X86.writeReg m _ _ _).reg _).getLsbD i = _
    rw [X86.writeReg_self, X86.getLsbD_merge]
    by_cases hlow : i < 8 * immWidth w
    · rw [if_pos hlow, getLsbD_eval, hbits i hlow, X86.getLsbD_read_reg, decide_eq_true hlow,
        Bool.true_and, Bool.true_and]
    · have h4 : ¬immWidth w < 4 := by
        rcases hw with rfl | rfl | rfl | rfl <;> simp_all [immWidth]
      rw [if_neg hlow, decide_eq_false h4, decide_eq_false hlow, Bool.false_and, Bool.false_and]
  by_cases h8 : w = 8
  · subst h8
    by_cases hrange : in32BitRange q = true
    · refine ⟨[⟨opc, .immReg ⟨4, q⟩ ⟨r, 8⟩⟩], by simp [bitwiseImmReg, hr11, constant, hrange],
        fun _ => hgood, ?_⟩
      intro _ h
      simp [hrange] at h
    · refine ⟨_, by simp [bitwiseImmReg, hr11, constant, hrange]; rfl, ?_, ?_⟩
      · intro h
        exact absurd (h rfl) hrange
      · intro _ _ link m
        rfl
  · have himm : immWidth w = w := if_neg h8
    rw [himm] at hgood
    rw [himm]
    exact ⟨[⟨opc, .immReg ⟨w, q⟩ ⟨r, w⟩⟩], by simp [bitwiseImmReg, hr11, constant, h8],
      fun _ => hgood, fun h => absurd h h8⟩

/-- Registers whose values `store_op` stores. -/
def storeRegisters : List Reg := [.ax, .dx, .bx, .r12, .r13, .r14, .r15]

/-- The register of an operand. -/
def StoreOperand.register : StoreOperand → Reg
  | .imm _ => .cx
  | .reg r => r

/-- An operand that the callers of `store_op` pass. -/
def StoreOperand.Allowed : StoreOperand → Prop
  | .imm _ => True
  | .reg r => r ∈ storeRegisters

/-- The value of an operand. -/
def StoreOperand.value (m : Machine) : StoreOperand → BitVec 64
  | .imm n => n
  | .reg r => m.reg r.number

/-- For a type of eight bytes the constants have to fit four. -/
def Encodes (v : Var) (op : StoreOperand) : Prop :=
  v.type.scalarSize = 8 → in32BitRange (~~~fieldMask v) = true ∧
    match op with
    | .imm n => (n <<< v.fieldOffset) &&& fieldMask v ≠ 0 →
      in32BitRange ((n <<< v.fieldOffset) &&& fieldMask v) = true
    | .reg _ => in32BitRange (fieldMask v) = true

/-- A bit of the storage unit as it is stored: on eight bytes the upper half is cleared. -/
def storedBit (v : Var) (unit x : BitVec 64) (i : Nat) : Bool :=
  decide (i < 8 * immWidth v.type.scalarSize) &&
    if inField v i then x.getLsbD (i - v.fieldOffset) else unit.getLsbD i

/-- The effect of merging a field into the unit in `rcx`. -/
def Merges (v : Var) (op : StoreOperand) (code : List Instruction) : Prop :=
  (Encodes v op → ∀ link m, ∃ m', execute link code m = some m' ∧
    KeepsOthers [1, op.register.number] m m' ∧
    ∀ i < 8 * v.type.scalarSize, (m'.reg op.register.number).getLsbD i =
      storedBit v (m.reg 1) (op.value m) i) ∧
  (¬Encodes v op → ∀ link m, execute link code m = none)

theorem bitOf_and : bitOf .and = some (.and, 0x20#8, 4) := rfl

theorem bitOf_or : bitOf .or = some (.or, 0x08#8, 1) := rfl

theorem IsWidth.le {w : Nat} (hw : IsWidth w) : w ≤ 8 := by
  rcases hw with rfl | rfl | rfl | rfl <;> decide

theorem getLsbD_shifted (hwidth : v.fieldWidth < 64) (n : BitVec 64) {i : Nat} (hi : i < 64) :
    ((n <<< v.fieldOffset) &&& fieldMask v).getLsbD i =
      (inField v i && n.getLsbD (i - v.fieldOffset)) := by
  rw [getLsbD_and, getLsbD_fieldMask hwidth hi, getLsbD_shiftLeft]
  unfold inField
  by_cases hle : v.fieldOffset ≤ i
  · simp [hi, hle, Nat.not_lt.mpr hle, Bool.and_comm]
  · simp [hle]

/-- A constant is merged. -/
theorem mergeField_imm (hw : IsWidth v.type.scalarSize) (hwidth : v.fieldWidth < 64)
    (n : BitVec 64) :
    ∃ code, mergeField (.imm n) v = some (code, ⟨.cx, v.type.scalarSize⟩) ∧
      Merges v (.imm n) code := by
  have hle := hw.le
  rcases bitwiseImmReg_spec (r := .cx) bitOf_and hw (by decide) (fun _ => Or.inl (by decide))
    (~~~fieldMask v) with ⟨clear, hclear, hgood1, hbad1⟩
  rcases bitwiseImmReg_spec (r := .cx) bitOf_or hw (by decide) (fun _ => Or.inl (by decide))
    ((n <<< v.fieldOffset) &&& fieldMask v) with ⟨set, hset, hgood2, hbad2⟩
  by_cases hzero : (n <<< v.fieldOffset) &&& fieldMask v = 0#64
  · refine ⟨clear ++ [], ?_, ?_, ?_⟩
    · simp [mergeField, hclear, hzero]
    · intro henc link m
      rcases hgood1 (fun h8 => (henc h8).1) link m with ⟨m', hrun, hkeeps, hbits⟩
      refine ⟨m', by rw [List.append_nil]; exact hrun, hkeeps.mono (by simp [Reg.number]), ?_⟩
      intro i hi
      have hbit := getLsbD_shifted hwidth n (show i < 64 by omega)
      rw [hzero, getLsbD_zero] at hbit
      show (m'.reg Reg.cx.number).getLsbD i = _
      rw [hbits i hi, storedBit, getLsbD_not, getLsbD_fieldMask hwidth (by omega),
        decide_eq_true (show i < 64 by omega)]
      cases hin : inField v i
      · simp [bitOp, Reg.number]
      · simp [hin] at hbit
        simp [bitOp, StoreOperand.value, hbit]
    · intro henc link m
      have hbad : v.type.scalarSize = 8 ∧ in32BitRange (~~~fieldMask v) = false := by
        by_contra hnot
        apply henc
        intro h8
        exact ⟨by simpa [h8] using hnot, fun hne => absurd hzero hne⟩
      exact execute_append_none (hbad1 hbad.1 hbad.2 link m)
  · refine ⟨clear ++ set, ?_, ?_, ?_⟩
    · simp [mergeField, hclear, hzero, hset]
    · intro henc link m
      rcases hgood1 (fun h8 => (henc h8).1) link m with ⟨m1, hrun1, hkeeps1, hbits1⟩
      rcases hgood2 (fun h8 => (henc h8).2 hzero) link m1 with ⟨m2, hrun2, hkeeps2, hbits2⟩
      refine ⟨m2, (execute_append hrun1).trans hrun2,
        (hkeeps1.trans hkeeps2).mono (by simp [Reg.number]), ?_⟩
      intro i hi
      show (m2.reg Reg.cx.number).getLsbD i = _
      rw [hbits2 i hi, hbits1 i hi, storedBit, getLsbD_not,
        getLsbD_fieldMask hwidth (by omega), getLsbD_shifted hwidth n (by omega),
        decide_eq_true (show i < 64 by omega)]
      cases inField v i <;> cases decide (i < 8 * immWidth v.type.scalarSize) <;>
        simp [bitOp, StoreOperand.value, Reg.number]
    · intro henc link m
      unfold Encodes at henc
      simp only [Classical.not_imp, not_and_or, Bool.not_eq_true] at henc
      rcases henc with ⟨h8, hbad | ⟨-, hbad⟩⟩
      · exact execute_append_none (hbad1 h8 hbad link m)
      · by_cases hrange : in32BitRange (~~~fieldMask v) = true
        · rcases hgood1 (fun _ => hrange) link m with ⟨m1, hrun1, -, -⟩
          exact (execute_append hrun1).trans (hbad2 h8 hbad link m1)
        · exact execute_append_none (hbad1 h8 (by simpa using hrange) link m)

theorem execute_shiftUp (hw : IsWidth v.type.scalarSize) (hwidth : 0 < v.fieldWidth)
    (hfits : v.fieldOffset + v.fieldWidth ≤ 64) {r : Reg} (hr : r ∈ storeRegisters) (link : Link)
    (m : Machine) :
    ∃ m', execute link
        (if v.fieldOffset ≠ 0 then
          [⟨.shl, .immReg (constant (BitVec.ofNat 64 v.fieldOffset) v.type.scalarSize)
            ⟨r, v.type.scalarSize⟩⟩]
        else []) m = some m' ∧
      KeepsOthers [r.number] m m' ∧
      ∀ i < 8 * v.type.scalarSize, inField v i = true →
        (m'.reg r.number).getLsbD i = (m.reg r.number).getLsbD (i - v.fieldOffset) := by
  by_cases hzero : v.fieldOffset = 0
  · rw [if_neg (by simpa using hzero)]
    refine ⟨m, rfl, KeepsOthers.refl _ _, ?_⟩
    intro i _ _
    rw [hzero, Nat.sub_zero]
  · rw [if_pos hzero]
    have hplain : v.type.scalarSize = 1 → r ≠ .sp ∧ r ≠ .bp := by
      rintro -
      constructor <;> (rintro rfl; exact absurd hr (by decide))
    have hmeaning : meaning link ⟨.shl, .immReg
        (constant (BitVec.ofNat 64 v.fieldOffset) v.type.scalarSize) ⟨r, v.type.scalarSize⟩⟩ = _ :=
      meaning_shift_immReg rfl (show v.fieldOffset < 64 by omega) hw hplain v.type.scalarSize
    refine ⟨_, execute_singleton hmeaning, keepsOthers_writeReg _ _ _ _, ?_⟩
    intro i hi hin
    simp only [inField, Bool.and_eq_true, decide_eq_true_eq] at hin
    have hplainWidth : v.type.scalarSize ≤ plainWidth v.type.scalarSize ∧
        X86.shiftCount (plainWidth v.type.scalarSize) v.fieldOffset = v.fieldOffset ∧
          8 * plainWidth v.type.scalarSize ≤ 64 := by
      rcases hw with h | h | h | h <;> rw [h] at hi ⊢ <;>
        simp [plainWidth, X86.shiftCount] <;> omega
    rcases hplainWidth with ⟨hle, hcount, hle64⟩
    show ((X86.writeReg m _ _ _).reg _).getLsbD i = _
    rw [X86.writeReg_self, X86.getLsbD_merge, if_pos (by omega), X86.ShiftOp.eval, hcount,
      getLsbD_shiftLeft, X86.getLsbD_read_reg]
    simp only [show i < 64 by omega, show ¬i < v.fieldOffset by omega,
      show i - v.fieldOffset < 8 * plainWidth v.type.scalarSize by omega, decide_true, decide_false,
      Bool.not_false, Bool.true_and]

/-- A register is merged. -/
theorem mergeField_reg (hw : IsWidth v.type.scalarSize) (hwidth : 0 < v.fieldWidth)
    (hwidth64 : v.fieldWidth < 64) (hfits : v.fieldOffset + v.fieldWidth ≤ 64) {r : Reg}
    (hr : r ∈ storeRegisters) :
    ∃ code, mergeField (.reg r) v = some (code, ⟨r, v.type.scalarSize⟩) ∧
      Merges v (.reg r) code := by
  have hle := hw.le
  have hregs : r ≠ .r11 ∧ r.number ≠ 1 ∧ (r.number < 4 ∨ 8 ≤ r.number) ∧ r ≠ .sp ∧ r ≠ .bp := by
    simp only [storeRegisters, List.mem_cons, List.not_mem_nil, or_false] at hr
    rcases hr with rfl | rfl | rfl | rfl | rfl | rfl | rfl <;> decide
  rcases hregs with ⟨hr11, hrcx, hrbyte, hrsp, hrbp⟩
  rcases bitwiseImmReg_spec (r := .cx) bitOf_and hw (by decide) (fun _ => Or.inl (by decide))
    (~~~fieldMask v) with ⟨clear, hclear, hgood1, hbad1⟩
  rcases bitwiseImmReg_spec (r := r) bitOf_and hw hr11 (fun _ => hrbyte) (fieldMask v) with
    ⟨set, hset, hgood2, hbad2⟩
  have hor : ∀ link, meaning link ⟨.or, .regReg ⟨.cx, v.type.scalarSize⟩
      ⟨r, v.type.scalarSize⟩⟩ = _ := fun link =>
    meaning_or_regReg hw (fun _ => ⟨by decide, by decide⟩) (fun _ => ⟨hrsp, hrbp⟩)
  let shift : List Instruction :=
    if v.fieldOffset ≠ 0 then
      [⟨.shl, .immReg (constant (BitVec.ofNat 64 v.fieldOffset) v.type.scalarSize)
        ⟨r, v.type.scalarSize⟩⟩]
    else []
  refine ⟨clear ++ shift ++ set ++
    [⟨.or, .regReg ⟨.cx, v.type.scalarSize⟩ ⟨r, v.type.scalarSize⟩⟩],
    by simp only [mergeField, hclear, hset, Option.bind_some, Option.map_some]; rfl, ?_, ?_⟩
  · intro henc link m
    rcases hgood1 (fun h8 => (henc h8).1) link m with ⟨m1, hrun1, hkeeps1, hbits1⟩
    rcases execute_shiftUp hw hwidth hfits hr link m1 with ⟨m2, hrun2, hkeeps2, hbits2⟩
    rcases hgood2 (fun h8 => (henc h8).2) link m2 with ⟨m3, hrun3, hkeeps3, hbits3⟩
    refine ⟨_, (execute_append ((execute_append ((execute_append hrun1).trans hrun2)).trans
      hrun3)).trans (execute_singleton (hor link)), ?_, ?_⟩
    · refine (hkeeps1.mono ?_).trans ((hkeeps2.mono ?_).trans
        ((hkeeps3.mono ?_).trans ((keepsOthers_writeReg _ _ _ _).mono ?_))) <;>
          simp [Reg.number, StoreOperand.register]
    · intro i hi
      have hplain : 8 * v.type.scalarSize ≤ 8 * plainWidth v.type.scalarSize := by
        rcases hw with h | h | h | h <;> rw [h] <;> decide
      have hcx : m3.reg 1 = m1.reg 1 := by
        rw [hkeeps3.reg 1 (by simpa using Ne.symm hrcx), hkeeps2.reg 1 (by simpa using Ne.symm hrcx)]
      have hsource : m1.reg r.number = m.reg r.number :=
        hkeeps1.reg _ (by simpa [Reg.number] using hrcx)
      show ((X86.writeReg m3 _ r.number _).reg r.number).getLsbD i = _
      rw [X86.writeReg_self, X86.getLsbD_merge, if_pos (by omega), getLsbD_eval,
        X86.getLsbD_read_reg, X86.getLsbD_read_reg, decide_eq_true (show i < 8 * plainWidth _ by omega),
        Bool.true_and, Bool.true_and, hbits3 i hi, getLsbD_fieldMask hwidth64 (by omega)]
      show bitOp .or _ ((m3.reg 1).getLsbD i) = _
      rw [hcx]
      have hunit : (m1.reg 1).getLsbD i = _ := hbits1 i hi
      rw [getLsbD_not, getLsbD_fieldMask hwidth64 (by omega),
        decide_eq_true (show i < 64 by omega)] at hunit
      rw [hunit, storedBit]
      cases hin : inField v i
      · simp [bitOp, Reg.number]
      · rw [hbits2 i hi hin, hsource]
        simp [bitOp, StoreOperand.value]
  · intro henc link m
    unfold Encodes at henc
    simp only [Classical.not_imp, not_and_or, Bool.not_eq_true] at henc
    rcases henc with ⟨h8, hbad | hbad⟩
    · exact execute_append_none (execute_append_none (execute_append_none
        (hbad1 h8 hbad link m)))
    · by_cases hrange : in32BitRange (~~~fieldMask v) = true
      · rcases hgood1 (fun _ => hrange) link m with ⟨m1, hrun1, -, -⟩
        rcases execute_shiftUp hw hwidth hfits hr link m1 with ⟨m2, hrun2, -, -⟩
        exact execute_append_none ((execute_append ((execute_append hrun1).trans hrun2)).trans
          (hbad2 h8 hbad link m2))
      · exact execute_append_none (execute_append_none (execute_append_none
          (hbad1 h8 (by simpa using hrange) link m)))

end Merge
end Kcs.Jit
