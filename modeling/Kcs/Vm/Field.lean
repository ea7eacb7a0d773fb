import Kcs.Vm.FieldUnit

/-!
# Bit-fields on the virtual machine

The code for an assignment to a bit-field works on a unit of 32 bits: the new value
is shifted into place and put together with the masked old unit.  A constant zero
is stored by masking a unit of the size of the type.  Through a pointer, the width
and the position of the field are not looked at.

Main results:

- Theorem {lit}`bitfield_exact_iff`: exactly when an assignment to a field followed
  by a load of it gives the value of the field and keeps all other bits.
-/

namespace Kcs.Vm

open Option List Memory

/-! ## Assignments to fields -/

section Fields

variable (env : GenEnv) (L : Layout)

/-- The generator after the code of the value that is assigned.  A constant has no
code of its own. -/
def genSource (v : Var) (e : Expression) (g : GenState) : Option GenState :=
  if isConstantImm e then some g
  else vmGenExpr env e { g with protectRemoveTempvar := isTemporaryVar v && v.kind = .deref }

/-- The slot that is assigned: the constant, or what is on top. -/
def sourceSlot (e : Expression) (u : State) : Nat :=
  if isConstantImm e then e.l.imm.u else u.top L

/-- The machine below the value that is assigned. -/
def belowSource (e : Expression) (u : State) : State := if isConstantImm e then u else u.drop

/-- Whether a bit of the memory lies outside the free part of the stack. -/
def KeptBit (s : State) (i : Nat) : Prop := i / 8 < s.free L ∨ L.limit ≤ i / 8

/-- Whether a bit of a unit lies outside a field. -/
def OutsideField (v : Var) (i : Nat) : Prop :=
  i < v.fieldOffset ∨ v.fieldWidth + v.fieldOffset ≤ i

instance (v : Var) (i : Nat) : Decidable (OutsideField v i) :=
  inferInstanceAs (Decidable (i < v.fieldOffset ∨ v.fieldWidth + v.fieldOffset ≤ i))

/-- A field of what a pointer variable points to: neither the pointer nor the unit
behind it, at the offset of the field, is a part of the unit of the field. -/
structure PointerPlace (k : CInteger) (v : Var) (s : State) (sym : Symbol) (a b : Nat) : Prop where
  symbol : v.symbol = some sym
  pointer : sym.type.isPointerType = true
  notString : (varDirect sym).isString = false
  base : toInt32 (baseOf env sym) = baseOf env sym
  addr : addOffset (s.mem.load (varAddr L s (vmAddress env (varDirect sym) sym 8)) 8) v.offset = a
  null : nullPage ≤ s.mem.load (varAddr L s (vmAddress env (varDirect sym) sym 8)) 8
  null_field : nullPage ≤ a
  clear : Clear L s a (byteSize k)
  clear_pointer : Clear L s (varAddr L s (vmAddress env (varDirect sym) sym 8)) 8
  apart : a + byteSize k ≤ varAddr L s (vmAddress env (varDirect sym) sym 8) ∨
    varAddr L s (vmAddress env (varDirect sym) sym 8) + 8 ≤ a
  behind : varAddr L s (vmAddress env v sym 0) = b
  clear_behind : Clear L s b (byteSize k)
  apart_behind : a + max (byteSize k) (fieldBytes v) ≤ b ∨ b + byteSize k ≤ a

/-- A field of a variable or of what a pointer points to: its unit is at `a`, and the
offset of the field leads from the symbol to `b`. -/
structure FieldPlace (k : CInteger) (v : Var) (s : State) (a b : Nat) : Prop where
  field : v.isField = true
  word : wordOf v.type = some k
  width : v.fieldWidth ≤ k.format.width
  room : s.free L + 24 ≤ L.limit
  alive : Clear L s a (fieldBytes v)
  place : (v.kind = .direct ∧ ∃ sym, v.symbol = some sym ∧
      varAddr L s (vmAddress env v sym 0) = a) ∨
    (v.kind = .deref ∧ ∃ sym, PointerPlace env L k v s sym a b)

/-- An assignment to a field is right: the code that follows the value and a load of
the field leave the value of the field, and all other bits are kept. -/
def FieldRight (k : CInteger) (v : Var) (e : Expression) (g g1 : GenState) (u : State) (a : Nat) :
    Prop :=
  ∃ g2 g3 code t, vmGenAssign env v e g = some g2 ∧ vmLoadVar env v g2 = some g3 ∧
    g3.prog = g1.prog ++ code ∧ execCode L code u = some t ∧
    slotInt k (t.top L) = fieldOf v (slotInt k (sourceSlot L e u)) ∧
    ∀ i, KeptBit L (belowSource e u) i →
      i < 8 * a + v.fieldOffset ∨ 8 * a + (v.fieldWidth + v.fieldOffset) ≤ i →
      t.mem.bit i = u.mem.bit i

/-- The condition for a field of a variable.  A zero must not meet bits that the
masking of the unit misses or clears in excess; another value must have a clear sign
and, when it is computed, no bits above the field that the unit does not have. -/
def DirectOk (k : CInteger) (v : Var) (e : Expression) (s : State) (z : Nat) (a : Nat) : Prop :=
  v.fieldWidth + v.fieldOffset < 32 ∧
    if isConstantImm e ∧ z = 0 then
      ∀ i, (v.fieldOffset ≤ i ∧ i < v.fieldWidth + v.fieldOffset ∧ 8 * byteSize k ≤ i) ∨
        (32 ≤ i ∧ i < 8 * byteSize k ∧ KeptBit L s (8 * a + i)) → s.mem.bit (8 * a + i) = false
    else
      SignClear k v z ∧
        (isConstantImm e = false → ∀ i, v.fieldWidth + v.fieldOffset ≤ i → i < 32 →
          KeptBit L s (8 * a + i) → z.testBit (i - v.fieldOffset) = true →
          s.mem.bit (8 * a + i) = true)

/-- The condition for a field behind a pointer.  A computed value is stored over the
whole unit, and a constant likewise; a zero is put into the unit at the offset of
the field from the pointer variable. -/
def PointerOk (k : CInteger) (v : Var) (e : Expression) (s : State) (z : Nat) (a b : Nat) : Prop :=
  if isConstantImm e then
    v.fieldWidth < 32 ∧
      if z = 0 then
        v.fieldWidth + v.fieldOffset < 32 ∧
          (∀ i, i < 8 * byteSize k → (¬ OutsideField v i ∨ 32 ≤ i) →
            s.mem.bit (8 * b + i) = false) ∧
          ∀ i, i < 8 * byteSize k → s.mem.bit (8 * a + i) = false
      else
        SignClear k v z ∧ ∀ i, i < 8 * byteSize k → OutsideField v i →
          (z % 2 ^ v.fieldWidth).testBit i = s.mem.bit (8 * a + i)
  else
    slotInt k z = fieldOf v (slotInt k z) ∧
      ∀ i, i < 8 * byteSize k → OutsideField v i → z.testBit i = s.mem.bit (8 * a + i)

/-- The condition under which an assignment to a field is right. -/
def FieldOk (k : CInteger) (v : Var) (e : Expression) (s : State) (z : Nat) (a b : Nat) : Prop :=
  match v.kind with
  | .direct => DirectOk L k v e s z a
  | _ => PointerOk k v e s z a b

end Fields

variable {env : GenEnv} {L : Layout} {g g' g1 g2 : GenState} {s t u : State} {v : Var}
  {e : Expression} {k : CInteger} {sym : Symbol} {a b n x z : Nat}

theorem fieldRight_iff {code : List VmCode} {g3 : GenState}
    (hassign : vmGenAssign env v e g = some g2) (hload : vmLoadVar env v g2 = some g3)
    (hprog : g3.prog = g1.prog ++ code) (hrun : execCode L code u = some t) :
    FieldRight env L k v e g g1 u a ↔
      slotInt k (t.top L) = fieldOf v (slotInt k (sourceSlot L e u)) ∧
        ∀ i, KeptBit L (belowSource e u) i →
          i < 8 * a + v.fieldOffset ∨ 8 * a + (v.fieldWidth + v.fieldOffset) ≤ i →
          t.mem.bit i = u.mem.bit i := by
  constructor
  · rintro ⟨g2', g3', code', t', hassign', hload', hprog', hrun', hvalue, hkeep⟩
    rw [hassign, some.injEq] at hassign'
    subst hassign'
    rw [hload, some.injEq] at hload'
    subst hload'
    have hsame : code' = code := append_cancel_left (hprog'.symm.trans hprog)
    rw [hsame, hrun, some.injEq] at hrun'
    subst hrun'
    exact ⟨hvalue, hkeep⟩
  · rintro ⟨hvalue, hkeep⟩
    exact ⟨g2, g3, code, t, hassign, hload, hprog, hrun, hvalue, hkeep⟩

theorem keeps_iff {t1 : State} (hstored : Stored L s t1 b n x) (ht : Pushed L t1 t z) :
    (∀ i, KeptBit L s i →
        i < 8 * a + v.fieldOffset ∨ 8 * a + (v.fieldWidth + v.fieldOffset) ≤ i →
        t.mem.bit i = s.mem.bit i) ↔
      ∀ i, i < 8 * n → KeptBit L s (8 * b + i) →
        8 * b + i < 8 * a + v.fieldOffset ∨ 8 * a + (v.fieldWidth + v.fieldOffset) ≤ 8 * b + i →
        x.testBit i = s.mem.bit (8 * b + i) := by
  have hbit : ∀ i, KeptBit L s i → t.mem.bit i = (s.mem.store b n x).bit i := by
    intro i hi
    have hfree : t1.free L = s.free L := by
      simp only [State.free, hstored.sp]
    rw [Memory.bit, Memory.bit, ht.mem _ (by rw [hfree]; exact hi), hstored.mem _ hi]
  constructor
  · intro h i hi hkept houtside
    have := h (8 * b + i) hkept houtside
    rw [hbit _ hkept, bit_store, if_pos (by omega)] at this
    simpa using this
  · intro h i hkept houtside
    rw [hbit _ hkept, bit_store]
    split
    · have hidx : 8 * b + (i - 8 * b) = i := by omega
      have := h (i - 8 * b) (by omega) (by rwa [hidx]) (by rwa [hidx])
      rwa [hidx] at this
    · rfl

theorem vmGenAssign_field (hword : wordOf v.type = some k) (hfield : v.isField = true) :
    vmGenAssign env v e g =
      if isConstantImm e then vmGenFieldConstant env v e g
      else (genSource env v e g).bind fun g => (vmStoreVar env v g).map fun g =>
        { g with protectRemoveTempvar := false } := by
  have harray : v.type.isArray = false := by
    rcases wordOf_cases hword with ⟨hp, -⟩ | ⟨-, -, -, hint, -⟩
    · have hkind : v.type.typeOf = .pointer := by simpa [CType.isPointerType] using hp
      rw [CType.isArray, hkind]
      decide
    · unfold CType.isInteger at hint
      unfold CType.isArray
      cases hkind : v.type.typeOf <;> rw [hkind] at hint <;>
        first | decide | exact absurd hint (by decide)
  cases hconst : isConstantImm e <;>
    simp [vmGenAssign, hfield, harray, hconst, vmGenStored, genSource]

/-- The slot with which the store of a field begins: of a constant, the bits of the
field are pushed. -/
def storedSlot (L : Layout) (v : Var) (e : Expression) (u : State) : Nat :=
  if isConstantImm e then sourceSlot L e u % 2 ^ v.fieldWidth else sourceSlot L e u

/-- The value is on the stack before it is stored, unless it is a constant zero. -/
theorem source_pushed (hword : wordOf v.type = some k) (hfield : v.isField = true)
    (hroom : (belowSource e u).free L + 24 ≤ L.limit) (hmode : g1.isGlobalMode = false)
    (hsource : genSource env v e g = some g1) (hsp : isConstantImm e = false → 8 ≤ u.sp)
    (hwidth : isConstantImm e = true → v.fieldWidth < 32)
    (hzero : ¬ (isConstantImm e = true ∧ sourceSlot L e u = 0)) :
    ∃ g0 code t, vmGenAssign env v e g = (vmStoreVar env v g0).map (fun g =>
        { g with protectRemoveTempvar := false }) ∧
      Emits g1 g0 code [] ∧ execCode L code u = some t ∧
      Pushed L (belowSource e u) t (storedSlot L v e u) := by
  rw [vmGenAssign_field hword hfield]
  cases hconst : isConstantImm e with
  | true =>
    have hw := hwidth hconst
    simp only [genSource, hconst, if_true, some.injEq] at hsource
    subst hsource
    simp only [sourceSlot, hconst, if_true, true_and] at hzero
    simp only [belowSource, hconst, if_true] at hroom ⊢
    simp only [storedSlot, sourceSlot, hconst, if_true]
    have hmask : lowMask v.fieldWidth = some (2 ^ v.fieldWidth - 1) := by
      rw [lowMask, if_pos hw]
    have hlt := Nat.mod_lt e.l.imm.u (show 0 < 2 ^ v.fieldWidth by positivity)
    have hpow : (2 : Nat) ^ v.fieldWidth ≤ 2 ^ 32 := Nat.pow_le_pow_right (by decide) hw.le
    have himm : immSlot .uint (vmImm 32 (e.l.imm.u % 2 ^ v.fieldWidth)) =
        e.l.imm.u % 2 ^ v.fieldWidth := by
      rw [immSlot_vmImm (c := .uint) (by decide) (by decide), IntFormat.wrap_unsigned rfl,
        Int.emod_eq_of_lt (by positivity) (by exact_mod_cast hlt.trans_le hpow)]
      exact toSlot_natCast (by omega)
    have hemits := Emits.code
      (g := { g with protectRemoveTempvar := isTemporaryVar v && v.kind = .deref }) hmode
      { opcode := .push, type := .uint32, d := .imm (vmImm 32 (e.l.imm.u % 2 ^ v.fieldWidth)) }
    refine ⟨_, _, _, ?_, ⟨hemits.prog, hemits.mode, hemits.labels, hemits.image⟩, ?_,
      Pushed.push (by omega) (by omega)⟩
    · simp only [vmGenFieldConstant, hmask, bind_some, hzero, if_false,
        Nat.and_two_pow_sub_one_eq_mod]
      rfl
    · rw [execCode_cons, execData_pushImm (c := .uint) rfl, himm]
      rfl
  | false =>
    have hsp' := hsp hconst
    rw [hsource]
    refine ⟨g1, [], u, rfl, Emits.refl hmode, rfl, ?_⟩
    simp only [belowSource, storedSlot, sourceSlot, hconst, Bool.false_eq_true, if_false]
    refine ⟨?_, rfl, rfl, rfl, fun b _ => rfl⟩
    simp only [State.drop]
    omega

theorem directLoad_runs (hmode : g.isGlobalMode = false) (hkind : v.kind = .direct)
    (hsym : v.symbol = some sym) (hword : wordOf v.type = some k) (hfield : v.isField = true)
    (hend : v.fieldWidth + v.fieldOffset < 32) (hroom : s.free L + 16 ≤ L.limit)
    (haddr : varAddr L s (vmAddress env v sym 0) = a) :
    ∃ g' code t, vmLoadVar env v g = some g' ∧ Emits g g' code [] ∧ execCode L code s = some t ∧
      Pushed L s t (s.mem.load a 4 / 2 ^ v.fieldOffset % 2 ^ v.fieldWidth) := by
  have hmask : lowMask v.fieldWidth = some (2 ^ v.fieldWidth - 1) := by
    rw [lowMask, if_pos (by omega)]
  have hkeep : (g.last.filter fun _ => false) = none := by
    cases g.last <;> rfl
  have hgen : ∃ g', emitVmLoad env v g = some g' := by
    simp only [emitVmLoad, hsym, bind_some, hfield, Bool.not_true, Bool.and_false,
      Bool.false_and, hkeep, if_true, hmask, map_some]
    exact ⟨_, rfl⟩
  rcases hgen with ⟨g', hgen⟩
  rcases emitVmLoad_field_pushes hmode hsym (isSome_iff_exists.mpr ⟨k, hword⟩) hfield
    (by omega) hroom hgen with ⟨code, hemits, -, -, t, hrun, ht⟩
  rw [haddr, slotInt_extract hend.le] at ht
  exact ⟨g', code, t, by rw [vmLoadVar, hkind]; exact hgen, hemits, hrun, ht⟩

/-- A store to a field of a variable whose code is known is followed by a load of
it. -/
theorem direct_right_of_stored {y : Nat} {code : List VmCode} {t1 : State}
    (hplace : FieldPlace env L k v (belowSource e u) a b) (hkind : v.kind = .direct)
    (hend : v.fieldWidth + v.fieldOffset < 32)
    (hassign : vmGenAssign env v e g = some g2) (hemits : Emits g1 g2 code [])
    (hrun : execCode L code u = some t1) (hstored : Stored L (belowSource e u) t1 a n y) :
    FieldRight env L k v e g g1 u a ↔
      slotInt k (t1.mem.load a 4 / 2 ^ v.fieldOffset % 2 ^ v.fieldWidth) =
          fieldOf v (slotInt k (sourceSlot L e u)) ∧
        ∀ i, i < 8 * n → KeptBit L (belowSource e u) (8 * a + i) → OutsideField v i →
          y.testBit i = (belowSource e u).mem.bit (8 * a + i) := by
  have hroom := hplace.room
  have hmem : (belowSource e u).mem = u.mem := by
    unfold belowSource
    split <;> rfl
  rcases hplace.place with ⟨-, sym, hsym, haddr⟩ | ⟨hderef, -⟩
  · have hfree : t1.free L = (belowSource e u).free L := by
      simp only [State.free, hstored.sp]
    have haddr' : varAddr L t1 (vmAddress env v sym 0) = a := by
      rw [← haddr]
      simp only [varAddr, hstored.bp, hstored.gp]
    rcases directLoad_runs hemits.mode hkind hsym hplace.word hplace.field hend
      (by omega : t1.free L + 16 ≤ L.limit) haddr' with ⟨g3, code', t, hload, hemits', hrun', ht⟩
    have hprog : g3.prog = g1.prog ++ (code ++ code') := by
      rw [hemits'.prog, hemits.prog, append_assoc]
    have hboth : execCode L (code ++ code') u = some t := by
      rw [execCode_append, hrun]
      exact hrun'
    rw [fieldRight_iff hassign hload hprog hboth, ht.top, ← hmem, keeps_iff hstored ht]
    apply and_congr_right'
    constructor
    · intro h i hi hkept houtside
      apply h i hi hkept
      rcases houtside with houtside | houtside
      · left
        omega
      · right
        omega
    · intro h i hi hkept houtside
      apply h i hi hkept
      rcases houtside with houtside | houtside
      · left
        omega
      · right
        omega
  · rw [hkind] at hderef
    cases hderef

/-- Fields of variables: values that are shifted into place. -/
theorem direct_right_iff_of_pushed
    (hplace : FieldPlace env L k v (belowSource e u) a b) (hkind : v.kind = .direct)
    (hend : v.fieldWidth + v.fieldOffset < 32) (hmode : g1.isGlobalMode = false)
    (hsource : genSource env v e g = some g1) (hsp : isConstantImm e = false → 8 ≤ u.sp)
    (hzero : ¬ (isConstantImm e = true ∧ sourceSlot L e u = 0)) :
    FieldRight env L k v e g g1 u a ↔
      DirectOk L k v e (belowSource e u) (sourceSlot L e u) a := by
  rcases source_pushed hplace.word hplace.field hplace.room hmode hsource hsp
    (fun _ => by omega) hzero with ⟨g0, code0, t0, hassign, hemits0, hrun0, ht0⟩
  rcases hplace.place with ⟨-, sym, hsym, haddr⟩ | ⟨hderef, -⟩
  · have hmask : ∃ mask, fieldMask v = some mask := by
      rw [fieldMask, if_pos hend]
      exact ⟨_, rfl⟩
    have hstore : ∃ g2, emitVmStore env v g0 = some g2 := by
      rcases hmask with ⟨mask, hmask⟩
      simp only [emitVmStore, hsym, bind_some, hplace.field, if_true, emitVmFieldMerge,
        hmask, map_some]
      exact ⟨_, rfl⟩
    rcases hstore with ⟨g2, hstore⟩
    rcases emitVmStore_field_runs hemits0.mode hsym hplace.field hplace.room
      (show varAddr L (belowSource e u) (vmAddress env v sym 4) = a from haddr) ht0 hstore with
      ⟨mask, code2, own, t1, hmask, hemits2, hrun2, hown, hstored⟩
    have hassign' : vmGenAssign env v e g = some { g2 with protectRemoveTempvar := false } := by
      rw [hassign, vmStoreVar, hkind]
      simp only [hstore, map_some]
    have hemits : Emits g1 { g2 with protectRemoveTempvar := false } (code0 ++ code2) [] := by
      have h := hemits0.trans hemits2
      exact ⟨h.prog, h.mode, h.labels, h.image⟩
    have hrun : execCode L (code0 ++ code2) u = some t1 := by
      rw [execCode_append, hrun0]
      exact hrun2
    rw [direct_right_of_stored hplace hkind hend hassign' hemits hrun hstored, DirectOk,
      if_neg hzero]
    -- The field holds the low bits of the slot.
    have hfield : t1.mem.load a 4 / 2 ^ v.fieldOffset % 2 ^ v.fieldWidth =
        sourceSlot L e u % 2 ^ v.fieldWidth := by
      have hself : t1.mem.load a 4 = mergedUnit v mask (storedSlot L v e u) own := by
        rw [hstored.self]
        exact Nat.mod_eq_of_lt (Nat.mod_lt _ (by decide))
      have hslot : storedSlot L v e u % 2 ^ v.fieldWidth = sourceSlot L e u % 2 ^ v.fieldWidth := by
        unfold storedSlot
        split
        · exact Nat.mod_mod _ _
        · rfl
      rw [hself, ← hslot]
      apply Nat.eq_of_testBit_eq
      intro i
      rw [testBit_extract, Nat.testBit_mod_two_pow]
      by_cases hi : i < v.fieldWidth
      · rw [testBit_mergedUnit hmask (by omega), if_neg (by omega), if_pos (by omega)]
        congr 2
        omega
      · simp [hi]
    rw [hfield, slotInt_low_iff hplace.word hplace.field hplace.width]
    simp only [hend, true_and]
    apply and_congr_right'
    constructor
    · intro h hconst i hlo hi hkept hbit
      have hunit := h i (by omega) hkept (Or.inr hlo)
      rw [testBit_mergedUnit hmask hi, if_neg (by omega), if_neg (by omega)] at hunit
      simp only [storedSlot, hconst, Bool.false_eq_true, if_false, hbit, Bool.true_or] at hunit
      exact hunit.symm
    · intro h i hi hkept houtside
      rw [testBit_mergedUnit hmask (by omega), hown i (by omega) hkept]
      rcases houtside with hlow | hhigh
      · rw [if_pos hlow]
      · rw [if_neg (by omega), if_neg (by omega)]
        cases hconst : isConstantImm e with
        | true =>
          have hnot : ¬ i - v.fieldOffset < v.fieldWidth := by omega
          simp [storedSlot, hconst, Nat.testBit_mod_two_pow, hnot]
        | false =>
          simp only [storedSlot, hconst, Bool.false_eq_true, if_false]
          cases hbit : (sourceSlot L e u).testBit (i - v.fieldOffset) with
          | false => rfl
          | true => rw [h hconst i hhigh (by omega) hkept hbit, Bool.or_self]
  · rw [hkind] at hderef
    cases hderef

theorem vmGenAssign_zero (hword : wordOf v.type = some k) (hfield : v.isField = true)
    (hsource : genSource env v e g = some g1) (hwidth : v.fieldWidth < 32)
    (hconst : isConstantImm e = true) (hzero : sourceSlot L e u = 0) :
    g1 = g ∧ vmGenAssign env v e g = vmStoreBitfieldZero env v g1 := by
  simp only [genSource, hconst, if_true, some.injEq] at hsource
  simp only [sourceSlot, hconst, if_true] at hzero
  subst hsource
  refine ⟨rfl, ?_⟩
  rw [vmGenAssign_field hword hfield, if_pos hconst, vmGenFieldConstant, lowMask, if_pos hwidth,
    bind_some, if_pos hzero]

theorem vmStoreBitfieldZero_isSome (env : GenEnv) (g : GenState)
    (hword : wordOf v.type = some k) (hsym : v.symbol = some sym)
    (hend : v.fieldWidth + v.fieldOffset < 32) : ∃ g', vmStoreBitfieldZero env v g = some g' := by
  simp only [vmStoreBitfieldZero, hsym, bind_some, intSizeOf_wordOf hword, fieldMask, hend,
    if_true, map_some]
  exact ⟨_, rfl⟩

/-- Fields of variables: a constant zero. -/
theorem direct_right_iff_of_zero
    (hplace : FieldPlace env L k v (belowSource e u) a b) (hkind : v.kind = .direct)
    (hend : v.fieldWidth + v.fieldOffset < 32) (hmode : g1.isGlobalMode = false)
    (hsource : genSource env v e g = some g1)
    (hconst : isConstantImm e = true) (hzero : sourceSlot L e u = 0) :
    FieldRight env L k v e g g1 u a ↔
      DirectOk L k v e (belowSource e u) (sourceSlot L e u) a := by
  rcases hplace.place with ⟨-, sym, hsym, haddr⟩ | ⟨hderef, -⟩
  · rcases vmGenAssign_zero hplace.word hplace.field hsource (by omega) hconst hzero with
      ⟨rfl, hassign⟩
    rcases vmStoreBitfieldZero_isSome env g1 hplace.word hsym hend with ⟨g2, hstore⟩
    have hbelow : belowSource e u = u := by simp [belowSource, hconst]
    have halive := hplace.alive
    rw [hbelow] at haddr halive
    rcases vmStoreBitfieldZero_runs hmode hsym hplace.word (hbelow ▸ hplace.room) haddr hstore with
      ⟨mask, code, t1, hmask, hemits, hrun, hstored⟩
    rw [direct_right_of_stored hplace hkind hend (hassign.trans hstore) hemits hrun
      (hbelow.symm ▸ hstored), DirectOk, if_pos ⟨hconst, hzero⟩, hbelow, hzero, fieldOf_zero]
    have hlt : t1.mem.load a 4 / 2 ^ v.fieldOffset % 2 ^ v.fieldWidth < 2 ^ k.format.width :=
      (Nat.mod_lt _ (by positivity)).trans_le (Nat.pow_le_pow_right (by decide) hplace.width)
    rw [slotInt_eq_zero_iff hlt]
    -- The bits of the field are those that the unit of the type does not reach.
    have hfield : t1.mem.load a 4 / 2 ^ v.fieldOffset % 2 ^ v.fieldWidth = 0 ↔
        ∀ i, v.fieldOffset ≤ i → i < v.fieldWidth + v.fieldOffset → 8 * byteSize k ≤ i →
          u.mem.bit (8 * a + i) = false := by
      have hbit : ∀ i, v.fieldOffset ≤ i → i < v.fieldWidth + v.fieldOffset →
          (t1.mem.load a 4).testBit i =
            (decide (8 * byteSize k ≤ i) && u.mem.bit (8 * a + i)) := by
        intro i hlo hhi
        have hkept : KeptBit L u (8 * a + i) := by
          rcases halive with halive | halive
          · left
            unfold fieldBytes at halive
            omega
          · right
            omega
        rw [testBit_load, decide_eq_true (by omega), Bool.true_and, Memory.bit,
          hstored.mem _ hkept, ← Memory.bit, bit_store]
        by_cases hin : 8 * byteSize k ≤ i
        · rw [if_neg (by omega), decide_eq_true hin, Bool.true_and]
        · have hnot : ¬ (i < 32 ∧ (i < v.fieldOffset ∨ v.fieldWidth + v.fieldOffset ≤ i)) := by
            omega
          have hidx : 8 * a + i - 8 * a = i := by omega
          rw [if_pos (by omega), hidx, testBit_cleared hmask, decide_eq_false hnot,
            decide_eq_false hin, Bool.false_and, Bool.false_and]
      constructor
      · intro h i hlo hhi hsize
        have hextract := testBit_extract (x := t1.mem.load a 4) (w := v.fieldWidth)
          (o := v.fieldOffset) (i := i - v.fieldOffset)
        have hidx : v.fieldOffset + (i - v.fieldOffset) = i := by omega
        rw [h, hidx, hbit i hlo hhi, Nat.zero_testBit, decide_eq_true (by omega),
          decide_eq_true hsize] at hextract
        simpa using hextract.symm
      · intro h
        apply Nat.eq_of_testBit_eq
        intro i
        rw [testBit_extract, Nat.zero_testBit]
        by_cases hi : i < v.fieldWidth
        · rw [hbit _ (by omega) (by omega)]
          by_cases hsize : 8 * byteSize k ≤ v.fieldOffset + i
          · rw [h _ (by omega) (by omega) hsize]
            simp
          · simp [hsize]
        · simp [hi]
    have hkeep : (∀ i, i < 8 * byteSize k → KeptBit L u (8 * a + i) → OutsideField v i →
        ((u.mem.load a (byteSize k) &&& mask) % 2 ^ 32).testBit i = u.mem.bit (8 * a + i)) ↔
        ∀ i, 32 ≤ i → i < 8 * byteSize k → KeptBit L u (8 * a + i) →
          u.mem.bit (8 * a + i) = false := by
      constructor
      · intro h i hlo hhi hkept
        have hunit := h i hhi hkept (Or.inr (by omega))
        have hnot : ¬ (i < 32 ∧ (i < v.fieldOffset ∨ v.fieldWidth + v.fieldOffset ≤ i)) := by omega
        rw [testBit_cleared hmask, decide_eq_false hnot, Bool.false_and] at hunit
        exact hunit.symm
      · intro h i hi hkept houtside
        rw [testBit_cleared hmask, testBit_load, decide_eq_true hi, Bool.true_and]
        by_cases hlow : i < 32
        · rw [decide_eq_true ⟨hlow, houtside⟩, Bool.true_and]
        · have hnot : ¬ (i < 32 ∧ (i < v.fieldOffset ∨ v.fieldWidth + v.fieldOffset ≤ i)) := by omega
          rw [decide_eq_false hnot, Bool.false_and, h i (by omega) hi hkept]
    rw [hfield, hkeep]
    simp only [hend, true_and]
    constructor
    · rintro ⟨hlow, hhigh⟩ i (⟨hlo, hhi, hsize⟩ | ⟨hlo, hhi, hkept⟩)
      · exact hlow i hlo hhi hsize
      · exact hhigh i hlo hhi hkept
    · intro h
      exact ⟨fun i hlo hhi hsize => h i (Or.inl ⟨hlo, hhi, hsize⟩),
        fun i hlo hhi hkept => h i (Or.inr ⟨hlo, hhi, hkept⟩)⟩
  · rw [hkind] at hderef
    cases hderef

/-- The code of a load through a pointer variable: it stops at a null pointer, and
changes the free part of the stack only. -/
theorem pointerLoad_runs {p : Nat} (hmode : g.isGlobalMode = false) (hkind : v.kind = .deref)
    (hsym : v.symbol = some sym) (hpointer : sym.type.isPointerType = true)
    (hstring : (varDirect sym).isString = false) (hword : wordOf v.type = some k)
    (hroom : s.free L + 16 ≤ L.limit)
    (hp : s.mem.load (varAddr L s (vmAddress env (varDirect sym) sym 8)) 8 = p) :
    ∃ g' code, vmLoadVar env v g = some g' ∧ Emits g g' code [] ∧
      (∀ t, execCode L code s = some t → ∃ x, Pushed L s t x) ∧
      (nullPage ≤ addOffset p v.offset → Clear L s (addOffset p v.offset) (byteSize k) →
        ∃ t, execCode L code s = some t ∧ Pushed L s t (toSlot (k.format.wrap
          (s.mem.load (addOffset p v.offset) (byteSize k))))) := by
  have hptr : wordOf (varDirect sym).type = some .ulong := by
    simp [varDirect_type, wordOf, CType.wordType, hpointer]
  have hgen : ∃ g', vmLoadVar env v g = some g' := by
    have hload : ∀ g : GenState, ∃ g', emitVmLoad env (varDirect sym) g = some g' := by
      intro g
      simp only [emitVmLoad, varDirect_symbol, varDirect_isField, bind_some,
        Bool.false_eq_true, if_false, intSizeOf_wordOf hptr]
      split
      · exact ⟨_, rfl⟩
      · exact ⟨_, rfl⟩
    rcases hload { g with protectRemoveTempvar := true } with ⟨g', hg'⟩
    simp only [vmLoadVar, hkind, hsym, bind_some, vmLoadPointer, hstring,
      Bool.false_eq_true, if_false, hg', map_some, emitVmDeref, intSizeOf_wordOf hword]
    exact ⟨_, rfl⟩
  rcases hgen with ⟨g', hgen⟩
  rcases vmLoadDeref_address hmode hkind hsym (Or.inl hpointer) hroom hgen with
    ⟨code, size, hemits, -, -, t1, hrun, ht1⟩
  have hnone : loadedString env v = [] := by
    simp [loadedString, hkind, hsym, hstring]
  have haddr : pointerValue env L g.context s sym = p := by
    rw [pointerValue, hstring, if_neg (by decide), hp]
  rw [haddr] at ht1
  rw [hnone] at hemits
  have hall : execCode L (code ++ [derefCode env v sym size]) s =
      execData L (derefCode env v sym size) t1 := by
    rw [execCode_append, hrun, bind_some, execCode_cons]
    cases execData L (derefCode env v sym size) t1 <;> rfl
  refine ⟨g', _, hgen, hemits, ?_, ?_⟩
  · intro t ht
    rw [hall] at ht
    by_cases hnull : nullPage ≤ t1.top L
    · rw [derefCode, execData_deref hword hnull, some.injEq] at ht
      exact ⟨_, ht ▸ ht1.replace (by omega) (toSlot_lt _)⟩
    · have hfail : execData L (derefCode env v sym size) t1 = none := by
        have hlow : t1.top L < nullPage := by omega
        have htype : ∃ i, optypeInteger (storeOptype v) = some i := by
          have hbytes := storeBytes_storeOptype hword
          unfold storeBytes at hbytes
          split at hbytes
          · rename_i hcharp
            have hkinds : storeOptype v = getVmOptype v.type := by
              simp [storeOptype, (wordOf_kinds hword).1]
            rw [hkinds] at hcharp
            unfold getVmOptype at hcharp
            split at hcharp <;> first | cases hcharp | (split at hcharp <;> cases hcharp)
          · rw [map_eq_some_iff] at hbytes
            rcases hbytes with ⟨i, hi, -⟩
            exact ⟨i, hi⟩
        rcases htype with ⟨i, hi⟩
        show execDeref L (derefCode env v sym size) t1 = none
        simp only [execDeref, derefCode, hi, hlow, if_true]
      rw [hfail] at ht
      cases ht
  · intro hnull hclear
    refine ⟨_, ?_, ht1.replace (by omega) (toSlot_lt _)⟩
    rw [hall, derefCode, execData_deref hword (ht1.top.symm ▸ hnull), ht1.top, ht1.load hclear]

theorem Clear.keptBit {i : Nat} (h : Clear L s a n) (hi : i < 8 * n) : KeptBit L s (8 * a + i) := by
  rcases h with h | h
  · left
    omega
  · right
    omega

/-- Fields behind a pointer: values that are stored over the unit. -/
theorem pointer_right_iff_of_pushed {sym : Symbol}
    (hplace : FieldPlace env L k v (belowSource e u) a b)
    (hsym : PointerPlace env L k v (belowSource e u) sym a b) (hkind : v.kind = .deref)
    (hmode : g1.isGlobalMode = false) (hsource : genSource env v e g = some g1)
    (hsp : isConstantImm e = false → 8 ≤ u.sp)
    (hwidth : isConstantImm e = true → v.fieldWidth < 32)
    (hzero : ¬ (isConstantImm e = true ∧ sourceSlot L e u = 0)) :
    FieldRight env L k v e g g1 u a ↔
      PointerOk k v e (belowSource e u) (sourceSlot L e u) a b := by
  have hmem : (belowSource e u).mem = u.mem := by
    unfold belowSource
    split <;> rfl
  have hroom := hplace.room
  rcases source_pushed hplace.word hplace.field hplace.room hmode hsource hsp hwidth hzero with
    ⟨g0, code0, t0, hassign, hemits0, hrun0, ht0⟩
  have hstore : ∃ g2, emitVmDerefStore env v g0 = some g2 := by
    simp only [emitVmDerefStore, hsym.symbol, bind_some, intSizeOf_wordOf hplace.word]
    exact ⟨_, rfl⟩
  rcases hstore with ⟨g2, hstore⟩
  have hp0 := ht0.load hsym.clear_pointer
  rw [← varAddr_pushed ht0] at hp0
  rcases emitVmDerefStore_runs hemits0.mode hsym.symbol hplace.word hsym.base hp0
    (by rw [varAddr_pushed ht0]; exact hsym.null) ht0 hstore with
    ⟨code2, t1, hemits2, hrun2, hstored⟩
  rw [varAddr_pushed ht0, hsym.addr] at hstored
  have hassign' : vmGenAssign env v e g = some { g2 with protectRemoveTempvar := false } := by
    rw [hassign, vmStoreVar, hkind]
    simp only [hstore, map_some]
  -- The pointer is not changed by the store.
  have hp1 : t1.mem.load (varAddr L t1 (vmAddress env (varDirect sym) sym 8)) 8 =
      (belowSource e u).mem.load
        (varAddr L (belowSource e u) (vmAddress env (varDirect sym) sym 8)) 8 := by
    have haddr : varAddr L t1 (vmAddress env (varDirect sym) sym 8) =
        varAddr L (belowSource e u) (vmAddress env (varDirect sym) sym 8) := by
      simp only [varAddr, hstored.bp, hstored.gp]
    rw [haddr]
    apply load_congr
    intro c hlo hhi
    have hclear := hsym.clear_pointer
    have hapart := hsym.apart
    rw [hstored.mem c (by unfold Clear at hclear; omega)]
    exact store_outside (by omega)
  have hfree : t1.free L = (belowSource e u).free L := by
    simp only [State.free, hstored.sp]
  rcases pointerLoad_runs (g := { g2 with protectRemoveTempvar := false }) hemits2.mode hkind
    hsym.symbol hsym.pointer hsym.notString hplace.word
    (show t1.free L + 16 ≤ L.limit by omega) hp1 with ⟨g3, code3, hload, hemits3, -, hrun3⟩
  rw [hsym.addr] at hrun3
  have hclear1 : Clear L t1 a (byteSize k) := by
    have hclear := hsym.clear
    unfold Clear at hclear ⊢
    rwa [hfree]
  rcases hrun3 hsym.null_field hclear1 with ⟨t, hrun3, ht⟩
  have hprog : g3.prog = g1.prog ++ (code0 ++ code2 ++ code3) := by
    have h2 := hemits2.prog
    have h3 := hemits3.prog
    simp only at h3
    rw [h3, h2, hemits0.prog, append_assoc, append_assoc, append_assoc]
  have hall : execCode L (code0 ++ code2 ++ code3) u = some t := by
    rw [execCode_append, execCode_append, hrun0, bind_some, hrun2]
    exact hrun3
  rw [fieldRight_iff hassign' hload hprog hall, ht.top, hstored.self, slotInt_unit hplace.word,
    ← hmem, keeps_iff hstored ht]
  have hkeep : (∀ i, i < 8 * byteSize k → KeptBit L (belowSource e u) (8 * a + i) →
      8 * a + i < 8 * a + v.fieldOffset ∨ 8 * a + (v.fieldWidth + v.fieldOffset) ≤ 8 * a + i →
      (storedSlot L v e u).testBit i = (belowSource e u).mem.bit (8 * a + i)) ↔
      ∀ i, i < 8 * byteSize k → OutsideField v i →
        (storedSlot L v e u).testBit i = (belowSource e u).mem.bit (8 * a + i) := by
    constructor
    · intro h i hi houtside
      apply h i hi (hsym.clear.keptBit hi)
      unfold OutsideField at houtside
      omega
    · intro h i hi _ houtside
      apply h i hi
      unfold OutsideField
      omega
  rw [hkeep, PointerOk]
  cases hconst : isConstantImm e with
  | true =>
    have hnot : sourceSlot L e u ≠ 0 := fun h => hzero ⟨hconst, h⟩
    have hslot : storedSlot L v e u = sourceSlot L e u % 2 ^ v.fieldWidth := by
      simp [storedSlot, hconst]
    rw [hslot, slotInt_low_iff hplace.word hplace.field hplace.width, if_pos rfl, if_neg hnot]
    simp only [hwidth hconst, true_and]
  | false =>
    have hslot : storedSlot L v e u = sourceSlot L e u := by
      simp [storedSlot, hconst]
    rw [hslot, if_neg (by decide)]

/-- Fields behind a pointer: a constant zero is stored behind the pointer variable. -/
theorem pointer_right_iff_of_zero {sym : Symbol}
    (hplace : FieldPlace env L k v u a b) (hsym : PointerPlace env L k v u sym a b)
    (hkind : v.kind = .deref) (hend : v.fieldWidth + v.fieldOffset < 32)
    (hmode : g1.isGlobalMode = false) (hsource : genSource env v e g = some g1)
    (hconst : isConstantImm e = true) (hzero : sourceSlot L e u = 0) :
    FieldRight env L k v e g g1 u a ↔ PointerOk k v e u (sourceSlot L e u) a b := by
  have hroom := hplace.room
  have hbelow : belowSource e u = u := by simp [belowSource, hconst]
  rcases vmGenAssign_zero hplace.word hplace.field hsource (by omega) hconst hzero with
    ⟨rfl, hassign⟩
  rcases vmStoreBitfieldZero_isSome env g1 hplace.word hsym.symbol hend with
    ⟨g2, hstore⟩
  rcases vmStoreBitfieldZero_runs hmode hsym.symbol hplace.word hplace.room hsym.behind hstore with
    ⟨mask, code2, t1, hmask, hemits2, hrun2, hstored⟩
  have hfree : t1.free L = u.free L := by
    simp only [State.free, hstored.sp]
  rcases pointerLoad_runs (L := L) (s := t1) hemits2.mode hkind hsym.symbol hsym.pointer
    hsym.notString hplace.word (by omega) rfl with ⟨g3, code3, hload, hemits3, hframe, hrun3⟩
  -- Masking changes nothing exactly when the cleared bits are not set.
  have hunit : (∀ i, i < 8 * byteSize k →
      ((u.mem.load b (byteSize k) &&& mask) % 2 ^ 32).testBit i = u.mem.bit (8 * b + i)) ↔
      ∀ i, i < 8 * byteSize k → (¬ OutsideField v i ∨ 32 ≤ i) →
        u.mem.bit (8 * b + i) = false := by
    have hbit : ∀ i, i < 8 * byteSize k →
        ((u.mem.load b (byteSize k) &&& mask) % 2 ^ 32).testBit i =
          (decide (i < 32 ∧ OutsideField v i) && u.mem.bit (8 * b + i)) := by
      intro i hi
      rw [testBit_cleared hmask, testBit_load, decide_eq_true hi, Bool.true_and]
      rfl
    constructor
    · intro h i hi hin
      have hbit := (hbit i hi).symm.trans (h i hi)
      have hnot : ¬ (i < 32 ∧ OutsideField v i) := by
        rcases hin with hin | hin
        · exact fun h => hin h.2
        · omega
      rw [decide_eq_false hnot, Bool.false_and] at hbit
      exact hbit.symm
    · intro h i hi
      rw [hbit i hi]
      by_cases hout : i < 32 ∧ OutsideField v i
      · rw [decide_eq_true hout, Bool.true_and]
      · rw [decide_eq_false hout, Bool.false_and, h i hi]
        by_cases hi32 : i < 32
        · exact Or.inl fun hin => hout ⟨hi32, hin⟩
        · exact Or.inr (by omega)
  have hall : ∀ t, execCode L (code2 ++ code3) u = some t ↔ execCode L code3 t1 = some t := by
    intro t
    rw [execCode_append, hrun2, bind_some]
  have hprog : g3.prog = g1.prog ++ (code2 ++ code3) := by
    rw [hemits3.prog, hemits2.prog, append_assoc]
  -- Then the load reads the unit as it was.
  have hread : (∀ i, i < 8 * byteSize k →
      ((u.mem.load b (byteSize k) &&& mask) % 2 ^ 32).testBit i = u.mem.bit (8 * b + i)) →
      ∃ t, execCode L code3 t1 = some t ∧
        Pushed L t1 t (toSlot (k.format.wrap (u.mem.load a (byteSize k)))) := by
    intro hsame
    have hbits : ∀ i, KeptBit L u i → t1.mem.bit i = u.mem.bit i := by
      intro i hi
      rw [Memory.bit, hstored.mem _ hi, ← Memory.bit, bit_store]
      split
      · have hidx : 8 * b + (i - 8 * b) = i := by omega
        rw [hsame _ (by omega), hidx]
      · rfl
    have hloads : ∀ c n, Clear L u c n → t1.mem.load c n = u.mem.load c n := by
      intro c n hc
      exact load_eq_of_bit fun i hi => hbits _ (hc.keptBit hi)
    have haddr : varAddr L t1 (vmAddress env (varDirect sym) sym 8) =
        varAddr L u (vmAddress env (varDirect sym) sym 8) := by
      simp only [varAddr, hstored.bp, hstored.gp]
    have hclear := hsym.clear
    rw [haddr, hloads _ _ hsym.clear_pointer, hsym.addr, hloads _ _ hclear] at hrun3
    unfold Clear at hclear hrun3
    rw [hfree] at hrun3
    exact hrun3 hsym.null_field hclear
  have hvalue := slotInt_load_eq_zero_iff (a := a) (m := u.mem) hplace.word
  have hapart := hsym.apart_behind
  have hmax := le_max_left (byteSize k) (fieldBytes v)
  have hmax' := le_max_right (byteSize k) (fieldBytes v)
  have hbytes : v.fieldWidth + v.fieldOffset ≤ 8 * fieldBytes v := by
    unfold fieldBytes
    omega
  simp only [PointerOk, hconst, hzero, if_true, hend, true_and, (by omega : v.fieldWidth < 32)]
  rw [← hunit, ← hvalue]
  constructor
  · rintro ⟨g2', g3', code', t, hassign', hload', hprog', hrun', hval, hkeep⟩
    rw [hassign, hstore, some.injEq] at hassign'
    subst hassign'
    rw [hload, some.injEq] at hload'
    subst hload'
    have hsame : code' = code2 ++ code3 := append_cancel_left (hprog'.symm.trans hprog)
    rw [hsame, hall] at hrun'
    rcases hframe t hrun' with ⟨x, ht⟩
    rw [hbelow] at hkeep
    have hkept := (keeps_iff hstored ht).mp hkeep
    have hmasked : ∀ i, i < 8 * byteSize k →
        ((u.mem.load b (byteSize k) &&& mask) % 2 ^ 32).testBit i = u.mem.bit (8 * b + i) := by
      intro i hi
      apply hkept i hi (hsym.clear_behind.keptBit hi)
      omega
    refine ⟨hmasked, ?_⟩
    rcases hread hmasked with ⟨t', hrun'', ht'⟩
    rw [hrun', some.injEq] at hrun''
    rw [← ht'.top, ← hrun'', hval, hzero, fieldOf_zero]
  · rintro ⟨hmasked, hval⟩
    rcases hread hmasked with ⟨t, hrun', ht⟩
    rw [fieldRight_iff (hassign.trans hstore) hload hprog ((hall t).mpr hrun'), ht.top, hval, hzero,
      fieldOf_zero, hbelow, keeps_iff hstored ht]
    exact ⟨rfl, fun i hi _ _ => hmasked i hi⟩

theorem not_fieldRight_of_mask (hplace : FieldPlace env L k v (belowSource e u) a b)
    (hend : ¬ v.fieldWidth + v.fieldOffset < 32)
    (hstore : v.kind = .direct ∨ isConstantImm e = true ∧ sourceSlot L e u = 0) :
    ¬ FieldRight env L k v e g g1 u a := by
  rintro ⟨g2, -, -, -, hassign, -⟩
  have hmask : fieldMask v = none := by
    rw [fieldMask, if_neg hend]
  have hnone : ∀ g, v.kind = .direct → vmStoreVar env v g = none := by
    intro g hkind
    rw [vmStoreVar, hkind]
    cases hsym : v.symbol <;>
      simp [emitVmStore, hsym, hplace.field, emitVmFieldMerge, hmask]
  have hclear : ∀ g, vmStoreBitfieldZero env v g = none := by
    intro g
    unfold vmStoreBitfieldZero
    cases v.symbol <;> cases intSizeOf env v.type <;> simp [hmask]
  rw [vmGenAssign_field hplace.word hplace.field] at hassign
  split at hassign
  · rename_i hconst
    simp only [vmGenFieldConstant, bind_eq_some_iff] at hassign
    rcases hassign with ⟨m, -, hassign⟩
    split at hassign
    · rw [hclear] at hassign
      cases hassign
    · rename_i hnonzero
      rcases hstore with hkind | ⟨-, hzero⟩
      · rw [hnone _ hkind] at hassign
        cases hassign
      · simp only [sourceSlot, hconst, if_true] at hzero
        exact hnonzero hzero
  · rename_i hconst
    rcases hstore with hkind | ⟨hconst', -⟩
    · simp only [bind_eq_some_iff, map_eq_some_iff] at hassign
      rcases hassign with ⟨g0, -, g', hg', -⟩
      rw [hnone _ hkind] at hg'
      cases hg'
    · exact hconst hconst'

theorem not_fieldRight_of_width (hplace : FieldPlace env L k v (belowSource e u) a b)
    (hconst : isConstantImm e = true) (hwidth : ¬ v.fieldWidth < 32) :
    ¬ FieldRight env L k v e g g1 u a := by
  rintro ⟨g2, -, -, -, hassign, -⟩
  rw [vmGenAssign_field hplace.word hplace.field, if_pos hconst, vmGenFieldConstant, lowMask,
    if_neg hwidth, bind_none] at hassign
  cases hassign

/-- Exactly when an assignment to a bit-field followed by a load of the field gives
the value of the field and keeps all other bits. -/
theorem bitfield_exact_iff (env : GenEnv) (L : Layout) (k : CInteger) (v : Var) (e : Expression)
    (g g1 : GenState) (u : State) (a b : Nat)
    (hplace : FieldPlace env L k v (belowSource e u) a b) (hmode : g1.isGlobalMode = false)
    (hsource : genSource env v e g = some g1) (hsp : isConstantImm e = false → 8 ≤ u.sp) :
    FieldRight env L k v e g g1 u a ↔
      FieldOk L k v e (belowSource e u) (sourceSlot L e u) a b := by
  unfold FieldOk
  by_cases hzero : isConstantImm e = true ∧ sourceSlot L e u = 0
  · rcases hplace.place with ⟨hkind, -⟩ | ⟨hkind, sym, hsym⟩
    · rw [hkind]
      by_cases hend : v.fieldWidth + v.fieldOffset < 32
      · exact direct_right_iff_of_zero hplace hkind hend hmode hsource hzero.1 hzero.2
      · exact iff_of_false (not_fieldRight_of_mask hplace hend (Or.inl hkind)) fun h => hend h.1
    · rw [hkind]
      have hbelow : belowSource e u = u := by simp [belowSource, hzero.1]
      by_cases hend : v.fieldWidth + v.fieldOffset < 32
      · rw [hbelow] at hplace hsym ⊢
        exact pointer_right_iff_of_zero hplace hsym hkind hend hmode hsource hzero.1 hzero.2
      · apply iff_of_false (not_fieldRight_of_mask hplace hend (Or.inr hzero))
        intro h
        simp only [PointerOk, hzero.1, hzero.2, if_true] at h
        exact hend h.2.1
  · rcases hplace.place with ⟨hkind, -⟩ | ⟨hkind, sym, hsym⟩
    · rw [hkind]
      by_cases hend : v.fieldWidth + v.fieldOffset < 32
      · exact direct_right_iff_of_pushed hplace hkind hend hmode hsource hsp hzero
      · exact iff_of_false (not_fieldRight_of_mask hplace hend (Or.inl hkind)) fun h => hend h.1
    · rw [hkind]
      by_cases hwidth : isConstantImm e = true → v.fieldWidth < 32
      · exact pointer_right_iff_of_pushed hplace hsym hkind hmode hsource hsp hwidth hzero
      · rw [not_forall] at hwidth
        rcases hwidth with ⟨hconst, hwidth⟩
        apply iff_of_false (not_fieldRight_of_width hplace hconst hwidth)
        intro h
        rw [PointerOk, if_pos hconst] at h
        exact hwidth h.1

/-- A field of three bits at the third bit of a local variable. -/
def sampleField (type : CType) : Var :=
  { sampleVar 0 type with fieldWidth := 3, fieldOffset := 2 }

/-- A constant. -/
def sampleConstant (type : CType) (n : Int) : Expression where
  op := .cast
  type := type
  l := { kind := .immediate, type := type, imm := Value.setI {} n }

/-- The unsigned field `f : 3` holds five after `f = 5`. -/
theorem bitfield_exact_five :
    FieldRight sampleEnv sampleLayout .uint (sampleField basicTypeUnsignedInt)
      (sampleConstant basicTypeUnsignedInt 5) sampleGen sampleGen (sampleState fun _ => 255) 4160 :=
  (bitfield_exact_iff sampleEnv sampleLayout .uint (sampleField basicTypeUnsignedInt)
    (sampleConstant basicTypeUnsignedInt 5) sampleGen sampleGen (sampleState fun _ => 255) 4160 0
    { field := rfl
      word := rfl
      width := by decide
      room := by decide
      alive := by decide
      place := Or.inl ⟨rfl, _, rfl, rfl⟩ } rfl rfl (by intro h; cases h)).mpr
    (by
      refine ⟨by decide, ?_⟩
      rw [if_neg (by decide)]
      refine ⟨?_, ?_⟩
      · intro h
        cases h
      · intro h
        cases h)

/-- The signed field `f : 3` is read as seven after `f = -1`. -/
theorem signed_field_wrong :
    ¬ FieldRight sampleEnv sampleLayout .int (sampleField basicTypeInt)
      (sampleConstant basicTypeInt (-1)) sampleGen sampleGen (sampleState fun _ => 0) 4160 := by
  rintro ⟨g2, g3, code, t, hassign, hload, hprog, hrun, hvalue, -⟩
  have hcode : code = ((((vmGenAssign sampleEnv (sampleField basicTypeInt)
      (sampleConstant basicTypeInt (-1)) sampleGen).bind
        (vmLoadVar sampleEnv (sampleField basicTypeInt))).map (·.prog)).getD []).drop 1 := by
    rw [hassign, bind_some, hload, map_some, hprog]
    rfl
  have htop : (execCode sampleLayout code (sampleState fun _ => 0)).map
      (State.top sampleLayout) = some 7 := by
    rw [hcode]
    rfl
  rw [hrun, map_some, some.injEq] at htop
  rw [htop] at hvalue
  exact absurd hvalue (by decide)

end Kcs.Vm
