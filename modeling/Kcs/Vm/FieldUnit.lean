import Kcs.Vm.Reload

/-!
# Units of bit-fields

The bits of the unit that an assignment to a bit-field stores, the code that stores
it, and the value of a field that is read from a unit.

Main results:

- Theorem {lit}`slotInt_low_iff`: when the bits of a field are its value.
-/

namespace Kcs.Vm

open Option

/-! ## Units as bits -/

/-- The value that a field has after an assignment. -/
def fieldOf (v : Var) (n : Int) : Int :=
  let x := BitVec.ofInt v.fieldWidth n
  if v.type.isSigned then x.toInt else x.toNat

/-- The unit that is stored: the shifted value over the masked old unit. -/
def mergedUnit (v : Var) (mask z old : Nat) : Nat :=
  (z * 2 ^ v.fieldOffset ||| old &&& mask) % 2 ^ 32

variable {v : Var} {mask z old x : Nat}

theorem testBit_fieldMask (h : fieldMask v = some mask) {i : Nat} (hi : i < 32) :
    mask.testBit i = decide (i < v.fieldOffset ∨ v.fieldWidth + v.fieldOffset ≤ i) := by
  simp only [fieldMask, ite_none_right_eq_some, some.injEq] at h
  rcases h with ⟨hend, rfl⟩
  have hle : (2 : Nat) ^ v.fieldOffset ≤ 2 ^ (v.fieldWidth + v.fieldOffset) :=
    Nat.pow_le_pow_right (by decide) (by omega)
  have hone : 1 ≤ (2 : Nat) ^ v.fieldOffset := Nat.one_le_two_pow
  have hlow : 2 ^ v.fieldOffset - 1 < 2 ^ (v.fieldWidth + v.fieldOffset) := by omega
  have hpow : (2 : Nat) ^ 32 =
      2 ^ (v.fieldWidth + v.fieldOffset) * 2 ^ (32 - (v.fieldWidth + v.fieldOffset)) := by
    rw [← pow_add]
    congr 1
    omega
  have hhigh : 2 ^ 32 - 2 ^ (v.fieldWidth + v.fieldOffset) =
      2 ^ (v.fieldWidth + v.fieldOffset) * (2 ^ (32 - (v.fieldWidth + v.fieldOffset)) - 1) := by
    rw [hpow, Nat.mul_sub, Nat.mul_one]
  rw [hhigh, Nat.testBit_two_pow_mul_add _ hlow]
  split
  · rw [Nat.testBit_two_pow_sub_one]
    congr 1
    apply propext
    omega
  · rw [Nat.testBit_two_pow_sub_one]
    congr 1
    apply propext
    omega

theorem testBit_mergedUnit (h : fieldMask v = some mask) {i : Nat} (hi : i < 32) :
    (mergedUnit v mask z old).testBit i =
      if i < v.fieldOffset then old.testBit i
      else if i < v.fieldWidth + v.fieldOffset then z.testBit (i - v.fieldOffset)
      else z.testBit (i - v.fieldOffset) || old.testBit i := by
  have hmask := testBit_fieldMask h hi
  simp only [mergedUnit, Nat.testBit_mod_two_pow, Nat.testBit_or, Nat.testBit_and,
    Nat.testBit_mul_two_pow, hmask, hi, decide_true, Bool.true_and]
  by_cases hlow : i < v.fieldOffset
  · have hnot : ¬ v.fieldOffset ≤ i := by omega
    simp [hlow, hnot]
  · have hle : v.fieldOffset ≤ i := by omega
    by_cases hmid : i < v.fieldWidth + v.fieldOffset
    · have hnot : ¬ v.fieldWidth + v.fieldOffset ≤ i := by omega
      simp [hlow, hle, hmid, hnot]
    · have hend : v.fieldWidth + v.fieldOffset ≤ i := by omega
      simp [hlow, hle, hmid, hend]

theorem slotInt_extract {w o : Nat} (hend : w + o ≤ 32) :
    (slotInt .int old / 2 ^ o % 2 ^ w).toNat = old / 2 ^ o % 2 ^ w := by
  have hmod : slotInt .int old % 2 ^ 32 = (old : Int) % 2 ^ 32 :=
    IntFormat.wrap_emod_width (f := CInteger.int.format) old
  have hsplit : (2 : Int) ^ 32 = 2 ^ o * (2 ^ w * 2 ^ (32 - o - w)) := by
    rw [← pow_add, ← pow_add]
    congr 1
    omega
  -- The two units differ by a multiple of two to the 32.
  rcases Int.dvd_of_emod_eq_zero (Int.emod_eq_emod_iff_emod_sub_eq_zero.mp hmod) with ⟨q, hq⟩
  have hunit : slotInt .int old = old + 2 ^ o * (2 ^ w * (2 ^ (32 - o - w) * q)) := by
    rw [hsplit] at hq
    rw [← mul_assoc (2 ^ w : Int), ← mul_assoc (2 ^ o : Int), ← hq]
    omega
  rw [hunit, Int.add_mul_ediv_left _ _ (by positivity), Int.add_mul_emod_self_left]
  norm_cast

theorem binary_bitwise_uint {x y : Nat} :
    CInteger.binary .and .uint (slotInt .uint x) (slotInt .uint y) =
        some (((x &&& y) % 2 ^ 32 : Nat) : Int) ∧
      CInteger.binary .or .uint (slotInt .uint x) (slotInt .uint y) =
        some (((x ||| y) % 2 ^ 32 : Nat) : Int) := by
  have hword : ∀ n : Nat, BitVec.ofInt 32 (slotInt .uint n) = BitVec.ofNat 32 n := by
    intro n
    have hwrap : slotInt .uint n = ((n % 2 ^ 32 : Nat) : Int) := by
      rw [slotInt, IntFormat.wrap_unsigned rfl]
      norm_cast
    rw [hwrap, BitVec.ofInt_natCast]
    apply BitVec.eq_of_toNat_eq
    simp
  have hbits : ∀ b : BitVec 32, CInteger.uint.format.ofBits b = b.toNat := fun b => rfl
  have hand : (BitVec.ofNat 32 x &&& BitVec.ofNat 32 y).toNat = (x &&& y) % 2 ^ 32 := by
    rw [BitVec.toNat_and, BitVec.toNat_ofNat, BitVec.toNat_ofNat, ← Nat.and_mod_two_pow]
  have hor : (BitVec.ofNat 32 x ||| BitVec.ofNat 32 y).toNat = (x ||| y) % 2 ^ 32 := by
    rw [BitVec.toNat_or, BitVec.toNat_ofNat, BitVec.toNat_ofNat, ← Nat.or_mod_two_pow]
  constructor
  · rw [← hand, ← hbits, ← hword, ← hword]
    rfl
  · rw [← hor, ← hbits, ← hword, ← hword]
    rfl

/-! ## Stores -/

/-- Memory after a store through which the stack is as high as before; the free part
of the stack may have changed. -/
structure Stored (L : Layout) (s t : State) (a n x : Nat) : Prop where
  sp : t.sp = s.sp
  bp : t.bp = s.bp
  gp : t.gp = s.gp
  self : t.mem.load a n = x % 256 ^ n
  mem : ∀ b, b < s.free L ∨ L.limit ≤ b → t.mem b = s.mem.store a n x b

variable {env : GenEnv} {L : Layout} {g g' g1 g2 : GenState} {s t u : State} {e : Expression}
  {k : CInteger} {sym : Symbol}

theorem Pushed.stored {a n : Nat} (h : Pushed L s t x) :
    Stored L s { t.drop with mem := t.mem.store a n x } a n x where
  sp := by
    simp only [State.drop, h.sp]
    omega
  bp := h.bp
  gp := h.gp
  self := Memory.load_store_self _ _ _ _
  mem := by
    intro b hb
    show t.mem.store a n x b = s.mem.store a n x b
    by_cases hin : a ≤ b ∧ b < a + n
    · rw [Memory.store_inside hin.1 hin.2, Memory.store_inside hin.1 hin.2]
    · rw [Memory.store_outside (by omega), Memory.store_outside (by omega)]
      exact h.mem b hb

/-- Code that begins with a value on top and ends with a slot in its place. -/
def Turns (L : Layout) (code : List VmCode) (s : State) (x y : Nat) : Prop :=
  ∀ t, Pushed L s t x → ∃ u, execCode L code t = some u ∧ Pushed L s u y

theorem emitVmFieldShift_turns {code : List VmCode} {image : List (BitVec 8)}
    (hgen : Emits g g' code image) (hroom : s.free L + 16 ≤ L.limit)
    (hoffset : v.fieldOffset < 32) :
    ∃ code' y, Emits g (emitVmFieldShift .shl v g') (code ++ code') image ∧
      Turns L code' s x y ∧ y % 2 ^ 32 = x * 2 ^ v.fieldOffset % 2 ^ 32 := by
  by_cases hzero : v.fieldOffset = 0
  · refine ⟨[], x, by simpa [emitVmFieldShift, hzero] using hgen, ?_, by simp [hzero]⟩
    intro t ht
    exact ⟨t, rfl, ht⟩
  · have hpos : 0 < v.fieldOffset := by omega
    have hcount : (0 : Int) ≤ v.fieldOffset ∧ (v.fieldOffset : Int) < CInteger.int.format.width := by
      have hwidth : CInteger.int.format.width = 32 := rfl
      rw [hwidth]
      omega
    have hk : CInteger.binary .shl .int (slotInt .int x) v.fieldOffset =
        some (CInteger.int.format.wrap (slotInt .int x * 2 ^ v.fieldOffset)) := by
      simp only [CInteger.binary, hcount, and_self, if_true, Int.toNat_natCast]
    have hexec : ∀ u, execData L { opcode := .shl, type := .int32 } u =
        execShift L .shl .int u := by
      intro u
      simp [execData, optypeInteger]
    refine ⟨_, _, ?_, fun t ht => ht.shiftImm hroom hoffset hexec hk, ?_⟩
    · have hemits := (hgen.concat
        { opcode := .push, type := .int32, d := .imm (vmImm 32 v.fieldOffset) }).concat
          { opcode := .shl, type := .int32 }
      simpa [emitVmFieldShift, hpos, emitVmOp, emitVmPushImm] using hemits
    · have hslot := cast_toSlot (CInteger.int.format.wrap (slotInt .int x * 2 ^ v.fieldOffset))
      have hwrap := IntFormat.wrap_emod_width (f := CInteger.int.format)
        (slotInt .int x * 2 ^ v.fieldOffset)
      have hx : slotInt .int x % 2 ^ 32 = (x : Int) % 2 ^ 32 :=
        IntFormat.wrap_emod_width (f := CInteger.int.format) x
      have hwidth : CInteger.int.format.width = 32 := rfl
      rw [hwidth, Int.mul_emod, hx, ← Int.mul_emod] at hwrap
      zify
      rw [hslot, ← hwrap]
      exact Int.emod_emod_of_dvd _ (by decide)

theorem emitVmMask_turns (mask : Nat) {code : List VmCode} {image : List (BitVec 8)}
    (hgen : Emits g g' code image) (hroom : s.free L + 16 ≤ L.limit) :
    ∃ code', Emits g (emitVmMask mask g') (code ++ code') image ∧
      Turns L code' s x ((x &&& mask) % 2 ^ 32) := by
  have hop : binaryOpcode .and = some (CInteger.BinaryOp.and, false) := rfl
  have htype : optypeInteger .uint32 = some CInteger.uint := rfl
  have hlt : (x &&& mask) % 2 ^ 32 < 2 ^ 64 := by omega
  have himm : slotInt .uint (toSlot (CInteger.uint.format.wrap mask)) = slotInt .uint mask := by
    rw [slotInt_toSlot, IntFormat.wrap_wrap]
    rfl
  have hk := (binary_bitwise_uint (x := x) (y := mask)).1
  rw [← himm] at hk
  refine ⟨[{ opcode := .push, type := .uint32, d := .imm (vmImm 32 mask) },
    { opcode := .and, type := .uint32 }], ?_, ?_⟩
  · have hemits := (hgen.concat
      { opcode := .push, type := .uint32, d := .imm (vmImm 32 mask) }).concat
        { opcode := .and, type := .uint32 }
    simpa [emitVmMask, emitVmOp, emitVmPushImm] using hemits
  · intro t ht
    have h := ht.binaryImm hroom hop htype htype rfl hk
    rwa [toSlot_natCast hlt] at h

theorem varAddr_pushed {a : VmAddress} (h : Pushed L s t x) : varAddr L t a = varAddr L s a := by
  simp only [varAddr, h.bp, h.gp]

theorem execData_pushUnsigned {a : VmAddress} (hsize : a.size = byteSize k) (hbool : k ≠ .bool) :
    execData L { opcode := .push, type := .varu, d := .addr a } s =
      some (s.push L (s.mem.load (varAddr L s a) (byteSize k))) := by
  have hwrap : ∀ f : IntFormat, f.signed = false → f.width = 8 * byteSize k →
      toSlot (f.wrap (s.mem.load (varAddr L s a) (byteSize k))) =
        s.mem.load (varAddr L s a) (byteSize k) := by
    intro f hsigned hwidth
    have hlt := Memory.load_lt s.mem (varAddr L s a) (byteSize k)
    have hpow : (256 : Nat) ^ byteSize k = 2 ^ f.width := by
      rw [hwidth, pow_mul]
      rfl
    have hword : (2 : Nat) ^ f.width ≤ 2 ^ 64 := Nat.pow_le_pow_right (by decide) f.width_le
    rw [hpow] at hlt
    rw [IntFormat.wrap_unsigned hsigned, Int.emod_eq_of_lt (by omega) (by exact_mod_cast hlt)]
    exact toSlot_natCast (by omega)
  show some (pushVar L s false a) = _
  unfold pushVar
  rw [hsize]
  cases k with
  | bool => exact absurd rfl hbool
  | char | uchar => exact congrArg (fun y => some (s.push L y)) (hwrap (.bits8 false) rfl rfl)
  | short | ushort => exact congrArg (fun y => some (s.push L y)) (hwrap (.bits16 false) rfl rfl)
  | int | uint => exact congrArg (fun y => some (s.push L y)) (hwrap (.bits32 false) rfl rfl)
  | long | ulong => exact congrArg (fun y => some (s.push L y)) (hwrap (.bits64 false) rfl rfl)

theorem storeBytes_storeOptype (h : wordOf v.type = some k) :
    storeBytes (storeOptype v) = some (byteSize k) := by
  have hkinds : storeOptype v = getVmOptype v.type := by
    simp [storeOptype, (wordOf_kinds h).1]
  rw [hkinds]
  rcases wordOf_cases h with ⟨hp, rfl⟩ | ⟨-, hop, -, -, -⟩
  · have hkind : v.type.typeOf = .pointer := by simpa [CType.isPointerType] using hp
    cases hu : v.type.isUnsignedType <;> simp [getVmOptype, hkind, hu] <;> decide
  · cases htype : getVmOptype v.type <;> rw [htype] at hop <;>
      simp only [optypeInteger, some.injEq, reduceCtorEq] at hop <;> subst hop <;> decide

theorem execData_merge {y : Nat} (h : Pushed L s t x) (h' : Pushed L t u y)
    (hroom : s.free L + 8 ≤ L.limit) :
    ∃ w, execData L { opcode := .or, type := .uint32 } u = some w ∧
      Pushed L s w ((x ||| y) % 2 ^ 32) := by
  have hk : (if false then CInteger.binary .or CInteger.uint.promote (slotInt .uint y)
      (slotInt .uint x) else CInteger.binary .or CInteger.uint.promote (slotInt .uint x)
        (slotInt .uint y)) = some (((x ||| y) % 2 ^ 32 : Nat) : Int) :=
    binary_bitwise_uint.2
  rcases execBinary_pushed false h h' hroom hk with ⟨w, hw, hpw⟩
  rw [toSlot_natCast (by omega)] at hpw
  exact ⟨w, hw, hpw⟩

theorem Pushed.testBit_load {a n i : Nat} (h : Pushed L s t x) (hi : i < 8 * n)
    (hkept : (8 * a + i) / 8 < s.free L ∨ L.limit ≤ (8 * a + i) / 8) :
    (t.mem.load a n).testBit i = s.mem.bit (8 * a + i) := by
  rw [Memory.testBit_load, decide_eq_true hi, Bool.true_and, Memory.bit, Memory.bit, h.mem _ hkept]

/-- The code that stores the slot on top to a field of a variable. -/
theorem emitVmStore_field_runs {a : Nat} (hmode : g.isGlobalMode = false)
    (hsym : v.symbol = some sym) (hfield : v.isField = true) (hroom : s.free L + 24 ≤ L.limit)
    (haddr : varAddr L s (vmAddress env v sym 4) = a) (ht : Pushed L s t z)
    (hgen : emitVmStore env v g = some g') :
    ∃ mask code own u, fieldMask v = some mask ∧ Emits g g' code [] ∧
      execCode L code t = some u ∧
      (∀ i, i < 32 → (8 * a + i) / 8 < s.free L ∨ L.limit ≤ (8 * a + i) / 8 →
        own.testBit i = s.mem.bit (8 * a + i)) ∧
      Stored L s u a 4 (mergedUnit v mask z own) := by
  simp only [emitVmStore, hsym, bind_some, hfield, if_true, emitVmFieldMerge,
    map_map, map_eq_some_iff] at hgen
  rcases hgen with ⟨mask, hmask, rfl⟩
  have hoffset : v.fieldOffset < 32 := by
    simp only [fieldMask, ite_none_right_eq_some] at hmask
    omega
  rcases emitVmFieldShift_turns (x := z) (L := L) (s := s) (Emits.refl hmode) (by omega) hoffset with
    ⟨code1, z1, hemits1, hturns1, hz1⟩
  rcases hturns1 t ht with ⟨t1, hrun1, ht1⟩
  have hroom1 : t1.free L + 16 ≤ L.limit := by
    simp only [State.free, ht1.sp] at hroom ⊢
    omega
  -- The unit is read after the new value has been pushed.
  have hpush := execData_pushUnsigned (L := L) (s := t1) (a := vmAddress env v sym 4) (k := .uint)
    rfl (by decide)
  rw [varAddr_pushed ht1, haddr] at hpush
  change _ = some (t1.push L (t1.mem.load a 4)) at hpush
  have hown := fun i hi => ht1.testBit_load (a := a) (n := 4) (i := i) hi
  have hlt : t1.mem.load a 4 < 256 ^ 4 := Memory.load_lt _ _ _
  generalize t1.mem.load a 4 = own at hpush hown hlt
  have ht2 : Pushed L t1 (t1.push L own) own := Pushed.push (by omega) (by omega)
  have hemits2 := hemits1.concat
    { opcode := .push, type := .varu, d := .addr (vmAddress env v sym 4) }
  rcases emitVmMask_turns mask (x := own) (L := L) (s := t1) hemits2 hroom1 with
    ⟨code3, hemits3, hturns3⟩
  rcases hturns3 _ ht2 with ⟨t3, hrun3, ht3⟩
  rcases execData_merge ht1 ht3 (by omega) with ⟨t4, hor, ht4⟩
  have hemits4 := (hemits3.concat { opcode := .or, type := .uint32 }).concat
    { opcode := .pop, type := .uint32, d := .addr (vmAddress env v sym 4) }
  have hpop : execData L { opcode := .pop, type := .uint32, d := .addr (vmAddress env v sym 4) } t4 =
      some { t4.drop with mem := t4.mem.store a 4 ((z1 ||| (own &&& mask) % 2 ^ 32) % 2 ^ 32) } := by
    rw [← haddr, ← varAddr_pushed ht4, ← ht4.top]
    rfl
  have hunit : (z1 ||| (own &&& mask) % 2 ^ 32) % 2 ^ 32 = mergedUnit v mask z own := by
    rw [mergedUnit, Nat.or_mod_two_pow, Nat.or_mod_two_pow (a := z * _), hz1, Nat.mod_mod]
  rw [hunit] at ht4 hpop
  refine ⟨mask, _, own, _, hmask, hemits4, ?_, hown, ht4.stored⟩
  simp [execCode_append, hrun1, hpush, hrun3, hor, hpop]

theorem execData_pop {type : VmOptype} {a : VmAddress} {n : Nat}
    (hn : storeBytes type = some n) :
    execData L { opcode := .pop, type := type, d := .addr a } t =
      some { t.drop with mem := t.mem.store (varAddr L t a) n (t.top L) } := by
  have hexec : execData L { opcode := .pop, type := type, d := .addr a } t =
      execPop L { opcode := .pop, type := type, d := .addr a } t := rfl
  rw [hexec, execPop]
  simp only [hn]

theorem vmStoreBitfieldZero_runs {a : Nat} (hmode : g.isGlobalMode = false)
    (hsym : v.symbol = some sym) (hword : wordOf v.type = some k)
    (hroom : s.free L + 24 ≤ L.limit)
    (haddr : varAddr L s (vmAddress env v sym (byteSize k)) = a)
    (hgen : vmStoreBitfieldZero env v g = some g') :
    ∃ mask code u, fieldMask v = some mask ∧ Emits g g' code [] ∧ execCode L code s = some u ∧
      Stored L s u a (byteSize k) ((s.mem.load a (byteSize k) &&& mask) % 2 ^ 32) := by
  rcases byteSize_wordOf hword with ⟨hbool, hwidth, -, -⟩
  simp only [vmStoreBitfieldZero, hsym, bind_some, intSizeOf_wordOf hword, map_eq_some_iff] at hgen
  rcases hgen with ⟨mask, hmask, rfl⟩
  have hpush := execData_pushUnsigned (L := L) (s := s) (a := vmAddress env v sym (byteSize k))
    (k := k) rfl hbool
  rw [haddr] at hpush
  have hlt : s.mem.load a (byteSize k) < 2 ^ 64 := by
    have hload := Memory.load_lt s.mem a (byteSize k)
    have hpow : (256 : Nat) ^ byteSize k ≤ 256 ^ 8 := by
      have := k.format.width_le
      exact Nat.pow_le_pow_right (by decide) (by omega)
    have h8 : (256 : Nat) ^ 8 = 2 ^ 64 := by norm_num
    omega
  generalize s.mem.load a (byteSize k) = own at hpush hlt ⊢
  have ht1 : Pushed L s (s.push L own) own := Pushed.push (by omega) hlt
  have hemits1 := Emits.code hmode
    { opcode := .push, type := .varu, d := .addr (vmAddress env v sym (byteSize k)) }
  rcases emitVmMask_turns mask (x := own) (L := L) (s := s) hemits1 (by omega) with
    ⟨code2, hemits2, hturns2⟩
  rcases hturns2 _ ht1 with ⟨t2, hrun2, ht2⟩
  have hpop := execData_pop (L := L) (t := t2) (a := vmAddress env v sym (byteSize k))
    (storeBytes_storeOptype hword)
  rw [varAddr_pushed ht2, haddr, ht2.top] at hpop
  refine ⟨mask, _, _, hmask, hemits2.concat _, ?_, ht2.stored⟩
  simp [execCode_append, hpush, hrun2, hpop]

theorem execData_depop {type : VmOptype} {a : VmAddress} {n p : Nat}
    (hn : storeBytes type = some n)
    (hpointer : t.mem.load (varAddr L t { a with index := a.base }) 8 = p) (hnull : nullPage ≤ p) :
    execData L { opcode := .depop, type := type, d := .addr a } t =
      some { t.drop with mem := t.mem.store (toSlot (p + a.offset)) n (t.top L) } := by
  have hnot : ¬ p < nullPage := by omega
  have hexec : execData L { opcode := .depop, type := type, d := .addr a } t =
      execDepop L { opcode := .depop, type := type, d := .addr a } t := rfl
  rw [hexec, execDepop]
  simp only [hn, hpointer, hnot, if_false, toSlot]

theorem emitVmDerefStore_runs {p : Nat} (hmode : g.isGlobalMode = false)
    (hsym : v.symbol = some sym) (hword : wordOf v.type = some k)
    (hbase : toInt32 (baseOf env sym) = baseOf env sym)
    (hpointer : t.mem.load (varAddr L t (vmAddress env (varDirect sym) sym 8)) 8 = p)
    (hnull : nullPage ≤ p) (ht : Pushed L s t z) (hgen : emitVmDerefStore env v g = some g') :
    ∃ code u, Emits g g' code [] ∧ execCode L code t = some u ∧
      Stored L s u (addOffset p v.offset) (byteSize k) z := by
  simp only [emitVmDerefStore, hsym, bind_some, intSizeOf_wordOf hword, map_some,
    some.injEq] at hgen
  subst hgen
  have hzero : (varDirect sym).offset.toNat = 0 := by
    unfold varDirect
    split <;> rfl
  -- The pointer is found at the offset of its symbol.
  have hindex : (vmAddress env (varDirect sym) sym 8).index = baseOf env sym := by
    rw [vmAddress, hzero, Nat.cast_zero, Int.add_zero, hbase]
  have haddr : varAddr L t (vmAddress env (varDirect sym) sym 8) =
      varAddr L t { vmAddress env v sym (byteSize k) with index := baseOf env sym } := by
    unfold varAddr
    rw [hindex]
    rfl
  rw [haddr] at hpointer
  have hexec := execData_depop
    (a := { vmAddress env v sym (byteSize k) with index := baseOf env sym })
    (storeBytes_storeOptype hword) hpointer hnull
  rw [ht.top] at hexec
  refine ⟨_, _, Emits.code hmode _, ?_, ht.stored⟩
  rw [execCode_cons, hexec]
  rfl

/-! ## Values of fields -/

theorem isSigned_wordOf (h : wordOf v.type = some k) : v.type.isSigned = k.signed := by
  rcases wordOf_cases h with ⟨hp, rfl⟩ | ⟨-, -, -, hint, hsigned⟩
  · have hkind : v.type.typeOf = .pointer := by simpa [CType.isPointerType] using hp
    have hint : v.type.isInteger = false := by
      unfold CType.isInteger
      rw [hkind]
      decide
    rw [CType.isSigned, hint, Bool.and_false]
    rfl
  · rw [CType.isSigned, hint, hsigned, Bool.and_true]

/-- The condition under which the bits of a field are its value without an
extension of the sign. -/
def SignClear (k : CInteger) (v : Var) (z : Nat) : Prop :=
  k.signed = true → v.fieldWidth < k.format.width → z.testBit (v.fieldWidth - 1) = false

theorem testBit_highest {w : Nat} (hw : 0 < w) :
    z.testBit (w - 1) = false ↔ 2 * (z % 2 ^ w) < 2 ^ w := by
  have hpow : (2 : Nat) ^ w = 2 ^ (w - 1) * 2 := by
    rw [← pow_succ]
    congr 1
    omega
  have hlt := Nat.mod_lt z (show 0 < 2 ^ (w - 1) by positivity)
  rw [hpow, Nat.mod_mul, Nat.testBit_eq_decide_div_mod_eq, decide_eq_false_iff_not]
  rcases Nat.mod_two_eq_zero_or_one (z / 2 ^ (w - 1)) with hbit | hbit
  · rw [hbit]
    omega
  · rw [hbit]
    omega

/-- The bits of a field that are read without their sign are its value just when the
sign is clear. -/
theorem slotInt_low_iff (h : wordOf v.type = some k) (hfield : v.isField = true)
    (hwidth : v.fieldWidth ≤ k.format.width) :
    slotInt k (z % 2 ^ v.fieldWidth) = fieldOf v (slotInt k z) ↔ SignClear k v z := by
  have hpos : 0 < v.fieldWidth := by
    simp only [Var.isField, decide_eq_true_eq, ne_eq] at hfield
    omega
  have hdvd : (2 : Int) ^ v.fieldWidth ∣ 2 ^ k.format.width := pow_dvd_pow 2 hwidth
  -- Conversion to the type of the field keeps the bits of the field.
  have hbits : BitVec.ofInt v.fieldWidth (slotInt k z) = BitVec.ofNat v.fieldWidth z := by
    rw [← BitVec.ofInt_natCast]
    apply BitVec.eq_of_toNat_eq
    rw [BitVec.toNat_ofInt, BitVec.toNat_ofInt]
    have hmod := IntFormat.wrap_emod_width (f := k.format) z
    have hlow : slotInt k z % 2 ^ v.fieldWidth = (z : Int) % 2 ^ v.fieldWidth := by
      rw [slotInt, ← Int.emod_emod_of_dvd _ hdvd, hmod, Int.emod_emod_of_dvd _ hdvd]
    push_cast
    rw [hlow]
  have hlt := Nat.mod_lt z (show 0 < 2 ^ v.fieldWidth by positivity)
  have hle : (2 : Nat) ^ v.fieldWidth ≤ 2 ^ k.format.width := Nat.pow_le_pow_right (by decide) hwidth
  have hsigned : k.format.signed = k.signed := by cases k <;> rfl
  unfold fieldOf SignClear
  rw [hbits, isSigned_wordOf h]
  cases hsign : k.signed with
  | false =>
    have hwrap : slotInt k (z % 2 ^ v.fieldWidth) = ((z % 2 ^ v.fieldWidth : Nat) : Int) := by
      rw [slotInt, IntFormat.wrap_unsigned (by rw [hsigned, hsign])]
      exact Int.emod_eq_of_lt (by positivity) (by exact_mod_cast hlt.trans_le hle)
    simp [hwrap]
  | true =>
    by_cases hfull : v.fieldWidth = k.format.width
    · have hwrap : slotInt k (z % 2 ^ v.fieldWidth) = (BitVec.ofNat v.fieldWidth z).toInt := by
        rw [slotInt, IntFormat.wrap_signed (by rw [hsigned, hsign]), BitVec.toInt_ofNat', hfull]
        exact Int.emod_bmod (z : Int) (2 ^ k.format.width)
      constructor
      · intro _ _ hlow
        omega
      · intro _
        exact hwrap
    · have hlow : v.fieldWidth < k.format.width := by omega
      have hhalf : (2 : Nat) ^ v.fieldWidth ≤ 2 ^ (k.format.width - 1) :=
        Nat.pow_le_pow_right (by decide) (by omega)
      have hwrap : slotInt k (z % 2 ^ v.fieldWidth) = ((z % 2 ^ v.fieldWidth : Nat) : Int) := by
        have hrange := IntFormat.inRange_signed_iff (f := k.format) (by rw [hsigned, hsign])
        apply (hrange _).mpr
        constructor
        · have : (0 : Int) ≤ 2 ^ (k.format.width - 1) := by positivity
          omega
        · exact_mod_cast hlt.trans_le hhalf
      have htoInt : (BitVec.ofNat v.fieldWidth z).toInt =
          if 2 * (z % 2 ^ v.fieldWidth) < 2 ^ v.fieldWidth then ((z % 2 ^ v.fieldWidth : Nat) : Int)
          else ((z % 2 ^ v.fieldWidth : Nat) : Int) - (2 ^ v.fieldWidth : Nat) := by
        rw [BitVec.toInt_eq_toNat_cond, BitVec.toNat_ofNat]
      simp only [hwrap, htoInt, if_true, testBit_highest hpos]
      constructor
      · intro heq _ _
        by_contra hnot
        rw [if_neg hnot] at heq
        have : (0 : Int) < (2 ^ v.fieldWidth : Nat) := by positivity
        omega
      · intro hclear
        rw [if_pos (hclear trivial hlow)]

variable {a : Nat}

theorem testBit_extract {w o i : Nat} :
    (x / 2 ^ o % 2 ^ w).testBit i = (decide (i < w) && x.testBit (o + i)) := by
  rw [Nat.testBit_mod_two_pow, Nat.testBit_div_two_pow, Nat.add_comm]

theorem slotInt_eq_zero_iff (hx : x < 2 ^ k.format.width) : slotInt k x = 0 ↔ x = 0 := by
  have hmod := IntFormat.wrap_emod_width (f := k.format) x
  have hlt : (x : Int) % 2 ^ k.format.width = x :=
    Int.emod_eq_of_lt (by positivity) (by exact_mod_cast hx)
  constructor
  · intro h
    rw [slotInt] at h
    rw [h, hlt, Int.zero_emod] at hmod
    exact_mod_cast hmod.symm
  · rintro rfl
    cases k <;> rfl

theorem fieldOf_zero : fieldOf v (slotInt k 0) = 0 := by
  have hzero : slotInt k 0 = 0 := by cases k <;> rfl
  rw [hzero]
  simp [fieldOf]

theorem testBit_cleared (hmask : fieldMask v = some mask) {i : Nat} :
    ((x &&& mask) % 2 ^ 32).testBit i =
      (decide (i < 32 ∧ (i < v.fieldOffset ∨ v.fieldWidth + v.fieldOffset ≤ i)) && x.testBit i) := by
  rw [Nat.testBit_mod_two_pow, Nat.testBit_and]
  by_cases hi : i < 32
  · rw [testBit_fieldMask hmask hi]
    simp [hi, Bool.and_comm]
  · simp [hi]

theorem slotInt_unit (hword : wordOf v.type = some k) :
    slotInt k (toSlot (k.format.wrap (x % 256 ^ byteSize k : Nat))) = slotInt k x := by
  have hpow : (256 : Nat) ^ byteSize k = 2 ^ k.format.width := by
    rw [← (byteSize_wordOf hword).2.1, pow_mul]
    rfl
  rw [slotInt_toSlot, IntFormat.wrap_wrap, slotInt, hpow]
  apply IntFormat.wrap_congr
  push_cast
  exact Int.emod_emod _ _

theorem slotInt_load_eq_zero_iff {m : Memory} (hword : wordOf v.type = some k) :
    slotInt k (toSlot (k.format.wrap (m.load a (byteSize k)))) = 0 ↔
      ∀ i, i < 8 * byteSize k → m.bit (8 * a + i) = false := by
  have hpow : (256 : Nat) ^ byteSize k = 2 ^ k.format.width := by
    rw [← (byteSize_wordOf hword).2.1, pow_mul]
    rfl
  have hlt := Memory.load_lt m a (byteSize k)
  rw [slotInt_toSlot, IntFormat.wrap_wrap]
  rw [show k.format.wrap (m.load a (byteSize k)) = slotInt k (m.load a (byteSize k)) from rfl,
    slotInt_eq_zero_iff (hpow ▸ hlt)]
  constructor
  · intro h i hi
    have hbit := Memory.testBit_load m a (byteSize k) i
    rw [h, Nat.zero_testBit, decide_eq_true hi, Bool.true_and] at hbit
    exact hbit.symm
  · intro h
    apply Nat.eq_of_testBit_eq
    intro i
    rw [Memory.testBit_load, Nat.zero_testBit]
    by_cases hi : i < 8 * byteSize k
    · rw [h i hi, Bool.and_false]
    · rw [decide_eq_false hi, Bool.false_and]

end Kcs.Vm
