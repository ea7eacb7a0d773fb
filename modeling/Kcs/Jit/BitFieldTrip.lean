import Kcs.Jit.BitFieldMerge

/-!
# Bit-fields there and back in machine code

A store to a bit-field and a load of it, each run from its bytes.

Main results:

- Lemma {lit}`storeOp_spec`: the memory behind a store, bit by bit.
- Lemma {lit}`loadField_spec`: the register behind a load, bit by bit.
-/

namespace Kcs.Jit

open Option List
open X86 (Machine)

/-! ## The storage unit under changes of the machine -/

section Stable

variable {ctx : Context} {link : Link} {m m' : Machine} {v : Var}

/-- The register that holds the pointer to a field. -/
def IsPointerRegister (ctx : Context) (v : Var) (r : Reg) : Prop :=
  v.kind = .deref ∧ ∃ sym, v.symbol = some sym ∧ isRegisterAllocated ctx (varDirect sym) = true ∧
    allocatedRegister ctx (varDirect sym) = some r

/-- A machine in which the storage unit is found where it is in another: neither the frame
pointer nor the pointer to the field has changed, nor has the global offset table. -/
structure SameUnit (ctx : Context) (link : Link) (v : Var) (m m' : Machine) : Prop where
  frame : m'.reg Reg.bp.number = m.reg Reg.bp.number
  pointer : ∀ r, IsPointerRegister ctx v r → m'.reg r.number = m.reg r.number
  memory : v.kind = .deref → ∀ sym, v.symbol = some sym →
    isRegisterAllocated ctx (varDirect sym) = false →
      m'.mem.load (symbolPlace ctx link m sym).toNat 8 =
        m.mem.load (symbolPlace ctx link m sym).toNat 8
  got : ∀ sym, v.symbol = some sym → isGlobalOffset ctx sym = true →
    m'.mem.load (link.got sym.id).toNat 8 = m.mem.load (link.got sym.id).toNat 8

theorem SameUnit.symbolPlace_eq (h : SameUnit ctx link v m m') (sym : Symbol) :
    symbolPlace ctx link m' sym = symbolPlace ctx link m sym := by
  unfold symbolPlace
  rw [h.frame]

theorem SameUnit.pointerValue_eq (h : SameUnit ctx link v m m') (hkind : v.kind = .deref)
    {sym : Symbol} (hsym : v.symbol = some sym) :
    pointerValue ctx link m' sym = pointerValue ctx link m sym := by
  unfold pointerValue
  cases hreg : isRegisterAllocated ctx (varDirect sym) with
  | false =>
    simp only [Bool.false_eq_true, if_false, h.symbolPlace_eq, h.memory hkind sym hsym hreg]
  | true =>
    simp only [if_true]
    cases hr : allocatedRegister ctx (varDirect sym) with
    | none => simp only [map_none]
    | some r => simp only [map_some, h.pointer r ⟨hkind, sym, hsym, hreg, hr⟩]

theorem SameUnit.unitAddress_eq (h : SameUnit ctx link v m m') :
    unitAddress ctx link m' v = unitAddress ctx link m v := by
  unfold unitAddress
  cases hsym : v.symbol with
  | none => simp only [map_none]
  | some sym =>
    have hvalue : v.kind = .deref → pointerValue ctx link m' sym = pointerValue ctx link m sym :=
      fun hkind => h.pointerValue_eq hkind hsym
    simp only [map_some, getD_some, h.symbolPlace_eq]
    by_cases hkind : v.kind = .deref
    · rw [if_pos hkind, if_pos hkind, hvalue hkind]
    · rw [if_neg hkind, if_neg hkind]

theorem SameUnit.ready (h : SameUnit ctx link v m m') (hm : Ready ctx link v m) :
    Ready ctx link v m' where
  got := fun sym hsym hglobal => (h.got sym hsym hglobal).trans (hm.got sym hsym hglobal)
  gotApart := by
    rw [h.unitAddress_eq]
    exact hm.gotApart
  pointerApart := by
    intro hkind sym hsym hreg
    rw [h.unitAddress_eq, h.symbolPlace_eq]
    exact hm.pointerApart hkind sym hsym hreg

/-- Registers that neither are the frame pointer nor hold the pointer to the field. -/
def FreeRegisters (ctx : Context) (v : Var) (changed : List Nat) : Prop :=
  Reg.bp.number ∉ changed ∧ ∀ r, IsPointerRegister ctx v r → r.number ∉ changed

theorem KeepsOthers.sameUnit {changed : List Nat} (h : KeepsOthers changed m m')
    (hfree : FreeRegisters ctx v changed) : SameUnit ctx link v m m' where
  frame := h.reg _ hfree.1
  pointer := fun r hr => h.reg _ (hfree.2 r hr)
  memory := fun _ _ _ _ => by rw [h.mem]
  got := fun _ _ _ => by rw [h.mem]

theorem sameUnit_store (hm : Ready ctx link v m)
    (hframe : m'.reg Reg.bp.number = m.reg Reg.bp.number)
    (hpointer : ∀ r, IsPointerRegister ctx v r → m'.reg r.number = m.reg r.number) {x : Nat}
    (hmem : m'.mem = m.mem.store (unitAddress ctx link m v).toNat v.type.scalarSize x) :
    SameUnit ctx link v m m' where
  frame := hframe
  pointer := hpointer
  memory := by
    intro hkind sym hsym hreg
    have hapart := hm.pointerApart hkind sym hsym hreg
    rw [hmem]
    exact Memory.load_store_of_disjoint hapart.symm
  got := by
    intro sym hsym hglobal
    have hapart := hm.gotApart sym hsym hglobal
    rw [hmem]
    exact Memory.load_store_of_disjoint hapart.symm

end Stable

/-! ## Stores -/

section Store

variable {ctx : Context} {v : Var}

/-- Eight bytes from the storage unit on. -/
def unitBits (m : Machine) (a : Nat) : BitVec 64 := BitVec.ofNat 64 (m.mem.load a 8)

theorem getLsbD_unitBits (m : Machine) (a : Nat) {i : Nat} (hi : i < 64) :
    (unitBits m a).getLsbD i = m.mem.bit (8 * a + i) := by
  rw [unitBits, BitVec.getLsbD_ofNat, Memory.testBit_load]
  simp [hi]

/-- The operand of a store is a constant, or a register that is not used to reach the field. -/
def StoreOperand.Free (ctx : Context) (v : Var) (op : StoreOperand) : Prop :=
  op.Allowed ∧ ¬IsPointerRegister ctx v op.register

theorem number_injective {r r' : Reg} (h : r.number = r'.number) : r = r' := by
  cases r <;> cases r' <;> first | rfl | exact absurd h (by decide)

theorem IsPointerRegister.mem {r : Reg} (h : IsPointerRegister ctx v r) : r ∈ tempIntReg := by
  rcases h with ⟨-, sym, -, -, hr⟩
  simp only [allocatedRegister, varDirect_symbol, bind_some] at hr
  split at hr
  · exact mem_of_getElem? hr
  · cases hr

theorem StoreOperand.Allowed.register_ne {op : StoreOperand} (h : op.Allowed) :
    op.register ≠ .sp ∧ op.register ≠ .bp ∧ op.register ≠ .r11 := by
  cases op with
  | imm n => simp [StoreOperand.register]
  | reg r =>
    simp only [StoreOperand.Allowed, storeRegisters, mem_cons, not_mem_nil, or_false] at h
    rcases h with rfl | rfl | rfl | rfl | rfl | rfl | rfl <;> decide

theorem StoreOperand.Allowed.value_eq {op : StoreOperand} (h : op.Allowed) {m m' : Machine}
    (hkeeps : KeepsOthers [1, 11] m m') : op.value m' = op.value m := by
  cases op with
  | imm n => rfl
  | reg r =>
    apply hkeeps.reg
    simp only [StoreOperand.Allowed, storeRegisters, mem_cons, not_mem_nil, or_false] at h
    rcases h with rfl | rfl | rfl | rfl | rfl | rfl | rfl <;> decide

theorem StoreOperand.Free.registers {op : StoreOperand} (h : op.Free ctx v) :
    FreeRegisters ctx v [1, 11, op.register.number] := by
  constructor
  · simp only [mem_cons, not_mem_nil, or_false, not_or]
    exact ⟨by decide, by decide, fun hbp => h.1.register_ne.2.1 (number_injective hbp).symm⟩
  · intro r hr hmem
    have htemp := hr.mem
    simp only [mem_cons, not_mem_nil, or_false] at hmem
    rcases hmem with h1 | h11 | hop
    · simp only [tempIntReg, mem_cons, not_mem_nil, or_false] at htemp
      rcases htemp with rfl | rfl | rfl | rfl | rfl <;> exact absurd h1 (by decide)
    · simp only [tempIntReg, mem_cons, not_mem_nil, or_false] at htemp
      rcases htemp with rfl | rfl | rfl | rfl | rfl <;> exact absurd h11 (by decide)
    · rw [number_injective hop] at hr
      exact h.2 hr

theorem mergeField_spec (hv : FieldVar ctx v) (hwidth : v.fieldWidth < 64) {op : StoreOperand}
    (hop : op.Allowed) :
    ∃ code, mergeField op v = some (code, ⟨op.register, v.type.scalarSize⟩) ∧
      Merges v op code := by
  have hw := scalarSize_of_isInteger hv.integer
  cases op with
  | imm n => exact mergeField_imm hw hwidth n
  | reg r => exact mergeField_reg hw hv.width_pos hwidth hv.fits hop

/-- Memory behind a store to a field. -/
def StoredTo (ctx : Context) (link : Link) (v : Var) (op : StoreOperand) (m m' : Machine) : Prop :=
  ∃ x : BitVec 64,
    m'.mem = m.mem.store (unitAddress ctx link m v).toNat v.type.scalarSize x.toNat ∧
      ∀ i < 8 * v.type.scalarSize, x.getLsbD i =
        storedBit v (unitBits m (unitAddress ctx link m v).toNat) (op.value m) i

/-- `store_op`: the storage unit is stored with the bits of the field, unless the pointer to it
or a constant cannot be encoded. -/
theorem storeOp_spec (hv : FieldVar ctx v) (hwidth : v.fieldWidth < 64) {op : StoreOperand}
    (hop : op.Free ctx v) {sym : Symbol} (hsym : v.symbol = some sym)
    (hptr : v.kind = .deref → sym.type.isPointerType = true) :
    ∃ code, storeOp ctx op v = some code ∧
      (PointerReadable ctx v ∧ Encodes v op → ∀ link m, Ready ctx link v m → ∃ m',
        execute link code m = some m' ∧ SameUnit ctx link v m m' ∧
          StoredTo ctx link v op m m') ∧
      (¬(PointerReadable ctx v ∧ Encodes v op) → ∀ link m, Ready ctx link v m →
        execute link code m = none) := by
  have hw := scalarSize_of_isInteger hv.integer
  have hfield : v.isField = true := decide_eq_true hv.width_pos.ne'
  rcases loadUnit_spec hv hsym hptr with ⟨unit, hunit, hloads, hstuck⟩
  rcases mergeField_spec hv hwidth hop.1 with ⟨merge, hmerge, hmerges, hfails⟩
  rcases storeRegister_reaches hv ⟨op.register, v.type.scalarSize⟩ hsym hptr with
    ⟨_, hstore, pre, addr, rfl, henc, -, hreach⟩
  refine ⟨unit ++ merge ++ (pre ++ [⟨.mov, .regMem ⟨op.register, v.type.scalarSize⟩
    ⟨addr, v.type.scalarSize⟩⟩]), ?_, ?_, ?_⟩
  · rw [storeOp, if_pos ⟨hfield, hwidth⟩]
    show (load ctx (unitVar v) .cx).bind _ = _
    simp only [hunit, bind_some, hmerge, hstore, map_some]
  · rintro ⟨hreadable, hencodes⟩ link m hm
    rcases hloads hreadable link m hm with ⟨m1, hrun1, hkeeps1, hbits1⟩
    rcases hmerges hencodes link m1 with ⟨m2, hrun2, hkeeps2, hbits2⟩
    have hkeeps : KeepsOthers [1, 11, op.register.number] m m2 :=
      (hkeeps1.mono (by simp)).trans (hkeeps2.mono (by simp))
    have hsame : SameUnit ctx link v m m2 := hkeeps.sameUnit hop.registers
    rcases hreach link m2 (hsame.ready hm) with ⟨ho, m3, hrun3, hkeeps3, haddr⟩
    have hmov : meaning link ⟨.mov, .regMem ⟨op.register, v.type.scalarSize⟩
        ⟨addr, v.type.scalarSize⟩⟩ = _ :=
      meaning_mov_regMem (henc trivial) hw fun _ =>
        ⟨hop.1.register_ne.1, hop.1.register_ne.2.1⟩
    have hlast := execute_singleton (m := m3) hmov
    have hrun := (execute_append ((execute_append hrun1).trans hrun2)).trans
      ((execute_append hrun3).trans hlast)
    rw [X86.Instr.step, X86.write_memory ho, haddr, hsame.unitAddress_eq, hkeeps3.mem,
      hkeeps.mem] at hrun
    have hothers : ∀ r, r ∉ [1, 11, op.register.number] → m3.reg r = m.reg r := fun r hr =>
      (hkeeps3.reg r fun h => hr (by simp_all)).trans (hkeeps.reg r hr)
    refine ⟨_, hrun, ?_, ?_⟩
    · exact sameUnit_store hm (hothers _ hop.registers.1)
        (fun r hr => hothers _ (hop.registers.2 r hr)) rfl
    · refine ⟨_, rfl, ?_⟩
      intro i hi
      have hi64 : i < 64 := by
        have := hw.le
        omega
      have hother : op.register.number ∉ [11] := by
        simp only [mem_singleton]
        exact fun h => hop.1.register_ne.2.2 (number_injective h)
      rw [X86.getLsbD_read_reg, decide_eq_true hi, Bool.true_and, hkeeps3.reg _ hother,
        hbits2 i hi, hop.1.value_eq hkeeps1]
      unfold storedBit
      rw [hbits1 i hi, getLsbD_unitBits _ _ hi64]
  · intro hnot link m hm
    by_cases hreadable : PointerReadable ctx v
    · rcases hloads hreadable link m hm with ⟨m1, hrun1, -, -⟩
      have hencodes : ¬Encodes v op := fun h => hnot ⟨hreadable, h⟩
      exact execute_append_none ((execute_append hrun1).trans (hfails hencodes link m1))
    · exact execute_append_none (execute_append_none (hstuck hreadable link m))

end Store

/-! ## Loads -/

section Load

variable {ctx : Context} {v : Var}

/-- The width of the register that `load_field` loads the storage unit to. -/
def axWidth (v : Var) : Nat := if v.type.scalarSize ≤ 4 then 4 else 8

theorem axWidth_eq (v : Var) : axWidth v = 4 ∨ axWidth v = 8 := by
  unfold axWidth
  split <;> simp

theorem FieldVar.scalarSize_le_axWidth (hv : FieldVar ctx v) : v.type.scalarSize ≤ axWidth v := by
  have hle := (scalarSize_of_isInteger hv.integer).le
  unfold axWidth
  split <;> omega

theorem FieldVar.width_le_axWidth (hv : FieldVar ctx v) : v.fieldWidth ≤ 8 * axWidth v :=
  hv.width_le.trans (Nat.mul_le_mul_left 8 hv.scalarSize_le_axWidth)

/-- The first bit that `load_field` takes: that of the field, unless the field ends beyond the
register. -/
def loadStart (v : Var) : Nat :=
  if v.fieldOffset + v.fieldWidth ≤ 8 * axWidth v then v.fieldOffset
  else 8 * axWidth v - v.fieldWidth

/-- A bit of a register of the given width that has been shifted. -/
def shiftedBit (op : X86.ShiftOp) (w n : Nat) (x : BitVec 64) (i : Nat) : Bool :=
  match op with
  | .shl => decide (n ≤ i) && x.getLsbD (i - n)
  | .shr => decide (i + n < 8 * w) && x.getLsbD (i + n)
  | .sar => x.getLsbD (if i + n < 8 * w then i + n else 8 * w - 1)

theorem getLsbD_shift (op : X86.ShiftOp) {w n i : Nat} (hw : w = 4 ∨ w = 8) (hn : n < 8 * w)
    (x : BitVec 64) (hi : i < 8 * w) :
    (op.eval w n (X86.low w x)).getLsbD i = shiftedBit op w n x i := by
  have hcount : X86.shiftCount w n = n := by
    rcases hw with rfl | rfl <;> simp [X86.shiftCount] <;> omega
  have hi64 : i < 64 := by omega
  cases op with
  | shl =>
    rw [X86.ShiftOp.eval, hcount, BitVec.getLsbD_shiftLeft, X86.getLsbD_low, shiftedBit,
      decide_eq_true hi64, decide_eq_true (show i - n < 8 * w by omega)]
    by_cases h : n ≤ i
    · simp [h]
    · simp [h, Nat.lt_of_not_le h]
  | shr =>
    rw [X86.ShiftOp.eval, hcount, BitVec.getLsbD_ushiftRight, X86.getLsbD_low, X86.getLsbD_low,
      shiftedBit, Nat.add_comm n i]
    simp
  | sar =>
    rw [X86.ShiftOp.eval, hcount, BitVec.getLsbD_sshiftRight, BitVec.msb_eq_getLsbD_last,
      shiftedBit, decide_eq_false (show ¬64 ≤ i by omega), Bool.not_false, Bool.true_and,
      Nat.add_comm n i]
    have hsigned : ∀ j < 64, (X86.lowSigned w (X86.low w x)).getLsbD j =
        x.getLsbD (if j < 8 * w then j else 8 * w - 1) := by
      intro j hj
      rw [X86.getLsbD_lowSigned (by omega) (by omega) hj, X86.getLsbD_low,
        decide_eq_true (by split <;> omega), Bool.true_and]
    by_cases h64 : i + n < 64
    · rw [if_pos h64, hsigned _ h64]
    · rw [if_neg h64, hsigned _ (by omega), if_neg (show ¬i + n < 8 * w by omega)]
      congr 1
      split <;> omega

theorem shiftOf_shl : shiftOf .shl = some (.shl, 0x00#8, 4) := rfl

theorem shiftOf_shr : shiftOf .shr = some (.shr, 0x08#8, 5) := rfl

theorem shiftOf_sar : shiftOf .sar = some (.sar, 0x18#8, 7) := rfl

theorem execute_shift {opc : Opcode} {op : X86.ShiftOp} {code : X86.Byte} {f n w : Nat} {r : Reg}
    (hopc : shiftOf opc = some (op, code, f)) (hw : w = 4 ∨ w = 8) (hn : n < 8 * w) (link : Link)
    (m : Machine) (hupper : ∀ i, 8 * w ≤ i → (m.reg r.number).getLsbD i = false) {bits : Int}
    (hbits : bits.toNat = n) :
    ∃ m', execute link
        (if bits > 0 then [⟨opc, .immReg (constant (BitVec.ofInt 64 bits) 1) ⟨r, w⟩⟩] else []) m =
          some m' ∧ KeepsOthers [r.number] m m' ∧
      ∀ i, (m'.reg r.number).getLsbD i =
        (decide (i < 8 * w) && shiftedBit op w n (m.reg r.number) i) := by
  by_cases hpos : bits > 0
  · have hint : BitVec.ofInt 64 bits = BitVec.ofNat 64 n := by
      rw [show bits = (n : Int) by omega, BitVec.ofInt_natCast]
    have hplain : plainWidth w = w := by
      rcases hw with rfl | rfl <;> rfl
    have hmeaning : meaning link ⟨opc, .immReg (constant (BitVec.ofNat 64 n) 1) ⟨r, w⟩⟩ = _ :=
      meaning_shift_immReg hopc (by omega) (by rcases hw with rfl | rfl <;> simp [IsWidth])
        (by omega) 1
    rw [if_pos hpos, hint]
    refine ⟨_, execute_singleton hmeaning, keepsOthers_writeReg _ _ _ _, ?_⟩
    intro i
    rw [hplain]
    show ((X86.writeReg m w r.number _).reg r.number).getLsbD i = _
    rw [X86.writeReg_self, X86.getLsbD_merge]
    by_cases hi : i < 8 * w
    · rw [if_pos hi, decide_eq_true hi, Bool.true_and]
      exact getLsbD_shift op hw hn _ hi
    · rw [if_neg hi, decide_eq_false hi, decide_eq_false (show ¬w < 4 by omega), Bool.false_and,
        Bool.false_and]
  · rw [if_neg hpos]
    refine ⟨m, rfl, KeepsOthers.refl _ _, ?_⟩
    intro i
    have hzero : n = 0 := by omega
    by_cases hi : i < 8 * w
    · cases op <;> simp [shiftedBit, hzero, hi]
    · rw [hupper i (by omega), decide_eq_false hi, Bool.false_and]

/-- `load_field` shifts the field to the top of the register and down to its bottom. -/
theorem fieldShifts_spec (hv : FieldVar ctx v) (r : Reg) (link : Link) (m : Machine)
    (hupper : ∀ i, 8 * axWidth v ≤ i → (m.reg r.number).getLsbD i = false) :
    ∃ m', execute link (fieldShifts v ⟨r, axWidth v⟩) m = some m' ∧
      KeepsOthers [r.number] m m' ∧
      ∀ i, (m'.reg r.number).getLsbD i =
        (decide (i < 8 * axWidth v) &&
          if i < v.fieldWidth then (m.reg r.number).getLsbD (loadStart v + i)
          else v.type.isSigned && (m.reg r.number).getLsbD (loadStart v + v.fieldWidth - 1)) := by
  have haxw := axWidth_eq v
  have hle := hv.width_le_axWidth
  have hpos := hv.width_pos
  have hfits := hv.fits
  have hup : ((axWidth v : Int) * 8 - (v.fieldOffset + v.fieldWidth : Nat)).toNat =
      8 * axWidth v - (v.fieldOffset + v.fieldWidth) := by
    omega
  have hdown : ((v.fieldOffset : Int) + ((axWidth v : Int) * 8 -
      (v.fieldOffset + v.fieldWidth : Nat))).toNat = 8 * axWidth v - v.fieldWidth := by
    omega
  rcases execute_shift (r := r) shiftOf_shl haxw (by omega) link m hupper hup with
    ⟨m1, hrun1, hkeeps1, hbits1⟩
  have hupper1 : ∀ i, 8 * axWidth v ≤ i → (m1.reg r.number).getLsbD i = false := by
    intro i hi
    rw [hbits1, decide_eq_false (by omega), Bool.false_and]
  have hsecond : ∃ m', execute link
      (if (v.fieldOffset : Int) + ((axWidth v : Int) * 8 - (v.fieldOffset + v.fieldWidth : Nat)) > 0
        then [⟨if v.type.isSigned then .sar else .shr, .immReg (constant (BitVec.ofInt 64
          (v.fieldOffset + ((axWidth v : Int) * 8 - (v.fieldOffset + v.fieldWidth : Nat)))) 1)
            ⟨r, axWidth v⟩⟩]
        else []) m1 = some m' ∧ KeepsOthers [r.number] m1 m' ∧
      ∀ i, (m'.reg r.number).getLsbD i = (decide (i < 8 * axWidth v) &&
        shiftedBit (if v.type.isSigned then .sar else .shr) (axWidth v)
          (8 * axWidth v - v.fieldWidth) (m1.reg r.number) i) := by
    cases v.type.isSigned
    · exact execute_shift (shiftOf_shr) haxw (by omega) link m1 hupper1 hdown
    · exact execute_shift (shiftOf_sar) haxw (by omega) link m1 hupper1 hdown
  rcases hsecond with ⟨m2, hrun2, hkeeps2, hbits2⟩
  refine ⟨m2, (execute_append hrun1).trans hrun2, hkeeps1.trans hkeeps2, ?_⟩
  intro i
  rw [hbits2]
  by_cases hi : i < 8 * axWidth v
  swap
  · rw [decide_eq_false hi, Bool.false_and, Bool.false_and]
  congr 1
  have hbit : ∀ j < 8 * axWidth v, 8 * axWidth v - v.fieldWidth ≤ j →
      (m1.reg r.number).getLsbD j =
        (m.reg r.number).getLsbD (loadStart v + (j - (8 * axWidth v - v.fieldWidth))) := by
    intro j hj hle
    rw [hbits1, decide_eq_true hj, Bool.true_and, shiftedBit, decide_eq_true (by omega),
      Bool.true_and]
    congr 1
    unfold loadStart
    split <;> omega
  by_cases hlt : i < v.fieldWidth
  · rw [if_pos hlt]
    have hvalue := hbit (i + (8 * axWidth v - v.fieldWidth)) (by omega) (by omega)
    rw [Nat.add_sub_cancel] at hvalue
    have hlow : i + (8 * axWidth v - v.fieldWidth) < 8 * axWidth v := by omega
    rw [← hvalue]
    cases v.type.isSigned
    · simp [shiftedBit, hlow]
    · simp [shiftedBit, hlow]
  · rw [if_neg hlt]
    have hvalue := hbit (8 * axWidth v - 1) (by omega) (by omega)
    have hge : ¬i + (8 * axWidth v - v.fieldWidth) < 8 * axWidth v := by omega
    have hlast : loadStart v + (8 * axWidth v - 1 - (8 * axWidth v - v.fieldWidth)) =
        loadStart v + v.fieldWidth - 1 := by
      omega
    rw [hlast] at hvalue
    cases v.type.isSigned
    · simp [shiftedBit, hge]
    · simp [shiftedBit, hge, hvalue]

/-- A bit of the register that a field is loaded to. -/
def loadedBit (v : Var) (m : Machine) (a i : Nat) : Bool :=
  if i < v.fieldWidth then m.mem.bit (8 * a + (loadStart v + i))
  else v.type.isSigned && m.mem.bit (8 * a + (loadStart v + v.fieldWidth - 1))

theorem emitLoad_unit (hv : FieldVar ctx v) {d : Reg} (hd : LoadRegister d) {sym : Symbol}
    (hsym : v.symbol = some sym) (hptr : v.kind = .deref → sym.type.isPointerType = true)
    (hreadable : PointerReadable ctx v) :
    ∃ code, emitLoad ctx .mov v ⟨d, axWidth v⟩ = some code ∧
      ∀ link m, Ready ctx link v m → ∃ m', execute link code m = some m' ∧ m'.mem = m.mem ∧
        ∀ i, (m'.reg d.number).getLsbD i = (decide (i < 8 * axWidth v) &&
          m.mem.bit (8 * (unitAddress ctx link m v).toNat + i)) := by
  have hstd : isStandardRegisterWidth v.type.scalarSize = true := by
    rcases scalarSize_of_isInteger hv.integer with h | h | h | h <;> rw [h] <;> rfl
  have haxw := axWidth_eq v
  have hreach : ∃ code, emitLoad ctx .mov v ⟨d, axWidth v⟩ = some code ∧
      ReachesUnit ctx v [d.number, 11] (PointerReadable ctx v) code fun addr =>
        ⟨.mov, .memReg ⟨addr, v.type.scalarSize⟩ ⟨d, axWidth v⟩⟩ := by
    rcases hv.kind with hkind | hkind
    · exact emitLoad_direct hv .mov hd hkind hstd
    · exact emitLoad_deref hv .mov hd hkind hsym (hptr hkind) hstd
  rcases hreach with ⟨code, hcode, pre, addr, rfl, henc, -, hreach⟩
  refine ⟨_, hcode, ?_⟩
  intro link m hm
  rcases hreach link m hm with ⟨ho, m1, hrun1, hkeeps1, haddr⟩
  refine ⟨_, (execute_append hrun1).trans
    (execute_singleton (meaning_mov_memReg (henc hreadable) haxw)), hkeeps1.mem, ?_⟩
  intro i
  show ((X86.writeReg m1 _ _ _).reg _).getLsbD i = _
  rw [X86.writeReg_self, X86.getLsbD_merge]
  by_cases hi : i < 8 * axWidth v
  · rw [if_pos hi, X86.getLsbD_read_memory ho (by omega), haddr, hkeeps1.mem]
  · rw [if_neg hi, decide_eq_false hi, decide_eq_false (show ¬axWidth v < 4 by omega),
      Bool.false_and, Bool.false_and]

/-- `load_field`: the bits of the field and its sign. -/
theorem loadField_spec (hv : FieldVar ctx v) (hwidth : v.fieldWidth < 64) {d : Reg}
    (hd : LoadRegister d) {w : Nat} (hw : w = 4 ∨ w = 8) {sym : Symbol}
    (hsym : v.symbol = some sym) (hptr : v.kind = .deref → sym.type.isPointerType = true)
    (hreadable : PointerReadable ctx v) :
    ∃ code, loadField ctx v d w = some code ∧
      ∀ link m, Ready ctx link v m → ∃ m', execute link code m = some m' ∧ m'.mem = m.mem ∧
        ∀ i < 8 * w, (m'.reg d.number).getLsbD i =
          loadedBit v m (unitAddress ctx link m v).toNat i := by
  have hfield : v.isField = true := decide_eq_true hv.width_pos.ne'
  have haxw := axWidth_eq v
  have hle := hv.width_le_axWidth
  have hpos := hv.width_pos
  have hstart : loadStart v + v.fieldWidth ≤ 8 * axWidth v := by
    unfold loadStart
    split <;> omega
  rcases emitLoad_unit hv hd hsym hptr hreadable with ⟨unit, hunit, hloads⟩
  have hcode : loadField ctx v d w = some (unit ++ fieldShifts v ⟨d, axWidth v⟩ ++
      if v.type.isSigned && axWidth v < w then [⟨.movsx, .regReg ⟨d, 4⟩ ⟨d, 8⟩⟩] else []) := by
    rw [loadField, if_pos ⟨hfield, hwidth, hv.fits⟩]
    show (emitLoad ctx .mov v ⟨d, axWidth v⟩).map _ = _
    rw [hunit]
    rfl
  refine ⟨_, hcode, ?_⟩
  intro link m hm
  rcases hloads link m hm with ⟨m1, hrun1, hmem1, hbits1⟩
  rcases fieldShifts_spec hv d link m1 (fun i hi => by
    rw [hbits1, decide_eq_false (by omega), Bool.false_and]) with ⟨m2, hrun2, hkeeps2, hbits2⟩
  have hshifted : ∀ i < 8 * axWidth v, (m2.reg d.number).getLsbD i =
      loadedBit v m (unitAddress ctx link m v).toNat i := by
    intro i hi
    rw [hbits2, decide_eq_true hi, Bool.true_and]
    unfold loadedBit
    split
    · rw [hbits1, decide_eq_true (by omega), Bool.true_and]
    · rw [hbits1, decide_eq_true (by omega), Bool.true_and]
  have hmem2 : m2.mem = m.mem := hkeeps2.mem.trans hmem1
  have hrun := (execute_append hrun1).trans hrun2
  by_cases hext : v.type.isSigned = true ∧ axWidth v < w
  · -- the sign is extended from four bytes to eight
    have h4 : axWidth v = 4 := by omega
    rw [if_pos (by simpa using hext)]
    refine ⟨_, (execute_append hrun).trans (execute_singleton meaning_movsx_regReg), hmem2, ?_⟩
    intro i hi
    show ((X86.writeReg m2 8 d.number _).reg d.number).getLsbD i = _
    rw [X86.writeReg_self, merge_eight, X86.getLsbD_lowSigned (by decide) (by decide) (by omega),
      X86.getLsbD_read_reg, decide_eq_true (by split <;> omega), Bool.true_and]
    split
    · exact hshifted i (by omega)
    · rw [hshifted _ (by omega)]
      unfold loadedBit
      split
      · rw [if_neg (by omega), hext.1, Bool.true_and]
        congr 1
        omega
      · rw [if_neg (by omega)]
  · rw [if_neg (by simpa using hext), append_nil]
    refine ⟨m2, hrun, hmem2, ?_⟩
    intro i hi
    by_cases hlow : i < 8 * axWidth v
    · exact hshifted i hlow
    · have hunsigned : v.type.isSigned = false := by
        have : axWidth v < w := by omega
        simpa [this] using hext
      rw [hbits2, decide_eq_false hlow, Bool.false_and, loadedBit, if_neg (by omega), hunsigned,
        Bool.false_and]

end Load

end Kcs.Jit
