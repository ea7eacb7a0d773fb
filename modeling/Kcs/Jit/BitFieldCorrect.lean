import Kcs.Jit.BitFieldLayout
import Kcs.Jit.BitFieldTrip

/-!
# When bit-fields are stored and loaded right

A field of a type of at most four bytes that lies inside its type is stored and loaded right;
of the fields of eight bytes only those at the upper end are, for small constants.

Main results:

- Theorem {lit}`layout_field_roundTrip_iff`: the fields of every layout that are stored and
  loaded right.
-/

namespace Kcs.Jit

open Option BitVec Memory
open X86 (Machine)

/-! ## The property and the condition -/

/-- The value of a field: the low bits of what was stored, with their sign if it has one. -/
def fieldValue (v : Var) (x : BitVec 64) : BitVec 64 :=
  if v.type.isSigned then (x.setWidth v.fieldWidth).signExtend 64
  else (x.setWidth v.fieldWidth).setWidth 64

/-- A store to a field and a load of it are encoded; they bring the value back and keep every
bit outside the field. -/
def RoundTrip (ctx : Context) (op : StoreOperand) (v : Var) (d : Reg) (w : Nat) : Prop :=
  ∃ store load, storeOp ctx op v = some store ∧ loadField ctx v d w = some load ∧
    ∀ link m, Ready ctx link v m → ∃ m1 m2,
      execute link store m = some m1 ∧ execute link load m1 = some m2 ∧
      (m2.reg d.number).setWidth (8 * w) = (fieldValue v (op.value m)).setWidth (8 * w) ∧
      ∀ j, ¬(8 * (unitAddress ctx link m v).toNat + v.fieldOffset ≤ j ∧
          j < 8 * (unitAddress ctx link m v).toNat + v.fieldOffset + v.fieldWidth) →
        m2.mem.bit j = m.mem.bit j

/-- The stores that are right: the field lies inside its type, one of eight bytes is at its
upper end and gets a small constant, and the pointer to it can be encoded. -/
structure StoresRight (ctx : Context) (op : StoreOperand) (v : Var) : Prop where
  width : v.fieldWidth < 64
  inside : v.fieldOffset + v.fieldWidth ≤ 8 * v.type.scalarSize
  eight : v.type.scalarSize = 8 → v.fieldOffset + v.fieldWidth = 64 ∧ v.fieldOffset < 32 ∧
    ∃ n, op = .imm n ∧ (n <<< v.fieldOffset).toNat < 2 ^ 31
  pointer : PointerReadable ctx v

section Bits

variable {ctx : Context} {v : Var} {op : StoreOperand}

theorem getLsbD_fieldValue (hpos : 0 < v.fieldWidth) (x : BitVec 64) {i : Nat}
    (hi : i < 64) : (fieldValue v x).getLsbD i =
      if i < v.fieldWidth then x.getLsbD i
      else v.type.isSigned && x.getLsbD (v.fieldWidth - 1) := by
  unfold fieldValue
  cases v.type.isSigned
  · by_cases hlt : i < v.fieldWidth <;> simp [getLsbD_setWidth, hlt, hi]
  · rw [if_pos rfl, getLsbD_signExtend, msb_eq_getLsbD_last, decide_eq_true hi]
    by_cases hlt : i < v.fieldWidth
    · simp [hlt]
    · simp [hlt, hpos]

theorem in32BitRange_iff {x : BitVec 64} :
    in32BitRange x = true ↔ ∀ i, 31 ≤ i → i < 64 → x.getLsbD i = x.getLsbD 31 := by
  have hext : in32BitRange x = true ↔ X86.lowSigned 4 x = x := by
    show _ ↔ (x.setWidth 32).signExtend 64 = x
    simp only [in32BitRange, Bool.and_eq_true, decide_eq_true_eq]
    constructor
    · rintro ⟨hlo, hhi⟩
      apply eq_of_toInt_eq
      rw [toInt_signExtend_of_le (by decide), ← signExtend_eq_setWidth_of_le x (by decide),
        toInt_signExtend_eq_toInt_bmod_of_le x (by decide)]
      exact Int.bmod_eq_of_le (by omega) (by omega)
    · intro h
      rw [← h, toInt_signExtend_of_le (by decide)]
      have hlo := le_toInt (x.setWidth 32)
      have hhi := toInt_lt (x := x.setWidth 32)
      omega
  have hbit : ∀ i < 64, (X86.lowSigned 4 x).getLsbD i = x.getLsbD (if i < 32 then i else 31) :=
    fun i hi => X86.getLsbD_lowSigned (by decide) (by decide) hi
  rw [hext]
  constructor
  · intro h i hlo hi
    have hi' := hbit i hi
    rw [h] at hi'
    rw [hi']
    congr 1
    split <;> omega
  · intro h
    apply eq_of_getLsbD_eq
    intro i hi
    rw [hbit i hi]
    split
    · rfl
    · exact (h i (by omega) hi).symm

theorem loadStart_eq (hv : FieldVar ctx v)
    (hinside : v.fieldOffset + v.fieldWidth ≤ 8 * v.type.scalarSize) :
    loadStart v = v.fieldOffset := by
  have hle := hv.scalarSize_le_axWidth
  rw [loadStart, if_pos (by omega)]

theorem inField_iff {i : Nat} :
    inField v i = true ↔ v.fieldOffset ≤ i ∧ i < v.fieldOffset + v.fieldWidth := by
  simp [inField]

theorem getLsbD_of_small {n : BitVec 64} {off i : Nat} (h : (n <<< off).toNat < 2 ^ 31)
    (hlo : 31 ≤ i) : (n <<< off).getLsbD i = false := by
  rw [BitVec.getLsbD]
  exact Nat.testBit_lt_two_pow (h.trans_le (Nat.pow_le_pow_right (by decide) hlo))

theorem encodes_of_storesRight (h : StoresRight ctx op v) : Encodes v op := by
  intro h8
  rcases h.eight h8 with ⟨htop, hoff, n, rfl, hsmall⟩
  constructor
  · rw [in32BitRange_iff]
    have hclear : ∀ i, 31 ≤ i → i < 64 → (~~~fieldMask v).getLsbD i = false := by
      intro i hlo hi
      have hin : inField v i = true := inField_iff.mpr (by omega)
      rw [getLsbD_not, getLsbD_fieldMask h.width hi, hin, Bool.not_true, Bool.and_false]
    intro i hlo hi
    rw [hclear i hlo hi, hclear 31 le_rfl (by decide)]
  · intro _
    rw [in32BitRange_iff]
    intro i hlo hi
    rw [getLsbD_and, getLsbD_and, getLsbD_of_small hsmall hlo,
      getLsbD_of_small hsmall le_rfl, Bool.false_and, Bool.false_and]

theorem storedBit_of_storesRight (h : StoresRight ctx op v) (m : Machine)
    (unit : BitVec 64) {i : Nat} (hi : i < 8 * v.type.scalarSize) :
    storedBit v unit (op.value m) i =
      if inField v i then (op.value m).getLsbD (i - v.fieldOffset) else unit.getLsbD i := by
  unfold storedBit immWidth
  by_cases h8 : v.type.scalarSize = 8
  · rcases h.eight h8 with ⟨htop, hoff, n, rfl, hsmall⟩
    rw [if_pos h8]
    by_cases hlow : i < 8 * 4
    · rw [decide_eq_true hlow, Bool.true_and]
    · have hin : inField v i = true := inField_iff.mpr (by omega)
      have hzero := getLsbD_of_small hsmall (show 31 ≤ i by omega)
      rw [getLsbD_shiftLeft, decide_eq_true (show i < 64 by omega), Bool.true_and,
        decide_eq_false (show ¬i < v.fieldOffset by omega), Bool.not_false, Bool.true_and] at hzero
      rw [decide_eq_false hlow, Bool.false_and, if_pos hin]
      exact hzero.symm
  · rw [if_neg h8, decide_eq_true hi, Bool.true_and]

end Bits

section Memory

variable {ctx : Context} {link : Link} {v : Var} {op : StoreOperand} {m m' : Machine}

theorem StoredTo.bit (h : StoredTo ctx link v op m m') (j : Nat) :
    m'.mem.bit j =
      if 8 * (unitAddress ctx link m v).toNat ≤ j ∧
          j < 8 * ((unitAddress ctx link m v).toNat + v.type.scalarSize) then
        storedBit v (unitBits m (unitAddress ctx link m v).toNat) (op.value m)
          (j - 8 * (unitAddress ctx link m v).toNat)
      else m.mem.bit j := by
  rcases h with ⟨x, hmem, hx⟩
  rw [hmem, bit_store]
  split
  · exact hx _ (by omega)
  · rfl

theorem exists_symbol (hv : FieldVar ctx v) (hreadable : PointerReadable ctx v) :
    ∃ sym, v.symbol = some sym ∧ (v.kind = .deref → sym.type.isPointerType = true) := by
  rcases hv.kind with hkind | hkind
  · rcases hv.direct hkind with ⟨sym, hsym, -⟩
    exact ⟨sym, hsym, fun h => by rw [hkind] at h; cases h⟩
  · rcases hreadable hkind with ⟨sym, hsym, hptr, -⟩
    exact ⟨sym, hsym, fun _ => hptr⟩

/-- The condition is enough. -/
theorem roundTrip_of_storesRight (hv : FieldVar ctx v) (hop : op.Free ctx v) {d : Reg}
    (hd : LoadRegister d) {w : Nat} (hw : w = 4 ∨ w = 8) (h : StoresRight ctx op v) :
    RoundTrip ctx op v d w := by
  rcases exists_symbol hv h.pointer with ⟨sym, hsym, hptr⟩
  rcases storeOp_spec hv h.width hop hsym hptr with ⟨store, hstore, hstored, -⟩
  rcases loadField_spec hv h.width hd hw hsym hptr h.pointer with ⟨load, hload, hloaded⟩
  refine ⟨store, load, hstore, hload, ?_⟩
  intro link m hm
  rcases hstored ⟨h.pointer, encodes_of_storesRight h⟩ link m hm with
    ⟨m1, hrun1, hsame, hmem1⟩
  rcases hloaded link m1 (hsame.ready hm) with ⟨m2, hrun2, hmem2, hbits⟩
  refine ⟨m1, m2, hrun1, hrun2, ?_, ?_⟩
  · rw [hsame.unitAddress_eq] at hbits
    have hfield : ∀ i < v.fieldWidth,
        m1.mem.bit (8 * (unitAddress ctx link m v).toNat + (loadStart v + i)) =
          (op.value m).getLsbD i := by
      intro i hi
      have hinside := h.inside
      have hin : inField v (v.fieldOffset + i) = true := inField_iff.mpr (by omega)
      rw [loadStart_eq hv h.inside, hmem1.bit, if_pos (by omega), Nat.add_sub_cancel_left,
        storedBit_of_storesRight h m _ (by omega), if_pos hin, Nat.add_sub_cancel_left]
    have hpos := hv.width_pos
    apply eq_of_getLsbD_eq
    intro i hi
    rw [getLsbD_setWidth, getLsbD_setWidth, hbits i hi,
      getLsbD_fieldValue hv.width_pos _ (by omega)]
    congr 1
    unfold loadedBit
    split
    · rename_i hlt
      exact hfield i hlt
    · rw [Nat.add_sub_assoc hpos, hfield _ (by omega)]
  · intro j hj
    rw [hmem2, hmem1.bit]
    split
    · rename_i hunit
      have hin : inField v (j - 8 * (unitAddress ctx link m v).toNat) = false := by
        rw [← Bool.not_eq_true, inField_iff]
        omega
      have hle := (scalarSize_of_isInteger hv.integer).le
      rw [storedBit_of_storesRight h m _ (by omega), hin, if_neg (by decide),
        getLsbD_unitBits _ _ (by omega)]
      congr 1
      omega
    · rfl

end Memory

/-! ## The condition is necessary -/

section Necessary

variable {ctx : Context} {v : Var} {op : StoreOperand}

/-- Where the objects of `sampleMachine` are: a pointer to a field, or the struct itself. -/
def samplePlace (v : Var) : BitVec 64 := if v.kind = .deref then 0x40#64 else 0x1000#64

/-- Addresses for a state in which a field can be accessed. -/
def sampleLink (v : Var) : Link where
  symbol := fun _ => samplePlace v
  got := fun _ => 0x100#64

/-- A state in which a field can be accessed, with the given bits of the storage unit and the
given value of the operand. -/
def sampleMachine (ctx : Context) (v : Var) (op : StoreOperand) (sym : Symbol)
    (u x : BitVec 64) : Machine where
  reg := fun k =>
    if k = Reg.bp.number then samplePlace v - (ctx.stackOffset sym.id).signExtend 64
    else if k = op.register.number then x
    else 0x1000#64
  mem := ((Memory.store (fun _ => 0#8) (0x1000 + v.offset.toNat) 8 u.toNat).store 0x100 8
    (samplePlace v).toNat).store 0x40 8 0x1000

/-- The value of a constant, or the given one for a register. -/
def StoreOperand.valueWith (x : BitVec 64) : StoreOperand → BitVec 64
  | .imm n => n
  | .reg _ => x

section Sample

variable {sym : Symbol} {u x : BitVec 64}

theorem symbolPlace_sample : symbolPlace ctx (sampleLink v) (sampleMachine ctx v op sym u x) sym =
    samplePlace v := by
  unfold symbolPlace
  split
  · simp only [sampleMachine, if_true]
    exact BitVec.sub_add_cancel _ _
  · rfl

theorem load_sample_pointer : (sampleMachine ctx v op sym u x).mem.load 0x40 8 = 0x1000 :=
  load_store_self _ _ _ _

theorem load_sample_got :
    (sampleMachine ctx v op sym u x).mem.load 0x100 8 = (samplePlace v).toNat := by
  have hlt := (samplePlace v).isLt
  show Memory.load (Memory.store _ 0x40 8 0x1000) 0x100 8 = _
  rw [load_store_of_disjoint (by omega), load_store_self]
  omega

theorem bit_sample {i : Nat} (hi : i < 64) :
    (sampleMachine ctx v op sym u x).mem.bit (8 * (0x1000 + v.offset.toNat) + i) =
      u.getLsbD i := by
  show Memory.bit (Memory.store (Memory.store (Memory.store _ _ _ _) _ _ _) _ _ _) _ = _
  rw [bit_store, if_neg (by omega), bit_store, if_neg (by omega), bit_store,
    if_pos (by omega), Nat.add_sub_cancel_left]
  rfl

section

variable (hv : FieldVar ctx v) (hop : op.Free ctx v) (hsym : v.symbol = some sym)
  (hptr : v.kind = .deref → sym.type.isPointerType = true)
include hv hop hsym hptr

theorem unitAddress_sample :
    (unitAddress ctx (sampleLink v) (sampleMachine ctx v op sym u x) v).toNat =
      0x1000 + v.offset.toNat := by
  have hoffset := hv.offset
  have hbase : unitAddress ctx (sampleLink v) (sampleMachine ctx v op sym u x) v =
      0x1000#64 + v.offset := by
    unfold unitAddress
    rw [hsym, map_some, getD_some]
    congr 1
    by_cases hkind : v.kind = .deref
    · rw [if_pos hkind]
      unfold pointerValue
      cases hreg : isRegisterAllocated ctx (varDirect sym) with
      | true =>
        rcases allocatedRegister_eq hv hkind hsym (hptr hkind) hreg with ⟨r, hr, -⟩
        have hpointer : IsPointerRegister ctx v r := ⟨hkind, sym, hsym, hreg, hr⟩
        have hfree := hop.registers.2 r hpointer
        have hbp : r.number ≠ Reg.bp.number := fun h => by
          have hmem := hpointer.mem
          rw [number_injective h] at hmem
          exact absurd hmem (by decide)
        have hother : r.number ≠ op.register.number := fun h => hfree (by simp [h])
        rw [if_pos rfl, hr, map_some, getD_some]
        simp only [sampleMachine, hbp, hother, if_false]
      | false =>
        rw [if_neg (by decide), symbolPlace_sample, samplePlace, if_pos hkind]
        show BitVec.ofNat 64 ((sampleMachine ctx v op sym u x).mem.load 0x40 8) = _
        rw [load_sample_pointer]
    · rw [if_neg hkind, symbolPlace_sample, samplePlace, if_neg hkind]
  rw [hbase, toNat_add]
  simp only [toNat_ofNat]
  omega

theorem ready_sample :
    Ready ctx (sampleLink v) v (sampleMachine ctx v op sym u x) where
  got := fun _ _ _ => load_sample_got
  gotApart := by
    intro sym' _ _
    rw [unitAddress_sample hv hop hsym hptr]
    exact Or.inr (show 0x100 + 8 ≤ _ by omega)
  pointerApart := by
    intro hkind sym' hsym' _
    rw [hsym, some.injEq] at hsym'
    subst hsym'
    rw [unitAddress_sample hv hop hsym hptr, symbolPlace_sample, samplePlace, if_pos hkind]
    exact Or.inr (show 0x40 + 8 ≤ _ by omega)

end

theorem unitBits_sample :
    unitBits (sampleMachine ctx v op sym u x) (0x1000 + v.offset.toNat) = u := by
  apply eq_of_getLsbD_eq
  intro i hi
  rw [getLsbD_unitBits _ _ hi, bit_sample hi]

theorem symbol_of_storeOp (hv : FieldVar ctx v) {code : List Instruction}
    (h : storeOp ctx op v = some code) :
    ∃ sym, v.symbol = some sym ∧ (v.kind = .deref → sym.type.isPointerType = true) := by
  rcases hv.kind with hkind | hkind
  · rcases hv.direct hkind with ⟨sym, hsym, -⟩
    exact ⟨sym, hsym, fun h => by rw [hkind] at h; cases h⟩
  · have hstore : ∀ r, storeRegister ctx r v ≠ none → ∃ sym, v.symbol = some sym ∧
        (v.kind = .deref → sym.type.isPointerType = true) := by
      intro r hr
      cases hsym : v.symbol with
      | none => simp [storeRegister, hsym] at hr
      | some sym =>
        cases hptr : sym.type.isPointerType with
        | false => simp [storeRegister, hsym, hkind, hptr] at hr
        | true => exact ⟨sym, rfl, fun _ => hptr⟩
    unfold storeOp at h
    split at h
    · simp only [bind_eq_some_iff, map_eq_some_iff] at h
      rcases h with ⟨_, -, ⟨merge, r⟩, -, _, hsome, -⟩
      exact hstore r (by simp [hsome])
    · cases h

theorem readable_of_roundTrip (hv : FieldVar ctx v) (hop : op.Free ctx v) {d : Reg} {w : Nat}
    (h : RoundTrip ctx op v d w) :
    v.fieldWidth < 64 ∧ PointerReadable ctx v ∧ Encodes v op := by
  rcases h with ⟨store, load, hstore, -, hrun⟩
  have hwidth : v.fieldWidth < 64 := by
    unfold storeOp at hstore
    split at hstore
    · rename_i hcond
      exact hcond.2
    · cases hstore
  refine ⟨hwidth, ?_⟩
  rcases symbol_of_storeOp hv hstore with ⟨sym, hsym, hptr⟩
  rcases storeOp_spec hv hwidth hop hsym hptr with ⟨code, hcode, -, hfails⟩
  rw [hstore, some.injEq] at hcode
  subst hcode
  by_contra hnot
  have hready : Ready ctx (sampleLink v) v (sampleMachine ctx v op sym 0 0) :=
    ready_sample hv hop hsym hptr
  rcases hrun _ _ hready with ⟨m1, -, hrun1, -⟩
  rw [hfails hnot _ _ hready] at hrun1
  cases hrun1

/-- What a store and a load that are right say of each storage unit. -/
theorem bits_of_roundTrip (hv : FieldVar ctx v) (hop : op.Free ctx v) {d : Reg}
    (hd : LoadRegister d) {w : Nat} (hw : w = 8 ∨ w = 4 ∧ v.fieldWidth ≤ 32)
    (h : RoundTrip ctx op v d w) :
    ∃ sym, ∀ u x, ∃ value, value = op.value (sampleMachine ctx v op sym u x) ∧
      (∀ i < 8 * v.type.scalarSize, inField v i = false →
        storedBit v u value i = u.getLsbD i) ∧
      ∀ i < v.fieldWidth, value.getLsbD i =
        if loadStart v + i < 8 * v.type.scalarSize then storedBit v u value (loadStart v + i)
        else u.getLsbD (loadStart v + i) := by
  rcases readable_of_roundTrip hv hop h with ⟨hwidth, hreadable, hencodes⟩
  rcases exists_symbol hv hreadable with ⟨sym, hsym, hptr⟩
  rcases storeOp_spec hv hwidth hop hsym hptr with ⟨store, hstore, hstored, -⟩
  rcases loadField_spec hv hwidth hd (show w = 4 ∨ w = 8 by omega) hsym hptr hreadable with
    ⟨load, hload, hloaded⟩
  rcases h with ⟨store', load', hstore', hload', hrun⟩
  rw [hstore, some.injEq] at hstore'
  rw [hload, some.injEq] at hload'
  subst hstore' hload'
  refine ⟨sym, fun u x => ⟨_, rfl, ?_⟩⟩
  have hready : Ready ctx (sampleLink v) v (sampleMachine ctx v op sym u x) :=
    ready_sample hv hop hsym hptr
  rcases hrun _ _ hready with ⟨m1, m2, hrun1, hrun2, hvalue, hothers⟩
  rcases hstored ⟨hreadable, hencodes⟩ _ _ hready with ⟨m1', hrun1', hsame, hmem1⟩
  rw [hrun1, some.injEq] at hrun1'
  subst hrun1'
  rcases hloaded _ _ (hsame.ready hready) with ⟨m2', hrun2', hmem2, hbits⟩
  rw [hrun2, some.injEq] at hrun2'
  subst hrun2'
  have hmem := hmem1.bit
  rw [hsame.unitAddress_eq] at hbits
  rw [unitAddress_sample hv hop hsym hptr] at hmem hbits hothers
  rw [unitBits_sample] at hmem
  have hle := (scalarSize_of_isInteger hv.integer).le
  constructor
  · intro i hi hin
    have hkept := hothers (8 * (0x1000 + v.offset.toNat) + i) (by
      rw [← Bool.not_eq_true, inField_iff] at hin
      omega)
    rw [hmem2, hmem, if_pos (by omega), Nat.add_sub_cancel_left, bit_sample (by omega)] at hkept
    exact hkept
  · intro i hi
    have hi8 : i < 8 * w := by omega
    have hbit := congrArg (fun y => y.getLsbD i) hvalue
    simp only [getLsbD_setWidth] at hbit
    rw [hbits i hi8, getLsbD_fieldValue hv.width_pos _ (by omega), if_pos hi, decide_eq_true hi8,
      Bool.true_and, Bool.true_and, loadedBit, if_pos hi, hmem] at hbit
    rw [← hbit]
    have hstart : loadStart v + i < 64 := by
      have haxw := axWidth_eq v
      have hwle := hv.width_le_axWidth
      unfold loadStart
      split <;> omega
    split
    · rw [if_pos (by omega), Nat.add_sub_cancel_left]
    · rw [if_neg (by omega), bit_sample hstart]

theorem value_sample (hop : op.Allowed) :
    op.value (sampleMachine ctx v op sym u x) = op.valueWith x := by
  cases op with
  | imm n => rfl
  | reg r =>
    have hbp : r.number ≠ Reg.bp.number := fun h => hop.register_ne.2.1 (number_injective h)
    show (sampleMachine ctx v (.reg r) sym u x).reg r.number = x
    simp [sampleMachine, hbp, StoreOperand.register]

end Sample

theorem inside_of_bits (hv : FieldVar ctx v) {c : BitVec 64}
    (h : ∀ u : BitVec 64, ∀ i < v.fieldWidth, c.getLsbD i =
      if loadStart v + i < 8 * v.type.scalarSize then storedBit v u c (loadStart v + i)
      else u.getLsbD (loadStart v + i)) :
    v.fieldOffset + v.fieldWidth ≤ 8 * v.type.scalarSize := by
  by_contra hout
  have hpos := hv.width_pos
  have hfits := hv.fits
  have haxw := axWidth_eq v
  have hle := hv.width_le_axWidth
  -- a bit of the field that is loaded from where none of the field is stored
  have hplace : ∃ i < v.fieldWidth, loadStart v + i < 64 ∧
      (loadStart v + i < 8 * v.type.scalarSize → inField v (loadStart v + i) = false) := by
    by_cases hin : v.fieldOffset + v.fieldWidth ≤ 8 * axWidth v
    · refine ⟨v.fieldWidth - 1, by omega, ?_⟩
      rw [loadStart, if_pos hin]
      exact ⟨by omega, fun h => by omega⟩
    · refine ⟨0, hpos, ?_⟩
      rw [loadStart, if_neg hin]
      refine ⟨by omega, fun _ => ?_⟩
      rw [← Bool.not_eq_true, inField_iff]
      omega
  rcases hplace with ⟨i, hi, hq, hnot⟩
  have hall : ∀ u : BitVec 64, c.getLsbD i = u.getLsbD (loadStart v + i) := by
    intro u
    rw [h u i hi]
    split
    · rename_i hlt
      have hw : immWidth v.type.scalarSize = v.type.scalarSize := if_neg (by omega)
      rw [storedBit, hw, decide_eq_true hlt, hnot hlt, if_neg (by decide), Bool.true_and]
    · rfl
  have hzero := hall 0#64
  have hones := hall (BitVec.allOnes 64)
  rw [getLsbD_zero] at hzero
  rw [getLsbD_allOnes, decide_eq_true hq, hzero] at hones
  cases hones

theorem storedBit_upper (h8 : v.type.scalarSize = 8) (u c : BitVec 64) {i : Nat} (hi : 32 ≤ i) :
    storedBit v u c i = false := by
  rw [storedBit, immWidth, if_pos h8, decide_eq_false (by omega), Bool.false_and]

/-- The condition is necessary. -/
theorem storesRight_of_roundTrip (hv : FieldVar ctx v) (hop : op.Free ctx v) {d : Reg}
    (hd : LoadRegister d) {w : Nat} (hw : w = 8 ∨ w = 4 ∧ v.fieldWidth ≤ 32)
    (h : RoundTrip ctx op v d w) : StoresRight ctx op v := by
  rcases readable_of_roundTrip hv hop h with ⟨hwidth, hreadable, hencodes⟩
  rcases bits_of_roundTrip hv hop hd hw h with ⟨sym, hbits⟩
  simp only [value_sample hop.1, exists_eq_left] at hbits
  have hinside : v.fieldOffset + v.fieldWidth ≤ 8 * v.type.scalarSize :=
    inside_of_bits hv fun u => (hbits u 0).2
  refine ⟨hwidth, hinside, ?_, hreadable⟩
  intro h8
  have hpos := hv.width_pos
  have hstart := loadStart_eq hv hinside
  have htop : v.fieldOffset + v.fieldWidth = 64 := by
    by_contra hne
    have hout : inField v 63 = false := by
      rw [← Bool.not_eq_true, inField_iff]
      omega
    have hkept := (hbits (BitVec.allOnes 64) 0).1 63 (by omega) hout
    rw [storedBit_upper h8 _ _ (by decide)] at hkept
    cases hkept
  have hoff : v.fieldOffset < 32 := by
    have hrange := in32BitRange_iff.mp (hencodes h8).1 63 (by decide) (by decide)
    have h63 : inField v 63 = true := inField_iff.mpr (by omega)
    rw [getLsbD_not, getLsbD_not, getLsbD_fieldMask hwidth (by decide),
      getLsbD_fieldMask hwidth (by decide), h63] at hrange
    have h31 : inField v 31 = true := by simpa using hrange
    have := inField_iff.mp h31
    omega
  have hupper : ∀ x, ∀ i, 32 ≤ i → i < 64 →
      (op.valueWith x).getLsbD (i - v.fieldOffset) = false := by
    intro x i hlo hi
    rw [(hbits 0 x).2 _ (by omega), hstart, if_pos (by omega), storedBit_upper h8 _ _ (by omega)]
  refine ⟨htop, hoff, ?_⟩
  cases op with
  | reg r =>
    have hbit := hupper (BitVec.allOnes 64) 32 le_rfl (by decide)
    rw [StoreOperand.valueWith, getLsbD_allOnes, decide_eq_true (by omega)] at hbit
    cases hbit
  | imm n =>
    refine ⟨n, rfl, ?_⟩
    apply Nat.lt_pow_two_of_testBit
    intro i hi
    by_cases h64 : 64 ≤ i
    · exact Nat.testBit_lt_two_pow ((n <<< v.fieldOffset).isLt.trans_le
        (Nat.pow_le_pow_right (by decide) h64))
    have hmasked : ∀ j, 31 ≤ j → j < 64 →
        ((n <<< v.fieldOffset) &&& fieldMask v).getLsbD j = (n <<< v.fieldOffset).getLsbD j := by
      intro j hlo hhi
      have hin : inField v j = true := inField_iff.mpr (by omega)
      rw [getLsbD_and, getLsbD_fieldMask hwidth hhi, hin, Bool.and_true]
    have hhigh : ∀ j, 32 ≤ j → j < 64 → (n <<< v.fieldOffset).getLsbD j = false := by
      intro j hlo hhi
      rw [getLsbD_shiftLeft]
      exact (congrArg _ (hupper 0 j hlo hhi)).trans (Bool.and_false _)
    show (n <<< v.fieldOffset).getLsbD i = false
    by_cases hlo : 32 ≤ i
    · exact hhigh i hlo (by omega)
    · obtain rfl : i = 31 := by omega
      rw [← hmasked 31 le_rfl (by decide)]
      by_cases hzero : (n <<< v.fieldOffset) &&& fieldMask v = 0
      · rw [hzero]
        rfl
      · rw [← in32BitRange_iff.mp ((hencodes h8).2 hzero) 32 (by decide) (by decide),
          hmasked 32 (by decide) (by decide), hhigh 32 le_rfl (by decide)]

end Necessary

/-! ## The fields of every layout -/

/-- An operand for a bit-field of a struct: the object is at an offset from a symbol or from a
pointer that has a register or a place. -/
structure FieldAccess (ctx : Context) (m : Member) (v : Var) : Prop where
  isField : m.fieldWidth ≠ 0
  type : v.type = m.type
  fieldWidth : v.fieldWidth = m.fieldWidth
  fieldOffset : v.fieldOffset = m.fieldOffset
  offset : v.offset.toNat < 2 ^ 31
  kind : v.kind = .direct ∨ v.kind = .deref
  direct : v.kind = .direct → ∃ sym, v.symbol = some sym ∧ isRegisterAllocated ctx v = false ∧
    Placed ctx sym v.offset
  deref : v.kind = .deref → ∀ sym, v.symbol = some sym → sym.type.isPointerType = true →
    (varDirect sym).kind = .direct ∧ Placed ctx sym 0 ∧ ctx.slot sym.id ≤ 5

theorem FieldAccess.fieldVar {ctx : Context} {m : Member} {v : Var} (h : FieldAccess ctx m v)
    (hm : m.FieldBounded) : FieldVar ctx v := by
  rcases hm h.isField with ⟨hint, hwidth, hfits, -⟩
  exact
    { integer := by rw [h.type]; exact hint
      width_pos := by rw [h.fieldWidth]; exact Nat.pos_of_ne_zero h.isField
      width_le := by rw [h.type, h.fieldWidth]; exact hwidth
      fits := by rw [h.fieldWidth, h.fieldOffset]; exact hfits
      offset := h.offset
      kind := h.kind
      direct := h.direct
      deref := h.deref }

/-- The fields of every layout that come back from a store and a load, with all bits outside
kept. -/
theorem layout_field_roundTrip_iff {types : TypeTable} {kind : TypeKind} {ops : List LayoutOp}
    {t t' : Typetree} (hrun : layoutRun types { type := kind } ops = .ok t)
    (hseal : typeSeal types t = .ok t') {member : Member} (hmember : member ∈ t'.members)
    {ctx : Context} {v : Var} (hv : FieldAccess ctx member v) {op : StoreOperand}
    (hop : op.Free ctx v) {d : Reg} (hd : LoadRegister d) {w : Nat}
    (hw : w = 8 ∨ w = 4 ∧ v.fieldWidth ≤ 32) :
    RoundTrip ctx op v d w ↔ StoresRight ctx op v := by
  have hfield := hv.fieldVar (sealed_layout_bounded hrun hseal member hmember)
  exact ⟨storesRight_of_roundTrip hfield hop hd hw,
    roundTrip_of_storesRight hfield hop hd (by omega)⟩

theorem free_imm (ctx : Context) (v : Var) (n : BitVec 64) : (StoreOperand.imm n).Free ctx v :=
  ⟨trivial, fun h => absurd h.mem (show Reg.cx ∉ tempIntReg by decide)⟩

/-- A local struct at a place in the frame, with a bit-field of the given type and width. -/
def localField (type : CType) (width : Nat) : Var where
  kind := .direct
  type := type
  symbol := some { id := 1, name := "s", type := { type := .struct } }
  fieldWidth := width

/-- The struct is sixteen bytes below the frame pointer. -/
def localContext : Context where
  pic := false
  slot := fun _ => 0
  stackOffset := fun _ => -16#32

theorem fieldAccess_localField {m : Member} (hm : m.fieldWidth ≠ 0) (hoffset : m.fieldOffset = 0) :
    FieldAccess localContext m (localField m.type m.fieldWidth) where
  isField := hm
  type := rfl
  fieldWidth := rfl
  fieldOffset := hoffset.symm
  offset := show (0#64).toNat < 2 ^ 31 by decide
  kind := Or.inl rfl
  direct := fun _ => ⟨_, rfl, rfl, fun _ =>
    show (-16#32).toInt + (0#64).toNat ≠ 0 ∧ -2 ^ 31 ≤ (-16#32).toInt + (0#64).toNat ∧
      (-16#32).toInt + (0#64).toNat < 2 ^ 31 by decide⟩
  deref := nofun

/-- `struct { int x : 5; }`: one goes there and back. -/
theorem layout_field_roundTrip_iff_int :
    RoundTrip localContext (.imm 1) (localField basicTypeInt 5) .ax 4 ↔
      StoresRight localContext (.imm 1) (localField basicTypeInt 5) := by
  have hrun : ∃ t t', layoutRun [] { type := .struct } [.field "x" basicTypeInt 5] = .ok t ∧
      typeSeal [] t = .ok t' ∧
        { name := "x", type := basicTypeInt, fieldWidth := 5, fieldBacking := 32 } ∈ t'.members :=
    ⟨_, _, rfl, rfl, by decide⟩
  rcases hrun with ⟨t, t', hrun, hseal, hmember⟩
  exact layout_field_roundTrip_iff hrun hseal hmember (fieldAccess_localField (by decide) rfl)
    (free_imm _ _ _) ⟨by decide, by decide⟩ (Or.inr ⟨rfl, by decide⟩)

/-- `struct { long x : 5; }`: a store of one clears the upper half of the unit. -/
theorem not_roundTrip_long :
    ∃ t t', layoutRun [] { type := .struct } [.field "x" basicTypeLong 5] = .ok t ∧
      typeSeal [] t = .ok t' ∧
      ∃ member ∈ t'.members, FieldAccess localContext member (localField basicTypeLong 5) ∧
        ¬RoundTrip localContext (.imm 1) (localField basicTypeLong 5) .ax 8 := by
  refine ⟨_, _, rfl, rfl,
    { name := "x", type := basicTypeLong, fieldWidth := 5, fieldBacking := 64 }, by decide,
    fieldAccess_localField (by decide) rfl, ?_⟩
  intro h
  have hv : FieldVar localContext (localField basicTypeLong 5) :=
    (fieldAccess_localField (m := { name := "x", type := basicTypeLong, fieldWidth := 5 })
      (by decide) rfl).fieldVar fun _ => ⟨by decide, by decide, by decide, by decide⟩
  have hright := storesRight_of_roundTrip hv (free_imm _ _ _) ⟨by decide, by decide⟩ (Or.inl rfl) h
  exact absurd (hright.eight rfl).1 (by decide)

end Kcs.Jit
