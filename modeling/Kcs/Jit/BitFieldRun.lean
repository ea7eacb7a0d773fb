import Kcs.Jit.BitField

/-!
# Stores to bit-fields and loads of them

The code of `store_op` and `load_field` for a bit-field, run by the processor from its bytes.

Main results:

- Lemma {lit}`loadUnit_spec`: the storage unit is loaded, unless the pointer to it is in a
  register that cannot be encoded as a base.
- Lemma {lit}`storeRegister_reaches`: the storage unit is stored to.
-/

namespace Kcs.Jit

open Option List BitVec
open X86 (Machine)

/-! ## Execution -/

/-- The effect of emitted code; an instruction without meaning has none. -/
def execute (link : Link) (code : List Instruction) (m : Machine) : Option Machine :=
  code.foldlM (fun m i => (meaning link i).map fun instr => instr.step m) m

section Execute

variable {link : Link} {code code' : List Instruction} {i : Instruction} {m m' : Machine}

@[simp]
theorem execute_nil : execute link [] m = some m := rfl

theorem execute_cons {instr : X86.Instr} (h : meaning link i = some instr) :
    execute link (i :: code) m = execute link code (instr.step m) := by
  simp [execute, h]

theorem execute_append (h : execute link code m = some m') :
    execute link (code ++ code') m = execute link code' m' := by
  unfold execute at h ⊢
  rw [foldlM_append, h]
  rfl

theorem execute_singleton {instr : X86.Instr} (h : meaning link i = some instr) :
    execute link [i] m = some (instr.step m) := by
  rw [execute_cons h, execute_nil]

end Execute

section Places

variable (ctx : Context) (link : Link) (m : Machine)

/-- The address of an object. -/
def symbolPlace (sym : Symbol) : BitVec 64 :=
  match sym.linkage with
  | .none => m.reg Reg.bp.number + (ctx.stackOffset sym.id).signExtend 64
  | _ => link.symbol sym.id

/-- The value of a pointer, from its register or from memory. -/
def pointerValue (sym : Symbol) : BitVec 64 :=
  if isRegisterAllocated ctx (varDirect sym) then
    ((allocatedRegister ctx (varDirect sym)).map fun r => m.reg r.number).getD 0
  else BitVec.ofNat 64 (m.mem.load (symbolPlace ctx link m sym).toNat 8)

/-- The address of the storage unit of a variable, `*(&symbol + offset)` or
`*(symbol + offset)`. -/
def unitAddress (v : Var) : BitVec 64 :=
  (v.symbol.map fun sym =>
    if v.kind = .deref then pointerValue ctx link m sym else symbolPlace ctx link m sym).getD 0 +
      v.offset

end Places

/-- A local object is not at the frame pointer, and a displacement reaches it. -/
def Placed (ctx : Context) (sym : Symbol) (offset : BitVec 64) : Prop :=
  sym.linkage = .none →
    (ctx.stackOffset sym.id).toInt + offset.toNat ≠ 0 ∧
    -2 ^ 31 ≤ (ctx.stackOffset sym.id).toInt + offset.toNat ∧
    (ctx.stackOffset sym.id).toInt + offset.toNat < 2 ^ 31

section Addresses

variable {ctx : Context} {link : Link} {m : Machine} {v : Var} {sym : Symbol}

theorem displacementFromOffset_eq {offset : BitVec 64} (h : offset.toNat < 2 ^ 31) :
    displacementFromOffset offset = some (offset.setWidth 32) ∧
      (offset.setWidth 32).signExtend 64 = offset ∧ (offset.setWidth 32).toInt = offset.toNat := by
  have hnat : (offset.setWidth 32).toNat = offset.toNat := by
    rw [toNat_setWidth]
    omega
  have hint : (offset.setWidth 32).toInt = offset.toNat := by
    rw [toInt_eq_toNat_of_lt (by omega), hnat]
  refine ⟨if_pos (by omega), ?_, hint⟩
  apply eq_of_toInt_eq
  rw [toInt_signExtend_of_le (by decide), hint, toInt_eq_toNat_of_lt (by omega)]

theorem locationOf_spec (link : Link) (hkind : v.kind = .direct) (hsym : v.symbol = some sym)
    (hoffset : v.offset.toNat < 2 ^ 31) (hplaced : Placed ctx sym v.offset)
    (hreg : isRegisterAllocated ctx v = false) (hglobal : isGlobalOffset ctx sym = false) (w : Nat) :
    ∃ addr, locationOf ctx v w = some ⟨addr, w⟩ ∧ addr.Encodable ∧
      (addr.operand link).IsMemory ∧
        ∀ m, (addr.operand link).address m = (symbolPlace ctx link m sym + v.offset).toNat := by
  rcases displacementFromOffset_eq hoffset with ⟨hdisp, hext, hint⟩
  simp only [locationOf, hreg, addressOf, hsym, hdisp, hkind, bind_some, Bool.false_eq_true,
    if_false]
  cases hlink : sym.linkage with
  | external =>
    have hpic : ctx.pic = false := by simpa [isGlobalOffset, hlink] using hglobal
    refine ⟨.symbol sym.id false (v.offset.setWidth 32), by simp [hpic], trivial, trivial, ?_⟩
    intro m
    simp [Address.operand, X86.Operand.address, symbolPlace, hlink, hext]
  | intern =>
    refine ⟨_, rfl, trivial, trivial, ?_⟩
    intro m
    simp [Address.operand, X86.Operand.address, symbolPlace, hlink, hext]
  | none =>
    rcases hplaced hlink with ⟨hne, hlo, hhi⟩
    have hsum : (v.offset.setWidth 32 + ctx.stackOffset sym.id).toInt =
        (ctx.stackOffset sym.id).toInt + v.offset.toNat := by
      rw [toInt_add, hint]
      exact (Int.bmod_eq_of_le (by omega) (by omega)).trans (by omega)
    refine ⟨_, rfl, ⟨by decide, ?_⟩, trivial, ?_⟩
    · rintro - hzero
      rw [hzero] at hsum
      exact hne hsum.symm
    · intro m
      simp only [Address.operand, X86.Operand.address, symbolPlace, hlink]
      congr 1
      rw [BitVec.add_assoc]
      congr 1
      apply eq_of_toInt_eq
      have hnat : v.offset.toInt = v.offset.toNat := toInt_eq_toNat_of_lt (by omega)
      rw [toInt_signExtend_of_le (by decide), hsum, toInt_add,
        toInt_signExtend_of_le (by decide), hnat]
      exact (Int.bmod_eq_of_le (by omega) (by omega)).symm

/-- What the parser and the layout of the frame promise of a bit-field that is an operand:
its type, its place in the storage unit, and that its object or the pointer to it has a
register or a place. -/
structure FieldVar (ctx : Context) (v : Var) : Prop where
  integer : v.type.isInteger = true
  width_pos : 0 < v.fieldWidth
  width_le : v.fieldWidth ≤ 8 * v.type.scalarSize
  fits : v.fieldOffset + v.fieldWidth ≤ 64
  offset : v.offset.toNat < 2 ^ 31
  kind : v.kind = .direct ∨ v.kind = .deref
  direct : v.kind = .direct → ∃ sym, v.symbol = some sym ∧ isRegisterAllocated ctx v = false ∧
    Placed ctx sym v.offset
  deref : v.kind = .deref → ∀ sym, v.symbol = some sym → sym.type.isPointerType = true →
    (varDirect sym).kind = .direct ∧ Placed ctx sym 0 ∧ ctx.slot sym.id ≤ 5

/-- Byte ranges that do not overlap. -/
def Apart (a n b k : Nat) : Prop := a + n ≤ b ∨ b + k ≤ a

/-- A state in which a bit-field can be accessed: the global offset table is filled, and
neither it nor the pointer to the field lies in the storage unit. -/
structure Ready (ctx : Context) (link : Link) (v : Var) (m : Machine) : Prop where
  got : ∀ sym, v.symbol = some sym → isGlobalOffset ctx sym = true →
    m.mem.load (link.got sym.id).toNat 8 = (link.symbol sym.id).toNat
  gotApart : ∀ sym, v.symbol = some sym → isGlobalOffset ctx sym = true →
    Apart (unitAddress ctx link m v).toNat v.type.scalarSize (link.got sym.id).toNat 8
  pointerApart : v.kind = .deref → ∀ sym, v.symbol = some sym →
    isRegisterAllocated ctx (varDirect sym) = false →
      Apart (unitAddress ctx link m v).toNat v.type.scalarSize
        (symbolPlace ctx link m sym).toNat 8

/-- The pointer to a field can be read, and as the base of an address it can be encoded. -/
def PointerReadable (ctx : Context) (v : Var) : Prop :=
  v.kind = .deref → ∃ sym, v.symbol = some sym ∧ sym.type.isPointerType = true ∧
    (isRegisterAllocated ctx (varDirect sym) = true → ∀ r,
      allocatedRegister ctx (varDirect sym) = some r →
        r ≠ .r12 ∧ (r = .r13 → v.offset ≠ 0))

/-- Registers that a value is loaded to. -/
def LoadRegister (r : Reg) : Prop := r.number % 8 ≠ 4 ∧ r.number % 8 ≠ 5

/-- A machine that differs in registers that are listed only. -/
structure KeepsOthers (changed : List Nat) (m m' : Machine) : Prop where
  mem : m'.mem = m.mem
  reg : ∀ r, r ∉ changed → m'.reg r = m.reg r

theorem KeepsOthers.refl (changed : List Nat) (m : Machine) : KeepsOthers changed m m :=
  ⟨rfl, fun _ _ => rfl⟩

theorem KeepsOthers.trans {changed : List Nat} {m m' m'' : Machine}
    (h : KeepsOthers changed m m') (h' : KeepsOthers changed m' m'') :
    KeepsOthers changed m m'' where
  mem := h'.mem.trans h.mem
  reg := fun r hr => (h'.reg r hr).trans (h.reg r hr)

theorem KeepsOthers.mono {changed changed' : List Nat} {m m' : Machine}
    (h : KeepsOthers changed m m') (hsub : changed ⊆ changed') : KeepsOthers changed' m m' where
  mem := h.mem
  reg := fun r hr => h.reg r fun hmem => hr (hsub hmem)

theorem keepsOthers_writeReg (w r : Nat) (x : BitVec 64) (m : Machine) :
    KeepsOthers [r] m (X86.writeReg m w r x) where
  mem := rfl
  reg := fun r' hr => X86.writeReg_of_ne (by simpa using hr)

@[simp]
theorem merge_eight (old x : BitVec 64) : X86.merge 8 old x = x := by
  apply eq_of_getLsbD_eq
  intro i hi
  rw [X86.getLsbD_merge, if_pos (by omega)]

@[simp]
theorem low_eight (x : BitVec 64) : X86.low 8 x = x := by
  apply eq_of_getLsbD_eq
  intro i hi
  rw [X86.getLsbD_low, decide_eq_true (by omega), Bool.true_and]

theorem read_eight {o : X86.Operand} (ho : o.IsMemory) :
    X86.read m 8 o = BitVec.ofNat 64 (m.mem.load (o.address m) 8) := by
  cases o with
  | reg r => exact ho.elim
  | based base disp => rfl
  | fixed address => rfl

theorem execute_loadPointer (link : Link) (m : Machine) {addr : Address} (r : Reg) (w : Nat)
    (h : addr.Encodable) (ho : (addr.operand link).IsMemory) :
    ∃ m', execute link [⟨.mov, .memReg ⟨addr, w⟩ ⟨r, 8⟩⟩] m = some m' ∧
      KeepsOthers [r.number] m m' ∧
      m'.reg r.number = BitVec.ofNat 64 (m.mem.load ((addr.operand link).address m) 8) := by
  refine ⟨_, execute_singleton (meaning_mov_memReg h (Or.inr rfl)), keepsOthers_writeReg _ _ _ _, ?_⟩
  rw [X86.Instr.step, X86.write, X86.writeReg_self, merge_eight, read_eight ho]

theorem execute_loadGot (r : Reg)
    (hgot : m.mem.load (link.got sym.id).toNat 8 = (link.symbol sym.id).toNat) :
    ∃ m', execute link [⟨.mov, .memReg ⟨got sym, 8⟩ ⟨r, 8⟩⟩] m = some m' ∧
      KeepsOthers [r.number] m m' ∧ m'.reg r.number = link.symbol sym.id := by
  rcases execute_loadPointer link m r 8 (show (got sym).Encodable from trivial) trivial with
    ⟨m', hrun, hkeeps, hreg⟩
  refine ⟨m', hrun, hkeeps, ?_⟩
  rw [hreg]
  simp [got, Address.operand, X86.Operand.address, hgot]

/-- Code that ends with an instruction for the storage unit of a variable, and in front of
it changes the given registers only. -/
def ReachesUnit (ctx : Context) (v : Var) (changed : List Nat) (readable : Prop)
    (code : List Instruction) (last : Address → Instruction) : Prop :=
  ∃ pre addr, code = pre ++ [last addr] ∧ (readable → addr.Encodable) ∧
    (¬readable → ∃ base disp, addr = .based base disp ∧ base ≠ .sp ∧
      ¬(Address.based base disp).Encodable ∧ pre = []) ∧
    ∀ link m, Ready ctx link v m → (addr.operand link).IsMemory ∧
      ∃ m', execute link pre m = some m' ∧ KeepsOthers changed m m' ∧
        (addr.operand link).address m' = (unitAddress ctx link m v).toNat

@[simp]
theorem varDirect_symbol (sym : Symbol) : (varDirect sym).symbol = some sym := by
  unfold varDirect
  split <;> rfl

@[simp]
theorem varDirect_offset (sym : Symbol) : (varDirect sym).offset = 0 := by
  unfold varDirect
  split <;> rfl

@[simp]
theorem varDirect_type (sym : Symbol) : (varDirect sym).type = sym.type := by
  unfold varDirect
  split <;> rfl

theorem allocatedRegister_eq (hv : FieldVar ctx v) (hkind : v.kind = .deref)
    (hsym : v.symbol = some sym) (hptr : sym.type.isPointerType = true)
    (hreg : isRegisterAllocated ctx (varDirect sym) = true) :
    ∃ r, allocatedRegister ctx (varDirect sym) = some r ∧ r ∈ tempIntReg := by
  rcases hv.deref hkind sym hsym hptr with ⟨-, -, hslot⟩
  simp only [isRegisterAllocated, varDirect_symbol, any_some, Bool.and_eq_true,
    decide_eq_true_eq, ne_eq] at hreg
  have hlt : ctx.slot sym.id - 1 < tempIntReg.length := by
    have := hreg.2.2
    simp only [tempIntReg, length_cons, length_nil]
    omega
  refine ⟨tempIntReg[ctx.slot sym.id - 1], ?_, getElem_mem hlt⟩
  simp [allocatedRegister, hptr, List.getElem?_eq_getElem hlt]

theorem loadBased_eq (hv : FieldVar ctx v) (opcode : Opcode) (base : Reg) (dest : Registr) :
    loadBased opcode v base dest =
      some [⟨opcode, .memReg ⟨.based base (v.offset.setWidth 32), v.type.scalarSize⟩ dest⟩] := by
  rw [loadBased, (displacementFromOffset_eq hv.offset).1]
  rfl

theorem address_based (hv : FieldVar ctx v) (base : Reg) (m : Machine) :
    ((Address.based base (v.offset.setWidth 32)).operand link).address m =
      (m.reg base.number + v.offset).toNat := by
  simp only [Address.operand, X86.Operand.address, (displacementFromOffset_eq hv.offset).2.1]

theorem pointerReadable_of_memory (hsym : v.symbol = some sym)
    (hptr : v.kind = .deref → sym.type.isPointerType = true)
    (hreg : v.kind = .deref → isRegisterAllocated ctx (varDirect sym) = false) :
    PointerReadable ctx v := fun hkind =>
  ⟨sym, hsym, hptr hkind, fun h => by rw [hreg hkind] at h; cases h⟩

theorem encodable_tempIntReg (hv : FieldVar ctx v) {r : Reg} (hr : r ∈ tempIntReg) :
    (Address.based r (v.offset.setWidth 32)).Encodable ↔ r ≠ .r12 ∧ (r = .r13 → v.offset ≠ 0) := by
  have hzero : v.offset.setWidth 32 = 0#32 ↔ v.offset = 0#64 := by
    constructor
    · intro h
      rw [← (displacementFromOffset_eq hv.offset).2.1, h]
      rfl
    · rintro h
      rw [h]
      rfl
  simp only [tempIntReg, mem_cons, not_mem_nil, or_false] at hr
  rcases hr with rfl | rfl | rfl | rfl | rfl <;> simp [Address.Encodable, Reg.number, hzero]

theorem emitLoad_direct (hv : FieldVar ctx v) (opcode : Opcode) {dest : Registr}
    (hdest : LoadRegister dest.r) (hkind : v.kind = .direct)
    (hw : isStandardRegisterWidth v.type.scalarSize = true) :
    ∃ code, emitLoad ctx opcode v dest = some code ∧
      ReachesUnit ctx v [dest.r.number, 11] (PointerReadable ctx v) code fun addr =>
        ⟨opcode, .memReg ⟨addr, v.type.scalarSize⟩ dest⟩ := by
  rcases hv.direct hkind with ⟨sym, hsym, hreg, hplaced⟩
  have hreadable : PointerReadable ctx v := fun h => by rw [hkind] at h; cases h
  simp only [emitLoad, hw, if_true, hsym, bind_some, hkind, hreg, Bool.false_eq_true, if_false]
  by_cases hglobal : isGlobalOffset ctx sym = true
  · rw [if_pos hglobal, loadBased_eq hv]
    refine ⟨_, rfl, [_], _, rfl, fun _ => ⟨hdest.1, fun h5 => absurd h5 hdest.2⟩,
      fun h => absurd hreadable h, ?_⟩
    intro link m hm
    rcases execute_loadGot dest.r (hm.got sym hsym hglobal) with ⟨m', hrun, hkeeps, hreg'⟩
    refine ⟨trivial, m', hrun, hkeeps.mono (by simp), ?_⟩
    have hlink : sym.linkage = .external := by
      simp only [isGlobalOffset, Bool.and_eq_true, decide_eq_true_eq] at hglobal
      exact hglobal.2
    rw [address_based hv, hreg']
    simp [unitAddress, hsym, hkind, symbolPlace, hlink]
  · rw [if_neg hglobal]
    have hspec := fun link => locationOf_spec link hkind hsym hv.offset hplaced hreg
      (by simpa using hglobal) v.type.scalarSize
    rcases hspec ⟨0, 0⟩ with ⟨addr, hloc, henc, -, -⟩
    refine ⟨_, by rw [hloc]; rfl, [], addr, rfl, fun _ => henc, fun h => absurd hreadable h, ?_⟩
    intro link m _
    rcases hspec link with ⟨addr', hloc', -, hmem, haddr⟩
    rw [hloc, some.injEq, MemoryOperand.mk.injEq] at hloc'
    rw [← hloc'.1] at hmem haddr
    refine ⟨hmem, m, rfl, KeepsOthers.refl _ _, ?_⟩
    rw [haddr]
    simp [unitAddress, hsym, hkind]

/-- `emit_load` of the storage unit behind a pointer. -/
theorem emitLoad_deref (hv : FieldVar ctx v) (opcode : Opcode) {dest : Registr}
    (hdest : LoadRegister dest.r) (hkind : v.kind = .deref) {sym : Symbol}
    (hsym : v.symbol = some sym) (hptr : sym.type.isPointerType = true)
    (hw : isStandardRegisterWidth v.type.scalarSize = true) :
    ∃ code, emitLoad ctx opcode v dest = some code ∧
      ReachesUnit ctx v [dest.r.number, 11] (PointerReadable ctx v) code fun addr =>
        ⟨opcode, .memReg ⟨addr, v.type.scalarSize⟩ dest⟩ := by
  rcases hv.deref hkind sym hsym hptr with ⟨hdirect, hplaced, -⟩
  have hstring : (varDirect sym).isString = false := by simp [Var.isString, hdirect]
  have hbase : ∀ disp, (Address.based dest.r disp).Encodable := fun disp =>
    ⟨hdest.1, fun h5 => absurd h5 hdest.2⟩
  simp only [emitLoad, hw, if_true, hsym, bind_some, hkind, hstring, Bool.false_eq_true,
    if_false, varDirect_type, hptr]
  by_cases hreg : isRegisterAllocated ctx (varDirect sym) = true
  · -- the pointer is in a register
    rcases allocatedRegister_eq hv hkind hsym hptr hreg with ⟨r, hr, htemp⟩
    rw [if_pos hreg, hr, bind_some, loadBased_eq hv]
    refine ⟨_, rfl, [], _, rfl, ?_, ?_, ?_⟩
    · intro hreadable
      rcases hreadable hkind with ⟨sym', hsym', -, hregs⟩
      rw [hsym, some.injEq] at hsym'
      subst hsym'
      exact (encodable_tempIntReg hv htemp).mpr (hregs hreg r hr)
    · intro hnot
      refine ⟨r, _, rfl, ?_, ?_, rfl⟩
      · rintro rfl
        exact absurd htemp (by decide)
      · intro henc
        apply hnot
        intro _
        refine ⟨sym, hsym, hptr, fun _ r' hr' => ?_⟩
        rw [hr, some.injEq] at hr'
        subst hr'
        exact (encodable_tempIntReg hv htemp).mp henc
    · intro link m _
      refine ⟨trivial, m, rfl, KeepsOthers.refl _ _, ?_⟩
      rw [address_based hv]
      simp [unitAddress, hsym, hkind, pointerValue, hreg, hr]
  have hreadable : PointerReadable ctx v :=
    pointerReadable_of_memory hsym (fun _ => hptr) (fun _ => by simpa using hreg)
  have hnot : isRegisterAllocated ctx (varDirect sym) = false := by simpa using hreg
  rw [if_neg hreg]
  by_cases hglobal : isGlobalOffset ctx sym = true
  · -- the pointer is found through the global offset table
    rw [if_pos hglobal, loadBased_eq hv]
    refine ⟨_, rfl, [_, _], _, rfl, fun _ => hbase _, fun h => absurd hreadable h, ?_⟩
    intro link m hm
    rcases execute_loadGot dest.r (hm.got sym hsym hglobal) with ⟨m1, hrun1, hkeeps1, hreg1⟩
    rcases execute_loadPointer link m1 dest.r v.type.scalarSize (hbase 0) trivial with
      ⟨m2, hrun2, hkeeps2, hreg2⟩
    refine ⟨trivial, m2, ?_, (hkeeps1.mono (by simp)).trans (hkeeps2.mono (by simp)), ?_⟩
    · exact (execute_append hrun1).trans hrun2
    · have hlink : sym.linkage = .external := by
        simp only [isGlobalOffset, Bool.and_eq_true, decide_eq_true_eq] at hglobal
        exact hglobal.2
      rw [address_based hv, hreg2, hkeeps1.mem]
      simp [unitAddress, hsym, hkind, pointerValue, hnot, symbolPlace, hlink, Address.operand,
        X86.Operand.address, hreg1]
  · -- the pointer is in memory
    rw [if_neg hglobal]
    have hspec := fun link => locationOf_spec (v := varDirect sym) link hdirect (varDirect_symbol sym)
      (by simp) (by simpa using hplaced) hnot (by simpa using hglobal) 8
    rcases hspec ⟨0, 0⟩ with ⟨addr, hloc, henc, -, -⟩
    rw [hloc, bind_some, loadBased_eq hv]
    refine ⟨_, rfl, [_], _, rfl, fun _ => ⟨by decide, fun h => absurd h (by decide)⟩,
      fun h => absurd hreadable h, ?_⟩
    intro link m _
    rcases hspec link with ⟨addr', hloc', -, hmem, haddr⟩
    rw [hloc, some.injEq, MemoryOperand.mk.injEq] at hloc'
    rw [← hloc'.1] at hmem haddr
    rcases execute_loadPointer link m .r11 8 henc hmem with ⟨m', hrun, hkeeps, hreg'⟩
    refine ⟨trivial, m', hrun, hkeeps.mono (by simp [Reg.number]), ?_⟩
    rw [address_based hv, hreg', haddr]
    simp [unitAddress, hsym, hkind, pointerValue, hnot]

/-- A pointer is loaded to `r11`. -/
theorem loadInt_pointer (hv : FieldVar ctx v) (hkind : v.kind = .deref) {sym : Symbol}
    (hsym : v.symbol = some sym) (hptr : sym.type.isPointerType = true) :
    ∃ code, loadInt ctx (varDirect sym) .r11 8 = some code ∧
      ∀ link m, Ready ctx link v m → ∃ m', execute link code m = some m' ∧
        KeepsOthers [11] m m' ∧ m'.reg 11 = pointerValue ctx link m sym := by
  rcases hv.deref hkind sym hsym hptr with ⟨hdirect, hplaced, -⟩
  have htype : sym.type.typeOf = .pointer := by simpa [CType.isPointerType] using hptr
  have hreal : sym.type.isReal = false := by
    rw [CType.isReal, htype]
    decide
  have hsize : sym.type.scalarSize = 8 := by
    rw [CType.scalarSize, htype]
  have hfield : (varDirect sym).isField = false := by
    unfold varDirect
    split <;> rfl
  have hint : loadInt ctx (varDirect sym) .r11 8 = emitLoad ctx .mov (varDirect sym) ⟨.r11, 8⟩ := by
    simp [loadInt, hreal, hfield, hsize]
  have hstd : isStandardRegisterWidth 8 = true := rfl
  rw [hint]
  simp only [emitLoad, varDirect_type, hsize, hstd, if_true, varDirect_symbol, bind_some, hdirect]
  by_cases hreg : isRegisterAllocated ctx (varDirect sym) = true
  · rcases allocatedRegister_eq hv hkind hsym hptr hreg with ⟨r, hr, -⟩
    rw [if_pos hreg, hr]
    refine ⟨_, rfl, ?_⟩
    intro link m _
    refine ⟨_, execute_singleton meaning_mov_regReg, keepsOthers_writeReg _ _ _ _, ?_⟩
    show (X86.writeReg m 8 11 _).reg 11 = _
    rw [X86.writeReg_self, merge_eight]
    simp [X86.read, pointerValue, hreg, hr]
  have hnot : isRegisterAllocated ctx (varDirect sym) = false := by simpa using hreg
  rw [if_neg hreg]
  by_cases hglobal : isGlobalOffset ctx sym = true
  · rw [if_pos hglobal, loadBased, varDirect_offset]
    refine ⟨_, rfl, ?_⟩
    intro link m hm
    rcases execute_loadGot .r11 (hm.got sym hsym hglobal) with ⟨m1, hrun1, hkeeps1, hreg1⟩
    rcases execute_loadPointer link m1 .r11 (varDirect sym).type.scalarSize
      (show (Address.based .r11 0).Encodable from ⟨by decide, fun h => absurd h (by decide)⟩)
      trivial with ⟨m2, hrun2, hkeeps2, hreg2⟩
    refine ⟨m2, (execute_append hrun1).trans hrun2, hkeeps1.trans hkeeps2, ?_⟩
    have hlink : sym.linkage = .external := by
      simp only [isGlobalOffset, Bool.and_eq_true, decide_eq_true_eq] at hglobal
      exact hglobal.2
    show m2.reg Reg.r11.number = _
    rw [hreg2, hkeeps1.mem]
    simp [pointerValue, hnot, symbolPlace, hlink, Address.operand, X86.Operand.address, hreg1]
  · rw [if_neg hglobal]
    have hspec := fun link => locationOf_spec (v := varDirect sym) link hdirect
      (varDirect_symbol sym) (by simp) (by simpa using hplaced) hnot (by simpa using hglobal) 8
    rcases hspec ⟨0, 0⟩ with ⟨addr, hloc, henc, -, -⟩
    rw [hloc]
    refine ⟨_, rfl, ?_⟩
    intro link m _
    rcases hspec link with ⟨addr', hloc', -, hmem, haddr⟩
    rw [hloc, some.injEq, MemoryOperand.mk.injEq] at hloc'
    rw [← hloc'.1] at hmem haddr
    rcases execute_loadPointer link m .r11 8 henc hmem with ⟨m', hrun, hkeeps, hreg'⟩
    refine ⟨m', hrun, hkeeps, ?_⟩
    show m'.reg Reg.r11.number = _
    rw [hreg', haddr]
    simp [pointerValue, hnot]

/-- The end of `store_op`. -/
theorem storeRegister_reaches (hv : FieldVar ctx v) (r : Registr) {sym : Symbol}
    (hsym : v.symbol = some sym) (hptr : v.kind = .deref → sym.type.isPointerType = true) :
    ∃ code, storeRegister ctx r v = some code ∧
      ReachesUnit ctx v [11] True code fun addr =>
        ⟨.mov, .regMem r ⟨addr, v.type.scalarSize⟩⟩ := by
  have hdisp := (displacementFromOffset_eq hv.offset).1
  have hbase : (Address.based .r11 (v.offset.setWidth 32)).Encodable :=
    ⟨by decide, fun h => absurd h (by decide)⟩
  simp only [storeRegister, hsym, bind_some]
  rcases hv.kind with hkind | hkind
  · rcases hv.direct hkind with ⟨sym', hsym', hreg, hplaced⟩
    rw [hsym, some.injEq] at hsym'
    subst hsym'
    simp only [hkind, hreg, Bool.false_eq_true, if_false]
    by_cases hglobal : isGlobalOffset ctx sym = true
    · rw [if_pos hglobal, hdisp]
      refine ⟨_, rfl, [_], _, rfl, fun _ => hbase, fun h => absurd trivial h, ?_⟩
      intro link m hm
      rcases execute_loadGot .r11 (hm.got sym hsym hglobal) with ⟨m', hrun, hkeeps, hreg'⟩
      refine ⟨trivial, m', hrun, hkeeps, ?_⟩
      have hlink : sym.linkage = .external := by
        simp only [isGlobalOffset, Bool.and_eq_true, decide_eq_true_eq] at hglobal
        exact hglobal.2
      rw [address_based hv, hreg']
      simp [unitAddress, hsym, hkind, symbolPlace, hlink]
    · rw [if_neg hglobal]
      have hspec := fun link => locationOf_spec link hkind hsym hv.offset hplaced hreg
        (by simpa using hglobal) v.type.scalarSize
      rcases hspec ⟨0, 0⟩ with ⟨addr, hloc, henc, -, -⟩
      refine ⟨_, by rw [hloc]; rfl, [], addr, rfl, fun _ => henc, fun h => absurd trivial h, ?_⟩
      intro link m _
      rcases hspec link with ⟨addr', hloc', -, hmem, haddr⟩
      rw [hloc, some.injEq, MemoryOperand.mk.injEq] at hloc'
      rw [← hloc'.1] at hmem haddr
      refine ⟨hmem, m, rfl, KeepsOthers.refl _ _, ?_⟩
      rw [haddr]
      simp [unitAddress, hsym, hkind]
  · rcases loadInt_pointer hv hkind hsym (hptr hkind) with ⟨code, hcode, hrun⟩
    simp only [hkind, hptr hkind, if_true, hcode, bind_some, hdisp, map_some]
    refine ⟨_, rfl, code, _, rfl, fun _ => hbase, fun h => absurd trivial h, ?_⟩
    intro link m hm
    rcases hrun link m hm with ⟨m', hexec, hkeeps, hreg'⟩
    refine ⟨trivial, m', hexec, hkeeps, ?_⟩
    rw [address_based hv]
    show (m'.reg 11 + v.offset).toNat = _
    rw [hreg']
    simp [unitAddress, hsym, hkind]

theorem scalarSize_of_isInteger {type : CType} (h : type.isInteger = true) :
    IsWidth type.scalarSize := by
  unfold CType.isInteger at h
  unfold CType.scalarSize IsWidth
  cases hkind : type.typeOf <;> simp_all [TypeKind.code]

theorem getLsbD_load {o : X86.Operand} (ho : o.IsMemory) {r i n w : Nat} (hi : i < 8 * n)
    (hn : 8 * n ≤ 64) (hw : n ≤ w) (f : BitVec 64 → BitVec 64)
    (hf : (f (X86.read m n o)).getLsbD i = (X86.read m n o).getLsbD i) :
    ((X86.writeReg m w r (f (X86.read m n o))).reg r).getLsbD i =
      m.mem.bit (8 * o.address m + i) := by
  rw [X86.writeReg_self, X86.getLsbD_merge, if_pos (by omega), hf,
    X86.getLsbD_read_memory ho (by omega), decide_eq_true hi, Bool.true_and]

/-- The storage unit of a field, as `store_op` loads it. -/
def unitVar (v : Var) : Var := { v with fieldWidth := 0, fieldOffset := 0 }

theorem load_unitVar (hv : FieldVar ctx v) (r : Reg) :
    ∃ opc w, load ctx (unitVar v) r = emitLoad ctx opc v ⟨r, w⟩ ∧ (w = 4 ∨ w = 8) ∧
      (opc = .mov ∧ v.type.scalarSize = w ∨
        (opc = .movzx ∨ opc = .movsx) ∧ (v.type.scalarSize = 1 ∨ v.type.scalarSize = 2)) := by
  have hreal : v.type.isReal = false := by
    have h := hv.integer
    unfold CType.isInteger at h
    unfold CType.isReal
    cases hkind : v.type.typeOf <;> simp_all [TypeKind.code]
  have hload : ∀ opc dest, emitLoad ctx opc (unitVar v) dest = emitLoad ctx opc v dest :=
    fun _ _ => rfl
  have htype : (unitVar v).type = v.type := rfl
  have hfield : (unitVar v).isField = false := rfl
  simp only [load, loadInt, htype, hfield, hreal, hload, Bool.false_eq_true, if_false]
  have hsigned : v.type.isUnsignedType = false → v.type.isSigned = true := by
    intro h
    simp [CType.isSigned, h, hv.integer]
  rcases scalarSize_of_isInteger hv.integer with h | h | h | h <;> rw [h]
  · cases hu : v.type.isUnsignedType
    · exact ⟨.movsx, 4, by simp [hsigned hu], by simp⟩
    · exact ⟨.movzx, 4, by simp, by simp⟩
  · cases hu : v.type.isUnsignedType
    · exact ⟨.movsx, 4, by simp [hsigned hu], by simp⟩
    · exact ⟨.movzx, 4, by simp, by simp⟩
  · exact ⟨.mov, 4, by simp, by simp⟩
  · exact ⟨.mov, 8, by simp, by simp⟩

theorem execute_loadUnit {addr : Address} {opc : Opcode} {n w : Nat} {r : Reg}
    (henc : addr.Encodable) (ho : (addr.operand link).IsMemory) (hw : w = 4 ∨ w = 8)
    (hopc : opc = .mov ∧ n = w ∨ (opc = .movzx ∨ opc = .movsx) ∧ (n = 1 ∨ n = 2)) :
    ∃ m', execute link [⟨opc, .memReg ⟨addr, n⟩ ⟨r, w⟩⟩] m = some m' ∧
      KeepsOthers [r.number] m m' ∧
      ∀ i < 8 * n, (m'.reg r.number).getLsbD i =
        m.mem.bit (8 * (addr.operand link).address m + i) := by
  rcases hopc with ⟨rfl, rfl⟩ | ⟨rfl | rfl, hn⟩
  · refine ⟨_, execute_singleton (meaning_mov_memReg henc hw), keepsOthers_writeReg _ _ _ _, ?_⟩
    intro i hi
    exact getLsbD_load ho hi (by omega) le_rfl id rfl
  · refine ⟨_, execute_singleton (meaning_movzx_memReg henc hn hw), keepsOthers_writeReg _ _ _ _, ?_⟩
    intro i hi
    exact getLsbD_load ho hi (by omega) (by omega) id rfl
  · refine ⟨_, execute_singleton (meaning_movsx_memReg henc hn hw), keepsOthers_writeReg _ _ _ _, ?_⟩
    intro i hi
    apply getLsbD_load ho hi (by omega) (by omega) (X86.lowSigned n)
    rw [X86.getLsbD_lowSigned (by omega) (by omega) (by omega), if_pos hi]

/-- `store_op` loads the storage unit first; through a pointer that cannot be encoded it does
not get there. -/
theorem loadUnit_spec (hv : FieldVar ctx v) {sym : Symbol} (hsym : v.symbol = some sym)
    (hptr : v.kind = .deref → sym.type.isPointerType = true) :
    ∃ code, load ctx (unitVar v) .cx = some code ∧
      (PointerReadable ctx v → ∀ link m, Ready ctx link v m → ∃ m',
        execute link code m = some m' ∧ KeepsOthers [1, 11] m m' ∧
          ∀ i < 8 * v.type.scalarSize, (m'.reg 1).getLsbD i =
            m.mem.bit (8 * (unitAddress ctx link m v).toNat + i)) ∧
      (¬PointerReadable ctx v → ∀ link m, execute link (code) m = none) := by
  rcases load_unitVar hv .cx with ⟨opc, w, hload, hw, hopc⟩
  have hstd : isStandardRegisterWidth v.type.scalarSize = true := by
    rcases scalarSize_of_isInteger hv.integer with h | h | h | h <;> rw [h] <;> rfl
  have hcx : LoadRegister .cx := ⟨by decide, by decide⟩
  have hreach : ∃ code, emitLoad ctx opc v ⟨.cx, w⟩ = some code ∧
      ReachesUnit ctx v [1, 11] (PointerReadable ctx v) code fun addr =>
        ⟨opc, .memReg ⟨addr, v.type.scalarSize⟩ ⟨.cx, w⟩⟩ := by
    rcases hv.kind with hkind | hkind
    · exact emitLoad_direct hv opc hcx hkind hstd
    · exact emitLoad_deref hv opc hcx hkind hsym (hptr hkind) hstd
  rcases hreach with ⟨code, hcode, pre, addr, rfl, henc, hbad, hreach⟩
  refine ⟨_, hload.trans hcode, ?_, ?_⟩
  · intro hreadable link m hm
    rcases hreach link m hm with ⟨ho, m1, hrun1, hkeeps1, haddr⟩
    rcases execute_loadUnit (m := m1) (r := .cx) (henc hreadable) ho hw hopc with
      ⟨m2, hrun2, hkeeps2, hbits⟩
    refine ⟨m2, (execute_append hrun1).trans hrun2, hkeeps1.trans (hkeeps2.mono (by simp [Reg.number])), ?_⟩
    intro i hi
    rw [← haddr, ← hkeeps1.mem]
    exact hbits i hi
  · intro hnot link m
    rcases hbad hnot with ⟨base, disp, rfl, hsp, hunenc, rfl⟩
    have hnone : meaning link ⟨opc, .memReg ⟨.based base disp, v.type.scalarSize⟩ ⟨.cx, w⟩⟩ = none := by
      apply meaning_load_unencodable _ hw _ hsp hunenc
      · tauto
      · intro h4
        rcases hopc with ⟨h, -⟩ | ⟨-, h⟩
        · exact h
        · omega
    simp [execute, hnone]

end Addresses

end Kcs.Jit
