import Kcs.Eval.Basic
import Kcs.Ir.Semantics
import Kcs.Jit.Encode

/-!
# Bit-fields in machine code

The code that `compile.c` emits to load a bit-field and to store to one: `emit_load`,
`load_field`, `load_int`, `load`, `bitwise_imm_reg` and the part of `store_op` for bit-fields.

Main results:

- Definition {lit}`loadField`: the code that loads a field.
- Definition {lit}`storeOp`: the code that stores a constant or a register to a field.
-/

namespace Kcs.Jit

/-! ## Operands -/

/-- What the code generator knows about symbols: the register slot and the offset on the stack
of each, and whether code is position independent. -/
structure Context where
  pic : Bool
  slot : SymbolId → Nat
  stackOffset : SymbolId → BitVec 32

/-- `temp_int_reg` -/
def tempIntReg : List Reg := [.bx, .r12, .r13, .r14, .r15]

/-- `displacement_from_offset`, which reports an offset above `INT_MAX`. -/
def displacementFromOffset (offset : BitVec 64) : Option (BitVec 32) :=
  if offset.toNat ≤ 2 ^ 31 - 1 then some (offset.setWidth 32) else none

/-- `constant` -/
def constant (n : BitVec 64) (w : Nat) : Immediate := { w := w, qword := n }

/-- `is_standard_register_width` -/
def isStandardRegisterWidth (w : Nat) : Bool := w = 1 || w = 2 || w = 4 || w = 8

/-- `got` -/
def got (sym : Symbol) : Address := .symbol sym.id true 0

section Generate

variable (ctx : Context)

/-- `is_global_offset` -/
def isGlobalOffset (sym : Symbol) : Bool := ctx.pic && sym.linkage = .external

/-- `is_register_allocated` -/
def isRegisterAllocated (v : Var) : Bool :=
  v.kind = .direct && v.symbol.any fun sym => isTemporary sym && ctx.slot sym.id ≠ 0

/-- `allocated_register` of a variable with a register. -/
def allocatedRegister (v : Var) : Option Reg :=
  v.symbol.bind fun sym =>
    if sym.type.isInteger || sym.type.isPointerType then tempIntReg[ctx.slot sym.id - 1]? else none

/-- `address_of` -/
def addressOf (v : Var) : Option Address :=
  v.symbol.bind fun sym =>
    (displacementFromOffset v.offset).bind fun disp =>
      match v.kind with
      | .deref => none
      | .immediate =>
        if sym.symtype = .stringValue ∨ sym.symtype = .table then some (.symbol sym.id false disp)
        else none
      | .direct | .address =>
        match sym.linkage with
        | .external => if ctx.pic then none else some (.symbol sym.id false disp)
        | .intern => some (.symbol sym.id false disp)
        | .none => some (.based .bp (disp + ctx.stackOffset sym.id))

/-- `location_of` -/
def locationOf (v : Var) (w : Nat) : Option MemoryOperand :=
  if isRegisterAllocated ctx v then none else (addressOf ctx v).map fun addr => ⟨addr, w⟩

/-! ## Loads -/

/-- The end of `emit_load` for an object at an offset from an address in a register. -/
def loadBased (opcode : Opcode) (source : Var) (base : Reg) (dest : Registr) :
    Option (List Instruction) :=
  (displacementFromOffset source.offset).map fun disp =>
    [⟨opcode, .memReg ⟨.based base disp, source.type.scalarSize⟩ dest⟩]

/-- `emit_load` for an object: the cases `DIRECT` and `DEREF`. -/
def emitLoad (opcode : Opcode) (source : Var) (dest : Registr) : Option (List Instruction) :=
  let w := source.type.scalarSize
  if isStandardRegisterWidth w then
    source.symbol.bind fun sym =>
      match source.kind with
      | .direct =>
        if isRegisterAllocated ctx source then
          (allocatedRegister ctx source).map fun ax =>
            [⟨opcode, .regReg ⟨ax, if opcode = .mov then dest.w else w⟩ dest⟩]
        else if isGlobalOffset ctx sym then
          (loadBased opcode source dest.r dest).map
            (⟨.mov, .memReg ⟨got sym, 8⟩ ⟨dest.r, 8⟩⟩ :: ·)
        else (locationOf ctx source w).map fun loc => [⟨opcode, .memReg loc dest⟩]
      | .deref =>
        let ptr := varDirect sym
        if ptr.isString then
          (locationOf ctx { ptr with offset := source.offset } w).map fun loc =>
            [⟨opcode, .memReg loc dest⟩]
        else if ptr.type.isPointerType then
          if isRegisterAllocated ctx ptr then
            (allocatedRegister ctx ptr).bind fun ax => loadBased opcode source ax dest
          else if isGlobalOffset ctx sym then
            (loadBased opcode source dest.r dest).map fun code =>
              ⟨.mov, .memReg ⟨got sym, 8⟩ ⟨dest.r, 8⟩⟩ ::
                ⟨.mov, .memReg ⟨.based dest.r 0, w⟩ ⟨dest.r, 8⟩⟩ :: code
          else
            (locationOf ctx ptr 8).bind fun loc =>
              (loadBased opcode source .r11 dest).map
                (⟨.mov, .memReg loc ⟨.r11, 8⟩⟩ :: ·)
        else none
      | _ => none
  else none

/-- The shifts of `load_field`: the field to the top of the register and down to its bottom. -/
def fieldShifts (v : Var) (ax : Registr) : List Instruction :=
  let bits : Int := ax.w * 8 - (v.fieldOffset + v.fieldWidth : Nat)
  let up : List Instruction :=
    if bits > 0 then [⟨.shl, .immReg (constant (BitVec.ofInt 64 bits) 1) ax⟩] else []
  let bits := v.fieldOffset + bits
  let down : List Instruction :=
    if bits > 0 then
      [⟨if v.type.isSigned then .sar else .shr, .immReg (constant (BitVec.ofInt 64 bits) 1) ax⟩]
    else []
  up ++ down

/-- `load_field` -/
def loadField (v : Var) (r : Reg) (w : Nat) : Option (List Instruction) :=
  if v.isField ∧ v.fieldWidth < 64 ∧ v.fieldOffset + v.fieldWidth ≤ 64 then
    let ax : Registr := ⟨r, if v.type.scalarSize ≤ 4 then 4 else 8⟩
    (emitLoad ctx .mov v ax).map fun code =>
      code ++ fieldShifts v ax ++
        if v.type.isSigned && ax.w < w then [⟨.movsx, .regReg ⟨r, 4⟩ ⟨r, 8⟩⟩] else []
  else none

/-- `load_int` of an object. -/
def loadInt (v : Var) (r : Reg) (w : Nat) : Option (List Instruction) :=
  if (w = 4 ∨ w = 8) ∧ v.type.isReal = false then
    if v.isField then loadField ctx v r w
    else if v.type.scalarSize < w then
      if v.type.isUnsignedType then
        if v.type.scalarSize < 4 then emitLoad ctx .movzx v ⟨r, w⟩
        else if v.type.scalarSize = 4 ∧ w = 8 then emitLoad ctx .mov v ⟨r, 4⟩
        else emitLoad ctx .mov v ⟨r, w⟩
      else if v.type.isSigned then emitLoad ctx .movsx v ⟨r, w⟩
      else emitLoad ctx .mov v ⟨r, w⟩
    else emitLoad ctx .mov v ⟨r, w⟩
  else none

/-- `load` of a value that is not floating. -/
def load (v : Var) (r : Reg) : Option (List Instruction) :=
  loadInt ctx v r (if v.type.scalarSize < 4 then 4 else v.type.scalarSize)

/-! ## Stores -/

/-- `bitwise_imm_reg` -/
def bitwiseImmReg (opcode : Opcode) (imm : Immediate) (target : Registr) :
    Option (List Instruction) :=
  if target.r ≠ .r11 then
    if imm.w = 8 then
      if in32BitRange imm.qword then some [⟨opcode, .immReg { imm with w := 4 } target⟩]
      else some [⟨.movaps, .immReg imm ⟨.r11, 8⟩⟩, ⟨opcode, .regReg ⟨.r11, 8⟩ target⟩]
    else some [⟨opcode, .immReg imm target⟩]
  else none

/-- The end of `store_op` for a register and a target that is not floating. -/
def storeRegister (r : Registr) (target : Var) : Option (List Instruction) :=
  let w := target.type.scalarSize
  target.symbol.bind fun sym =>
    match target.kind with
    | .direct =>
      if isRegisterAllocated ctx target then
        (allocatedRegister ctx target).map fun ax => [⟨.mov, .regReg r ⟨ax, w⟩⟩]
      else if isGlobalOffset ctx sym then
        (displacementFromOffset target.offset).map fun disp =>
          [⟨.mov, .memReg ⟨got sym, 8⟩ ⟨.r11, 8⟩⟩, ⟨.mov, .regMem r ⟨.based .r11 disp, w⟩⟩]
      else (locationOf ctx target w).map fun loc => [⟨.mov, .regMem r loc⟩]
    | .deref =>
      if sym.type.isPointerType then
        (loadInt ctx (varDirect sym) .r11 8).bind fun code =>
          (displacementFromOffset target.offset).map fun disp =>
            code ++ [⟨.mov, .regMem r ⟨.based .r11 disp, w⟩⟩]
      else none
    | _ => none

/-- The operand that `store_op` stores: `OPT_IMM` or `OPT_REG`. -/
inductive StoreOperand where
  | imm (n : BitVec 64)
  | reg (r : Reg)
deriving DecidableEq, Repr

/-- The bits of a field in its storage unit. -/
def fieldMask (v : Var) : BitVec 64 := ((1#64 <<< v.fieldWidth) - 1#64) <<< v.fieldOffset

/-- The part of `store_op` that puts the bits of a field in `rcx` or the register of the
operand. -/
def mergeField (op : StoreOperand) (v : Var) : Option (List Instruction × Registr) :=
  let w := v.type.scalarSize
  let mask := fieldMask v
  (bitwiseImmReg .and (constant (~~~mask) w) ⟨.cx, w⟩).bind fun clear =>
    match op with
    | .imm n =>
      let mask := (n <<< v.fieldOffset) &&& mask
      (if mask ≠ 0 then bitwiseImmReg .or (constant mask w) ⟨.cx, w⟩ else some []).map fun set =>
        (clear ++ set, ⟨.cx, w⟩)
    | .reg r =>
      let shift : List Instruction :=
        if v.fieldOffset ≠ 0 then
          [⟨.shl, .immReg (constant (BitVec.ofNat 64 v.fieldOffset) w) ⟨r, w⟩⟩]
        else []
      (bitwiseImmReg .and (constant mask w) ⟨r, w⟩).map fun set =>
        (clear ++ shift ++ set ++ [⟨.or, .regReg ⟨.cx, w⟩ ⟨r, w⟩⟩], ⟨r, w⟩)

/-- `store_op` for a bit-field. -/
def storeOp (op : StoreOperand) (target : Var) : Option (List Instruction) :=
  if target.isField ∧ target.fieldWidth < 64 then
    (load ctx { target with fieldWidth := 0, fieldOffset := 0 } .cx).bind fun unit =>
      (mergeField op target).bind fun (code, r) =>
        (storeRegister ctx r target).map fun store => unit ++ code ++ store
  else none

end Generate

end Kcs.Jit
