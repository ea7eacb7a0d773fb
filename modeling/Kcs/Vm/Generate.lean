import Kcs.Eval.Basic
import Kcs.Lib.CInteger
import Kcs.Vm.Code

/-!
# Code generation for the virtual machine

The translation of the intermediate representation to code of the virtual
machine, after `vminstr.c`.  Code is appended to one of two programs.  Loads look
at the last instruction: a load of what has just been stored takes the store
back, and leaves the value on the stack.

Main results:

- Definition {lit}`vmGenExpr`: code of an expression.
- Definition {lit}`vmGenStatements`: code of the statements of a block.
-/

namespace Kcs.Vm

/-! ## State of the generator -/

/-- What the generator reads of types and symbols. -/
structure GenEnv where
  types : TypeTable
  /-- `sym_name` -/
  symName : Symbol → String
  globalOffset : SymbolId → Int
  stackOffset : SymbolId → Int
  depth : SymbolId → Nat
  /-- The characters of a string constant. -/
  string : SymbolId → List (BitVec 8)
  /-- The symbol of a number. -/
  symbol : SymbolId → Symbol

/-- The static variables of `vminstr.c`.  `globalImage` is the used part of the
memory of global data. -/
structure GenState where
  isGlobalMode : Bool := false
  protectRemoveTempvar : Bool := false
  prog : List VmCode := []
  glbl : List VmCode := []
  labels : List VmLabel := []
  globalImage : List (BitVec 8) := []
  args : List Expression := []
  argsSize : Int := 0
deriving DecidableEq, Repr

/-- The program to which code is appended. -/
def GenState.code (g : GenState) : List VmCode := if g.isGlobalMode then g.glbl else g.prog

/-- Replace the program to which code is appended. -/
def GenState.setCode (g : GenState) (code : List VmCode) : GenState :=
  if g.isGlobalMode then { g with glbl := code } else { g with prog := code }

/-- The last instruction, `array_back`.  Every program starts with a label. -/
def GenState.last (g : GenState) : Option VmCode := g.code.getLast?

/-- `emit_vm_code` -/
def emitVmCode (c : VmCode) (g : GenState) : GenState := g.setCode (g.code ++ [c])

/-- Conversion to `int`. -/
def toInt32 (n : Int) : Int := CInteger.int.format.wrap n

/-- `is_temporary_var` -/
def isTemporaryVar (v : Var) : Bool := v.symbol.any fun sym => sym.name.toList.head? = some '.'

section Generate

variable (env : GenEnv)

/-- `size_of`, as an `int`. -/
def intSizeOf (type : CType) : Option Int := (sizeOf env.types type).map fun n => toInt32 n

/-- The test for a global variable. -/
def isGlobalVar (sym : Symbol) : Bool := 0 ≤ env.globalOffset sym.id

/-- The offset of a symbol in its frame. -/
def baseOf (sym : Symbol) : Int :=
  if isGlobalVar env sym then env.globalOffset sym.id else env.stackOffset sym.id

/-- The address operand that most instructions have. -/
def vmAddress (v : Var) (sym : Symbol) (size : Int) : VmAddress where
  name := env.symName sym
  isGlobal := isGlobalVar env sym
  index := toInt32 (baseOf env sym + v.offset.toNat)
  base := baseOf env sym
  offset := toInt32 v.offset.toNat
  size := size

/-- `get_vmop_var_type` -/
def getVmopVarType (v : Var) : VmOptype :=
  if v.type.isStructOrUnion then .varobj
  else if v.type.isReal then .varfl
  else if v.type.isUnsignedType then .varu
  else .vari

/-- `get_vm_optype` -/
def getVmOptype (t : CType) : VmOptype :=
  match t.typeOf with
  | .ldouble => .ldbl
  | .float => .flt
  | .double => .dbl
  | .bool | .char => if t.isUnsignedType then .uint8 else .int8
  | .short => if t.isUnsignedType then .uint16 else .int16
  | .int => if t.isUnsignedType then .uint32 else .int32
  | .long | .pointer => if t.isUnsignedType then .uint64 else .int64
  | _ => .int32

/-- The type with which most stores are made. -/
def storeOptype (v : Var) : VmOptype :=
  if v.type.isStructOrUnion then getVmopVarType v else getVmOptype v.type

/-- A member of `union vm_imm` of the given number of bits. -/
def vmImm (width n : Nat) : Value := { lo := BitVec.ofNat 64 (n % 2 ^ width) }

/-! ## Emitting instructions -/

/-- `emit_vm_call` -/
def emitVmCall (v : Var) (g : GenState) : Option GenState :=
  v.symbol.bind fun sym =>
    (intSizeOf env v.type).map fun size =>
      emitVmCode
        { opcode := .call
          type := if v.kind = .address then .funcname else .addr
          d := .addr (vmAddress env v sym size) } g

/-- `emit_vm_cleanup` -/
def emitVmCleanup (size : Int) (g : GenState) : GenState :=
  if 0 < size then emitVmCode { opcode := .clup, d := .size size } g else g

/-- `emit_vm_enter` -/
def emitVmEnter (stackSize : Int) (g : GenState) : GenState :=
  emitVmCode { opcode := .enter, d := .size stackSize } g

/-- The store that `emit_vm_ret` takes back. -/
def isLocalPop (c : VmCode) : Bool := c.opcode = .pop && c.type ≠ .none && !c.addr.isGlobal

/-- `emit_vm_ret`.  The pointer `last` stays on the instruction that is taken
back, so that the second test sees a store. -/
def emitVmRet (size : Int) (g : GenState) : GenState :=
  let last := g.prog.getLast?
  let g := if !g.isGlobalMode && last.any isLocalPop then { g with prog := g.prog.dropLast } else g
  if last.any fun c => c.opcode = .jmp || c.opcode = .ret then g
  else emitVmCode { opcode := .ret, d := .size size } g

/-- `emit_vm_jmp` -/
def emitVmJmp (opcode : VmOpcode) (label : String) (size : Int) (g : GenState) : GenState :=
  if g.last.any (·.opcode = .jmp) then g
  else emitVmCode { opcode := opcode, d := .addr { name := label, size := size } } g

/-- `emit_vm_label` -/
def emitVmLabelCode (name : String) (g : GenState) : GenState :=
  emitVmCode { opcode := .label, type := .label, d := .lindex g.labels.length }
    { g with labels := g.labels ++ [{ name := name }] }

/-- `emit_vm_push_imm` -/
def emitVmPushImm (type : VmOptype) (imm : Value) (g : GenState) : GenState :=
  emitVmCode { opcode := .push, type := type, d := .imm imm } g

/-- `emit_vm_push_string` -/
def emitVmPushString (string : List (BitVec 8)) (g : GenState) : GenState :=
  emitVmCode { opcode := .push, type := .charp, d := .str g.globalImage.length }
    { g with globalImage := g.globalImage ++ string ++ [0] }

/-- `emit_vm_op` -/
def emitVmOp (opcode : VmOpcode) (type : VmOptype) (g : GenState) : GenState :=
  emitVmCode { opcode := opcode, type := type } g

/-- Add a constant offset to the pointer on top. -/
def emitVmAddOffset (offset : BitVec 64) (g : GenState) : GenState :=
  if offset = 0 then g
  else emitVmOp .add .uint64 (emitVmPushImm .int32 (vmImm 32 offset.toNat) g)

/-- `emit_vm_load_address` -/
def emitVmLoadAddress (v : Var) (g : GenState) : Option GenState :=
  v.symbol.bind fun sym =>
    (intSizeOf env v.type).map fun size =>
      if env.depth sym.id = 0 && (getVmLabel g.labels sym.name).isSome then
        emitVmCode
          { opcode := .push
            type := .funcname
            d := .addr { name := env.symName sym, index := -1, size := size } } g
      else
        emitVmCode { opcode := .push, type := .addr, d := .addr (vmAddress env v sym size) } g

/-- The comparison of the address of an instruction with that of a variable. -/
def sameAddress (c : VmCode) (v : Var) (sym : Symbol) (size : Int) : Bool :=
  c.addr.isGlobal = isGlobalVar env sym && c.addr.size = size &&
    c.addr.base = baseOf env sym && BitVec.ofInt 64 c.addr.offset = v.offset

/-- The store that a load takes back. -/
def isReloaded (c : VmCode) (v : Var) (sym : Symbol) (size : Int) : Bool :=
  c.opcode = .pop && c.type ≠ .none &&
    (getVmopVarType v ≠ .varfl || c.type = .flt || c.type = .dbl) && sameAddress env c v sym size

/-- The mask of the low bits, `~(0xFFFFFFFF << n)`.  The shift is not defined for
32 bits and more. -/
def lowMask (n : Nat) : Option Nat := if n < 32 then some (2 ^ n - 1) else none

/-- The mask outside a field. -/
def fieldMask (v : Var) : Option Nat :=
  if v.fieldWidth + v.fieldOffset < 32 then
    some (2 ^ 32 - 2 ^ (v.fieldWidth + v.fieldOffset) + (2 ^ v.fieldOffset - 1))
  else none

/-- Shift the slot on top by the offset of a field. -/
def emitVmFieldShift (opcode : VmOpcode) (v : Var) (g : GenState) : GenState :=
  if 0 < v.fieldOffset then
    emitVmOp opcode .int32 (emitVmPushImm .int32 (vmImm 32 v.fieldOffset) g)
  else g

/-- Mask the slot on top. -/
def emitVmMask (mask : Nat) (g : GenState) : GenState :=
  emitVmOp .and .uint32 (emitVmPushImm .uint32 (vmImm 32 mask) g)

/-- Take back the last instruction, or keep its value on the stack.  A temporary
is taken back from the program of functions in both modes. -/
def takeBack (v : Var) (c : VmCode) (g : GenState) : GenState :=
  if isTemporaryVar v then { g with prog := g.prog.dropLast }
  else g.setCode (g.code.dropLast ++ [{ c with opcode := .store }])

/-- `emit_vm_load` -/
def emitVmLoad (v : Var) (g : GenState) : Option GenState :=
  v.symbol.bind fun sym =>
    (if v.isField then some 4 else intSizeOf env v.type).bind fun size =>
      match g.last.filter fun c =>
          !g.protectRemoveTempvar && !v.isField && isReloaded env c v sym size with
      | some c => some (takeBack v c g)
      | none =>
        let g := emitVmCode
          { opcode := .push, type := getVmopVarType v, d := .addr (vmAddress env v sym size) } g
        if v.isField then
          (lowMask v.fieldWidth).map fun mask => emitVmMask mask (emitVmFieldShift .shr v g)
        else some g

/-- `emit_vm_deref` -/
def emitVmDeref (v : Var) (g : GenState) : Option GenState :=
  v.symbol.bind fun sym =>
    (intSizeOf env v.type).map fun size =>
      emitVmCode
        { opcode := .deref, type := storeOptype v, d := .addr (vmAddress env v sym size) } g

/-- `emit_vm_cast` -/
def emitVmCast (src dst : CType) (g : GenState) : GenState :=
  emitVmCode { opcode := .cast, d := .cast src dst } g

/-- `vm_store_bitfield_zero` -/
def vmStoreBitfieldZero (v : Var) (g : GenState) : Option GenState :=
  v.symbol.bind fun sym =>
    (intSizeOf env v.type).bind fun size =>
      (fieldMask v).map fun mask =>
        let address := VmOperand.addr (vmAddress env v sym size)
        let g := emitVmMask mask (emitVmCode { opcode := .push, type := .varu, d := address } g)
        emitVmCode { opcode := .pop, type := storeOptype v, d := address } g

/-- The instructions of `emit_vm_store` that put the new bits of a field into the
old unit. -/
def emitVmFieldMerge (v : Var) (sym : Symbol) (g : GenState) : Option GenState :=
  (fieldMask v).map fun mask =>
    let g := emitVmFieldShift .shl v g
    let g := emitVmCode
      { opcode := .push, type := .varu, d := .addr (vmAddress env v sym 4) } g
    emitVmOp .or .uint32 (emitVmMask mask g)

/-- `emit_vm_store` -/
def emitVmStore (v : Var) (g : GenState) : Option GenState :=
  v.symbol.bind fun sym =>
    if v.isField then
      (emitVmFieldMerge env v sym g).map fun g =>
        emitVmCode { opcode := .pop, type := .uint32, d := .addr (vmAddress env v sym 4) } g
    else
      (intSizeOf env v.type).map fun size =>
        emitVmCode
          { opcode := .pop, type := storeOptype v, d := .addr (vmAddress env v sym size) } g

/-- `emit_vm_deref_store` -/
def emitVmDerefStore (v : Var) (g : GenState) : Option GenState :=
  v.symbol.bind fun sym =>
    (intSizeOf env v.type).map fun size =>
      emitVmCode
        { opcode := .depop
          type := storeOptype v
          d := .addr { vmAddress env v sym size with index := baseOf env sym } } g

/-- `emit_vm_alloca` -/
def emitVmAlloca (v : Var) (g : GenState) : Option GenState :=
  v.symbol.bind fun sym =>
    (intSizeOf env v.type).map fun size =>
      emitVmCode { opcode := .alloca, d := .addr (vmAddress env v sym size) } g

/-- `emit_vm_pop`.  A clean-up that is last also drops the value. -/
def emitVmPop (v : Var) (g : GenState) : Option GenState :=
  (intSizeOf env v.type).map fun size =>
    match g.prog.getLast? with
    | some { opcode := .clup, type := type, d := .size n } =>
      { g with
        prog := g.prog.dropLast ++ [{ opcode := .clpop, type := type, d := .size (n + size) }] }
    | _ => emitVmCode { opcode := .pop, d := .size size } g

/-- `emit_vm_fill_zero` -/
def emitVmFillZero (v : Var) (g : GenState) : Option GenState :=
  v.symbol.bind fun sym =>
    (intSizeOf env v.type).map fun size =>
      let a := vmAddress env v sym size
      match g.last.filter fun c => c.opcode = .fzero && c.addr.index + c.addr.size = a.index with
      | some c =>
        let grown := { c.addr with size := c.addr.size + size }
        g.setCode (g.code.dropLast ++ [{ c with d := .addr grown }])
      | none => emitVmCode { opcode := .fzero, d := .addr a } g

/-! ## Operands and expressions -/

/-- `is_constant_imm` -/
def isConstantImm (e : Expression) : Bool :=
  e.op = .cast && e.l.kind = .immediate && e.l.type.isInteger

/-- `is_constant_zero` -/
def isConstantZero (e : Expression) : Bool := isConstantImm e && e.l.imm.i = 0

/-- Push an integer constant of the given width. -/
def emitVmPushInt (v : Var) (width : Nat) (unsigned signed : VmOptype) (g : GenState) : GenState :=
  emitVmPushImm (if v.type.isUnsignedType then unsigned else signed) (vmImm width v.imm.u) g

/-- The branch of `vm_load_var` for constants.  A pointer that is no string falls
through to the characters. -/
def vmLoadImmediate (v : Var) (g : GenState) : Option GenState :=
  match v.type.typeOf with
  | .pointer =>
    match v.symbol with
    | some sym =>
      if sym.symtype = .stringValue then
        some (emitVmAddOffset v.offset (emitVmPushString (env.string sym.id) g))
      else none
    | none => some (emitVmPushInt v 8 .uint8 .int8 g)
  | .bool | .char => some (emitVmPushInt v 8 .uint8 .int8 g)
  | .short => some (emitVmPushInt v 16 .uint16 .int16 g)
  | .int => some (emitVmPushInt v 32 .uint32 .int32 g)
  | .long => some (emitVmPushInt v 64 .uint64 .int64 g)
  | .float => some (emitVmPushImm .flt (vmImm 32 v.imm.u) g)
  | .double => some (emitVmPushImm .dbl (vmImm 64 v.imm.u) g)
  | .ldouble => some (emitVmPushImm .ldbl v.imm g)
  | .array => v.symbol.map fun sym => emitVmPushString (env.string sym.id) g
  | _ => none

/-- Push the pointer of a dereferenced operand.  A temporary that holds it stays
stored. -/
def vmLoadPointer (sym : Symbol) (g : GenState) : Option GenState :=
  let ptr := varDirect sym
  if ptr.isString then some (emitVmPushString (env.string sym.id) g)
  else
    (emitVmLoad env ptr { g with protectRemoveTempvar := true }).map fun g =>
      { g with protectRemoveTempvar := false }

/-- `vm_load_var` -/
def vmLoadVar (v : Var) (g : GenState) : Option GenState :=
  match v.kind with
  | .immediate => vmLoadImmediate env v g
  | .direct => emitVmLoad env v g
  | .address => emitVmLoadAddress env v g
  | .deref =>
    v.symbol.bind fun sym =>
      (vmLoadPointer env sym g).bind fun g => emitVmDeref env v (emitVmAddOffset v.offset g)

/-- `vm_store_var` -/
def vmStoreVar (v : Var) (g : GenState) : Option GenState :=
  match v.kind with
  | .direct => emitVmStore env v g
  | .deref => emitVmDerefStore env v g
  | _ => none

/-- `is_swap_available` -/
def isSwapAvailable (v : Var) (g : GenState) : Bool :=
  !g.prog.isEmpty &&
    v.symbol.any fun sym =>
      (intSizeOf env v.type).any fun size =>
        g.last.any fun c => c.opcode = .pop && sameAddress env c v sym size

/-- Load two operands, the right one first when `is_swap_available` finds it in
the last store; the operator may depend on the order. -/
def vmGenSwapped (e : Expression) (op swapped : VmOpcode) (type : VmOptype) (g : GenState) :
    Option GenState :=
  if isSwapAvailable env e.r g then
    (vmLoadVar env e.r g).bind fun g => (vmLoadVar env e.l g).map (emitVmOp swapped type)
  else
    (vmLoadVar env e.l g).bind fun g => (vmLoadVar env e.r g).map (emitVmOp op type)

/-- Load two operands in order. -/
def vmGenOrdered (e : Expression) (op : VmOpcode) (type : VmOptype) (g : GenState) :
    Option GenState :=
  (vmLoadVar env e.l g).bind fun g => (vmLoadVar env e.r g).map (emitVmOp op type)

/-- `VM_INCDEC_COUNT_MAX` -/
def vmIncdecCountMax : Int := 3

/-- The constants that are added by `VM_INC` and subtracted by `VM_DEC`. -/
def isIncdecCount (v : Var) : Bool :=
  v.kind = .immediate && v.type.typeOf = .int && 0 < v.imm.i && v.imm.i ≤ vmIncdecCountMax

/-- Load an operand and step it. -/
def vmGenIncdec (e : Expression) (op : VmOpcode) (g : GenState) : Option GenState :=
  (vmLoadVar env e.l g).map fun g => (emitVmOp op .int32)^[e.r.imm.i.toNat] g

/-- The call of `vm_gen_expr`. -/
def vmGenCall (e : Expression) (g : GenState) : Option GenState :=
  e.l.symbol.bind fun sym =>
    (if env.symName sym = "setjmp" then some (emitVmCode { opcode := .setjmp } g)
    else if env.symName sym = "longjmp" then some (emitVmCode { opcode := .longjmp } g)
    else (emitVmCall env e.l g).map (emitVmCleanup g.argsSize)).map fun g =>
      { g with argsSize := 0 }

/-- Type of the operands of `==` and `!=`. -/
def equalityOptype (e : Expression) : VmOptype :=
  if e.l.type.isReal && e.r.type.isReal then getVmOptype e.l.type else getVmOptype e.type

/-- `vm_gen_expr` -/
def vmGenExpr (e : Expression) (g : GenState) : Option GenState :=
  match e.op with
  | .cast =>
    (typeEqual env.types e.type e.l.type).bind fun equal =>
      (vmLoadVar env e.l g).map fun g => if equal then g else emitVmCast e.l.type e.type g
  | .call => vmGenCall env e g
  | .vaArg => none
  | .not => (vmLoadVar env e.l g).map (emitVmOp .not (getVmOptype e.l.type))
  | .neg => (vmLoadVar env e.l g).map (emitVmOp .neg (getVmOptype e.l.type))
  | .add =>
    if isIncdecCount e.r then vmGenIncdec env e .inc g
    else vmGenSwapped env e .add .add (getVmOptype e.type) g
  | .sub =>
    if isIncdecCount e.r then vmGenIncdec env e .dec g
    else vmGenOrdered env e .sub (getVmOptype e.type) g
  | .mul => vmGenSwapped env e .mul .mul (getVmOptype e.type) g
  | .div => vmGenOrdered env e .div (getVmOptype e.type) g
  | .mod => vmGenOrdered env e .mod (getVmOptype e.type) g
  | .and => vmGenSwapped env e .and .and (getVmOptype e.type) g
  | .or => vmGenSwapped env e .or .or (getVmOptype e.type) g
  | .xor => vmGenSwapped env e .xor .xor (getVmOptype e.type) g
  | .shl => vmGenOrdered env e .shl (getVmOptype e.type) g
  | .shr => vmGenOrdered env e .shr (getVmOptype e.type) g
  | .eq => vmGenSwapped env e .eq .eq (equalityOptype e) g
  | .ne => vmGenSwapped env e .ne .ne (equalityOptype e) g
  | .ge => vmGenSwapped env e .ge .le (getVmOptype e.l.type) g
  | .gt => vmGenSwapped env e .gt .lt (getVmOptype e.l.type) g

/-! ## Statements -/

/-- `PUSH_ARGS` -/
def pushArgs (g : GenState) : Option GenState :=
  (g.args.reverse.foldlM
    (fun g e =>
      (vmGenExpr env e g).bind fun g =>
        (intSizeOf env e.type).map fun size => { g with argsSize := g.argsSize + pad8 size })
    g).map fun g => { g with args := [] }

/-- The elements of `vm_gen_string_array`. -/
def vmGenStringElements (v : Var) (type : CType) (size : Nat) (string : List (BitVec 8)) (n : Nat)
    (g : GenState) : Option GenState :=
  (List.range n).foldlM
    (fun g i =>
      let c := ((string[i]?).getD 0).toInt
      vmStoreVar env { v with type := type, offset := v.offset + BitVec.ofNat 64 (i * size) }
        (emitVmPushImm .int32 (vmImm 32 (BitVec.ofInt 32 c).toNat) g))
    g

/-- `vm_gen_string_array` -/
def vmGenStringArray (v : Var) (e : Expression) (g : GenState) : Option GenState :=
  e.l.symbol.bind fun sym =>
    (sizeOf env.types v.type).bind fun total =>
      (typeNext env.types v.type).bind fun type =>
        (sizeOf env.types type).bind fun size =>
          vmGenStringElements env v type size (env.string sym.id) (total / size) g

/-- The store of a value that an expression computes. -/
def vmGenStored (v : Var) (e : Expression) (g : GenState) : Option GenState :=
  (vmGenExpr env e { g with
    protectRemoveTempvar := isTemporaryVar v && v.kind = .deref }).bind fun g =>
      (vmStoreVar env v g).map fun g => { g with protectRemoveTempvar := false }

/-- The store of a constant to a field. -/
def vmGenFieldConstant (v : Var) (e : Expression) (g : GenState) : Option GenState :=
  (lowMask v.fieldWidth).bind fun mask =>
    if e.l.imm.u = 0 then vmStoreBitfieldZero env v g
    else
      (vmStoreVar env v (emitVmPushImm .uint32 (vmImm 32 (e.l.imm.u &&& mask)) { g with
        protectRemoveTempvar := isTemporaryVar v && v.kind = .deref })).map fun g =>
          { g with protectRemoveTempvar := false }

/-- The branch of `vm_gen_node` for assignments. -/
def vmGenAssign (v : Var) (e : Expression) (g : GenState) : Option GenState :=
  if !v.isField && !v.type.isVoid && isConstantZero e && v.kind ≠ .deref then emitVmFillZero env v g
  else if v.type.isArray && e.type.isArray && e.op = .cast then vmGenStringArray env v e g
  else if v.isField && isConstantImm e then vmGenFieldConstant env v e g
  else vmGenStored env v e g

/-- A statement.  Arguments are pushed before the next statement of another
kind. -/
def vmGenStatement (s : Statement) (g : GenState) : Option GenState :=
  match s.st with
  | .param => some { g with args := g.args ++ [s.expr] }
  | st =>
    (if g.args.isEmpty then some g else pushArgs env g).bind fun g =>
      match st with
      | .assign => vmGenAssign env s.t s.expr g
      | .expr => (vmGenExpr env s.expr g).bind (emitVmPop env s.expr.l)
      | .vlaAlloc =>
        (s.t.symbol.bind (·.vlaAddress)).bind fun id =>
          (vmGenExpr env s.expr g).bind (emitVmAlloca env (varDirect (env.symbol id)))
      | _ => some g

/-- The statements of a block, and the arguments that are left. -/
def vmGenStatements (code : List Statement) (g : GenState) : Option GenState :=
  (code.foldlM (fun g s => vmGenStatement env s g) g).bind fun g =>
    if g.args.isEmpty then some g else pushArgs env g

end Generate

end Kcs.Vm
