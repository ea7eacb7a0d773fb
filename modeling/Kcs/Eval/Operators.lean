import Kcs.Eval.Basic
import Kcs.Types.Conversion

/-!
# Evaluation of operators

`eval_expr` and the functions behind it: each operator converts its operands,
folds them when both are immediate, and otherwise builds a three-address
expression.

In the source every operand conversion goes through `eval_expr` again, which
first applies `rvalue`.  The operators receive operands on which `rvalue` has
already been applied, and a second application changes nothing, so here they
call `cast` and each other directly.

Main results:

- Lemma {lit}`rvalue_of_scalar`: decay leaves scalar operands that are no
  fields unchanged.
-/

namespace Kcs

section Operators

variable [HostFloat]

/-! ## Host arithmetic -/

/-- What the host computes on two 64-bit words; {lit}`none` for an arithmetic
exception.  Overflow wraps and shift counts are taken modulo the word. -/
def hostWord (op : OpType) (signed : Bool) (x y : BitVec 64) : Option (BitVec 64) :=
  match op with
  | .add => some (x + y)
  | .sub => some (x - y)
  | .mul => some (x * y)
  | .div =>
    if y = 0 then none
    else if signed then
      if x = BitVec.intMin 64 ∧ y = -1 then none else some (x.sdiv y)
    else some (x / y)
  | .mod =>
    if y = 0 then none
    else if signed then
      if x = BitVec.intMin 64 ∧ y = -1 then none else some (x.srem y)
    else some (x % y)
  | .and => some (x &&& y)
  | .or => some (x ||| y)
  | .xor => some (x ^^^ y)
  | .shl => some (x <<< (y.toNat % 64))
  | .shr =>
    if signed then some (x.sshiftRight (y.toNat % 64)) else some (x >>> (y.toNat % 64))
  | _ => none

/-- What the host computes on two floating values. -/
def hostReal (op : OpType) (k : RealKind) (x y : BitVec k.width) : Option (BitVec k.width) :=
  match op with
  | .add => some (HostFloat.add k x y)
  | .sub => some (HostFloat.sub k x y)
  | .mul => some (HostFloat.mul k x y)
  | .div => some (HostFloat.div k x y)
  | _ => none

/-- `basic_type__float`, `basic_type__double` or `basic_type__long_double`. -/
def realType : RealKind → CType
  | .float => basicTypeFloat
  | .double => basicTypeDouble
  | .ldouble => basicTypeLongDouble

/-- Turn an arithmetic exception of the host into a failure. -/
def orTrap {α : Type} : Option α → EvalM α
  | some a => pure a
  | none => throw .trap

/-- `eval_integer_immediate` -/
def evalIntegerImmediate (op : OpType) (t : CType) (l r : Var) : EvalM Var :=
  if t.isSigned then do
    let x ← orTrap (hostWord op true l.imm.lo r.imm.lo)
    immSigned t x.toInt
  else do
    let x ← orTrap (hostWord op false l.imm.lo r.imm.lo)
    immUnsigned t x.toNat

/-- `eval_arithmetic_immediate` -/
def evalArithmeticImmediate (op : OpType) (t : CType) (l r : Var) : EvalM Var :=
  if t.isSigned || t.isUnsignedType || t.isPointerType then evalIntegerImmediate op t l r
  else
    let k := t.realKind.getD .ldouble
    do
      let x ← orTrap (hostReal op k (l.imm.real k) (r.imm.real k))
      pure (varNumeric (realType k) (({} : Value).setReal k x))

/-- A comparison operator of the source, on integers. -/
def compareInt (op : OpType) (a b : Int) : Bool :=
  match op with
  | .eq => a = b
  | .ne => a ≠ b
  | .ge => a ≥ b
  | _ => a > b

/-- A comparison operator of the source, on floating values. -/
def compareReal (op : OpType) (k : RealKind) (x y : BitVec k.width) : Bool :=
  match op with
  | .eq => HostFloat.eq k x y
  | .ne => !HostFloat.eq k x y
  | .ge => HostFloat.ge k x y
  | _ => HostFloat.gt k x y

/-- `eval_immediate_compare` -/
def evalImmediateCompare (op : OpType) (t : CType) (l r : Var) : Var :=
  let holds :=
    if t.isSigned then compareInt op l.imm.i r.imm.i
    else if t.isUnsignedType || t.isPointerType then compareInt op l.imm.u r.imm.u
    else
      let k := t.realKind.getD .ldouble
      compareReal op k (l.imm.real k) (r.imm.real k)
  varInt (if holds then 1 else 0)

/-! ## Arithmetic operators -/

/-- `eval_cast` -/
def evalCast (block : BlockRef) (var : Var) (type : CType) : EvalM Var := do
  let expr ← cast var type
  eval block expr

/-- Are both operands immediate? -/
def bothImmediate (l r : Var) : Bool := l.kind = .immediate && r.kind = .immediate

/-- Convert both operands to their common type. -/
def convertOperands (block : BlockRef) (l r : Var) : EvalM (CType × Var × Var) := do
  let type ← readTable (usualArithmeticConversion · l.type r.type)
  let l ← evalCast block l type
  let r ← evalCast block r type
  pure (type, l, r)

/-- The arithmetic operators on operands of arithmetic type. -/
def arithmetic (op : OpType) (block : BlockRef) (l r : Var) : EvalM Expression := do
  let (type, l, r) ← convertOperands block l r
  if bothImmediate l r then
    let v ← evalArithmeticImmediate op type l r
    cast v type
  else pure (createExpr op l r)

/-- `mul` -/
def mul (block : BlockRef) (l r : Var) : EvalM Expression := arithmetic .mul block l r

/-- `ediv` -/
def ediv (block : BlockRef) (l r : Var) : EvalM Expression := arithmetic .div block l r

/-- `mod` -/
def mod (block : BlockRef) (l r : Var) : EvalM Expression := do
  let type ← readTable (usualArithmeticConversion · l.type r.type)
  if !type.isInteger then fail "Operands of modulo operator must be of integer type."
  let l ← evalCast block l type
  let r ← evalCast block r type
  if bothImmediate l r then
    let v ← evalIntegerImmediate .mod type l r
    cast v type
  else pure (createExpr .mod l r)

/-- `or` and `xor` -/
def bitwise (op : OpType) (message : String) (block : BlockRef) (l r : Var) :
    EvalM Expression := do
  if !l.type.isInteger || !r.type.isInteger then fail message
  let (type, l, r) ← convertOperands block l r
  if bothImmediate l r then
    let v ← evalIntegerImmediate op type l r
    cast v type
  else pure (createExpr op l r)

/-- `or` -/
def or (block : BlockRef) (l r : Var) : EvalM Expression :=
  bitwise .or "Operands to bitwise or must have integer type." block l r

/-- `xor` -/
def xor (block : BlockRef) (l r : Var) : EvalM Expression :=
  bitwise .xor "Operands to bitwise xor must have integer type." block l r

/-- `and`: the folded value is not converted once more. -/
def and (block : BlockRef) (l r : Var) : EvalM Expression := do
  if !l.type.isInteger || !r.type.isInteger then
    fail "Operands to bitwise and must have integer type."
  let (type, l, r) ← convertOperands block l r
  if bothImmediate l r then
    let v ← evalIntegerImmediate .and type l r
    pure (asExpr v)
  else pure (createExpr .and l r)

/-- `shiftl` and `shiftr`: only the left operand is converted. -/
def shift (op : OpType) (block : BlockRef) (l r : Var) : EvalM Expression := do
  if !l.type.isInteger || !r.type.isInteger then fail "Shift operands must have integer type."
  let type ← readTable (promoteInteger · l.type)
  let l ← evalCast block l type
  if bothImmediate l r then
    let v ← evalIntegerImmediate op type l r
    cast v type
  else pure (createExpr op l r)

/-- `shiftl` -/
def shiftl (block : BlockRef) (l r : Var) : EvalM Expression := shift .shl block l r

/-- `shiftr` -/
def shiftr (block : BlockRef) (l r : Var) : EvalM Expression := shift .shr block l r

/-- The folded complement of `not`. -/
def notImmediate (type : CType) (var : Var) : EvalM Var :=
  if type.isSigned then immSigned type (~~~var.imm.lo).toInt
  else immUnsigned type (~~~var.imm.lo).toNat

/-- `not` -/
def not (block : BlockRef) (var : Var) : EvalM Expression := do
  if !var.type.isInteger then fail "Bitwise complement operand must have integer type."
  let type ← readTable (promoteInteger · var.type)
  let var ← evalCast block var type
  if var.kind = .immediate then
    let v ← notImmediate type var
    pure (asExpr v)
  else pure (createExpr .not var default)

/-! ## Pointer arithmetic -/

/-- `type_vla_length` and `var_direct` of the symbol that holds the length. -/
def vlaLength (type : CType) : EvalM (Option Var) := do
  let t ← readTable fun types => getTypetreeHandle types type.ref
  match t.vlen with
  | none => pure none
  | some id =>
    let s ← get
    match s.symbols[id]? with
    | some sym => pure (some (varDirect sym))
    | none => abort

/-- `eval_vla_size`, with a bound on the nesting of arrays. -/
def evalVlaSizeAux (block : BlockRef) : Nat → CType → EvalM Expression
  | 0, _ => abort
  | fuel + 1, type => do
    let vla ← readTable (isVla · type)
    if !vla then abort
    let len ← vlaLength type
    let base ← readTable (typeNext · type)
    match len with
    | some len =>
      let baseVla ← readTable (isVla · base)
      if baseVla then
        let expr ← evalVlaSizeAux block fuel base
        let size ← eval block expr
        mul block len size
      else
        let n ← readTable (sizeOf · base)
        if n > 1 then
          let size ← immUnsigned basicTypeUnsignedLong n
          mul block len size
        else if n = 1 then pure (asExpr len)
        else abort
    | none =>
      let n ← readTable (typeArrayLen · type)
      let size ← immUnsigned basicTypeUnsignedLong n
      let expr ← evalVlaSizeAux block fuel base
      let inner ← eval block expr
      mul block size inner

/-- `eval_vla_size` -/
def evalVlaSize (block : BlockRef) (type : CType) : EvalM Expression := do
  let s ← get
  evalVlaSizeAux block s.types.length type

/-- `add` and `sub` of a pointer to a variable length array: the offset is the
product of the array's size and the index. -/
def vlaOffset (op : OpType) (block : BlockRef) (type : CType) (l r : Var) :
    EvalM Expression := do
  let expr ← evalVlaSize block type
  let size ← eval block expr
  let expr ← mul block size r
  let offset ← eval block expr
  pure { createExpr op { l with type := basicTypeLong } offset with type := l.type }

/-- `add` of a pointer and an integer. -/
def addPointer (block : BlockRef) (l r : Var) : EvalM Expression := do
  let type ← readTable (typeDeref · l.type)
  let size ← readTable (sizeOf · type)
  let r ← evalCast block r basicTypeLong
  let vla ← readTable (isVla · type)
  if vla then vlaOffset .add block type l r
  else if size = 0 then fail "Pointer arithmetic on incomplete type %t."
  else if (l.isString || l.kind = .address) && r.kind = .immediate then
    pure (asExpr { l with offset := l.offset + r.imm.lo * BitVec.ofNat 64 size })
  else if l.isConstant && r.kind = .immediate then
    pure (asExpr { l with
      imm := { l.imm with lo := l.imm.lo + r.imm.lo * BitVec.ofNat 64 size } })
  else if r.kind ≠ .immediate || r.imm.lo ≠ 0 then
    let type := l.type
    let l ← evalCast block l basicTypeLong
    if size ≠ 1 then
      let n ← immSigned basicTypeLong size
      let expr ← mul block n r
      let r ← eval block expr
      pure { createExpr .add l r with type := type }
    else pure { createExpr .add l r with type := type }
  else pure (asExpr l)

/-- `add` once the pointer, if any, is on the left. -/
def addOrdered (block : BlockRef) (l r : Var) : EvalM Expression :=
  if l.type.isArithmetic && r.type.isArithmetic then arithmetic .add block l r
  else if l.type.isPointerType && r.type.isInteger then addPointer block l r
  else fail "Incompatible arguments to addition operator, was '%t' and '%t'."

/-- `add` -/
def add (block : BlockRef) (l r : Var) : EvalM Expression :=
  if l.type.isInteger && r.type.isPointerType then addOrdered block r l
  else addOrdered block l r

/-- `sub` of an integer from a pointer. -/
def subPointer (block : BlockRef) (l r : Var) : EvalM Expression := do
  let type ← readTable (typeDeref · l.type)
  let size ← readTable (sizeOf · type)
  let r ← evalCast block r basicTypeLong
  let vla ← readTable (isVla · type)
  if vla then vlaOffset .sub block type l r
  else if size = 0 then fail "Pointer arithmetic on incomplete type."
  else if (l.isString || l.kind = .address) && r.kind = .immediate then
    pure (asExpr { l with offset := l.offset - r.imm.lo * BitVec.ofNat 64 size })
  else if l.isConstant && r.kind = .immediate then
    pure (asExpr { l with
      imm := { l.imm with lo := l.imm.lo - r.imm.lo * BitVec.ofNat 64 size } })
  else do
    let zero ← isImmediateFalse (asExpr r)
    if zero then pure (asExpr l)
    else if size > 1 then
      let n ← immUnsigned basicTypeUnsignedLong size
      let expr ← mul block n r
      let r ← eval block expr
      pure (createExpr .sub l r)
    else pure (createExpr .sub l r)

/-- `sub` of two pointers. -/
def subPointers (block : BlockRef) (l r : Var) : EvalM Expression := do
  let t1 ← readTable (typeDeref · l.type)
  let t2 ← readTable (typeDeref · r.type)
  let size ← readTable (sizeOf · t2)
  let l ← evalCast block l basicTypeLong
  let r ← evalCast block r basicTypeLong
  let expr ← arithmetic .sub block l r
  let vla ← readTable (isVla · t1)
  if vla then
    let l ← eval block expr
    let expr ← evalVlaSize block t1
    let r ← eval block expr
    ediv block l r
  else if size > 1 then
    let l ← eval block expr
    let r ← immSigned basicTypeLong size
    ediv block l r
  else
    let size1 ← readTable (sizeOf · t1)
    if size = 0 || size1 ≠ size then fail "Referenced type is incomplete."
    else pure expr

/-- `sub` -/
def sub (block : BlockRef) (l r : Var) : EvalM Expression :=
  if l.type.isArithmetic && r.type.isArithmetic then arithmetic .sub block l r
  else if l.type.isPointerType && r.type.isInteger then subPointer block l r
  else if l.type.isPointerType && r.type.isPointerType then subPointers block l r
  else fail "Incompatible arguments to subtraction operator, was %t and %t."

/-- `neg` -/
def neg (block : BlockRef) (var : Var) : EvalM Expression :=
  if !var.type.isArithmetic then fail "Unary (-) operand must be of arithmetic type."
  else if var.type.isFloat || var.type.isDouble then
    if var.kind = .immediate then
      let k := var.type.realKind.getD .double
      pure (asExpr { var with imm := var.imm.setReal k (HostFloat.neg k (var.imm.real k)) })
    else pure (createExpr .neg var default)
  else sub block (varInt 0) var

/-! ## Comparisons -/

/-- The operands of `prepare_comparison_operands` once the more specific pointer
is on the left.  Warnings are left out. -/
def prepareOrdered (block : BlockRef) (l r : Var) : EvalM (Var × Var) := do
  if l.type.isArithmetic && r.type.isArithmetic then
    let (_, l, r) ← convertOperands block l r
    pure (l, r)
  else if l.type.isPointerType then
    let l ← evalCast block l basicTypeUnsignedLong
    let r ← evalCast block r basicTypeUnsignedLong
    pure (l, r)
  else fail "Illegal comparison between types '%t' and '%t'."

/-- Does `prepare_comparison_operands` exchange its operands? -/
def comparisonSwapped (l r : CType) : EvalM Bool :=
  if r.isPointerType then
    if !l.isPointerType then pure true
    else do
      let tl ← readTable (typeNext · l)
      let tr ← readTable (typeNext · r)
      pure (tl.isVoid && !tr.isVoid)
  else pure false

/-- `prepare_comparison_operands` -/
def prepareComparisonOperands (block : BlockRef) (l r : Var) : EvalM (Var × Var) := do
  let swapped ← comparisonSwapped l.type r.type
  if swapped then
    let (r, l) ← prepareOrdered block r l
    pure (l, r)
  else prepareOrdered block l r

/-- `cmp_eq` and `cmp_ne` -/
def equality (op : OpType) (block : BlockRef) (l r : Var) : EvalM Expression := do
  let (l, r) ← prepareComparisonOperands block l r
  if bothImmediate l r then pure (asExpr (evalImmediateCompare op l.type l r))
  else pure (createExpr op l r)

/-- `cmp_eq` -/
def cmpEq (block : BlockRef) (l r : Var) : EvalM Expression := equality .eq block l r

/-- `cmp_ne` -/
def cmpNe (block : BlockRef) (l r : Var) : EvalM Expression := equality .ne block l r

/-- `common_compare_type` -/
def commonCompareType (left right : CType) : EvalM CType :=
  if left.isArithmetic && right.isArithmetic then
    readTable (usualArithmeticConversion · left right)
  else if left.isPointerType && right.isPointerType then do
    let l ← readTable (typeNext · left)
    let r ← readTable (typeNext · right)
    let compatible ← readTable (isCompatibleUnqualified · l r)
    if compatible then pure basicTypeUnsignedLong
    else fail "Invalid operands in relational expression: %t and %t"
  else fail "Invalid operands in relational expression: %t and %t"

/-- `cmp_ge` and `cmp_gt` -/
def relational (op : OpType) (block : BlockRef) (l r : Var) : EvalM Expression := do
  let type ← commonCompareType l.type r.type
  let l ← evalCast block l type
  let r ← evalCast block r type
  if bothImmediate l r then pure (asExpr (evalImmediateCompare op type l r))
  else pure (createExpr op l r)

/-- `cmp_ge` -/
def cmpGe (block : BlockRef) (l r : Var) : EvalM Expression := relational .ge block l r

/-- `cmp_gt` -/
def cmpGt (block : BlockRef) (l r : Var) : EvalM Expression := relational .gt block l r

/-! ## Calls and addresses -/

/-- `call` -/
def call (var : Var) : EvalM Expression := do
  if !var.type.isPointerType then fail "Calling non-function type %t."
  let next ← readTable (typeNext · var.type)
  if !next.isFunction then fail "Calling non-function type %t."
  let type ← readTable (typeNext · next)
  pure { op := .call, type := type, l := var }

/-- `eval_va_arg` -/
def evalVaArg (var : Var) (type : CType) : EvalM Expression :=
  if var.type.isPointerType then pure { op := .vaArg, type := type, l := var } else abort

/-- `var_direct` of the symbol that holds the address of a variable length
array. -/
def vlaAddress (var : Var) : EvalM Var := do
  match var.symbol.bind (·.vlaAddress) with
  | none => abort
  | some id =>
    let s ← get
    match s.symbols[id]? with
    | some sym => pure (varDirect sym)
    | none => abort

/-- The pointer that a dereferenced symbol and an offset stand for, in
`eval_addr`.  The offset is passed through `var_int` as an `int`. -/
def pointerOfDeref (block : BlockRef) (var : Var) (sym : Symbol) : EvalM Var :=
  if var.offset ≠ 0 then do
    let charPointer ← newType (typeCreatePointer · basicTypeChar)
    let ptr ← evalCast block (varDirect sym) charPointer
    let expr ← add block ptr (varInt ((IntFormat.bits32 true).wrap var.offset.toNat))
    eval block expr
  else pure (varDirect sym)

/-- The address of a dereferenced pointer symbol in `eval_addr`. -/
def addrOfDeref (block : BlockRef) (var : Var) (sym : Symbol) : EvalM Var := do
  if !sym.type.isPointerType then abort
  let tmp ← pointerOfDeref block var sym
  let type ← newType (typeCreatePointer · var.type)
  pure { tmp with type := type }

/-- `eval_addr` -/
def evalAddr (block : BlockRef) (var : Var) : EvalM Var := do
  if var.isField then fail "Cannot take address of bit-field."
  let vla ← readTable (isVla · var.type)
  if vla && var.kind = .direct then vlaAddress var
  else
    match var.kind with
    | .immediate =>
      if !var.isString then fail "Cannot take address of immediate of type '%t'."
      else if var.type.isArray then
        let next ← readTable (typeNext · var.type)
        let type ← newType (typeCreatePointer · next)
        pure { var with type := type }
      else if var.type.isPointerType then pure var
      else abort
    | .direct =>
      if var.lvalue then
        let type ← newType (typeCreatePointer · var.type)
        pure { var with kind := .address, type := type }
      else fail "Cannot take address of r-value."
    | .address =>
      if var.lvalue then abort else fail "Cannot take address of r-value."
    | .deref =>
      match var.symbol with
      | none =>
        let type ← newType (typeCreatePointer · var.type)
        pure { var with
          kind := .immediate, type := type, offset := 0, lvalue := false,
          imm := { var.imm with lo := var.imm.lo + var.offset } }
      | some sym => addrOfDeref block var sym

/-- Decay of an array in `rvalue`. -/
def rvalueArray (block : BlockRef) (var : Var) : EvalM Var := do
  let vla ← readTable (isVla · var.type)
  let next ← readTable (typeNext · var.type)
  if vla then
    if var.kind = .direct then vlaAddress var
    else if var.kind = .deref && var.offset = 0 then
      let type ← newType (typeCreatePointer · next)
      pure { var with kind := .direct, type := type }
    else abort
  else if var.kind = .immediate then
    if var.isString then
      let type ← newType (typeCreatePointer · next)
      pure { var with type := type }
    else abort
  else evalAddr block { var with type := next }

/-- `rvalue` -/
def rvalue (block : BlockRef) (var : Var) : EvalM Var :=
  if var.type.isFunction then evalAddr block var
  else if var.type.isArray then rvalueArray block var
  else if var.isField && var.type.isUnsignedType then
    -- An unsigned field narrower than `int` is promoted to `int`.
    if var.fieldWidth < 32 then evalCast block var basicTypeInt else pure var
  else pure var

/-! ## The entry point -/

/-- `eval_expr` for the binary operators. -/
def evalBinary (block : BlockRef) (op : OpType) (l r : Var) : EvalM Expression := do
  let l ← rvalue block l
  let r ← rvalue block r
  match op with
  | .mod => mod block l r
  | .mul => mul block l r
  | .div => ediv block l r
  | .add => add block l r
  | .sub => sub block l r
  | .eq => cmpEq block l r
  | .ne => cmpNe block l r
  | .ge => cmpGe block l r
  | .gt => cmpGt block l r
  | .and => and block l r
  | .xor => xor block l r
  | .or => or block l r
  | .shl => shiftl block l r
  | .shr => shiftr block l r
  | _ => abort

/-- `eval_expr` for the operators with one operand. -/
def evalUnary (block : BlockRef) (op : OpType) (l : Var) : EvalM Expression := do
  let l ← rvalue block l
  match op with
  | .call => call l
  | .not => not block l
  | .neg => neg block l
  | _ => abort

/-- `eval_expr` for the operators with an operand and a type. -/
def evalTyped (block : BlockRef) (op : OpType) (l : Var) (type : CType) : EvalM Expression := do
  let l ← rvalue block l
  match op with
  | .cast => cast l type
  | .vaArg => evalVaArg l type
  | _ => abort

theorem rvalue_of_scalar (block : BlockRef) {var : Var} (hfield : var.isField = false)
    (hfunction : var.type.isFunction = false) (harray : var.type.isArray = false) :
    rvalue block var = pure var := by
  simp [rvalue, hfield, hfunction, harray]

end Operators

end Kcs
