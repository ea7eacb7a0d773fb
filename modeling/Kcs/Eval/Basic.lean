import Kcs.Ir.Syntax
import Kcs.Types.Equal
import Kcs.Lib.IntFormat

/-!
# Evaluation of operands

The parser lowers expressions while it reads them.  `eval.c` builds the
operands, folds constants and appends three-address statements to the current
block.  This module holds the state of that process, the constructors of
operands, `eval`, the conversion of constants and `cast`.

The state is the type table, the symbols, the locals and the blocks of the
current definition.  A block argument is {lit}`none` where the source passes a
null pointer, as for the operand of `sizeof`: nothing is emitted then.

Main results:

- Lemma {lit}`eval_asExpr`: evaluating a plain operand emits nothing.
-/

namespace Kcs

/-- The ways in which the compiler stops. -/
inductive Failure
  /-- `error` followed by `exit`, with the format of the message. -/
  | error (message : String)
  /-- A failed assertion or a recursion that does not end. -/
  | aborted
  /-- An arithmetic exception of the host while folding. -/
  | trap
deriving DecidableEq, Repr

/-- What the evaluation of expressions reads and changes. -/
structure EvalState where
  types : TypeTable := []
  symbols : List Symbol := []
  locals : List SymbolId := []
  blocks : Graph := []
deriving DecidableEq, Repr

/-- Computations of the evaluator. -/
abbrev EvalM := StateT EvalState (Except Failure)

/-- A block to emit to, or none. -/
abbrev BlockRef := Option BlockId

/-- A failed assertion. -/
def abort {α : Type} : EvalM α := throw .aborted

/-- A diagnosed error. -/
def fail {α : Type} (message : String) : EvalM α := throw (.error message)

/-- Read something from the type table, which aborts when an assertion fails. -/
def readTable {α : Type} (f : TypeTable → Option α) : EvalM α := fun s =>
  match f s.types with
  | some a => .ok (a, s)
  | none => .error .aborted

/-- Create a type in the table. -/
def newType (f : TypeTable → Option (CType × TypeTable)) : EvalM CType := fun s =>
  match f s.types with
  | some (type, types) => .ok (type, { s with types := types })
  | none => .error .aborted

/-! ## Operands -/

section Operands

variable [HostFloat]

/-- `is_zero_value` -/
def isZeroValue (value : Value) (type : CType) : Bool :=
  match type.realKind with
  | some k => HostFloat.eq k (value.real k) (HostFloat.ofInt k 0)
  | none => value.u = 0

/-- `is_identity` -/
def isIdentity (e : Expression) : EvalM Bool :=
  if e.op = .cast then readTable (typeEqual · e.type e.l.type) else pure false

/-- `is_immediate` -/
def isImmediate (e : Expression) : EvalM Bool := do
  let identity ← isIdentity e
  pure (identity && e.l.kind = .immediate)

/-- `is_zero_value` behind the tests of its two callers. -/
def isImmediateWith (zero : Bool) (e : Expression) : EvalM Bool := do
  let immediate ← isImmediate e
  if !immediate then pure false
  else if e.type.isScalar then pure (isZeroValue e.l.imm e.type = zero)
  else abort

/-- `is_immediate_true` -/
def isImmediateTrue (e : Expression) : EvalM Bool := isImmediateWith false e

/-- `is_immediate_false` -/
def isImmediateFalse (e : Expression) : EvalM Bool := isImmediateWith true e

/-- `as_expr`: the type of the expression is that of the operand, so that the
assertion of the source holds. -/
def asExpr (val : Var) : Expression := { op := .cast, type := val.type, l := val }

/-- `var_void` -/
def varVoid : Var := { kind := .immediate, type := basicTypeVoid }

/-- `var_direct`, for a symbol that is not a label. -/
def varDirect (sym : Symbol) : Var :=
  match sym.symtype with
  | .constant =>
    { kind := .immediate, type := sym.type, symbol := some sym, imm := sym.constant }
  | .stringValue | .table => { kind := .immediate, type := sym.type, symbol := some sym }
  | _ => { kind := .direct, type := sym.type, symbol := some sym, lvalue := !isTemporary sym }

/-- `sym_create_temporary` -/
def symCreateTemporary (type : CType) : EvalM Symbol := fun s =>
  let sym : Symbol := { id := s.symbols.length, name := prefixTemporary, type := type }
  .ok (sym, { s with symbols := s.symbols ++ [sym] })

/-- `create_var` -/
def createVar (type : CType) : EvalM Var := do
  if type.isVoid then abort
  let tmp ← symCreateTemporary type
  modify fun s => { s with locals := s.locals ++ [tmp.id] }
  pure { varDirect tmp with lvalue := true }

/-- `var_numeric` -/
def varNumeric (type : CType) (val : Value) : Var :=
  { kind := .immediate, type := type, imm := val }

/-- `var_int` -/
def varInt (value : Int) : Var := varNumeric basicTypeInt (({} : Value).setI value)

/-- `imm_signed` -/
def immSigned (type : CType) (n : Int) : EvalM Var :=
  if type.isSigned then pure (varNumeric type (({} : Value).setI n)) else abort

/-- The mask of `imm_unsigned` for types of less than eight bytes. -/
def unsignedMask (size : Nat) : BitVec 64 := 0xFFFFFFFF#64 >>> ((4 - size) * 8)

/-- `imm_unsigned` -/
def immUnsigned (type : CType) (n : Int) : EvalM Var := do
  if !type.isUnsignedType then abort
  let size ← readTable (sizeOf · type)
  if size < 8 then
    if size = 4 || size = 2 || size = 1 then
      pure (varNumeric type { lo := BitVec.ofInt 64 n &&& unsignedMask size })
    else abort
  else pure (varNumeric type (({} : Value).setU n))

/-- `create_expr` for the operators with a result type of their own. -/
def createExpr (op : OpType) (l r : Var) : Expression :=
  match op with
  | .eq | .ne | .ge | .gt => { op := op, type := basicTypeInt, l := l, r := r }
  | _ => { op := op, type := l.type, l := l, r := r }

/-! ## Emitting statements -/

/-- `emit_ir` -/
def emitIr (block : BlockRef) (stmt : Statement) : EvalM Unit :=
  match block with
  | none => pure ()
  | some b => modify fun s =>
    { s with blocks := s.blocks.modify b fun blk => { blk with code := blk.code ++ [stmt] } }

/-- `eval` -/
def eval (block : BlockRef) (expr : Expression) : EvalM Var := do
  let identity ← isIdentity expr
  if identity then pure expr.l
  else if expr.type.isVoid then
    emitIr block { st := .expr, t := varVoid, expr := expr }
    pure varVoid
  else
    let res ← createVar expr.type
    emitIr block { st := .assign, t := res, expr := expr }
    pure { res with lvalue := false }

omit [HostFloat] in
@[simp]
theorem isIdentity_asExpr (v : Var) : isIdentity (asExpr v) = pure true := by
  funext s
  simp [isIdentity, asExpr, readTable, typeEqual_self]
  rfl

omit [HostFloat] in
@[simp]
theorem eval_asExpr (block : BlockRef) (v : Var) : eval block (asExpr v) = pure v := by
  unfold eval
  rw [isIdentity_asExpr, pure_bind]
  rfl

/-! ## Conversion of constants -/

/-- Integer that a constant of the given type holds, before it is converted to
an integer type: the operand of the cast in `cast_immediate`. -/
def immediateInt (v : Value) (t : CType) : Int :=
  if t.isSigned then v.i
  else if t.isUnsignedType || t.isPointerType then v.u
  else
    let k := t.realKind.getD .ldouble
    HostFloat.truncate k (v.real k)

/-- `is_float_below` -/
def isFloatBelow (v : Value) (t : CType) (n : Int) : Bool :=
  match t.realKind with
  | some k => HostFloat.gt k (HostFloat.ofInt k n) (v.real k)
  | none => false

/-- `is_float_above` -/
def isFloatAbove (v : Value) (t : CType) (n : Int) : Bool :=
  match t.realKind with
  | some k => HostFloat.gt k (v.real k) (HostFloat.ofInt k n)
  | none => false

/-- The branches of `convert` for an integer or pointer target: floating values
outside the range are clamped, the others are cast. -/
def convertInt (val : Value) (type : CType) (f : IntFormat) : Value :=
  let n :=
    if isFloatBelow val type f.minValue then f.minValue
    else if isFloatAbove val type f.maxValue then f.maxValue
    else f.wrap (immediateInt val type)
  if f.signed then val.setI n else val.setU n

/-- The branches of `convert` for a floating target. -/
def convertReal (val : Value) (type : CType) (k : RealKind) : Value :=
  match type.realKind with
  | some j => if j = k then val else val.setReal k (HostFloat.convert j k (val.real j))
  | none =>
    if type.isSigned then val.setReal k (HostFloat.ofInt k val.i)
    else if type.isUnsignedType then val.setReal k (HostFloat.ofInt k val.u)
    else val

/-- `convert` -/
def convert (val : Value) (type target : CType) : Option Value :=
  match target.typeOf with
  | .float => some (convertReal val type .float)
  | .double => some (convertReal val type .double)
  | .ldouble => some (convertReal val type .ldouble)
  | .bool => some (val.setU (if isZeroValue val type then 0 else 1))
  | .char => some (convertInt val type (.bits8 target.isSigned))
  | .short => some (convertInt val type (.bits16 target.isSigned))
  | .int => some (convertInt val type (.bits32 target.isSigned))
  | .long => some (convertInt val type (.bits64 target.isSigned))
  | .pointer => some (convertInt val type (.bits64 false))
  | _ => none

/-- `cast`: constants are converted, and pointers are reinterpreted.  The final
assertion of the source holds on each branch. -/
def cast (var : Var) (type : CType) : EvalM Expression :=
  if type.isVoid then pure (asExpr varVoid)
  else if !var.type.isScalar || !type.isScalar then
    fail "Invalid type parameters to cast expression, cannot convert from %t to %t."
  else if var.kind = .immediate then
    if var.isString then pure (asExpr { var with type := type })
    else if var.offset ≠ 0 then abort
    else do
      let val ← readTable fun _ => convert var.imm var.type type
      pure (asExpr (varNumeric type val))
  else do
    let size ← readTable (sizeOf · var.type)
    let size' ← readTable (sizeOf · type)
    if size = size' && (var.type.isPointerType || type.isPointerType) then
      pure (asExpr { var with type := type })
    else do
      let equal ← readTable (typeEqual · var.type type)
      if equal then pure (asExpr var)
      else pure { op := .cast, type := type, l := var }

end Operands

end Kcs
