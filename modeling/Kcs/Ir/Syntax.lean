import Kcs.Ir.Value
import Kcs.Types.Table

/-!
# Intermediate representation

Operands, three-address expressions and statements, basic blocks and function
definitions, as `include/lacc/ir.h` and `include/lacc/symbol.h` declare them.
Blocks refer to each other by their position in the list of nodes of the
definition.
-/

namespace Kcs

/-- `enum symtype` -/
inductive SymType
  | definition
  | tentative
  | declaration
  | typedef
  | stringValue
  | constant
  | label
  | table
  | tableEntry
  | tag
deriving DecidableEq, Repr, Inhabited

/-- `enum linkage` -/
inductive Linkage
  | none
  | intern
  | external
deriving DecidableEq, Repr, Inhabited

/-- `struct symbol`.  The number tells symbols apart as the address does in the
source; the constant and the location of a variable length array are the
members of its union that the evaluation of expressions reads. -/
structure Symbol where
  id : SymbolId
  name : String
  type : CType
  symtype : SymType := .definition
  linkage : Linkage := .none
  constant : Value := {}
  vlaAddress : Option SymbolId := none
deriving DecidableEq, Repr, Inhabited

/-- `PREFIX_TEMPORARY` -/
def prefixTemporary : String := ".t"

/-- `is_temporary` -/
def isTemporary (sym : Symbol) : Bool := sym.name = prefixTemporary

/-- The kinds of `struct var`. -/
inductive VarKind
  /-- Storage of the symbol at an offset, `*(&symbol + offset)`. -/
  | direct
  /-- Address of the symbol at an offset, `&symbol + offset`. -/
  | address
  /-- Storage that the symbol points to, `*(symbol + offset)`. -/
  | deref
  /-- A constant: a number, or the address of a string. -/
  | immediate
deriving DecidableEq, Repr, Inhabited

/-- `struct var` -/
structure Var where
  kind : VarKind
  type : CType
  symbol : Option Symbol := none
  offset : BitVec 64 := 0
  fieldWidth : Nat := 0
  fieldOffset : Nat := 0
  lvalue : Bool := false
  imm : Value := {}
deriving DecidableEq, Repr, Inhabited

/-- `is_field` -/
def Var.isField (v : Var) : Bool := v.fieldWidth ≠ 0

/-- `is_constant` -/
def Var.isConstant (v : Var) : Bool :=
  v.kind = .immediate || (v.kind = .deref && v.symbol.isNone)

/-- `is_string` -/
def Var.isString (v : Var) : Bool :=
  v.kind = .immediate && v.symbol.any (·.symtype = .stringValue)

/-- `enum optype` -/
inductive OpType
  | cast
  | call
  | vaArg
  | not
  | neg
  | add
  | sub
  | mul
  | div
  | mod
  | and
  | or
  | xor
  | shl
  | shr
  | eq
  | ne
  | ge
  | gt
deriving DecidableEq, Repr, Inhabited

/-- `struct expression` -/
structure Expression where
  op : OpType
  type : CType
  l : Var
  r : Var := { kind := .direct, type := { type := .void } }
deriving DecidableEq, Repr, Inhabited

/-- `has_side_effects` -/
def Expression.hasSideEffects (e : Expression) : Bool := e.op = .call || e.op = .vaArg

/-- `enum sttype` -/
inductive StType
  | expr
  | param
  | vaStart
  | assign
  | vlaAlloc
deriving DecidableEq, Repr, Inhabited

/-- `struct statement`, without the liveness word of the optimizer. -/
structure Statement where
  st : StType
  t : Var
  expr : Expression
deriving DecidableEq, Repr, Inhabited

/-- A block, by its position among the nodes of the definition. -/
abbrev BlockId := Nat

/-- `struct jump_pair` -/
structure JumpPair where
  value : Int
  label : BlockId
deriving DecidableEq, Repr, Inhabited

/-- `struct block`.  With no jump target the block returns its expression, with
one it jumps, with two it branches to the second when the expression is not
zero. -/
structure Block where
  code : List Statement := []
  expr : Expression := { op := .cast, type := { type := .void }, l := { kind := .direct, type := { type := .void } } }
  jump0 : Option BlockId := none
  jump1 : Option BlockId := none
  hasJumpTable : Bool := false
  jumpTable : List JumpPair := []
  hasReturnValue : Bool := false
deriving DecidableEq, Repr, Inhabited

/-- The nodes of a definition. -/
abbrev Graph := List Block

end Kcs
