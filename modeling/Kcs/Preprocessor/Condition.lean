import Kcs.Lib.IntMax
import Kcs.Preprocessor.Constant
import Kcs.Preprocessor.Macro

/-!
# Conditions

The functions of `directive.c` that evaluate the condition of an `#if` or `#elif`
directive.  There is one function for each level of precedence; it reads an
expression at the start of a list of tokens and returns its value and the rest
of the list.  A read past the end of the list is undefined.
-/

namespace Kcs.Preprocessor

open IntMax

/-- The functions that read an expression. -/
abbrev Reader := List Token → Outcome (IntMax.Number × List Token)

/-! ## Operators -/

/-- How an operation that has no value ends the program. -/
def stopOf : Fault → Stop
  | .divisionByZero => .error "Division by zero."
  | .moduloByZero => .error "Modulo by zero."
  | .undefined | .comma => .undefined

/-- A value of the host, or the end of the program. -/
def host {α : Type} : Except Fault α → Outcome α
  | .ok a => .ok a
  | .error e => .error (stopOf e)

/-- `both_signed` -/
def bothSigned (l r : IntMax.Number) : Bool := l.signed && r.signed

/-- The operators of the levels, on operands that are converted to their common
type. -/
def applyBinary (op : BinaryOp) (l r : IntMax.Number) : Outcome IntMax.Number :=
  let signed := bothSigned l r
  host (op.compute signed (l.convert signed) (r.convert signed))

/-- The unary operators, whose result keeps the type of the operand. -/
def applyUnary (op : UnaryOp) (n : IntMax.Number) : Outcome IntMax.Number :=
  match op with
  | .plus => .ok n
  | .minus => host (exact n.signed (-n.val))
  | .compl => .ok { n with bits := ~~~n.bits }
  | .not => .ok { n with bits := (IntMax.Number.ofBool !n.truth).bits }

/-- The tokens of the unary operators. -/
def unaryOperator : TokenType → Option UnaryOp
  | .plus => some .plus
  | .minus => some .minus
  | .neg => some .compl
  | .not => some .not
  | _ => none

/-- The cases of `preprocess_multiplicative`. -/
def multiplicativeOperator : TokenType → Option BinaryOp
  | .star => some .mul
  | .slash => some .div
  | .modulo => some .mod
  | _ => none

/-- The cases of `preprocess_additive`. -/
def additiveOperator : TokenType → Option BinaryOp
  | .plus => some .add
  | .minus => some .sub
  | _ => none

/-- The cases of `preprocess_shift`. -/
def shiftOperator : TokenType → Option BinaryOp
  | .lshift => some .shl
  | .rshift => some .shr
  | _ => none

/-- The cases of `preprocess_relational`. -/
def relationalOperator : TokenType → Option BinaryOp
  | .lt => some .lt
  | .gt => some .gt
  | .leq => some .le
  | .geq => some .ge
  | _ => none

/-- The cases of `preprocess_equality`. -/
def equalityOperator : TokenType → Option BinaryOp
  | .eq => some .eq
  | .neq => some .ne
  | _ => none

/-- The level that reads one operator only. -/
def oneOperator (t : TokenType) (op : BinaryOp) (u : TokenType) : Option BinaryOp :=
  if u = t then some op else none

/-! ## Levels -/

/-- How a level goes on after an operator: it loops, it calls itself, or it reads one
more operand. -/
inductive Shape where
  | loop | recursion | once
deriving DecidableEq, Repr

/-- The loop of a level, with the value so far. -/
def readLoop (operators : TokenType → Option BinaryOp) (operand : Reader) :
    Nat → IntMax.Number → Reader
  | 0, _, _ => .error .fuel
  | _ + 1, _, [] => .error .undefined
  | n + 1, l, t :: list =>
    match operators t.token with
    | none => .ok (l, t :: list)
    | some op =>
      (operand list).bind fun r =>
        (applyBinary op l r.1).bind fun v => readLoop operators operand n v r.2

/-- What a level does after its first operand, with `next` for the right operand. -/
def readRight (operators : TokenType → Option BinaryOp) (next : Reader) (l : IntMax.Number) : Reader
  | [] => .error .undefined
  | t :: list =>
    match operators t.token with
    | none => .ok (l, t :: list)
    | some op =>
      (next list).bind fun r => (applyBinary op l r.1).bind fun v => .ok (v, r.2)

/-- A level that calls itself for the right operand. -/
def readRecursive (operators : TokenType → Option BinaryOp) (operand : Reader) : Nat → Reader
  | 0, _ => .error .fuel
  | n + 1, list =>
    (operand list).bind fun l =>
      readRight operators (readRecursive operators operand n) l.1 l.2

/-- A level of binary operators. -/
def readLevel (shape : Shape) (operators : TokenType → Option BinaryOp) (operand : Reader)
    (n : Nat) : Reader :=
  match shape with
  | .loop => fun list => (operand list).bind fun l => readLoop operators operand n l.1 l.2
  | .recursion => readRecursive operators operand n
  | .once => fun list => (operand list).bind fun l => readRight operators operand l.1 l.2

/-! ## The functions of the evaluator -/

section Evaluator

variable (ctx : MacroContext) (strtod : List Char → Nat × Bool)

/-- `expect`: the rest after the token. -/
def expect (token : TokenType) : List Token → Outcome (List Token)
  | [] => .error .undefined
  | t :: list =>
    if t.token ≠ token then .error (.error "Expected '%s', but got '%s'.") else .ok list

/-- A constant as a number of 64 bits. -/
def widen (type : CInteger) (n : Int) : IntMax.Number := .ofInt type.signed n

/-- `preprocess_primary` -/
def preprocessPrimary (expression : Reader) : Reader
  | [] => .error .undefined
  | t :: list =>
    match t.token with
    | .prepNumber =>
      (convertPreprocessingNumber strtod t.str).bind fun n =>
        match n with
        | .integer type value => .ok (widen type value, list)
        | .floating _ => .error (.error "Preprocessing number must be integer.")
    | .prepChar =>
      (convertPreprocessingChar t.str).bind fun value => .ok (widen .int value, list)
    | .openParen =>
      (expression list).bind fun r => (expect .closeParen r.2).bind fun list => .ok (r.1, list)
    | token =>
      if token ≠ .identifier ∧ !t.isExpandable then
        .error (.error "Invalid primary expression '%s' in directive.")
      -- `assert(!macro_definition(list->d.string))`
      else if (macroDefinition ctx t.str).isSome then .error .assertion
      else .ok (⟨true, 0⟩, list)

/-- `preprocess_unary` -/
def preprocessUnary (expression : Reader) : Reader
  | [] => .error .undefined
  | t :: list =>
    match unaryOperator t.token with
    | some op =>
      (preprocessUnary expression list).bind fun r =>
        (applyUnary op r.1).bind fun v => .ok (v, r.2)
    | none => preprocessPrimary ctx strtod expression (t :: list)

/-- `preprocess_multiplicative` -/
def preprocessMultiplicative (expression : Reader) (n : Nat) : Reader :=
  readLevel .loop multiplicativeOperator (preprocessUnary ctx strtod expression) n

/-- `preprocess_additive` -/
def preprocessAdditive (expression : Reader) (n : Nat) : Reader :=
  readLevel .loop additiveOperator (preprocessMultiplicative ctx strtod expression n) n

/-- `preprocess_shift` -/
def preprocessShift (expression : Reader) (n : Nat) : Reader :=
  readLevel .loop shiftOperator (preprocessAdditive ctx strtod expression n) n

/-- `preprocess_relational` -/
def preprocessRelational (expression : Reader) (n : Nat) : Reader :=
  readLevel .loop relationalOperator (preprocessShift ctx strtod expression n) n

/-- `preprocess_equality` -/
def preprocessEquality (expression : Reader) (n : Nat) : Reader :=
  readLevel .recursion equalityOperator (preprocessRelational ctx strtod expression n) n

/-- `preprocess_and` -/
def preprocessAnd (expression : Reader) (n : Nat) : Reader :=
  readLevel .recursion (oneOperator .and .and) (preprocessEquality ctx strtod expression n) n

/-- `preprocess_exclusive_or` -/
def preprocessExclusiveOr (expression : Reader) (n : Nat) : Reader :=
  readLevel .recursion (oneOperator .xor .xor) (preprocessAnd ctx strtod expression n) n

/-- `preprocess_inclusive_or`: the right operand is an exclusive one. -/
def preprocessInclusiveOr (expression : Reader) (n : Nat) : Reader :=
  readLevel .once (oneOperator .or .or) (preprocessExclusiveOr ctx strtod expression n) n

/-- `preprocess_logical_and` -/
def preprocessLogicalAnd (expression : Reader) (n : Nat) : Reader :=
  readLevel .recursion (oneOperator .logicalAnd .land)
    (preprocessInclusiveOr ctx strtod expression n) n

/-- `preprocess_logical_or` -/
def preprocessLogicalOr (expression : Reader) (n : Nat) : Reader :=
  readLevel .recursion (oneOperator .logicalOr .lor)
    (preprocessLogicalAnd ctx strtod expression n) n

/-- `preprocess_conditional`, with `operand` for the part before the question mark. -/
def readConditional (expression operand : Reader) : Nat → Reader
  | 0, _ => .error .fuel
  | n + 1, list =>
    (operand list).bind fun a =>
      match a.2 with
      | [] => .error .undefined
      | t :: rest =>
        if t.token = .question then
          (expression rest).bind fun b =>
            (expect .colon b.2).bind fun list =>
              (readConditional expression operand n list).bind fun c =>
                .ok (Expr.select a.1 b.1 c.1, c.2)
        else .ok (a.1, t :: rest)

/-- `preprocess_conditional` -/
def preprocessConditional (expression : Reader) (n : Nat) : Reader :=
  readConditional expression (preprocessLogicalOr ctx strtod expression n) n

/-- The loop of `preprocess_expression`. -/
def readCommas (conditional : Reader) : Nat → Reader
  | 0, _ => .error .fuel
  | n + 1, list =>
    (conditional list).bind fun r =>
      match r.2 with
      | [] => .error .undefined
      | t :: rest =>
        if t.token = .comma then readCommas conditional n rest else .ok (r.1, t :: rest)

/-- `preprocess_expression` -/
def preprocessExpression : Nat → Reader
  | 0 => fun _ => .error .fuel
  | n + 1 =>
    readCommas (preprocessConditional ctx strtod (preprocessExpression n) (n + 1)) (n + 1)

/-- `preprocess_constant_expression`.  The functions call each other on ever shorter
lists, so the length of the list bounds the calls. -/
def preprocessConstantExpression (list : List Token) : Outcome (IntMax.Number × List Token) :=
  preprocessConditional ctx strtod (preprocessExpression ctx strtod list.length)
    (list.length + 1) list

end Evaluator

/-- A number of one digit. -/
def digitToken (c : Char) : Token := { token := .prepNumber, d := .string [c] }

end Kcs.Preprocessor
