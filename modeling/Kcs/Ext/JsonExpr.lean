import Kcs.Ext.JsonParser
import Kcs.Lib.Precedence

/-!
# Value expressions of JSON

The expressions of numbers and texts with the arithmetic and bitwise operators of `json.y`: how
the grammar derives them, how C groups their tokens, and their values.

Main results:

- Theorem {lit}`json_grammar_groups`: the grammar derives what C groups so, and nothing else, and
  reads no tokens in two ways.
-/

namespace Kcs.Ext

open Precedence

/-! ## Syntax -/

/-- The binary operators. -/
inductive JsonOperator
  | mul | div | mod | add | sub | bitAnd | bitXor | bitOr | land | lor
  deriving DecidableEq

/-- The signs. -/
inductive JsonSign
  | plus | minus
  deriving DecidableEq

/-- The tokens with a number or a text. -/
inductive JsonLiteral
  | int (s : List CChar) (base : Nat)
  | text (s : List CChar)

/-- Value expressions. -/
abbrev JsonExpr := Expr JsonLiteral JsonSign JsonOperator

namespace JsonOperator

/-- The token of an operator. -/
def token : JsonOperator → JsonToken
  | mul => .mul
  | div => .div
  | mod => .mod
  | add => .add
  | sub => .sub
  | bitAnd => .and
  | bitXor => .xor
  | bitOr => .or
  | land => .land
  | lor => .lor

/-- The rule whose action an operator runs. -/
def rule : JsonOperator → JsonRule
  | mul => .mul
  | div => .div
  | mod => .mod
  | add => .add
  | sub => .sub
  | bitAnd => .bitAnd
  | bitXor => .bitXor
  | bitOr => .bitOr
  | land => .land
  | lor => .lor

/-- The precedence of an operator in C, by the order of the operators that JSON has. -/
def precedence : JsonOperator → Nat
  | mul | div | mod => 7
  | add | sub => 6
  | bitAnd => 5
  | bitXor => 4
  | bitOr => 3
  | land => 2
  | lor => 1

end JsonOperator

/-- The token of a sign. -/
def JsonSign.token : JsonSign → JsonToken
  | plus => .add
  | minus => .sub

/-- The rule whose action a sign runs. -/
def JsonSign.rule : JsonSign → JsonRule
  | plus => .plus
  | minus => .neg

/-- What the lexer returns for a literal. -/
def JsonLiteral.token : JsonLiteral → JsonToken × JsonLexeme
  | int s base => (.int, .int s base)
  | text s => (.str, .text s)

/-- The tokens of expressions, with the precedence that their operators have in C. -/
def jsonAlphabet : Alphabet JsonLiteral JsonSign JsonOperator (JsonToken × JsonLexeme) where
  atom := JsonLiteral.token
  sign u := (u.token, .none)
  op o := (o.token, .none)
  lparen := (.lb, .none)
  rparen := (.rb, .none)
  precedence := JsonOperator.precedence
  top := 8
  precedence_lt o := by cases o <;> decide
  atom_injective a b h := by cases a <;> cases b <;> cases h <;> rfl
  sign_injective u v h := by cases u <;> cases v <;> cases h <;> rfl
  op_injective o p h := by cases o <;> cases p <;> cases h <;> rfl
  atom_ne_sign a u h := by cases a <;> cases u <;> cases h
  atom_ne_lparen a h := by cases a <;> cases h
  sign_ne_lparen u h := by cases u <;> cases h
  op_ne_rparen o h := by cases o <;> cases h

/-! ## The grammar -/

/-- The symbols of the grammar for values. -/
inductive JsonSymbol
  | value | logicalOr | logicalAnd | bitOr | bitXor | bitAnd | expression | term
  | prefixExpression | factor

/-- The rules with one symbol on their right side. -/
def JsonSymbol.unit : JsonSymbol → Option JsonSymbol
  | value => some logicalOr
  | logicalOr => some logicalAnd
  | logicalAnd => some bitOr
  | bitOr => some bitXor
  | bitXor => some bitAnd
  | bitAnd => some expression
  | expression => some term
  | term => some prefixExpression
  | prefixExpression => some factor
  | factor => none

/-- The symbol that the rule of an operator derives, which is also its left operand. -/
def JsonOperator.symbol : JsonOperator → JsonSymbol
  | mul | div | mod => .term
  | add | sub => .expression
  | bitAnd => .bitAnd
  | bitXor => .bitXor
  | bitOr => .bitOr
  | land => .logicalAnd
  | lor => .logicalOr

/-- The right operand in the rule of an operator. -/
def JsonOperator.operand : JsonOperator → JsonSymbol
  | mul | div | mod => .prefixExpression
  | add | sub => .term
  | bitAnd => .expression
  | bitXor => .bitAnd
  | bitOr => .bitXor
  | land => .bitOr
  | lor => .logicalAnd

namespace JsonExpr

/-- The derivations of the grammar. -/
inductive Derives : JsonSymbol → JsonExpr → Prop
  | literal (l : JsonLiteral) : Derives .factor (.atom l)
  | parens {e} (h : Derives .value e) : Derives .factor (.parens e)
  | sign {e} (u : JsonSign) (h : Derives .factor e) : Derives .prefixExpression (.sign u e)
  | unit {s s' e} (hs : s.unit = some s') (h : Derives s' e) : Derives s e
  | binary {l r} (op : JsonOperator) (hl : Derives op.symbol l) (hr : Derives op.operand r) :
    Derives op.symbol (.binary op l r)

/-- The position of a symbol in the chain of the rules with one symbol. -/
def position : JsonSymbol → Nat
  | .value => 0
  | .logicalOr => 1
  | .logicalAnd => 2
  | .bitOr => 3
  | .bitXor => 4
  | .bitAnd => 5
  | .expression => 6
  | .term => 7
  | .prefixExpression => 8
  | .factor => 9

/-- The precedence of the operators that a symbol derives at least. -/
def level : JsonSymbol → Nat
  | .value | .logicalOr => 1
  | .logicalAnd => 2
  | .bitOr => 3
  | .bitXor => 4
  | .bitAnd => 5
  | .expression => 6
  | .term => 7
  | .prefixExpression => 8
  | .factor => 9

theorem level_unit {s s' : JsonSymbol} (h : s.unit = some s') : level s ≤ level s' := by
  cases s <;> cases h <;> decide

theorem position_unit {s s' : JsonSymbol} (h : s.unit = some s') :
    position s' = position s + 1 := by
  cases s <;> cases h <;> rfl

theorem exists_unit {s t : JsonSymbol} (h : position s < position t) :
    ∃ s', s.unit = some s' := by
  cases s with
  | factor => cases t <;> exact absurd h (by decide)
  | _ => exact ⟨_, rfl⟩

theorem position_injective : Function.Injective position := by
  intro s t h
  cases s <;> cases t <;> first | rfl | cases h

theorem level_symbol (op : JsonOperator) : level op.symbol = op.precedence := by
  cases op <;> rfl

theorem level_operand (op : JsonOperator) : level op.operand = op.precedence + 1 := by
  cases op <;> rfl

theorem Derives.of_position {s t : JsonSymbol} {e : JsonExpr} (h : Derives t e)
    (hle : position s ≤ position t) : Derives s e := by
  induction hk : position t - position s generalizing s with
  | zero => rwa [position_injective (show position s = position t by omega)]
  | succ k ih =>
    rcases exists_unit (show position s < position t by omega) with ⟨s', hs⟩
    have hnext := position_unit hs
    exact .unit hs (ih (by omega) (by omega))

theorem position_le_symbol {s : JsonSymbol} {op : JsonOperator} (h : level s ≤ op.precedence) :
    position s ≤ position op.symbol := by
  cases s <;> cases op <;> first | decide | exact absurd h (by decide)

theorem position_le_sign {s : JsonSymbol} (h : level s ≤ 8) :
    position s ≤ position .prefixExpression := by
  cases s <;> first | decide | exact absurd h (by decide)

theorem position_le_factor (s : JsonSymbol) : position s ≤ position .factor := by
  cases s <;> decide

theorem level_value_le (e : JsonExpr) : level .value ≤ jsonAlphabet.binding e := by
  cases e with
  | atom l => exact show 1 ≤ 9 by decide
  | parens e => exact show 1 ≤ 9 by decide
  | sign u e => exact show 1 ≤ 8 by decide
  | binary op l r =>
    show 1 ≤ op.precedence
    cases op <;> decide

/-- The grammar derives an expression if and only if its parts are grouped as in C. -/
theorem derives_iff {s : JsonSymbol} {e : JsonExpr} :
    Derives s e ↔ jsonAlphabet.Grouped e ∧ level s ≤ jsonAlphabet.binding e := by
  constructor
  · intro h
    induction h with
    | literal l => exact ⟨trivial, le_refl _⟩
    | parens _ ih => exact ⟨ih.1, le_refl _⟩
    | sign u _ ih => exact ⟨⟨ih.1, ih.2⟩, le_refl _⟩
    | unit hs _ ih => exact ⟨ih.1, (level_unit hs).trans ih.2⟩
    | binary op _ _ ihl ihr =>
      refine ⟨⟨ihl.1, ihr.1, ?_, ?_⟩, (level_symbol op).le⟩
      · rw [level_symbol] at ihl
        exact ihl.2
      · rw [level_operand] at ihr
        exact ihr.2
  · rintro ⟨hgrouped, hlevel⟩
    induction e generalizing s with
    | atom l => exact (Derives.literal l).of_position (position_le_factor s)
    | parens e ih =>
      exact (Derives.parens (ih hgrouped (level_value_le e))).of_position (position_le_factor s)
    | sign u e ih =>
      exact (Derives.sign u (ih hgrouped.1 hgrouped.2)).of_position (position_le_sign hlevel)
    | binary op l r ihl ihr =>
      rcases hgrouped with ⟨hl, hr, hleft, hright⟩
      refine (Derives.binary op (ihl hl ?_) (ihr hr ?_)).of_position (position_le_symbol hlevel)
      · rw [level_symbol]
        exact hleft
      · rw [level_operand]
        exact hright

/-- The grammar derives the expressions whose parts are grouped as in C, and no two of them are
written with the same tokens. -/
theorem json_grammar_groups (e : JsonExpr) :
    (Derives .value e ↔ jsonAlphabet.Grouped e) ∧ ∀ e', Derives .value e → Derives .value e' →
      jsonAlphabet.tokens e = jsonAlphabet.tokens e' → e = e' := by
  refine ⟨derives_iff.trans (and_iff_left (level_value_le e)), fun e' h h' htokens => ?_⟩
  exact Alphabet.eq_of_tokens_eq (derives_iff.mp h).1 (derives_iff.mp h').1 htokens

end JsonExpr

/-! ## Values -/

/-- A number or a text. -/
inductive JsonData
  | int (i : BitVec 64)
  | text (s : List CChar)

/-- The value of an operator on 64 bits; `||` and `&&` take any operand for true. -/
def JsonOperator.apply : JsonOperator → BitVec 64 → BitVec 64 → BitVec 64
  | mul => (· * ·)
  | div => BitVec.sdiv
  | mod => BitVec.srem
  | add => (· + ·)
  | sub => (· - ·)
  | bitAnd => (· &&& ·)
  | bitXor => (· ^^^ ·)
  | bitOr => (· ||| ·)
  | land => fun _ b => b
  | lor => fun a _ => a

/-- The decimal text of a number. -/
def decimalText (i : BitVec 64) : List CChar := literal (toString i.toInt)

/-- The text that a number or a text is joined as. -/
def JsonData.joined : JsonData → List CChar
  | int i => decimalText i
  | text s => s

/-- The value of an operator: arithmetic for numbers; with a text, `+` joins, and another operator
than `&&` has its left operand as its value. -/
def JsonOperator.data (op : JsonOperator) : JsonData → JsonData → JsonData
  | .int a, .int b => .int (op.apply a b)
  | v, w => if op = add then .text (v.joined ++ w.joined) else if op = land then w else v

/-- The value of a sign, which does not change a text. -/
def JsonSign.data : JsonSign → JsonData → JsonData
  | minus, .int i => .int (-i)
  | _, v => v

/-- The value of a literal. -/
def JsonLiteral.data : JsonLiteral → JsonData
  | int s base => .int (strtoll s base)
  | text s => .text s

/-- An operator has a value: the processor does not trap. -/
def JsonOperator.Defined (op : JsonOperator) : JsonData → JsonData → Prop
  | .int a, .int b => op = div ∨ op = mod → b ≠ 0 ∧ ¬(a = BitVec.intMin 64 ∧ b = -1)
  | _, _ => True

namespace JsonExpr

/-- The value of an expression. -/
def value : JsonExpr → JsonData
  | .atom l => l.data
  | .parens e => value e
  | .sign u e => u.data (value e)
  | .binary op l r => op.data (value l) (value r)

/-- No division in an expression traps. -/
def Defined : JsonExpr → Prop
  | .atom _ => True
  | .parens e | .sign _ e => Defined e
  | .binary op l r => Defined l ∧ Defined r ∧ op.Defined (value l) (value r)

end JsonExpr

end Kcs.Ext
