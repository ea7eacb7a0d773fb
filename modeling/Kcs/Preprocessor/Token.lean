import Mathlib

/-!
# Tokens

The tokens of `token.h` and the table `basic_token` of `tokenize.c`.  A byte of the
source text is the character with its code, so a text is a list of characters.

Main results:

- Lemma {lit}`basicToken_token`: every entry that is looked up under the name of
  a keyword or of a punctuator is the entry of that name.
-/

namespace Kcs.Preprocessor

/-! ## Outcomes -/

/-- How a computation of the preprocessor ends early: a message and `exit(1)`, a
failed assertion, a read that the language leaves undefined, or more steps than
were allowed for. -/
inductive Stop where
  | error (message : String)
  | assertion
  | undefined
  | fuel
deriving DecidableEq, Repr

/-- The result of a computation that may end early. -/
abbrev Outcome := Except Stop

/-! ## Token types -/

/-- `enum token_type` -/
inductive TokenType where
  | end_ | auto | break_ | case_ | char | const | continue_ | default | do_ | double
  | newline | else_ | enum | extern_ | float | for_ | goto | if_ | int | long
  | register | return_ | short | signed | sizeof | static | struct | switch | typedef_
  | union | unsigned | void | inline_
  | not | volatile | hash | dollar | modulo | and | while_
  | openParen | closeParen | star | plus | comma | minus | dot | slash
  | restrict | alignof | bool | noreturn | staticAssert
  | colon | semicolon | lt | assign | gt | question | ampersand
  | logicalOr | logicalAnd | leq | geq | eq | neq | arrow | increment | decrement
  | lshift | rshift | mulAssign | divAssign | modAssign | plusAssign | minusAssign
  | lshiftAssign | rshiftAssign | andAssign | xorAssign | orAssign | tokenPaste | dots
  | openBracket | backslash | closeBracket | xor | backtick | openCurly | or | closeCurly
  | neg
  | number | identifier | string | param | prepNumber | prepChar | prepString
deriving DecidableEq, Repr

/-- What a token carries: its text, or the index of a macro parameter. -/
inductive TokenData where
  | string (s : List Char)
  | val (i : Nat)
deriving DecidableEq, Repr

/-- `struct token`, with the members that preprocessing uses. -/
structure Token where
  token : TokenType
  leadingWhitespace : Nat := 0
  isExpandable : Bool := false
  disableExpand : Bool := false
  d : TokenData
deriving DecidableEq, Repr

/-- The text of a token. -/
def Token.str (t : Token) : List Char :=
  match t.d with
  | .string s => s
  | .val _ => []

/-- The index that a parameter token carries. -/
def Token.index (t : Token) : Nat :=
  match t.d with
  | .string _ => 0
  | .val i => i

/-! ## The table of tokens with a fixed text -/

/-- `TOK` -/
def TOK (t : TokenType) (s : List Char) : Token := { token := t, d := .string s }

/-- `IDN` -/
def IDN (t : TokenType) (s : List Char) : Token :=
  { token := t, isExpandable := true, d := .string s }

/-- An entry of the table that is left zero. -/
def zeroToken : Token := TOK .end_ []

/-- An entry that names a token type without a text. -/
def plainToken (t : TokenType) : Token := TOK t []

/-- `basic_token` -/
def basicTokens : List Token := [
  /- 0x00 -/
  TOK .end_ ['$'], IDN .auto ['a', 'u', 't', 'o'],
  IDN .break_ ['b', 'r', 'e', 'a', 'k'], IDN .case_ ['c', 'a', 's', 'e'],
  IDN .char ['c', 'h', 'a', 'r'], IDN .const ['c', 'o', 'n', 's', 't'],
  IDN .continue_ ['c', 'o', 'n', 't', 'i', 'n', 'u', 'e'],
  IDN .default ['d', 'e', 'f', 'a', 'u', 'l', 't'],
  /- 0x08 -/
  IDN .do_ ['d', 'o'], IDN .double ['d', 'o', 'u', 'b', 'l', 'e'],
  TOK .newline ['\n'], IDN .else_ ['e', 'l', 's', 'e'],
  IDN .enum ['e', 'n', 'u', 'm'], IDN .extern_ ['e', 'x', 't', 'e', 'r', 'n'],
  IDN .float ['f', 'l', 'o', 'a', 't'], IDN .for_ ['f', 'o', 'r'],
  /- 0x10 -/
  IDN .goto ['g', 'o', 't', 'o'], IDN .if_ ['i', 'f'],
  IDN .int ['i', 'n', 't'], IDN .long ['l', 'o', 'n', 'g'],
  IDN .register ['r', 'e', 'g', 'i', 's', 't', 'e', 'r'],
  IDN .return_ ['r', 'e', 't', 'u', 'r', 'n'],
  IDN .short ['s', 'h', 'o', 'r', 't'], IDN .signed ['s', 'i', 'g', 'n', 'e', 'd'],
  /- 0x18 -/
  IDN .sizeof ['s', 'i', 'z', 'e', 'o', 'f'], IDN .static ['s', 't', 'a', 't', 'i', 'c'],
  IDN .struct ['s', 't', 'r', 'u', 'c', 't'], IDN .switch ['s', 'w', 'i', 't', 'c', 'h'],
  IDN .typedef_ ['t', 'y', 'p', 'e', 'd', 'e', 'f'], IDN .union ['u', 'n', 'i', 'o', 'n'],
  IDN .unsigned ['u', 'n', 's', 'i', 'g', 'n', 'e', 'd'], IDN .void ['v', 'o', 'i', 'd'],
  /- 0x20 -/
  IDN .inline_ ['i', 'n', 'l', 'i', 'n', 'e'], TOK .not ['!'],
  IDN .volatile ['v', 'o', 'l', 'a', 't', 'i', 'l', 'e'], TOK .hash ['#'],
  TOK .dollar ['$'], TOK .modulo ['%'], TOK .and ['&'], IDN .while_ ['w', 'h', 'i', 'l', 'e'],
  /- 0x28 -/
  TOK .openParen ['('], TOK .closeParen [')'], TOK .star ['*'], TOK .plus ['+'],
  TOK .comma [','], TOK .minus ['-'], TOK .dot ['.'], TOK .slash ['/'],
  /- 0x30 -/
  IDN .restrict ['r', 'e', 's', 't', 'r', 'i', 'c', 't'],
  TOK .alignof ['_', 'A', 'l', 'i', 'g', 'n', 'o', 'f'], TOK .bool ['_', 'B', 'o', 'o', 'l'],
  TOK .noreturn ['_', 'N', 'o', 'r', 'e', 't', 'u', 'r', 'n'],
  zeroToken, zeroToken, zeroToken, zeroToken,
  /- 0x38 -/
  IDN .staticAssert [], zeroToken, TOK .colon [':'], TOK .semicolon [';'],
  TOK .lt ['<'], TOK .assign ['='], TOK .gt ['>'], TOK .question ['?'],
  /- 0x40 -/
  TOK .ampersand ['@'], TOK .logicalOr ['|', '|'], TOK .logicalAnd ['&', '&'],
  TOK .leq ['<', '='], TOK .geq ['>', '='], TOK .eq ['=', '='], TOK .neq ['!', '='],
  TOK .arrow ['-', '>'],
  /- 0x48 -/
  TOK .increment ['+', '+'], TOK .decrement ['-', '-'], TOK .lshift ['<', '<'],
  TOK .rshift ['>', '>'], TOK .mulAssign ['*', '='], TOK .divAssign ['/', '='],
  TOK .modAssign ['%', '='], TOK .plusAssign ['+', '='],
  /- 0x50 -/
  TOK .minusAssign ['-', '='], TOK .lshiftAssign ['<', '<', '='],
  TOK .rshiftAssign ['>', '>', '='], TOK .andAssign ['&', '='], TOK .xorAssign ['^', '='],
  TOK .orAssign ['|', '='], TOK .tokenPaste ['#', '#'], TOK .dots ['.', '.', '.'],
  /- 0x58 -/
  zeroToken, zeroToken, zeroToken, TOK .openBracket ['['], TOK .backslash ['\\'],
  TOK .closeBracket [']'], TOK .xor ['^'], zeroToken,
  /- 0x60 -/
  TOK .backtick [Char.ofNat 0x60], zeroToken, zeroToken, zeroToken, zeroToken, zeroToken, zeroToken,
  zeroToken,
  /- 0x68 -/
  zeroToken, zeroToken, zeroToken, zeroToken, zeroToken, zeroToken, zeroToken, zeroToken,
  /- 0x70 -/
  zeroToken, zeroToken, zeroToken, zeroToken, plainToken .number,
  { token := .identifier, leadingWhitespace := 1, d := .string [] },
  plainToken .string, plainToken .param,
  /- 0x78 -/
  plainToken .prepNumber, plainToken .prepChar, plainToken .prepString, TOK .openCurly ['{'],
  TOK .or ['|'], TOK .closeCurly ['}'], TOK .neg ['~'], zeroToken]

/-- The number of a token type in `enum token_type`. -/
def TokenType.code : TokenType → Nat
  | .end_ => 0 | .auto => 1 | .break_ => 2 | .case_ => 3 | .char => 4 | .const => 5
  | .continue_ => 6 | .default => 7 | .do_ => 8 | .double => 9 | .newline => 10
  | .else_ => 11 | .enum => 12 | .extern_ => 13 | .float => 14 | .for_ => 15 | .goto => 16
  | .if_ => 17 | .int => 18 | .long => 19 | .register => 20 | .return_ => 21 | .short => 22
  | .signed => 23 | .sizeof => 24 | .static => 25 | .struct => 26 | .switch => 27
  | .typedef_ => 28 | .union => 29 | .unsigned => 30 | .void => 31 | .inline_ => 32
  | .not => 33 | .volatile => 34 | .hash => 35 | .dollar => 36 | .modulo => 37 | .and => 38
  | .while_ => 39 | .openParen => 40 | .closeParen => 41 | .star => 42 | .plus => 43
  | .comma => 44 | .minus => 45 | .dot => 46 | .slash => 47 | .restrict => 48
  | .alignof => 49 | .bool => 50 | .noreturn => 51 | .staticAssert => 56 | .colon => 58
  | .semicolon => 59 | .lt => 60 | .assign => 61 | .gt => 62 | .question => 63
  | .ampersand => 64 | .logicalOr => 65 | .logicalAnd => 66 | .leq => 67 | .geq => 68
  | .eq => 69 | .neq => 70 | .arrow => 71 | .increment => 72 | .decrement => 73
  | .lshift => 74 | .rshift => 75 | .mulAssign => 76 | .divAssign => 77 | .modAssign => 78
  | .plusAssign => 79 | .minusAssign => 80 | .lshiftAssign => 81 | .rshiftAssign => 82
  | .andAssign => 83 | .xorAssign => 84 | .orAssign => 85 | .tokenPaste => 86 | .dots => 87
  | .openBracket => 91 | .backslash => 92 | .closeBracket => 93 | .xor => 94
  | .backtick => 96 | .number => 116 | .identifier => 117 | .string => 118 | .param => 119
  | .prepNumber => 120 | .prepChar => 121 | .prepString => 122 | .openCurly => 123
  | .or => 124 | .closeCurly => 125 | .neg => 126

/-- `basic_token[id]` for the name of a token type. -/
def basicToken (t : TokenType) : Token := basicTokens.getD t.code zeroToken

@[simp]
theorem basicToken_token (t : TokenType) : (basicToken t).token = t := by
  cases t <;> rfl

end Kcs.Preprocessor
