import Kcs.Preprocessor.Token

/-!
# The tokenizer

The functions of `tokenize.c` that split a line into preprocessing tokens.  A
pointer into the line is the list of the characters from there to the
terminating NUL, so the empty list is the position of the NUL; every function
says how many characters it consumes.
-/

namespace Kcs.Preprocessor

/-- `enum cstd` -/
inductive Cstd where
  | c89 | c99 | c11
deriving DecidableEq, Repr

/-- `context.standard >= STD_C99` -/
def Cstd.atLeastC99 (std : Cstd) : Bool := std ≠ .c89

/-! ## Character classes -/

/-- `isspace` -/
def isSpace (c : Char) : Bool :=
  c = ' ' || (9 ≤ c.toNat && c.toNat ≤ 13)

/-- `isxdigit` -/
def isXdigit (c : Char) : Bool :=
  c.isDigit || ('a' ≤ c && c ≤ 'f') || ('A' ≤ c && c ≤ 'F')

/-- `isoctal` -/
def isOctal (c : Char) : Bool := '0' ≤ c && c < '8'

/-- `isident` -/
def isIdent (c : Char) : Bool := c.isAlphanum || c = '_'

/-- The first character of an identifier. -/
def isIdentStart (c : Char) : Bool := c.isAlpha || c = '_'

/-! ## Numbers -/

/-- The letters that a sign may follow in a number. -/
def isExponent (std : Cstd) (c : Char) : Bool :=
  c = 'e' || c = 'E' || (std.atLeastC99 && (c = 'p' || c = 'P'))

/-- A sign of an exponent. -/
def isSign (c : Char) : Bool := c = '+' || c = '-'

/-- Characters that the loop of `stringtonum` consumes. -/
def numberLength (std : Cstd) : List Char → Nat
  | [] => 0
  | [c] => if c.isDigit || c = '.' || c = '_' || c.isAlpha then 1 else 0
  | c :: d :: l =>
    if c.isDigit || c = '.' || c = '_' then 1 + numberLength std (d :: l)
    else if c.isAlpha then
      if isExponent std c && isSign d then 2 + numberLength std l
      else 1 + numberLength std (d :: l)
    else 0

/-- `stringtonum` -/
def stringtonum (std : Cstd) (l : List Char) : Outcome (Token × Nat) :=
  let dot := if l.head? = some '.' then 1 else 0
  if (l.drop dot).head?.any Char.isDigit then
    let n := dot + numberLength std (l.drop dot)
    .ok ({ token := .prepNumber, d := .string (l.take n) }, n)
  else .error .assertion

/-! ## Characters and strings -/

/-- Characters that `parse_escape_sequence` consumes after the backslash.  At the
end of the line it steps over the NUL. -/
def escapeLength : List Char → Nat
  | [] => 1
  | c :: l =>
    if c = 'x' then 1 + (l.takeWhile isXdigit).length
    else if isOctal c then 1 + ((l.take 2).takeWhile isOctal).length
    else 1

/-- `strtochar`, after the opening quote.  A comparison with a character past the
NUL is undefined. -/
def strtochar (l : List Char) : Outcome (Token × Nat) :=
  let close (n : Nat) : Outcome (Token × Nat) :=
    if l.length < n then .error .undefined
    else if (l.drop n).head? = some '\'' then
      .ok ({ token := .prepChar, d := .string (l.take n) }, n + 2)
    else .error (.error "Multi-character constants are not supported.")
  match l with
  | [] => close 1
  | c :: l =>
    if c = '\\' then close (1 + escapeLength l)
    else if c ≠ '\'' then close 1
    else .error (.error "Empty character constant.")

/-- The loop of `strtostr`: characters up to the closing quote.  Where the line
ends first, the loop steps over the NUL and reads on. -/
def stringLength : Nat → List Char → Outcome Nat
  | 0, _ => .error .fuel
  | _ + 1, [] => .error .undefined
  | fuel + 1, c :: l =>
    if c = '"' then .ok 0
    else if c = '\\' then
      if l.length < escapeLength l then .error .undefined
      else (1 + escapeLength l + ·) <$> stringLength fuel (l.drop (escapeLength l))
    else (1 + ·) <$> stringLength fuel l

/-- `strtostr`, after the opening quote. -/
def strtostr (l : List Char) : Outcome (Token × Nat) :=
  (fun n => ({ token := .prepString, d := .string (l.take n) }, n + 2)) <$>
    stringLength (l.length + 1) l

/-! ## Identifiers -/

/-- `E`: the identifier ends here. -/
def E (l : List Char) : Bool := !l.head?.any isIdent

/-- `M1` to `M8` -/
def M (s l : List Char) : Bool := s.isPrefixOf l

/-- `S1` to `S8` -/
def S (s l : List Char) : Bool := M s l && E (l.drop s.length)

/-- The keyword tests of `strtoident` for an identifier that starts with `c` and
goes on with `l`. -/
def keyword (std : Cstd) (c : Char) (l : List Char) : Option TokenType :=
  match c with
  | '_' =>
    if S ['B', 'o', 'o', 'l'] l then some .bool
    else if S ['A', 'l', 'i', 'g', 'n', 'o', 'f'] l then some .alignof
    else if S ['N', 'o', 'r', 'e', 't', 'u', 'r', 'n'] l then some .noreturn
    else if M ['S', 't', 'a', 't', 'i', 'c', '_', 'a', 's', 's', 'e', 'r', 't'] l then
      some .staticAssert
    else none
  | 'a' => if S ['u', 't', 'o'] l then some .auto else none
  | 'b' => if S ['r', 'e', 'a', 'k'] l then some .break_ else none
  | 'c' =>
    if S ['a', 's', 'e'] l then some .case_
    else if S ['h', 'a', 'r'] l then some .char
    else if M ['o', 'n'] l then
      if S ['s', 't'] (l.drop 2) then some .const
      else if S ['t', 'i', 'n', 'u', 'e'] (l.drop 2) then some .continue_
      else none
    else none
  | 'd' =>
    if S ['e', 'f', 'a', 'u', 'l', 't'] l then some .default
    else match l with
      | 'o' :: l =>
        if S ['u', 'b', 'l', 'e'] l then some .double else if E l then some .do_ else none
      | _ => none
  | 'e' =>
    if S ['l', 's', 'e'] l then some .else_
    else if S ['n', 'u', 'm'] l then some .enum
    else if S ['x', 't', 'e', 'r', 'n'] l then some .extern_
    else none
  | 'f' =>
    if S ['l', 'o', 'a', 't'] l then some .float
    else if S ['o', 'r'] l then some .for_
    else none
  | 'g' => if S ['o', 't', 'o'] l then some .goto else none
  | 'i' =>
    if S ['f'] l then some .if_
    else match l with
      | 'n' :: l =>
        if S ['t'] l then some .int
        else if std.atLeastC99 && S ['l', 'i', 'n', 'e'] l then some .inline_
        else none
      | _ => none
  | 'l' => if S ['o', 'n', 'g'] l then some .long else none
  | 'r' =>
    match l with
    | 'e' :: l =>
      if S ['g', 'i', 's', 't', 'e', 'r'] l then some .register
      else if S ['t', 'u', 'r', 'n'] l then some .return_
      else if std.atLeastC99 && S ['s', 't', 'r', 'i', 'c', 't'] l then some .restrict
      else none
    | _ => none
  | 's' =>
    if S ['h', 'o', 'r', 't'] l then some .short
    else if S ['w', 'i', 't', 'c', 'h'] l then some .switch
    else match l with
      | 'i' :: l =>
        if S ['g', 'n', 'e', 'd'] l then some .signed
        else if S ['z', 'e', 'o', 'f'] l then some .sizeof
        else none
      | 't' :: l =>
        if S ['a', 't', 'i', 'c'] l then some .static
        else if S ['r', 'u', 'c', 't'] l then some .struct
        else none
      | _ => none
  | 't' => if S ['y', 'p', 'e', 'd', 'e', 'f'] l then some .typedef_ else none
  | 'u' =>
    match l with
    | 'n' :: l =>
      if S ['i', 'o', 'n'] l then some .union
      else if S ['s', 'i', 'g', 'n', 'e', 'd'] l then some .unsigned
      else none
    | _ => none
  | 'v' =>
    match l with
    | 'o' :: l =>
      if S ['i', 'd'] l then some .void
      else if S ['l', 'a', 't', 'i', 'l', 'e'] l then some .volatile
      else none
    | _ => none
  | 'w' => if S ['h', 'i', 'l', 'e'] l then some .while_ else none
  | _ => none

/-- The text that `strtoident` gives the token of a static assertion. -/
def staticAssertText : List Char :=
  ['_', 'S', 't', 'a', 't', 'i', 'c', '_', 'a', 's', 's', 'e', 'r', 't']

/-- `strtoident`.  After the tests the scan resumes at the second character, or
later at characters that belong to the identifier too. -/
def strtoident (std : Cstd) (c : Char) (l : List Char) : Token × Nat :=
  match keyword std c l with
  | some .staticAssert =>
    ({ basicToken .staticAssert with d := .string staticAssertText }, staticAssertText.length)
  | some id => (basicToken id, (basicToken id).str.length)
  | none =>
    let word := l.takeWhile isIdent
    ({ token := .identifier, isExpandable := true, d := .string (c :: word) }, 1 + word.length)

/-! ## Operators -/

/-- The tests of `strtoop` for operators of more than one character. -/
def operator (c : Char) (l : List Char) : Option TokenType :=
  match c, l with
  | '*', '=' :: _ => some .mulAssign
  | '/', '=' :: _ => some .divAssign
  | '%', '=' :: _ => some .modAssign
  | '+', '+' :: _ => some .increment
  | '+', '=' :: _ => some .plusAssign
  | '-', '>' :: _ => some .arrow
  | '-', '-' :: _ => some .decrement
  | '-', '=' :: _ => some .minusAssign
  | '<', '=' :: _ => some .leq
  | '<', '<' :: '=' :: _ => some .lshiftAssign
  | '<', '<' :: _ => some .lshift
  | '>', '=' :: _ => some .geq
  | '>', '>' :: '=' :: _ => some .rshiftAssign
  | '>', '>' :: _ => some .rshift
  | '&', '=' :: _ => some .andAssign
  | '&', '&' :: _ => some .logicalAnd
  | '^', '=' :: _ => some .xorAssign
  | '|', '=' :: _ => some .orAssign
  | '|', '|' :: _ => some .logicalOr
  | '.', '.' :: '.' :: _ => some .dots
  | '=', '=' :: _ => some .eq
  | '!', '=' :: _ => some .neq
  | '#', '#' :: _ => some .tokenPaste
  | _, _ => none

/-- `strtoop`.  The table is indexed with a signed character: a byte from 0x80 on
is a negative index. -/
def strtoop (c : Char) (l : List Char) : Outcome (Token × Nat) :=
  match operator c l with
  | some id => .ok (basicToken id, (basicToken id).str.length)
  | none =>
    match basicTokens[c.toNat]? with
    | none => .error .undefined
    | some t => if t.token = .end_ then .error (.error "Unknown token '%c'") else .ok (t, 1)

/-! ## Tokens -/

/-- The part of `tokenize` after white space, at a character `c` that `l` follows. -/
def readToken (std : Cstd) (c : Char) (l : List Char) : Outcome (Token × Nat) :=
  if isIdentStart c then .ok (strtoident std c l)
  else if c.isDigit || (c = '.' && l.head?.any Char.isDigit) then stringtonum std (c :: l)
  else if c = '"' then strtostr l
  else if c = '\'' then strtochar l
  else strtoop c l

/-- `tokenize`: the token and the rest of the line.  The count of white space is
kept in 16 bits. -/
def tokenize (std : Cstd) (input : List Char) : Outcome (Token × List Char) :=
  let ws := (input.takeWhile isSpace).length
  match input.drop ws with
  | [] => .ok ({ basicToken .end_ with leadingWhitespace := ws % 2 ^ 16 }, [])
  | c :: l =>
    (fun r => ({ r.1 with leadingWhitespace := ws % 2 ^ 16 }, (c :: l).drop r.2)) <$>
      readToken std c l

/-- Repeated calls of `tokenize` until the end of the line. -/
def tokenizeLine (std : Cstd) : Nat → List Char → Outcome (List Token)
  | 0, _ => .error .fuel
  | fuel + 1, input =>
    (tokenize std input).bind fun r =>
      if r.1.token = .end_ then .ok [] else (r.1 :: ·) <$> tokenizeLine std fuel r.2

end Kcs.Preprocessor
