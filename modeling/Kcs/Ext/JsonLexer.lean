import Kcs.Ext.StringT

/-!
# Tokens of JSON documents

The lexer of `json.y` on the text that `__json_parse` is called with.

Main results:

- Lemma {lit}`jsonLexNext_ch`: the first character does not depend on the last one of another
  text, unless that was {lit}`EOF`.
-/

namespace Kcs.Ext

/-- The tokens of the grammar, with the end of the text. -/
inductive JsonToken
  | lor | land | or | xor | and | add | sub | mul | div | mod
  | obeg | oend | abeg | aend | lb | rb | comma | colon
  | str | int | dbl | null | true | false | error | eot
  deriving DecidableEq

/-- The characters from which the semantic value of a token is made. -/
inductive JsonLexeme
  | none
  | keyword (s : List CChar)
  | text (s : List CChar)
  | int (s : List CChar) (base : Nat)
  | dbl (s : List CChar)

/-- `__g_json_parser_ch` and what `__json_yyin.str` points to. -/
structure JsonInput where
  ch : BitVec 32
  str : List CChar

/-- `EOF` -/
def eof : BitVec 32 := -1#32

/-- A character as an `int`. -/
def chr (c : Char) : BitVec 32 := BitVec.ofNat 32 c.toNat

/-- `__json_lex_next_from_string`, which fails behind the end of the text. -/
def jsonLexNext (s : JsonInput) : Option JsonInput :=
  if s.ch = eof then some s
  else match s.str with
    | [] => none
    | c :: str => some ⟨c.signExtend 32, str⟩

/-! ## Classes of characters -/

/-- A character is between two characters. -/
def chrBetween (lo hi : Char) (ch : BitVec 32) : Bool := (chr lo).sle ch && ch.sle (chr hi)

/-- `__json_is_whitespace` -/
def jsonIsWhitespace (ch : BitVec 32) : Bool :=
  ch = chr ' ' || ch = chr '\t' || ch = chr '\r' || ch = chr '\n'

/-- `__json_is_number` -/
def jsonIsNumber (ch : BitVec 32) : Bool := chrBetween '0' '9' ch

/-- `__json_is_oct_number` -/
def jsonIsOctNumber (ch : BitVec 32) : Bool := chrBetween '0' '7' ch

/-- `__json_is_hex_number` -/
def jsonIsHexNumber (ch : BitVec 32) : Bool :=
  chrBetween '0' '9' ch || chrBetween 'a' 'f' ch || chrBetween 'A' 'F' ch

/-- `__json_is_begin_keyword` -/
def jsonIsBeginKeyword (ch : BitVec 32) : Bool :=
  ch = chr '_' || chrBetween 'a' 'z' ch || chrBetween 'A' 'Z' ch

/-! ## The lexer -/

/-- The string of one character that is appended, which is empty for the terminator. -/
def chrText (ch : BitVec 32) : List CChar :=
  if ch.setWidth 8 = 0#8 then [] else [ch.setWidth 8]

/-- A loop that appends characters of a class. -/
def jsonLexWhile (p : BitVec 32 → Bool) :
    Nat → List CChar → JsonInput → Option (List CChar × JsonInput)
  | 0, _, _ => none
  | fuel + 1, acc, s =>
    if p s.ch then (jsonLexNext s).bind fun s' => jsonLexWhile p fuel (acc ++ chrText s.ch) s'
    else some (acc, s)

/-- The loop of `__json_lex_make_string`. -/
def jsonLexString : Nat → List CChar → JsonInput → Option (List CChar × JsonInput)
  | 0, _, _ => none
  | fuel + 1, acc, s =>
    if s.ch = chr '"' then some (acc, s)
    else (if s.ch = chr '\\' then jsonLexNext s else some s).bind fun s =>
      (jsonLexNext s).bind fun s' => jsonLexString fuel (acc ++ chrText s.ch) s'

/-- A bound on the steps of a loop that reads on in each step. -/
def JsonInput.fuel (s : JsonInput) : Nat := s.str.length + 2

/-- `__json_lex_make_number` -/
def jsonLexMakeNumber (s : JsonInput) : Option (JsonToken × JsonLexeme × JsonInput) :=
  let first := chrText s.ch
  (jsonLexNext s).bind fun s1 =>
    if s.ch = chr '0' then
      (jsonLexWhile jsonIsOctNumber s1.fuel first s1).map fun (acc, s) => (.int, .int acc 8, s)
    else if s1.ch = chr '.' then
      (jsonLexNext s1).bind fun s2 =>
        (jsonLexWhile jsonIsNumber s2.fuel (first ++ chrText s1.ch) s2).map fun (acc, s) =>
          (.dbl, .dbl acc, s)
    else if s1.ch = chr 'x' then
      (jsonLexNext s1).bind fun s2 =>
        (jsonLexWhile jsonIsHexNumber s2.fuel (first ++ chrText s1.ch) s2).map fun (acc, s) =>
          (.int, .int acc 16, s)
    else
      (jsonLexWhile jsonIsNumber s1.fuel first s1).map fun (acc, s) => (.int, .int acc 10, s)

/-- `__json_lex_make_keyword` -/
def jsonLexMakeKeyword (s : JsonInput) : Option (JsonToken × JsonLexeme × JsonInput) :=
  (jsonLexNext s).bind fun s1 =>
    (jsonLexWhile (fun ch => jsonIsBeginKeyword ch || jsonIsNumber ch) s1.fuel (chrText s.ch)
      s1).map fun (acc, s) =>
      if acc = "null".toList.map fun c => BitVec.ofNat 8 c.toNat then (.null, .keyword acc, s)
      else if acc = "true".toList.map fun c => BitVec.ofNat 8 c.toNat then (.true, .keyword acc, s)
      else if acc = "false".toList.map fun c => BitVec.ofNat 8 c.toNat then (.false, .keyword acc, s)
      else (.str, .text acc, s)

/-- `__json_lex_make_string`, called at a quote. -/
def jsonLexMakeString (s : JsonInput) : Option (JsonToken × JsonLexeme × JsonInput) :=
  (jsonLexNext s).bind fun s =>
    if s.ch = chr '"' then (jsonLexNext s).map fun s => (.str, .text [], s)
    else (jsonLexNext s).bind fun s1 =>
      (jsonLexString s1.fuel (chrText s.ch) s1).bind fun (acc, s) =>
        (jsonLexNext s).map fun s => (.str, .text acc, s)

/-- The punctuation of the grammar, without the operators of two characters. -/
def jsonPunctuation : List (Char × JsonToken) :=
  [('\x7b', .obeg), ('\x7d', .oend), ('[', .abeg), (']', .aend), ('(', .lb), (')', .rb),
    (',', .comma), (':', .colon), ('^', .xor), ('+', .add), ('-', .sub), ('*', .mul), ('/', .div),
    ('%', .mod)]

/-- An operator that may be doubled. -/
def jsonLexDoubled (c : Char) (double single : JsonToken) (s : JsonInput) :
    Option (JsonToken × JsonLexeme × JsonInput) :=
  (jsonLexNext s).bind fun s =>
    if s.ch = chr c then (jsonLexNext s).map fun s => (double, .none, s)
    else some (single, .none, s)

/-- `__json_yylex_impl` -/
def jsonYylex (s : JsonInput) : Option (JsonToken × JsonLexeme × JsonInput) :=
  (jsonLexWhile jsonIsWhitespace s.fuel [] s).bind fun (_, s) =>
    if s.ch = 0#32 then some (.eot, .none, s)
    else if jsonIsNumber s.ch then jsonLexMakeNumber s
    else if jsonIsBeginKeyword s.ch then jsonLexMakeKeyword s
    else if s.ch = chr '|' then jsonLexDoubled '|' .lor .or s
    else if s.ch = chr '&' then jsonLexDoubled '&' .land .and s
    else if s.ch = chr '"' then jsonLexMakeString s
    else match jsonPunctuation.find? fun x => chr x.1 = s.ch with
      | some (_, token) => (jsonLexNext s).map fun s => (token, .none, s)
      | none => some (.error, .none, s)

theorem jsonLexNext_ch {ch ch' : BitVec 32} (h : ch ≠ eof) (h' : ch' ≠ eof) (str : List CChar) :
    jsonLexNext ⟨ch, str⟩ = jsonLexNext ⟨ch', str⟩ := by
  rw [jsonLexNext, jsonLexNext, if_neg h, if_neg h']

end Kcs.Ext
