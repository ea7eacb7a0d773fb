import Kcs.Ext.JsonLexer
import Kcs.Ext.JsonNode

/-!
# The JSON parser

All actions of the grammar in `json.y`, the parser that is made from it, and the functions that
parse a text and free a document.  The tables of the parser are a parameter.

Main results:

- Definition {lit}`JsonRule.action`: the actions of the grammar.
- Definitions {lit}`jsonParseString` and {lit}`jsonFreeAll`: `__json_parse` and `__json_free_all`.
-/

namespace Kcs.Ext

variable {D : Type}

/-! ## Semantic values of tokens -/

/-- The value of a digit. -/
def digitValue (c : CChar) : Nat :=
  if '0'.toNat ≤ c.toNat ∧ c.toNat ≤ '9'.toNat then c.toNat - '0'.toNat
  else if 'a'.toNat ≤ c.toNat ∧ c.toNat ≤ 'z'.toNat then c.toNat - 'a'.toNat + 10
  else if 'A'.toNat ≤ c.toNat ∧ c.toNat ≤ 'Z'.toNat then c.toNat - 'A'.toNat + 10
  else 36

/-- `strtoll` for digits without a sign: the digits of the base at the start, at most the largest
value. -/
def strtoll (s : List CChar) (base : Nat) : BitVec 64 :=
  let digits := (s.map digitValue).takeWhile (· < base)
  BitVec.ofNat 64 (min (digits.foldl (fun n d => n * base + d) 0) (2 ^ 63 - 1))

/-- The object that the lexer makes for a token, with the string that it needs meanwhile. -/
def jsonYylval (R : JsonReal D) (m : JsonMemory D) :
    JsonLexeme → Option (Option JsonPtr × JsonMemory D)
  | .none => some (none, m)
  | .keyword s =>
    let (a, m) := jsonStringAlloc m s
    (jsonStringFree m a).map fun m => (none, m)
  | .text s => (jsonGenTextObject m s).map fun (j, m) => (some j, m)
  | .int s base =>
    let (a, m) := jsonStringAlloc m s
    (jsonGenIntegerObject m (strtoll s base)).bind fun (j, m) =>
      (jsonStringFree m a).map fun m => (some j, m)
  | .dbl s =>
    let (a, m) := jsonStringAlloc m s
    (jsonGenValue m .real (.d (R.strtod s))).bind fun (j, m) =>
      (jsonStringFree m a).map fun m => (some j, m)

/-! ## Operators -/

/-- The integer of a value. -/
def JsonUnion.int? : JsonUnion D → Option (BitVec 64)
  | .i x => some x
  | _ => none

/-- The double of a value. -/
def JsonUnion.real? : JsonUnion D → Option D
  | .d x => some x
  | _ => none

/-- The text of a value. -/
def JsonUnion.text? : JsonUnion D → Option StringPtr
  | .t x => some x
  | _ => none

/-- `__json_bit_or`, `__json_bit_xor` and `__json_bit_and` -/
def jsonBitwise (op : BitVec 64 → BitVec 64 → BitVec 64) (m : JsonMemory D) (j1 j2 : JsonPtr) :
    Option (JsonPtr × JsonMemory D) :=
  (m.node j1).bind fun n1 => (m.node j2).bind fun n2 =>
    if n1.type = .integer ∧ n2.type = .integer then
      n1.value.int?.bind fun a => n2.value.int?.map fun b =>
        (j1, m.put j1 { n1 with value := .i (op a b) })
    else some (j1, m)

/-- `__json_sub`, `__json_mul`, `__json_div` and `__json_mod` -/
def jsonArith (iop : BitVec 64 → BitVec 64 → Option (BitVec 64)) (dop : D → D → D)
    (R : JsonReal D) (m : JsonMemory D) (j1 j2 : JsonPtr) : Option (JsonPtr × JsonMemory D) :=
  (m.node j1).bind fun n1 => (m.node j2).bind fun n2 =>
    match n1.type, n2.type with
    | .integer, .integer => n1.value.int?.bind fun a => n2.value.int?.bind fun b =>
      (iop a b).map fun c => (j1, m.put j1 { n1 with value := .i c })
    | .integer, .real => n1.value.int?.bind fun a => n2.value.real?.map fun b =>
      (j1, m.put j1 { n1 with type := .real, value := .d (dop (R.ofInt a) b) })
    | .real, .integer => n1.value.real?.bind fun a => n2.value.int?.map fun b =>
      (j1, m.put j1 { n1 with value := .d (dop a (R.ofInt b)) })
    | .real, .real => n1.value.real?.bind fun a => n2.value.real?.map fun b =>
      (j1, m.put j1 { n1 with value := .d (dop a b) })
    | _, _ => some (j1, m)

/-- A division, which traps for a divisor of zero and where the quotient is too large. -/
def divide (op : BitVec 64 → BitVec 64 → BitVec 64) (a b : BitVec 64) : Option (BitVec 64) :=
  if b = 0#64 ∨ (a = BitVec.intMin 64 ∧ b = -1#64) then none else some (op a b)

/-- `sprintf` into a buffer of 256 characters, which fails for a longer text. -/
def jsonSprintf (s : List CChar) : Option (List CChar) := if s.length < 256 then some s else none

/-- `string_append` and `string_append_cstr` to the text of a node. -/
def jsonTextAppend (m : JsonMemory D) (n : JsonObject D) (s : List CChar) :
    Option (JsonMemory D) :=
  n.value.text?.bind fun a => (m.str a).map fun t =>
    { m with str := Function.update m.str a (some (t ++ s)) }

/-- The cases of `__json_add` for a number and a text: the number becomes a text. -/
def jsonAddText (m : JsonMemory D) (j1 : JsonPtr) (n1 n2 : JsonObject D) (s : List CChar) :
    Option (JsonPtr × JsonMemory D) :=
  (jsonSprintf s).bind fun s => (n2.value.text?.bind m.str).map fun t =>
    let (a, m) := jsonStringAlloc m (s ++ t)
    (j1, m.put j1 { n1 with type := .text, value := .t a })

/-- The text of a pointer that is printed as a double: the addresses of strings are denormal. -/
def jsonPointerText : List CChar := literal "0.000000"

/-- `__json_add` -/
def jsonAdd (R : JsonReal D) (m : JsonMemory D) (j1 j2 : JsonPtr) :
    Option (JsonPtr × JsonMemory D) :=
  (m.node j1).bind fun n1 => (m.node j2).bind fun n2 =>
    match n1.type, n2.type with
    | .integer, .text => n1.value.int?.bind fun a =>
      jsonAddText m j1 n1 n2 (literal (toString a.toInt))
    | .real, .text => n1.value.real?.bind fun a => jsonAddText m j1 n1 n2 (R.format a)
    | .text, .integer => n2.value.int?.bind fun b =>
      (jsonTextAppend m n1 (literal (toString b.toInt))).map fun m => (j1, m)
    | .text, .real => (jsonTextAppend m n1 jsonPointerText).map fun m => (j1, m)
    | .text, .text => (n2.value.text?.bind m.str).bind fun t =>
      (jsonTextAppend m n1 t).map fun m => (j1, m)
    | _, _ => jsonArith (fun a b => some (a + b)) R.add R m j1 j2

/-! ## The grammar -/

/-- The rules of the grammar; `unit` stands for those with one symbol and no action. -/
inductive JsonRule
  | start | emptyObject | object | firstPair | appendPair | pair | emptyArray | array
  | firstValue | appendValue | noComma | comma | unit
  | lor | land | bitOr | bitXor | bitAnd | add | sub | mul | div | mod | plus | neg
  | null | true | false | parens

/-- The number of symbols on the right side of a rule. -/
def JsonRule.length : JsonRule → Nat
  | .noComma => 0
  | .start | .firstPair | .firstValue | .comma | .unit | .null | .true | .false => 1
  | .emptyObject | .emptyArray | .plus | .neg => 2
  | .object | .array => 4
  | _ => 3

/-- An action with a pointer as its result. -/
def jsonResult (r : Option (JsonPtr × JsonMemory D)) :
    Option (Option JsonPtr × JsonMemory D) := r.map fun (j, m) => (some j, m)

/-- An action on two objects. -/
def jsonBinary (f : JsonPtr → JsonPtr → Option (JsonPtr × JsonMemory D))
    (j1 j2 : Option JsonPtr) : Option (Option JsonPtr × JsonMemory D) :=
  j1.bind fun j1 => j2.bind fun j2 => jsonResult (f j1 j2)

/-- An action on one object. -/
def jsonUnary (f : JsonPtr → Option (JsonPtr × JsonMemory D)) (j : Option JsonPtr) :
    Option (Option JsonPtr × JsonMemory D) := j.bind fun j => jsonResult (f j)

/-- The value of a symbol on the right side of a rule. -/
def dollar (vs : List (Option JsonPtr)) (k : Nat) : Option JsonPtr := vs[k - 1]?.join

/-- The action of a rule on the values of its symbols. -/
def JsonRule.action (R : JsonReal D) (fuel : Nat) (m : JsonMemory D) (rule : JsonRule)
    (vs : List (Option JsonPtr)) : Option (Option JsonPtr × JsonMemory D) :=
  match rule with
  | .start => jsonUnary (jsonSetTop fuel m) (dollar vs 1)
  | .emptyObject => jsonResult (jsonGenObject m)
  | .object => some (dollar vs 2, m)
  | .firstPair => jsonUnary (jsonAppendPair m none) (dollar vs 1)
  | .appendPair => jsonUnary (jsonAppendPair m (dollar vs 1)) (dollar vs 3)
  | .pair => jsonBinary (jsonGenPair m) (dollar vs 1) (dollar vs 3)
  | .emptyArray => jsonResult (jsonGenArray m)
  | .array => some (dollar vs 2, m)
  | .firstValue => jsonUnary (jsonAppendValue m none) (dollar vs 1)
  | .appendValue => jsonUnary (jsonAppendValue m (dollar vs 1)) (dollar vs 3)
  | .noComma => some (none, m)
  | .comma => some (dollar vs 1, m)
  | .unit => some (dollar vs 1, m)
  | .lor =>
    if (dollar vs 1).isSome then some (dollar vs 1, m)
    else if (dollar vs 3).isSome then some (dollar vs 3, m)
    else jsonResult (jsonMakeNull m)
  | .land => if (dollar vs 1).isNone then jsonResult (jsonMakeNull m) else some (dollar vs 3, m)
  | .bitOr => jsonBinary (jsonBitwise (· ||| ·) m) (dollar vs 1) (dollar vs 3)
  | .bitXor => jsonBinary (jsonBitwise (· ^^^ ·) m) (dollar vs 1) (dollar vs 3)
  | .bitAnd => jsonBinary (jsonBitwise (· &&& ·) m) (dollar vs 1) (dollar vs 3)
  | .add => jsonBinary (jsonAdd R m) (dollar vs 1) (dollar vs 3)
  | .sub =>
    jsonBinary (jsonArith (fun a b => some (a - b)) R.sub R m) (dollar vs 1) (dollar vs 3)
  | .mul =>
    jsonBinary (jsonArith (fun a b => some (a * b)) R.mul R m) (dollar vs 1) (dollar vs 3)
  | .div => jsonBinary (jsonArith (divide BitVec.sdiv) R.div R m) (dollar vs 1) (dollar vs 3)
  | .mod => jsonBinary (jsonArith (divide BitVec.srem) R.fmod R m) (dollar vs 1) (dollar vs 3)
  | .plus => some (dollar vs 2, m)
  | .neg => jsonUnary (jsonNeg R m) (dollar vs 2)
  | .null => jsonResult (jsonMakeNull m)
  | .true => jsonResult (jsonMakeBoolean m 1)
  | .false => jsonResult (jsonMakeBoolean m 0)
  | .parens => some (dollar vs 2, m)

/-! ## The parser -/

/-- A step of the parser: it reads the next token, shifts it, reduces by a rule or ends. -/
inductive JsonMove
  | read
  | shift
  | reduce (rule : JsonRule)
  | accept
  | error

/-- The tables of the parser: the next step by its state and the token that it has read. -/
structure JsonTables where
  State : Type
  start : State
  step : State → Option JsonToken → JsonMove × State

/-- The variables of `__json_yyparse` and of the lexer. -/
structure JsonConfig (S D : Type) where
  state : S
  lookahead : Option (JsonToken × Option JsonPtr)
  values : List (Option JsonPtr)
  input : JsonInput
  memory : JsonMemory D

/-- What a move of the parser does, with the status when it ends. -/
def JsonMove.apply {S : Type} (R : JsonReal D) (fuel : Nat) (c : JsonConfig S D) (state : S) :
    JsonMove → Option (JsonConfig S D × Option Bool)
  | .read => match c.lookahead with
    | some _ => none
    | none => (jsonYylex c.input).bind fun (token, lexeme, input) =>
      (jsonYylval R c.memory lexeme).map fun (value, memory) =>
        ({ c with state := state, lookahead := some (token, value), input := input,
                  memory := memory }, none)
  | .shift => c.lookahead.map fun (_, value) =>
    ({ c with state := state, lookahead := none, values := value :: c.values }, none)
  | .reduce rule =>
    if c.values.length < rule.length then none
    else (rule.action R fuel c.memory (c.values.take rule.length).reverse).map fun (v, memory) =>
      ({ c with state := state, values := v :: c.values.drop rule.length, memory := memory }, none)
  -- The rule of the start symbol was reduced before and has set the root.
  | .accept => c.memory.root.map fun _ => (c, some Bool.true)
  | .error => some (c, some Bool.false)

/-- One step of `__json_yyparse`. -/
def jsonYystep (T : JsonTables) (R : JsonReal D) (fuel : Nat) (c : JsonConfig T.State D) :
    Option (JsonConfig T.State D × Option Bool) :=
  let next := T.step c.state (c.lookahead.map (·.1))
  next.1.apply R fuel c next.2

/-- `__json_yyparse` -/
def jsonYyparse (T : JsonTables) (R : JsonReal D) :
    Nat → JsonConfig T.State D → Option (JsonConfig T.State D × Bool)
  | 0, _ => none
  | fuel + 1, c => (jsonYystep T R fuel c).bind fun (c, status) =>
    match status with
    | some status => some (c, status)
    | none => jsonYyparse T R fuel c

/-! ## Documents -/

/-- The string that is freed with a node. -/
def JsonObject.owned (n : JsonObject D) : Option StringPtr :=
  match n.type with
  | .text => n.value.text?
  | .pair => n.key
  | _ => none

/-- The part of `__json_free_one` that frees the string of a node. -/
def jsonFreeString (m : JsonMemory D) (n : JsonObject D) : Option (JsonMemory D) :=
  if n.type = .text ∨ n.type = .pair then n.owned.bind (jsonStringFree m) else some m

/-- `__json_free_one`, which fails for what is not allocated. -/
def jsonFreeOne (m : JsonMemory D) (p : JsonPtr) : Option (JsonMemory D) :=
  (m.node p).bind fun n => (jsonFreeString m n).map fun m =>
    { m with node := Function.update m.node p none, objectAllocated := m.objectAllocated - 1 }

/-- The loop of `__json_free_all`. -/
def jsonFreeList : Nat → JsonMemory D → Option JsonPtr → Option (JsonMemory D)
  | _, m, none => some m
  | 0, _, some _ => none
  | fuel + 1, m, some p => (m.node p).bind fun n =>
    (jsonFreeOne m p).bind fun m => jsonFreeList fuel m n.link

/-- `__json_free_all`, with the result of its assertions. -/
def jsonFreeAll (fuel : Nat) (m : JsonMemory D) (j : Option JsonPtr) :
    Option (Bool × JsonMemory D) :=
  match j with
  | none => some (Bool.true, m)
  | some j => (m.node j).bind fun n =>
    (jsonFreeList fuel m (some (n.mgr.getD j))).map fun (m : JsonMemory D) =>
      (m.objectAllocated = 0 ∧ m.stringAllocated = 0, { m with mgr := none })

/-- The static variables of the parser. -/
structure JsonState (D : Type) where
  ch : BitVec 32
  memory : JsonMemory D

/-- The state before the first call. -/
def JsonState.init : JsonState D := ⟨0, .empty⟩

/-- `__json_parse`, with the result of the assertions when it frees what it has built. -/
def jsonParseString (T : JsonTables) (R : JsonReal D) (fuel : Nat) (s : JsonState D)
    (str : CString) : Option (Option JsonPtr × Bool × JsonState D) :=
  (jsonLexNext ⟨s.ch, str.chars ++ [0#8]⟩).bind fun input =>
    (jsonYyparse T R fuel ⟨T.start, none, [], input, jsonSetup s.memory⟩).bind fun (c, status) =>
      if status then some (c.memory.root, Bool.true, ⟨c.input.ch, c.memory⟩)
      else (jsonFreeAll fuel c.memory c.memory.mgr).map fun (ok, m) =>
        (none, ok, ⟨c.input.ch, m⟩)

end Kcs.Ext
