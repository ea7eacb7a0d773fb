import Kcs.Ext.StringT

/-!
# Nodes of JSON documents

The objects of `json.h`, the actions of the grammar in `json.y` that allocate and link them, and
the functions that read a document.

Main results:

- Definitions {lit}`jsonAppendPair` and {lit}`jsonAppendValue`: the actions that link the members
  of an object and the elements of an array.
- Definitions {lit}`jsonGetElement`, {lit}`jsonGetProperty` and {lit}`jsonPrettyPrint`: the
  accessors and the printer.
-/

namespace Kcs.Ext

/-- `__json_type_t` -/
inductive JsonType
  | unknown | object | array | pair | text | boolean | integer | real | null
  deriving DecidableEq

/-- The address of a node. -/
abbrev JsonPtr := Nat

/-- The address of the characters of a `string_t`. -/
abbrev StringPtr := Nat

/-- `__json_value_t`, by the member that was written last. -/
inductive JsonUnion (D : Type)
  | zero
  | b (b : BitVec 32)
  | i (i : BitVec 64)
  | d (d : D)
  | t (t : StringPtr)
  | o (o : JsonPtr)

/-- `__json_object_t` -/
structure JsonObject (D : Type) where
  type : JsonType
  link : Option JsonPtr
  root : Option JsonPtr
  mgr : Option JsonPtr
  prop : Option JsonPtr
  lobj : Option JsonPtr
  next : Option JsonPtr
  lary : Option JsonPtr
  key : Option StringPtr
  value : JsonUnion D

/-- The allocated nodes and strings with the static variables that manage them. -/
structure JsonMemory (D : Type) where
  node : JsonPtr → Option (JsonObject D)
  freshNode : Nat
  str : StringPtr → Option (List CChar)
  freshStr : Nat
  mgr : Option JsonPtr
  root : Option JsonPtr
  objectAllocated : BitVec 32
  stringAllocated : BitVec 32

variable {D : Type}

/-! ## Memory -/

/-- Memory before the first document. -/
def JsonMemory.empty : JsonMemory D where
  node _ := none
  freshNode := 0
  str _ := none
  freshStr := 0
  mgr := none
  root := none
  objectAllocated := 0
  stringAllocated := 0

/-- Write a node. -/
def JsonMemory.put (m : JsonMemory D) (p : JsonPtr) (n : JsonObject D) : JsonMemory D :=
  { m with node := Function.update m.node p (some n) }

/-- Change a node, which fails for one that is not allocated. -/
def JsonMemory.modify (m : JsonMemory D) (p : JsonPtr) (f : JsonObject D → JsonObject D) :
    Option (JsonMemory D) :=
  (m.node p).map fun n => m.put p (f n)

/-- `__json_string_alloc` -/
def jsonStringAlloc (m : JsonMemory D) (s : List CChar) : StringPtr × JsonMemory D :=
  (m.freshStr, { m with
    str := Function.update m.str m.freshStr (some s), freshStr := m.freshStr + 1,
    stringAllocated := m.stringAllocated + 1 })

/-- `__json_string_free`, which fails for a string that is not allocated. -/
def jsonStringFree (m : JsonMemory D) (a : StringPtr) : Option (JsonMemory D) :=
  (m.str a).map fun _ => { m with
    str := Function.update m.str a none, stringAllocated := m.stringAllocated - 1 }

/-- A node that `calloc` makes. -/
def JsonObject.calloc (type : JsonType) (link mgr : Option JsonPtr) : JsonObject D where
  type := type
  link := link
  root := none
  mgr := mgr
  prop := none
  lobj := none
  next := none
  lary := none
  key := none
  value := .zero

/-- `__json_alloc` -/
def jsonAlloc (m : JsonMemory D) (type : JsonType) : Option (JsonPtr × JsonMemory D) :=
  let p := m.freshNode
  let m := { m with freshNode := p + 1, objectAllocated := m.objectAllocated + 1 }
  match m.mgr with
  | none => some (p, { m.put p (.calloc type none (some p)) with mgr := some p })
  | some g => (m.node g).map fun n =>
    (p, (m.put g { n with link := some p }).put p (.calloc type n.link (some g)))

/-- A node with a value. -/
def jsonGenValue (m : JsonMemory D) (type : JsonType) (value : JsonUnion D) :
    Option (JsonPtr × JsonMemory D) :=
  (jsonAlloc m type).bind fun (p, m) =>
    (m.modify p fun n => { n with value := value }).map fun m => (p, m)

/-! ## Actions of the grammar -/

/-- `__json_gen_integer_object` -/
def jsonGenIntegerObject (m : JsonMemory D) (i : BitVec 64) := jsonGenValue m .integer (.i i)

/-- `__json_gen_text_object`, for a string that is allocated first. -/
def jsonGenTextObject (m : JsonMemory D) (s : List CChar) :=
  let (a, m) := jsonStringAlloc m s
  jsonGenValue m .text (.t a)

/-- `__json_make_boolean` -/
def jsonMakeBoolean (m : JsonMemory D) (i : BitVec 32) := jsonGenValue m .boolean (.b i)

/-- `__json_make_null` -/
def jsonMakeNull (m : JsonMemory D) := jsonAlloc m .null

/-- `__json_gen_object` -/
def jsonGenObject (m : JsonMemory D) := jsonAlloc m .object

/-- `__json_gen_array` -/
def jsonGenArray (m : JsonMemory D) := jsonAlloc m .array

/-- `__json_gen_pair` -/
def jsonGenPair (m : JsonMemory D) (j1 j2 : JsonPtr) : Option (JsonPtr × JsonMemory D) :=
  (m.node j1).bind fun n =>
    match n.type, n.value with
    | .text, .t a => (m.str a).bind fun s =>
      let (k, m) := jsonStringAlloc m s
      (jsonStringFree m a).map fun m =>
        (j1, m.put j1 { n with type := .pair, key := some k, value := .o j2 })
    | .text, _ => none
    | _, _ => some (j1, m)

/-- `__json_append_pair` -/
def jsonAppendPair (m : JsonMemory D) (j1 : Option JsonPtr) (j2 : JsonPtr) :
    Option (JsonPtr × JsonMemory D) :=
  (j1.elim (jsonGenObject m) fun p => some (p, m)).bind fun (j1, m) =>
    (m.node j1).bind fun (n : JsonObject D) =>
      (m.node j2).bind fun (n2 : JsonObject D) =>
        if n.type ≠ .object ∨ n2.type ≠ .pair then none
        else match n.lobj with
          | some last =>
            (m.modify last fun n => { n with prop := some j2 }).bind fun m =>
              (m.modify j1 fun n => { n with lobj := some j2 }).map fun m => (j1, m)
          | none =>
            (m.modify j1 fun n => { n with prop := some j2, lobj := some j2 }).map fun m => (j1, m)

/-- `__json_append_value` -/
def jsonAppendValue (m : JsonMemory D) (j1 : Option JsonPtr) (j2 : JsonPtr) :
    Option (JsonPtr × JsonMemory D) :=
  (j1.elim (jsonGenArray m) fun p => some (p, m)).bind fun (j1, m) =>
    (m.node j1).bind fun (n : JsonObject D) =>
      if n.type ≠ .array then none
      else match n.lary with
        | some last =>
          (m.modify last fun n => { n with next := some j2 }).bind fun m =>
            (m.modify j1 fun n => { n with lary := some j2 }).map fun m => (j1, m)
        | none =>
          (m.modify j1 fun n => { n with next := some j2, lary := some j2 }).map fun m => (j1, m)

/-- The operations on `double` that the parser and the printer use. -/
structure JsonReal (D : Type) where
  ofInt : BitVec 64 → D
  strtod : List CChar → D
  format : D → List CChar
  neg : D → D
  add : D → D → D
  sub : D → D → D
  mul : D → D → D
  div : D → D → D
  fmod : D → D → D

/-- `__json_neg` -/
def jsonNeg (R : JsonReal D) (m : JsonMemory D) (j : JsonPtr) :
    Option (JsonPtr × JsonMemory D) :=
  (m.node j).bind fun n =>
    match n.type, n.value with
    | .integer, .i i => some (j, m.put j { n with value := .i (-i) })
    | .real, .d d => some (j, m.put j { n with value := .d (R.neg d) })
    | .integer, _ => none
    | .real, _ => none
    | _, _ => some (j, m)

/-- The loop of `__json_set_top`. -/
def jsonSetRoot (j : JsonPtr) : Nat → JsonMemory D → Option JsonPtr → Option (JsonMemory D)
  | _, m, none => some m
  | 0, _, some _ => none
  | fuel + 1, m, some p => (m.node p).bind fun n =>
    jsonSetRoot j fuel (m.put p { n with root := some j }) n.link

/-- `__json_set_top` -/
def jsonSetTop (fuel : Nat) (m : JsonMemory D) (j : JsonPtr) :
    Option (JsonPtr × JsonMemory D) :=
  (m.node j).bind fun n =>
    (jsonSetRoot j fuel m n.mgr).map fun m => (j, { m with root := some j })

/-- The variables that `__json_setup` resets for the manager of nodes. -/
def jsonSetup (m : JsonMemory D) : JsonMemory D := { m with mgr := none, root := none }

/-! ## Accessors -/

/-- `__json_get_type` -/
def jsonGetType (m : JsonMemory D) : Option JsonPtr → Option JsonType
  | none => some .unknown
  | some p => (m.node p).map (·.type)

/-- The loop of `__json_get_property`. -/
def jsonFindProperty (m : JsonMemory D) (key : List CChar) :
    Nat → Option JsonPtr → Option (Option JsonPtr)
  | _, none => some none
  | 0, some _ => none
  | fuel + 1, some p => (m.node p).bind fun n =>
    (n.key.bind m.str).bind fun k =>
      if k = key then some (some p) else jsonFindProperty m key fuel n.prop

/-- `__json_get_property` -/
def jsonGetProperty (fuel : Nat) (m : JsonMemory D) (j : Option JsonPtr) (key : List CChar) :
    Option (Option JsonPtr) :=
  match j with
  | none => some none
  | some p => (m.node p).bind fun n =>
    if n.type = .object then jsonFindProperty m key fuel n.prop else some none

/-- The loop of `__json_get_property_count` and `__json_get_element_count`. -/
def jsonCount (m : JsonMemory D) (next : JsonObject D → Option JsonPtr) :
    Nat → BitVec 32 → Option JsonPtr → Option (BitVec 32)
  | _, count, none => some count
  | 0, _, some _ => none
  | fuel + 1, count, some p => (m.node p).bind fun n =>
    jsonCount m next fuel (count + 1) (next n)

/-- `__json_get_property_count` -/
def jsonGetPropertyCount (fuel : Nat) (m : JsonMemory D) (j : Option JsonPtr) :
    Option (BitVec 32) :=
  match j with
  | none => some 0
  | some p => (m.node p).bind fun n =>
    if n.type = .object then jsonCount m (·.prop) fuel 0 n.prop else some 0

/-- The loop of `__json_get_element`. -/
def jsonFindElement (m : JsonMemory D) (index : BitVec 32) :
    Nat → BitVec 32 → Option JsonPtr → Option (Option JsonPtr)
  | _, _, none => some none
  | 0, _, some _ => none
  | fuel + 1, i, some p =>
    if i = index then some (some p)
    else (m.node p).bind fun n => jsonFindElement m index fuel (i + 1) n.next

/-- `__json_get_element` -/
def jsonGetElement (fuel : Nat) (m : JsonMemory D) (j : Option JsonPtr) (index : BitVec 32) :
    Option (Option JsonPtr) :=
  match j with
  | none => some none
  | some p => (m.node p).bind fun n =>
    if n.type = .array then jsonFindElement m index fuel 0 n.next else some none

/-- `__json_get_element_count` -/
def jsonGetElementCount (fuel : Nat) (m : JsonMemory D) (j : Option JsonPtr) :
    Option (BitVec 32) :=
  match j with
  | none => some 0
  | some p => (m.node p).bind fun n =>
    if n.type = .array then jsonCount m (·.next) fuel 0 n.next else some 0

/-- `__json_get_boolean` -/
def jsonGetBoolean (m : JsonMemory D) (j : Option JsonPtr) : Option (BitVec 32) :=
  match j with
  | none => some 0
  | some p => (m.node p).bind fun n =>
    match n.type, n.value with
    | .boolean, .b b => some b
    | .boolean, _ => none
    | _, _ => some 0

/-- `__json_get_integer` -/
def jsonGetInteger (m : JsonMemory D) (j : Option JsonPtr) : Option (BitVec 64) :=
  match j with
  | none => some 0
  | some p => (m.node p).bind fun n =>
    match n.type, n.value with
    | .integer, .i i => some i
    | .integer, _ => none
    | _, _ => some 0

/-- `__json_get_key`, with the characters for the pointer to the string. -/
def jsonGetKey (m : JsonMemory D) (j : Option JsonPtr) : Option (Option (List CChar)) :=
  match j with
  | none => some none
  | some p => (m.node p).bind fun n =>
    if n.type = .pair then (n.key.bind m.str).map some else some none

/-- `__json_get_string`, with the characters for the pointer to the string. -/
def jsonGetString (m : JsonMemory D) : Nat → Option JsonPtr → Option (Option (List CChar))
  | _, none => some none
  | 0, some _ => none
  | fuel + 1, some p => (m.node p).bind fun n =>
    match n.type, n.value with
    | .text, .t a => (m.str a).map some
    | .pair, .o v => jsonGetString m fuel (some v)
    | .text, _ => none
    | .pair, _ => none
    | _, _ => some none

/-! ## The printer -/

/-- The characters of a string literal. -/
def literal (s : String) : List CChar := s.toList.map fun c => BitVec.ofNat 8 c.toNat

/-- What the printer does: the nodes that it is called for and the characters that it prints. -/
structure JsonPrinted where
  visits : List JsonPtr
  text : List CChar

/-- Print one part after the other. -/
def JsonPrinted.append (a b : JsonPrinted) : JsonPrinted :=
  ⟨a.visits ++ b.visits, a.text ++ b.text⟩

/-- `__json_print_indent` -/
def jsonPrintIndent (indent : Nat) : List CChar :=
  (List.replicate indent (literal "    ")).flatten

mutual

/-- `__json_pretty_print` -/
def jsonPrettyPrint (R : JsonReal D) (m : JsonMemory D) :
    Nat → JsonPtr → Nat → Bool → Bool → Option JsonPrinted
  | 0, _, _, _, _ => none
  | fuel + 1, j, indent, comma, contd => (m.node j).bind fun (n : JsonObject D) =>
    let body : Option JsonPrinted := match n.type, n.value with
      | .unknown, _ => some ⟨[], literal "(unknown)"⟩
      | .object, _ => match n.prop with
        | none => some ⟨[], literal "\x7b\x7d"⟩
        | some c => (jsonPrintList R m (·.prop) fuel (some c) (indent + 1)).map fun b =>
          ⟨b.visits, literal "\x7b\n" ++ b.text ++ jsonPrintIndent indent ++ literal "\x7d"⟩
      | .array, _ => match n.next with
        | none => some ⟨[], literal "[]"⟩
        | some c => (jsonPrintList R m (·.next) fuel (some c) (indent + 1)).map fun b =>
          ⟨b.visits, literal "[\n" ++ b.text ++ jsonPrintIndent indent ++ literal "]"⟩
      | .pair, .o v => (n.key.bind m.str).bind fun k =>
        (jsonPrettyPrint R m fuel v indent comma true).map fun b =>
          ⟨b.visits, literal "\"" ++ k ++ literal "\": " ++ b.text⟩
      | .text, .t a => (m.str a).map fun s => ⟨[], literal "\"" ++ s ++ literal "\""⟩
      | .boolean, .b b => some ⟨[], literal (if b = 0 then "false" else "true")⟩
      | .integer, .i i => some ⟨[], literal (toString i.toInt)⟩
      | .real, .d d => some ⟨[], R.format d⟩
      | .null, _ => some ⟨[], literal "null"⟩
      | _, _ => none
    body.map fun b => ⟨j :: b.visits, (if contd then [] else jsonPrintIndent indent) ++ b.text ++
      -- The value of a pair ends the line.
      if n.type = .pair then [] else (if comma then literal "," else []) ++ literal "\n"⟩

/-- The loop of `__json_pretty_print` over the members of an object or the elements of an array. -/
def jsonPrintList (R : JsonReal D) (m : JsonMemory D) (next : JsonObject D → Option JsonPtr) :
    Nat → Option JsonPtr → Nat → Option JsonPrinted
  | _, none, _ => some ⟨[], []⟩
  | 0, some _, _ => none
  | fuel + 1, some p, indent => (m.node p).bind fun n =>
    (jsonPrettyPrint R m fuel p indent (next n).isSome false).bind fun a =>
      (jsonPrintList R m next fuel (next n) indent).map a.append

end

/-- `__json_pretty_print_all` -/
def jsonPrettyPrintAll (R : JsonReal D) (fuel : Nat) (m : JsonMemory D) (j : JsonPtr) :
    Option JsonPrinted :=
  jsonPrettyPrint R m fuel j 0 false false

end Kcs.Ext
