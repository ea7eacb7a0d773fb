import Kcs.Ext.JsonParser

/-!
# JSON documents behind others

The nodes and strings that a parse allocates behind those of other documents are the ones that it
allocates in empty memory, at other addresses.

Main results:

- Theorem {lit}`JsonRule.action_embed`: every action of the grammar does behind other memory what
  it does in empty memory.
- Theorem {lit}`jsonYyparse_embed`: and so does the parser.
-/

namespace Kcs.Ext

open Option List Function

variable {D : Type}

/-! ## Other addresses -/

/-- A value at other addresses. -/
def JsonUnion.shift (b c : Nat) : JsonUnion D → JsonUnion D
  | .t x => .t (c + x)
  | .o x => .o (b + x)
  | .zero => .zero
  | .b x => .b x
  | .i x => .i x
  | .d x => .d x

/-- A node at other addresses. -/
def JsonObject.shift (b c : Nat) (n : JsonObject D) : JsonObject D where
  type := n.type
  link := n.link.map (b + ·)
  root := n.root.map (b + ·)
  mgr := n.mgr.map (b + ·)
  prop := n.prop.map (b + ·)
  lobj := n.lobj.map (b + ·)
  next := n.next.map (b + ·)
  lary := n.lary.map (b + ·)
  key := n.key.map (c + ·)
  value := n.value.shift b c

namespace JsonMemory

/-- Memory behind other memory. -/
def embed (F m : JsonMemory D) : JsonMemory D where
  node q := if q < F.freshNode then F.node q
    else (m.node (q - F.freshNode)).map (·.shift F.freshNode F.freshStr)
  freshNode := F.freshNode + m.freshNode
  str a := if a < F.freshStr then F.str a else m.str (a - F.freshStr)
  freshStr := F.freshStr + m.freshStr
  mgr := m.mgr.map (F.freshNode + ·)
  root := m.root.map (F.freshNode + ·)
  objectAllocated := F.objectAllocated + m.objectAllocated
  stringAllocated := F.stringAllocated + m.stringAllocated

/-- A node and memory behind other memory. -/
def carry (F : JsonMemory D) (x : JsonPtr × JsonMemory D) : JsonPtr × JsonMemory D :=
  (F.freshNode + x.1, F.embed x.2)

/-- A value of the parser and memory behind other memory. -/
def carryValue (F : JsonMemory D) (x : Option JsonPtr × JsonMemory D) :
    Option JsonPtr × JsonMemory D :=
  (x.1.map (F.freshNode + ·), F.embed x.2)

variable {F m : JsonMemory D}

@[simp] theorem embed_node (p : Nat) : (F.embed m).node (F.freshNode + p) =
    (m.node p).map (·.shift F.freshNode F.freshStr) := by
  show (if F.freshNode + p < F.freshNode then _ else _) = _
  rw [if_neg (by omega), Nat.add_sub_cancel_left]

@[simp] theorem embed_str (a : Nat) : (F.embed m).str (F.freshStr + a) = m.str a := by
  show (if F.freshStr + a < F.freshStr then _ else _) = _
  rw [if_neg (by omega), Nat.add_sub_cancel_left]

theorem update_embed {α : Type} (b p : Nat) (f g : Nat → α) (x : α) :
    Function.update (fun q => if q < b then f q else g (q - b)) (b + p) x =
      fun q => if q < b then f q else Function.update g p x (q - b) := by
  funext q
  by_cases hq : q = b + p
  · rw [hq, update_self, if_neg (by omega), Nat.add_sub_cancel_left, update_self]
  · rw [update_of_ne hq]
    by_cases hlt : q < b
    · rw [if_pos hlt, if_pos hlt]
    · rw [if_neg hlt, if_neg hlt, update_of_ne (by omega)]

theorem embed_update (p : Nat) (x : Option (JsonObject D)) :
    Function.update (F.embed m).node (F.freshNode + p)
      (x.map (·.shift F.freshNode F.freshStr)) =
      (F.embed { m with node := Function.update m.node p x }).node := by
  have h := update_embed F.freshNode p F.node
    (fun q => (m.node q).map (·.shift F.freshNode F.freshStr))
    (x.map (·.shift F.freshNode F.freshStr))
  refine h.trans (funext fun q => ?_)
  show (if q < F.freshNode then F.node q else _) = if q < F.freshNode then F.node q else _
  congr 1
  show _ = (Function.update m.node p x (q - F.freshNode)).map _
  by_cases hq : q - F.freshNode = p
  · rw [hq, update_self, update_self]
  · rw [update_of_ne hq, update_of_ne hq]

@[simp] theorem embed_put (p : Nat) (n : JsonObject D) :
    (F.embed m).put (F.freshNode + p) (n.shift F.freshNode F.freshStr) = F.embed (m.put p n) := by
  exact congrArg (fun f => { F.embed m with node := f }) (embed_update p (some n))

theorem embed_updateStr (a : Nat) (x : Option (List CChar)) :
    Function.update (F.embed m).str (F.freshStr + a) x =
      (F.embed { m with str := Function.update m.str a x }).str :=
  update_embed F.freshStr a F.str m.str x

end JsonMemory

/-! ## Actions on memory -/

section Embed

variable {F m : JsonMemory D}

theorem jsonStringAlloc_embed (s : List CChar) : jsonStringAlloc (F.embed m) s =
    (F.freshStr + (jsonStringAlloc m s).1, F.embed (jsonStringAlloc m s).2) := by
  have h := congrArg (fun f => { F.embed m with
    str := f, freshStr := F.freshStr + m.freshStr + 1,
    stringAllocated := F.stringAllocated + m.stringAllocated + 1 })
    (JsonMemory.embed_updateStr (F := F) (m := m) m.freshStr (some s))
  refine Prod.ext rfl (h.trans ?_)
  simp only [JsonMemory.embed, jsonStringAlloc, Nat.add_assoc, BitVec.add_assoc]

theorem jsonStringFree_embed (a : Nat) :
    jsonStringFree (F.embed m) (F.freshStr + a) = (jsonStringFree m a).map F.embed := by
  rw [jsonStringFree, jsonStringFree, JsonMemory.embed_str, Option.map_map]
  cases m.str a with
  | none => rfl
  | some s =>
    have h := JsonMemory.embed_updateStr (F := F) (m := m) a none
    simp only [map_some, comp_apply, h, some.injEq]
    simp only [JsonMemory.embed, BitVec.sub_eq_add_neg, BitVec.add_assoc]

theorem modify_embed {f g : JsonObject D → JsonObject D} (p : Nat)
    (h : ∀ n, f (n.shift F.freshNode F.freshStr) = (g n).shift F.freshNode F.freshStr) :
    (F.embed m).modify (F.freshNode + p) f = (m.modify p g).map F.embed := by
  rw [JsonMemory.modify, JsonMemory.modify, JsonMemory.embed_node, Option.map_map, Option.map_map]
  congr 1
  funext n
  rw [comp_apply, comp_apply, h, JsonMemory.embed_put]

/-- Memory in which a node has been allocated and counted. -/
def JsonMemory.grow (m : JsonMemory D) : JsonMemory D :=
  { m with freshNode := m.freshNode + 1, objectAllocated := m.objectAllocated + 1 }

theorem grow_embed : (F.embed m).grow = F.embed m.grow := by
  simp only [JsonMemory.embed, JsonMemory.grow, Nat.add_assoc, BitVec.add_assoc]

theorem jsonAlloc_eq (m : JsonMemory D) (type : JsonType) :
    jsonAlloc m type = match m.mgr with
      | none => some (m.freshNode,
        { m.grow.put m.freshNode (.calloc type none (some m.freshNode)) with
          mgr := some m.freshNode })
      | some g => (m.node g).map fun n => (m.freshNode,
        (m.grow.put g { n with link := some m.freshNode }).put m.freshNode
          (.calloc type n.link (some g))) := rfl

theorem jsonAlloc_embed (type : JsonType) :
    jsonAlloc (F.embed m) type = (jsonAlloc m type).map F.carry := by
  cases hmgr : m.mgr with
  | none =>
    have hF : (F.embed m).mgr = none := by
      rw [show (F.embed m).mgr = m.mgr.map (F.freshNode + ·) from rfl, hmgr]
      rfl
    have hput := JsonMemory.embed_put (F := F) (m := m.grow) m.freshNode
      (.calloc type none (some m.freshNode))
    rw [jsonAlloc_eq, jsonAlloc_eq, hmgr, hF, grow_embed]
    exact congrArg some (Prod.ext rfl (congrArg
      (fun x : JsonMemory D => { x with mgr := some (F.freshNode + m.freshNode) }) hput))
  | some g =>
    have hF : (F.embed m).mgr = some (F.freshNode + g) := by
      rw [show (F.embed m).mgr = m.mgr.map (F.freshNode + ·) from rfl, hmgr]
      rfl
    rw [jsonAlloc_eq, jsonAlloc_eq, hmgr, hF, grow_embed]
    simp only [JsonMemory.embed_node, Option.map_map]
    congr 1
    funext n
    have hput := JsonMemory.embed_put (F := F) (m := m.grow.put g { n with link := some m.freshNode })
      m.freshNode (.calloc type n.link (some g))
    rw [← JsonMemory.embed_put] at hput
    exact Prod.ext rfl hput

theorem jsonGenValue_embed (type : JsonType) (value : JsonUnion D) :
    jsonGenValue (F.embed m) type (value.shift F.freshNode F.freshStr) =
      (jsonGenValue m type value).map F.carry := by
  rw [jsonGenValue, jsonGenValue, jsonAlloc_embed]
  cases jsonAlloc m type with
  | none => rfl
  | some x =>
    rcases x with ⟨j, m1⟩
    have h := modify_embed (F := F) (m := m1)
      (f := fun n => { n with value := value.shift F.freshNode F.freshStr })
      (g := fun n => { n with value := value }) j fun _ => rfl
    simp only [map_some, bind_some, JsonMemory.carry, h]
    cases m1.modify j fun n => { n with value := value } <;> rfl

theorem jsonGenTextObject_embed (s : List CChar) :
    jsonGenTextObject (F.embed m) s = (jsonGenTextObject m s).map F.carry := by
  have h := jsonStringAlloc_embed (F := F) (m := m) s
  rw [jsonGenTextObject, jsonGenTextObject, h]
  exact jsonGenValue_embed .text (.t m.freshStr)

theorem jsonGenPair_embed (j1 j2 : Nat) :
    jsonGenPair (F.embed m) (F.freshNode + j1) (F.freshNode + j2) =
      (jsonGenPair m j1 j2).map F.carry := by
  rw [jsonGenPair, jsonGenPair, JsonMemory.embed_node]
  cases m.node j1 with
  | none => rfl
  | some n =>
    rcases n with ⟨type, link, root, mgr, prop, lobj, next, lary, key, value⟩
    cases type <;> try rfl
    cases value <;> try rfl
    rename_i a
    simp only [map_some, bind_some, JsonObject.shift, JsonUnion.shift, JsonMemory.embed_str]
    cases m.str a with
    | none => rfl
    | some s =>
      have hfree := jsonStringFree_embed (F := F) (m := (jsonStringAlloc m s).2) a
      simp only [bind_some, jsonStringAlloc_embed, hfree]
      cases jsonStringFree (jsonStringAlloc m s).2 a with
      | none => rfl
      | some m1 =>
        simp only [map_some, JsonMemory.carry, ← JsonMemory.embed_put]
        rfl

theorem jsonAppendPair_embed (j1 : Option JsonPtr) (j2 : Nat) :
    jsonAppendPair (F.embed m) (j1.map (F.freshNode + ·)) (F.freshNode + j2) =
      (jsonAppendPair m j1 j2).map F.carry := by
  have hstart : (j1.map (F.freshNode + ·)).elim (jsonGenObject (F.embed m))
      (fun p => some (p, F.embed m)) =
      (j1.elim (jsonGenObject m) fun p => some (p, m)).map F.carry := by
    cases j1 with
    | none => exact jsonAlloc_embed .object
    | some j => rfl
  rw [jsonAppendPair, jsonAppendPair, hstart]
  cases (j1.elim (jsonGenObject m) fun p => some (p, m)) with
  | none => rfl
  | some x =>
    rcases x with ⟨j, m1⟩
    simp only [map_some, bind_some, JsonMemory.carry, JsonMemory.embed_node]
    cases hn : m1.node j with
    | none => rfl
    | some n =>
      cases hn2 : m1.node j2 with
      | none => rfl
      | some n2 =>
        simp only [map_some, bind_some, JsonObject.shift]
        split
        · rfl
        · cases n.lobj with
          | none =>
            simp only [map_none]
            rw [modify_embed (g := fun n => { n with prop := some j2, lobj := some j2 }) j
              fun _ => rfl]
            cases m1.modify j fun n => { n with prop := some j2, lobj := some j2 } <;> rfl
          | some last =>
            simp only [map_some]
            rw [modify_embed (g := fun n => { n with prop := some j2 }) last fun _ => rfl]
            cases m1.modify last fun n => { n with prop := some j2 } with
            | none => rfl
            | some m2 =>
              simp only [map_some, bind_some]
              rw [modify_embed (g := fun n => { n with lobj := some j2 }) j fun _ => rfl]
              cases m2.modify j fun n => { n with lobj := some j2 } <;> rfl

theorem jsonAppendValue_embed (j1 : Option JsonPtr) (j2 : Nat) :
    jsonAppendValue (F.embed m) (j1.map (F.freshNode + ·)) (F.freshNode + j2) =
      (jsonAppendValue m j1 j2).map F.carry := by
  have hstart : (j1.map (F.freshNode + ·)).elim (jsonGenArray (F.embed m))
      (fun p => some (p, F.embed m)) =
      (j1.elim (jsonGenArray m) fun p => some (p, m)).map F.carry := by
    cases j1 with
    | none => exact jsonAlloc_embed .array
    | some j => rfl
  rw [jsonAppendValue, jsonAppendValue, hstart]
  cases (j1.elim (jsonGenArray m) fun p => some (p, m)) with
  | none => rfl
  | some x =>
    rcases x with ⟨j, m1⟩
    simp only [map_some, bind_some, JsonMemory.carry, JsonMemory.embed_node]
    cases hn : m1.node j with
    | none => rfl
    | some n =>
      simp only [map_some, bind_some, JsonObject.shift]
      split
      · rfl
      · cases n.lary with
        | none =>
          simp only [map_none]
          rw [modify_embed (g := fun n => { n with next := some j2, lary := some j2 }) j
            fun _ => rfl]
          cases m1.modify j fun n => { n with next := some j2, lary := some j2 } <;> rfl
        | some last =>
          simp only [map_some]
          rw [modify_embed (g := fun n => { n with next := some j2 }) last fun _ => rfl]
          cases m1.modify last fun n => { n with next := some j2 } with
          | none => rfl
          | some m2 =>
            simp only [map_some, bind_some]
            rw [modify_embed (g := fun n => { n with lary := some j2 }) j fun _ => rfl]
            cases m2.modify j fun n => { n with lary := some j2 } <;> rfl

theorem jsonSetRoot_embed (j : Nat) (fuel : Nat) : ∀ (m : JsonMemory D) (p : Option JsonPtr),
    jsonSetRoot (F.freshNode + j) fuel (F.embed m) (p.map (F.freshNode + ·)) =
      (jsonSetRoot j fuel m p).map F.embed := by
  induction fuel with
  | zero =>
    intro m p
    cases p <;> rfl
  | succ fuel ih =>
    intro m p
    cases p with
    | none => rfl
    | some p =>
      rw [map_some, jsonSetRoot, jsonSetRoot, JsonMemory.embed_node]
      cases m.node p with
      | none => rfl
      | some n =>
        have h := ih (m.put p { n with root := some j }) n.link
        rw [← JsonMemory.embed_put] at h
        exact h

theorem jsonSetTop_embed (fuel : Nat) (j : Nat) :
    jsonSetTop fuel (F.embed m) (F.freshNode + j) = (jsonSetTop fuel m j).map F.carry := by
  rw [jsonSetTop, jsonSetTop, JsonMemory.embed_node]
  cases m.node j with
  | none => rfl
  | some n =>
    simp only [map_some, bind_some, JsonObject.shift, jsonSetRoot_embed]
    cases jsonSetRoot j fuel m n.mgr <;> rfl

theorem carry_put (j : Nat) (n : JsonObject D) (n' : JsonObject D)
    (h : n' = n.shift F.freshNode F.freshStr) :
    (F.freshNode + j, (F.embed m).put (F.freshNode + j) n') = F.carry (j, m.put j n) := by
  rw [h, JsonMemory.embed_put]
  rfl

theorem jsonNeg_embed (R : JsonReal D) (j : Nat) :
    jsonNeg R (F.embed m) (F.freshNode + j) = (jsonNeg R m j).map F.carry := by
  rw [jsonNeg, jsonNeg, JsonMemory.embed_node]
  cases m.node j with
  | none => rfl
  | some n =>
    rcases n with ⟨type, link, root, mgr, prop, lobj, next, lary, key, value⟩
    cases type <;> try rfl
    · cases value <;> first | rfl | exact congrArg some (carry_put j _ _ rfl)
    · cases value <;> first | rfl | exact congrArg some (carry_put j _ _ rfl)

@[simp] theorem int?_shift (v : JsonUnion D) (b c : Nat) : (v.shift b c).int? = v.int? := by
  cases v <;> rfl

@[simp] theorem real?_shift (v : JsonUnion D) (b c : Nat) : (v.shift b c).real? = v.real? := by
  cases v <;> rfl

@[simp] theorem text?_shift (v : JsonUnion D) (b c : Nat) :
    (v.shift b c).text? = v.text?.map (c + ·) := by
  cases v <;> rfl

theorem jsonBitwise_embed (op : BitVec 64 → BitVec 64 → BitVec 64) (j1 j2 : Nat) :
    jsonBitwise op (F.embed m) (F.freshNode + j1) (F.freshNode + j2) =
      (jsonBitwise op m j1 j2).map F.carry := by
  rw [jsonBitwise, jsonBitwise, JsonMemory.embed_node, JsonMemory.embed_node]
  cases m.node j1 with
  | none => rfl
  | some n1 =>
    cases m.node j2 with
    | none => rfl
    | some n2 =>
      simp only [map_some, bind_some, JsonObject.shift, int?_shift]
      split
      · cases n1.value.int? with
        | none => rfl
        | some a =>
          cases n2.value.int? with
          | none => rfl
          | some b => exact congrArg some (carry_put j1 _ _ rfl)
      · rfl

theorem jsonArith_embed (iop : BitVec 64 → BitVec 64 → Option (BitVec 64)) (dop : D → D → D)
    (R : JsonReal D) (j1 j2 : Nat) :
    jsonArith iop dop R (F.embed m) (F.freshNode + j1) (F.freshNode + j2) =
      (jsonArith iop dop R m j1 j2).map F.carry := by
  rw [jsonArith, jsonArith, JsonMemory.embed_node, JsonMemory.embed_node]
  cases m.node j1 with
  | none => rfl
  | some n1 =>
    cases m.node j2 with
    | none => rfl
    | some n2 =>
      simp only [map_some, bind_some, JsonObject.shift, int?_shift, real?_shift]
      rcases n1 with ⟨type, link, root, mgr, prop, lobj, next, lary, key, value⟩
      cases type <;> try rfl
      · cases n2.type <;> try rfl
        · cases value.int? with
          | none => rfl
          | some a =>
            cases n2.value.int? with
            | none => rfl
            | some b =>
              simp only [bind_some, Option.map_map]
              cases iop a b with
              | none => rfl
              | some c => exact congrArg some (carry_put j1 _ _ rfl)
        · cases value.int? with
          | none => rfl
          | some a =>
            cases n2.value.real? with
            | none => rfl
            | some b => exact congrArg some (carry_put j1 _ _ rfl)
      · cases n2.type <;> try rfl
        · cases value.real? with
          | none => rfl
          | some a =>
            cases n2.value.int? with
            | none => rfl
            | some b => exact congrArg some (carry_put j1 _ _ rfl)
        · cases value.real? with
          | none => rfl
          | some a =>
            cases n2.value.real? with
            | none => rfl
            | some b => exact congrArg some (carry_put j1 _ _ rfl)

theorem text?_str_embed (v : JsonUnion D) :
    (v.shift F.freshNode F.freshStr).text?.bind (F.embed m).str = v.text?.bind m.str := by
  rw [text?_shift]
  cases v.text? with
  | none => rfl
  | some a => exact JsonMemory.embed_str a

theorem jsonTextAppend_embed (n : JsonObject D) (s : List CChar) :
    jsonTextAppend (F.embed m) (n.shift F.freshNode F.freshStr) s =
      (jsonTextAppend m n s).map F.embed := by
  rw [jsonTextAppend, jsonTextAppend, show (n.shift F.freshNode F.freshStr).value =
    n.value.shift F.freshNode F.freshStr from rfl, text?_shift]
  cases n.value.text? with
  | none => rfl
  | some a =>
    simp only [map_some, bind_some, JsonMemory.embed_str, Option.map_map]
    cases m.str a with
    | none => rfl
    | some t =>
      have h := JsonMemory.embed_updateStr (F := F) (m := m) a (some (t ++ s))
      exact congrArg (fun f => some { F.embed m with str := f }) h

theorem jsonAddText_embed (j1 : Nat) (n1 n2 : JsonObject D) (s : List CChar) :
    jsonAddText (F.embed m) (F.freshNode + j1) (n1.shift F.freshNode F.freshStr)
      (n2.shift F.freshNode F.freshStr) s = (jsonAddText m j1 n1 n2 s).map F.carry := by
  rw [jsonAddText, jsonAddText, show (n2.shift F.freshNode F.freshStr).value =
    n2.value.shift F.freshNode F.freshStr from rfl, text?_str_embed]
  cases jsonSprintf s with
  | none => rfl
  | some s =>
    cases n2.value.text?.bind m.str with
    | none => rfl
    | some t =>
      simp only [bind_some, map_some, jsonStringAlloc_embed]
      exact congrArg some (carry_put j1 _ _ rfl)

theorem jsonAdd_embed (R : JsonReal D) (j1 j2 : Nat) :
    jsonAdd R (F.embed m) (F.freshNode + j1) (F.freshNode + j2) =
      (jsonAdd R m j1 j2).map F.carry := by
  have harith := jsonArith_embed (F := F) (m := m) (fun a b => some (a + b)) R.add R j1 j2
  rw [jsonAdd, jsonAdd, JsonMemory.embed_node, JsonMemory.embed_node]
  cases m.node j1 with
  | none => rfl
  | some n1 =>
    cases m.node j2 with
    | none => rfl
    | some n2 =>
      have hvalue1 : (n1.shift F.freshNode F.freshStr).value =
        n1.value.shift F.freshNode F.freshStr := rfl
      have hvalue2 : (n2.shift F.freshNode F.freshStr).value =
        n2.value.shift F.freshNode F.freshStr := rfl
      have htype1 : (n1.shift F.freshNode F.freshStr).type = n1.type := rfl
      have htype2 : (n2.shift F.freshNode F.freshStr).type = n2.type := rfl
      simp only [map_some, bind_some, htype1, htype2, hvalue1, hvalue2, int?_shift,
        real?_shift, jsonAddText_embed, jsonTextAppend_embed, text?_str_embed]
      split
      · cases n1.value.int? <;> rfl
      · cases n1.value.real? <;> rfl
      · cases n2.value.int? with
        | none => rfl
        | some b =>
          simp only [bind_some]
          cases jsonTextAppend m n1 (literal (toString b.toInt)) <;> rfl
      · cases jsonTextAppend m n1 jsonPointerText <;> rfl
      · cases n2.value.text?.bind m.str with
        | none => rfl
        | some t =>
          simp only [bind_some]
          cases jsonTextAppend m n1 t <;> rfl
      · exact harith

/-! ## The parser -/

theorem jsonYylval_embed (R : JsonReal D) (l : JsonLexeme) :
    jsonYylval R (F.embed m) l = (jsonYylval R m l).map F.carryValue := by
  cases l with
  | none => rfl
  | keyword s =>
    rw [jsonYylval, jsonYylval, jsonStringAlloc_embed]
    simp only [jsonStringFree_embed]
    cases jsonStringFree (jsonStringAlloc m s).2 (jsonStringAlloc m s).1 <;> rfl
  | text s =>
    rw [jsonYylval, jsonYylval, jsonGenTextObject_embed]
    cases jsonGenTextObject m s <;> rfl
  | int s base =>
    rw [jsonYylval, jsonYylval, jsonStringAlloc_embed]
    have h : jsonGenValue (F.embed (jsonStringAlloc m s).2) .integer (.i (strtoll s base)) =
        (jsonGenValue (jsonStringAlloc m s).2 .integer (.i (strtoll s base))).map F.carry :=
      jsonGenValue_embed .integer (.i (strtoll s base))
    simp only [jsonGenIntegerObject, h]
    cases jsonGenValue (jsonStringAlloc m s).2 .integer (.i (strtoll s base)) with
    | none => rfl
    | some x =>
      simp only [map_some, bind_some, JsonMemory.carry, jsonStringFree_embed]
      cases jsonStringFree x.2 (jsonStringAlloc m s).1 <;> rfl
  | dbl s =>
    rw [jsonYylval, jsonYylval, jsonStringAlloc_embed]
    have h : jsonGenValue (F.embed (jsonStringAlloc m s).2) .real (.d (R.strtod s)) =
        (jsonGenValue (jsonStringAlloc m s).2 .real (.d (R.strtod s))).map F.carry :=
      jsonGenValue_embed .real (.d (R.strtod s))
    simp only [h]
    cases jsonGenValue (jsonStringAlloc m s).2 .real (.d (R.strtod s)) with
    | none => rfl
    | some x =>
      simp only [map_some, bind_some, JsonMemory.carry, jsonStringFree_embed]
      cases jsonStringFree x.2 (jsonStringAlloc m s).1 <;> rfl

theorem dollar_map (vs : List (Option Nat)) (b k : Nat) :
    dollar (vs.map (·.map (b + ·))) k = (dollar vs k).map (b + ·) := by
  rw [dollar, dollar, getElem?_map]
  cases vs[k - 1]? with
  | none => rfl
  | some v => rfl

theorem jsonResult_embed {x y : Option (JsonPtr × JsonMemory D)} (h : x = y.map F.carry) :
    jsonResult x = (jsonResult y).map F.carryValue := by
  rw [h]
  cases y <;> rfl

theorem jsonUnary_embed {f g : JsonPtr → Option (JsonPtr × JsonMemory D)}
    (h : ∀ j : Nat, f (F.freshNode + j) = (g j).map F.carry) (v : Option Nat) :
    jsonUnary f (v.map (F.freshNode + ·)) = (jsonUnary g v).map F.carryValue := by
  cases v with
  | none => rfl
  | some j => exact jsonResult_embed (h j)

theorem jsonBinary_embed {f g : JsonPtr → JsonPtr → Option (JsonPtr × JsonMemory D)}
    (h : ∀ i j : Nat, f (F.freshNode + i) (F.freshNode + j) = (g i j).map F.carry)
    (v w : Option Nat) :
    jsonBinary f (v.map (F.freshNode + ·)) (w.map (F.freshNode + ·)) =
      (jsonBinary g v w).map F.carryValue := by
  cases v with
  | none => rfl
  | some i =>
    cases w with
    | none => rfl
    | some j => exact jsonResult_embed (h i j)

/-- An action does behind other memory what it does in empty memory. -/
theorem JsonRule.action_embed (R : JsonReal D) (fuel : Nat) (rule : JsonRule)
    (vs : List (Option Nat)) :
    rule.action R fuel (F.embed m) (vs.map (·.map (F.freshNode + ·))) =
      (rule.action R fuel m vs).map F.carryValue := by
  have hd := dollar_map vs F.freshNode
  cases rule with
  | start =>
    simp only [JsonRule.action, hd]
    exact jsonUnary_embed (jsonSetTop_embed fuel) _
  | emptyObject => exact jsonResult_embed (jsonAlloc_embed .object)
  | emptyArray => exact jsonResult_embed (jsonAlloc_embed .array)
  | firstPair =>
    simp only [JsonRule.action, hd]
    exact jsonUnary_embed (jsonAppendPair_embed none) _
  | firstValue =>
    simp only [JsonRule.action, hd]
    exact jsonUnary_embed (jsonAppendValue_embed none) _
  | appendPair =>
    simp only [JsonRule.action, hd]
    exact jsonUnary_embed (jsonAppendPair_embed _) _
  | appendValue =>
    simp only [JsonRule.action, hd]
    exact jsonUnary_embed (jsonAppendValue_embed _) _
  | pair =>
    simp only [JsonRule.action, hd]
    exact jsonBinary_embed jsonGenPair_embed _ _
  | object | array | comma | unit | plus | parens =>
    simp only [JsonRule.action, hd]
    rfl
  | noComma => rfl
  | lor =>
    simp only [JsonRule.action, hd, isSome_map]
    split
    · rfl
    · split
      · rfl
      · exact jsonResult_embed (jsonAlloc_embed .null)
  | land =>
    simp only [JsonRule.action, hd, isNone_map]
    split
    · exact jsonResult_embed (jsonAlloc_embed .null)
    · rfl
  | bitOr | bitXor | bitAnd =>
    simp only [JsonRule.action, hd]
    exact jsonBinary_embed (jsonBitwise_embed _) _ _
  | add =>
    simp only [JsonRule.action, hd]
    exact jsonBinary_embed (jsonAdd_embed R) _ _
  | sub | mul | div | mod =>
    simp only [JsonRule.action, hd]
    exact jsonBinary_embed (jsonArith_embed _ _ R) _ _
  | neg =>
    simp only [JsonRule.action, hd]
    exact jsonUnary_embed (jsonNeg_embed R) _
  | null => exact jsonResult_embed (jsonAlloc_embed .null)
  | true => exact jsonResult_embed (jsonGenValue_embed .boolean (.b 1))
  | false => exact jsonResult_embed (jsonGenValue_embed .boolean (.b 0))

/-- The variables of the parser behind other memory. -/
def JsonConfig.embed {S : Type} (F : JsonMemory D) (c : JsonConfig S D) : JsonConfig S D :=
  { c with
    lookahead := c.lookahead.map fun x => (x.1, x.2.map (F.freshNode + ·))
    values := c.values.map (·.map (F.freshNode + ·))
    memory := F.embed c.memory }

theorem JsonMove.apply_embed {S : Type} (R : JsonReal D) (fuel : Nat) (c : JsonConfig S D)
    (state : S) (move : JsonMove) : move.apply R fuel (c.embed F) state =
      (move.apply R fuel c state).map fun x => (x.1.embed F, x.2) := by
  rcases c with ⟨st, la, vs, input, m⟩
  cases move with
  | read =>
    cases la with
    | some l => rfl
    | none =>
      simp only [JsonMove.apply, JsonConfig.embed, map_none]
      cases jsonYylex input with
      | none => rfl
      | some x =>
        rcases x with ⟨token, lexeme, input'⟩
        simp only [bind_some, jsonYylval_embed]
        cases jsonYylval R m lexeme <;> rfl
  | shift => cases la <;> rfl
  | reduce rule =>
    simp only [JsonMove.apply, JsonConfig.embed, length_map]
    split
    · rfl
    · rw [← map_take, ← map_reverse, JsonRule.action_embed]
      cases rule.action R fuel m (vs.take rule.length).reverse with
      | none => rfl
      | some x =>
        simp only [map_some, JsonMemory.carryValue, map_cons, map_drop]
  | accept =>
    simp only [JsonMove.apply, JsonConfig.embed, JsonMemory.embed, Option.map_map]
    rfl
  | error => rfl

theorem jsonYystep_embed (T : JsonTables) (R : JsonReal D) (fuel : Nat)
    (c : JsonConfig T.State D) :
    jsonYystep T R fuel (c.embed F) =
      (jsonYystep T R fuel c).map fun x => (x.1.embed F, x.2) := by
  have hstep : T.step (c.embed F).state ((c.embed F).lookahead.map (·.1)) =
      T.step c.state (c.lookahead.map (·.1)) := by
    rw [JsonConfig.embed, Option.map_map]
    rfl
  rw [jsonYystep, hstep]
  exact JsonMove.apply_embed R fuel c _ _

/-- The parser does behind other memory what it does in empty memory. -/
theorem jsonYyparse_embed (T : JsonTables) (R : JsonReal D) (fuel : Nat) :
    ∀ c : JsonConfig T.State D, jsonYyparse T R fuel (c.embed F) =
      (jsonYyparse T R fuel c).map fun x => (x.1.embed F, x.2) := by
  induction fuel with
  | zero => exact fun _ => rfl
  | succ fuel ih =>
    intro c
    rw [jsonYyparse, jsonYyparse, jsonYystep_embed]
    cases jsonYystep T R fuel c with
    | none => rfl
    | some x =>
      rcases x with ⟨c', _ | status⟩
      · exact ih c'
      · rfl

end Embed

end Kcs.Ext
