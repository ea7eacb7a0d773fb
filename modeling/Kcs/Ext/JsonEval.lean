import Kcs.Ext.JsonDocument
import Kcs.Ext.JsonExpr

/-!
# Evaluation of JSON expressions

The actions that the parser of `json.y` runs for a value expression, on the nodes and texts of a
document.

Main results:

- Theorem {lit}`json_expression_evaluates_iff`: when an expression is evaluated to its value.
-/

namespace Kcs.Ext

open Option
open List hiding modify
open Precedence

variable {D : Type}

/-- The actions of an expression, in the order in which a parser from left to right reduces. -/
def JsonExpr.run (R : JsonReal D) (fuel : Nat) :
    JsonExpr → JsonMemory D → Option (Option JsonPtr × JsonMemory D)
  | .atom l, m => jsonYylval R m l.token.2
  | .parens e, m => (run R fuel e m).bind fun (v, m) =>
    JsonRule.parens.action R fuel m [none, v, none]
  | .sign u e, m => (run R fuel e m).bind fun (v, m) => u.rule.action R fuel m [none, v]
  | .binary op l r, m => (run R fuel l m).bind fun (v1, m) => (run R fuel r m).bind fun (v3, m) =>
    op.rule.action R fuel m [v1, none, v3]

theorem length_decimalText (i : BitVec 64) : (decimalText i).length ≤ 20 := by
  have hdigits : (Nat.toDigits 10 i.toInt.natAbs).length ≤ 19 := by
    rw [Nat.length_toDigits_le_iff (by decide) (by decide)]
    have hlo := i.le_toInt
    have hhi := i.toInt_lt
    norm_num at hlo hhi ⊢
    omega
  rw [decimalText, literal, length_map]
  generalize i.toInt = k at hdigits
  rcases k with n | n
  · show (Nat.repr n).toList.length ≤ 20
    rw [Nat.toList_repr]
    exact hdigits.trans (by decide)
  · show ("-" ++ Nat.repr (n + 1)).toList.length ≤ 20
    rw [String.toList_append, Nat.toList_repr, length_append]
    exact Nat.add_le_add (show _ ≤ 1 by decide) hdigits

/-! ## Values in nodes -/

namespace JsonMemory

variable {m m' : JsonMemory D} {base lo p : Nat} {v w : JsonData}

/-- A node holds a number, or a text in a string that is not below an address. -/
def Holds (m : JsonMemory D) (lo : Nat) (p : JsonPtr) : JsonData → Prop
  | .int i => m.Leaf p .integer (.i i)
  | .text s => ∃ a : Nat, lo ≤ a ∧ a < m.freshStr ∧ m.Leaf p .text (.t a) ∧ m.str a = some s

/-- Actions leave a value in a new node, and what was there before as it was. -/
structure Leaves (m : JsonMemory D) (base : Nat) (p : Nat) (v : JsonData) (m' : JsonMemory D) :
    Prop where
  lo : m.freshNode ≤ p
  hi : p < m'.freshNode
  holds : m'.Holds m.freshStr p v
  ext : m.Extends m'
  managed : m'.Managed base

theorem Holds.extends (h : m.Holds lo p v) (hp : p < m.freshNode) (hext : m.Extends m') :
    m'.Holds lo p v := by
  cases v with
  | int i => exact (hext.body p hp).leaf h
  | text s =>
    rcases h with ⟨a, hlo, hhi, hleaf, hstr⟩
    exact ⟨a, hlo, hhi.trans_le hext.strs_le, (hext.body p hp).leaf hleaf, hext.str a hhi s hstr⟩

theorem Holds.mono {lo' : Nat} (h : m.Holds lo p v) (hle : lo' ≤ lo) : m.Holds lo' p v := by
  cases v with
  | int i => exact h
  | text s =>
    rcases h with ⟨a, hlo, hrest⟩
    exact ⟨a, hle.trans hlo, hrest⟩

theorem Leaves.put {n n' : JsonObject D} (h : m.Leaves base p v m') (hn : m'.node p = some n)
    (hlink : n'.link = n.link) (hmgr : n'.mgr = n.mgr)
    (hw : (m'.put p n').Holds m.freshStr p w) : m.Leaves base p w (m'.put p n') :=
  ⟨h.lo, h.hi, hw, h.ext.put h.lo, h.managed.put hn hlink hmgr⟩

theorem Extends.writeStr (h : m.Extends m') {str : StringPtr → Option (List CChar)} {k : Nat}
    (hle : m'.freshStr ≤ k) (n : BitVec 32) (hstr : ∀ a : Nat, a < m.freshStr → str a = m'.str a) :
    m.Extends { m' with str := str, freshStr := k, stringAllocated := n } where
  nodes_le := h.nodes_le
  strs_le := h.strs_le.trans hle
  body q hq := ⟨(h.body q hq).keeps⟩
  next q hq := h.next q hq
  prop q hq := h.prop q hq
  str a ha s hs := (hstr a ha).trans (h.str a ha s hs)

theorem Managed.writeStr (h : m.Managed base) (str : StringPtr → Option (List CChar)) (k : Nat)
    (n : BitVec 32) : { m with str := str, freshStr := k, stringAllocated := n }.Managed base :=
  ⟨h.base_le, h.mgr_eq, h.node⟩

/-- What an operand leaves is still there when the next operand has been evaluated. -/
theorem Leaves.trans {q : Nat} {m'' : JsonMemory D} (h : m.Leaves base p v m')
    (h' : m'.Leaves base q w m'') :
    m.Leaves base p v m'' ∧ m.Leaves base q w m'' :=
  ⟨⟨h.lo, h.hi.trans_le h'.ext.nodes_le, h.holds.extends h.hi h'.ext, h.ext.trans h'.ext,
      h'.managed⟩,
    h.ext.nodes_le.trans h'.lo, h'.hi, h'.holds.mono h.ext.strs_le, h.ext.trans h'.ext, h'.managed⟩

end JsonMemory

/-! ## Actions on values -/

section Actions

variable {R : JsonReal D} {fuel base p q : Nat} {m m' : JsonMemory D} {v w : JsonData}

/-- The action of a sign changes the node of its operand. -/
theorem JsonSign.action_spec (u : JsonSign) (h : m.Leaves base p v m') :
    ∃ m'', u.rule.action R fuel m' [none, some p] = some (some p, m'') ∧
      m.Leaves base p (u.data v) m'' := by
  cases u with
  | plus => exact ⟨m', rfl, by cases v <;> exact h⟩
  | minus =>
    cases v with
    | int i =>
      rcases h.holds with ⟨n, hn, htype, hvalue⟩
      let n' : JsonObject D := { n with value := .i (-i) }
      refine ⟨m'.put p n', ?_, h.put hn rfl rfl ⟨n', JsonMemory.put_node_self, htype, rfl⟩⟩
      simp only [JsonSign.rule, JsonRule.action, dollar, jsonUnary, jsonResult,
        List.getElem?_cons_succ, List.getElem?_cons_zero, join_some, bind_some, jsonNeg, hn, htype,
        hvalue, map_some, n']
    | text s =>
      refine ⟨m', ?_, h⟩
      rcases h.holds with ⟨a, -, -, ⟨n, hn, htype, hvalue⟩, -⟩
      simp only [JsonSign.rule, JsonRule.action, dollar, jsonUnary, jsonResult,
        List.getElem?_cons_succ, List.getElem?_cons_zero, join_some, bind_some, jsonNeg, hn, htype,
        hvalue, map_some]

/-- The function that the action of an operator calls, or what it does in its place. -/
def JsonOperator.function (R : JsonReal D) (m : JsonMemory D) (j1 j2 : JsonPtr) :
    JsonOperator → Option (JsonPtr × JsonMemory D)
  | mul => jsonArith (fun a b => some (a * b)) R.mul R m j1 j2
  | div => jsonArith (divide BitVec.sdiv) R.div R m j1 j2
  | mod => jsonArith (divide BitVec.srem) R.fmod R m j1 j2
  | add => jsonAdd R m j1 j2
  | sub => jsonArith (fun a b => some (a - b)) R.sub R m j1 j2
  | bitAnd => jsonBitwise (· &&& ·) m j1 j2
  | bitXor => jsonBitwise (· ^^^ ·) m j1 j2
  | bitOr => jsonBitwise (· ||| ·) m j1 j2
  | land => some (j2, m)
  | lor => some (j1, m)

theorem JsonOperator.action_eq (op : JsonOperator) (m : JsonMemory D) (j1 j2 : JsonPtr) :
    op.rule.action R fuel m [some j1, none, some j2] = jsonResult (op.function R m j1 j2) := by
  cases op <;> rfl

/-- An operator on two numbers. -/
theorem JsonOperator.function_ints (op : JsonOperator) {a b : BitVec 64}
    (hp : m.Leaves base p (.int a) m') (hq : m.Leaves base q (.int b) m') :
    (op.Defined (.int a) (.int b) → ∃ r m'', op.function R m' p q = some (r, m'') ∧
      m.Leaves base r (.int (op.apply a b)) m'') ∧
    (¬op.Defined (.int a) (.int b) → op.function R m' p q = none) := by
  rcases hp.holds with ⟨n1, hn1, htype1, hvalue1⟩
  rcases hq.holds with ⟨n2, hn2, htype2, hvalue2⟩
  let n' : JsonObject D := { n1 with value := .i (op.apply a b) }
  have hput : m.Leaves base p (.int (op.apply a b)) (m'.put p n') :=
    hp.put hn1 rfl rfl ⟨n', JsonMemory.put_node_self, htype1, rfl⟩
  constructor
  · intro h
    have hdivide : ∀ f, op = div ∨ op = mod → divide f a b = some (f a b) := fun f hop =>
      if_neg (not_or.mpr (h hop))
    cases op with
    | land => exact ⟨q, m', rfl, hq⟩
    | lor => exact ⟨p, m', rfl, hp⟩
    | div =>
      refine ⟨p, _, ?_, hput⟩
      simp only [function, jsonArith, hn1, hn2, htype1, htype2, hvalue1, hvalue2, bind_some,
        JsonUnion.int?, hdivide _ (.inl rfl), map_some, apply, n']
    | mod =>
      refine ⟨p, _, ?_, hput⟩
      simp only [function, jsonArith, hn1, hn2, htype1, htype2, hvalue1, hvalue2, bind_some,
        JsonUnion.int?, hdivide _ (.inr rfl), map_some, apply, n']
    | _ =>
      refine ⟨p, _, ?_, hput⟩
      simp only [function, jsonAdd, jsonArith, jsonBitwise, hn1, hn2, htype1, htype2, hvalue1,
        hvalue2, bind_some, JsonUnion.int?, map_some, apply, and_self, if_true, n']
  · intro h
    rcases Classical.not_imp.mp h with ⟨hop, hnot⟩
    have hdivide : ∀ f, divide f a b = none := fun f =>
      if_pos (by rwa [← not_or, not_not] at hnot)
    rcases hop with rfl | rfl
    all_goals
      simp only [function, jsonArith, hn1, hn2, htype1, htype2, hvalue1, hvalue2, bind_some,
        JsonUnion.int?, hdivide, map_none]

/-- The types of nodes that hold values. -/
theorem JsonMemory.Holds.node {lo : Nat} (h : m.Holds lo p v) :
    ∃ n, m.node p = some n ∧ n.type = match v with
      | .int _ => .integer
      | .text _ => .text := by
  cases v with
  | int i =>
    rcases h with ⟨n, hn, htype, -⟩
    exact ⟨n, hn, htype⟩
  | text s =>
    rcases h with ⟨a, -, -, ⟨n, hn, htype, -⟩, -⟩
    exact ⟨n, hn, htype⟩

/-- With a text, an operator that neither joins nor is `&&` leaves its left operand as it is. -/
theorem JsonOperator.function_keeps {op : JsonOperator} (hadd : op ≠ add) (hland : op ≠ land)
    (hp : m.Holds base p v) (hq : m.Holds base q w) (htext : ∀ a b, ¬(v = .int a ∧ w = .int b)) :
    op.function R m p q = some (p, m) := by
  rcases hp.node with ⟨n1, hn1, htype1⟩
  rcases hq.node with ⟨n2, hn2, htype2⟩
  cases v with
  | int a =>
    cases w with
    | int b => exact absurd ⟨rfl, rfl⟩ (htext a b)
    | text t =>
      simp only at htype1 htype2
      cases op <;> first
        | exact absurd rfl hadd
        | exact absurd rfl hland
        | simp only [function, jsonArith, jsonBitwise, hn1, hn2, htype1, htype2, bind_some,
            reduceCtorEq, and_false, if_false]
  | text s =>
    simp only at htype1 htype2
    cases op <;> first
      | exact absurd rfl hadd
      | exact absurd rfl hland
      | simp only [function, jsonArith, jsonBitwise, hn1, hn2, htype1, bind_some, reduceCtorEq,
          false_and, if_false]

/-- `+` of a number and a text makes the number a text, in a new string. -/
theorem jsonAdd_int_text {a : BitVec 64} {t : List CChar} (hp : m.Leaves base p (.int a) m')
    (hq : m'.Holds m.freshStr q (.text t)) :
    ∃ m'', jsonAdd R m' p q = some (p, m'') ∧
      m.Leaves base p (.text (decimalText a ++ t)) m'' := by
  rcases hp.holds with ⟨n1, hn1, htype1, hvalue1⟩
  rcases hq with ⟨c, -, -, ⟨n2, hn2, htype2, hvalue2⟩, hstr⟩
  have hfits : jsonSprintf (literal (toString a.toInt)) = some (decimalText a) :=
    if_pos (Nat.lt_of_le_of_lt (length_decimalText a) (by decide))
  have hfresh : m.freshStr ≤ m'.freshStr := hp.ext.strs_le
  let m1 : JsonMemory D := (jsonStringAlloc m' (decimalText a ++ t)).2
  have hnew : m1.str m'.freshStr = some (decimalText a ++ t) := Function.update_self ..
  refine ⟨m1.put p { n1 with type := .text, value := .t m'.freshStr }, ?_, hp.lo, hp.hi,
    ⟨m'.freshStr, hfresh, Nat.lt_succ_self _, ⟨_, JsonMemory.put_node_self, rfl, rfl⟩, hnew⟩,
    (hp.ext.trans (jsonStringAlloc_extends m' _)).put hp.lo,
    (hp.managed.writeStr _ _ _).put hn1 rfl rfl⟩
  simp only [jsonAdd, hn1, hn2, htype1, htype2, hvalue1, hvalue2, bind_some, JsonUnion.int?,
    jsonAddText, hfits, JsonUnion.text?, hstr, map_some]
  rfl

/-- `+` of a text and a number or a text appends to the string of the first text. -/
theorem jsonAdd_text {s : List CChar} (hp : m.Leaves base p (.text s) m')
    (hq : m'.Holds m.freshStr q w) :
    ∃ m'', jsonAdd R m' p q = some (p, m'') ∧ m.Leaves base p (.text (s ++ w.joined)) m'' := by
  rcases hp.holds with ⟨c, hc, hclt, ⟨n1, hn1, htype1, hvalue1⟩, hstr⟩
  refine ⟨{ m' with str := Function.update m'.str c (some (s ++ w.joined)) }, ?_, hp.lo, hp.hi,
    ⟨c, hc, hclt, ⟨n1, hn1, htype1, hvalue1⟩, Function.update_self ..⟩,
    hp.ext.writeStr (le_refl _) m'.stringAllocated
      fun b hb => Function.update_of_ne (Nat.ne_of_lt (hb.trans_le hc)) ..,
    hp.managed.writeStr _ _ _⟩
  cases w with
  | int b =>
    rcases hq with ⟨n2, hn2, htype2, hvalue2⟩
    simp only [jsonAdd, hn1, hn2, htype1, htype2, hvalue1, hvalue2, bind_some, JsonUnion.int?,
      jsonTextAppend, JsonUnion.text?, hstr, map_some, JsonData.joined, decimalText]
  | text t =>
    rcases hq with ⟨d, -, -, ⟨n2, hn2, htype2, hvalue2⟩, hstr2⟩
    simp only [jsonAdd, hn1, hn2, htype1, htype2, hvalue1, hvalue2, bind_some, jsonTextAppend,
      JsonUnion.text?, hstr, hstr2, map_some, JsonData.joined]

/-- The function of an operator leaves the value in a node, or traps. -/
theorem JsonOperator.function_spec (op : JsonOperator) (hp : m.Leaves base p v m')
    (hq : m.Leaves base q w m') :
    (op.Defined v w → ∃ r m'', op.function R m' p q = some (r, m'') ∧
      m.Leaves base r (op.data v w) m'') ∧
    (¬op.Defined v w → op.function R m' p q = none) := by
  by_cases hints : ∃ a b, v = .int a ∧ w = .int b
  · rcases hints with ⟨a, b, rfl, rfl⟩
    exact op.function_ints hp hq
  · have htext : ∀ a b, ¬(v = .int a ∧ w = .int b) := fun a b h => hints ⟨a, b, h⟩
    have hdata : op.data v w =
        if op = add then .text (v.joined ++ w.joined) else if op = land then w else v := by
      cases v <;> cases w <;> first | rfl | exact absurd ⟨rfl, rfl⟩ (htext _ _)
    have hdefined : op.Defined v w := by
      cases v <;> cases w <;> first | trivial | exact absurd ⟨rfl, rfl⟩ (htext _ _)
    refine ⟨fun _ => ?_, fun h => absurd hdefined h⟩
    rw [hdata]
    by_cases hadd : op = add
    · rw [if_pos hadd, hadd]
      cases v with
      | int a =>
        cases w with
        | int b => exact absurd ⟨rfl, rfl⟩ (htext a b)
        | text t =>
          rcases jsonAdd_int_text (R := R) hp hq.holds with ⟨m'', hresult, hleaves⟩
          exact ⟨p, m'', hresult, hleaves⟩
      | text s =>
        rcases jsonAdd_text (R := R) hp hq.holds with ⟨m'', hresult, hleaves⟩
        exact ⟨p, m'', hresult, hleaves⟩
    by_cases hland : op = land
    · rw [if_neg hadd, if_pos hland, hland]
      exact ⟨q, m', rfl, hq⟩
    · rw [if_neg hadd, if_neg hland]
      exact ⟨p, m', function_keeps hadd hland hp.holds hq.holds htext, hp⟩

/-- The node of a literal is new and holds its value. -/
theorem JsonLiteral.read_spec (h : m.Managed base) (l : JsonLiteral) :
    ∃ m', jsonYylval R m l.token.2 = some (some m.freshNode, m') ∧
      m.Leaves base m.freshNode l.data m' := by
  cases l with
  | text s =>
    rcases jsonGenTextObject_spec h s with
      ⟨n, m', hgen, hnew, htype, hvalue, -, -, hstr, hfresh⟩
    refine ⟨m', ?_, le_refl _, ?_, ⟨m.freshStr, le_refl _, ?_, ⟨n, hnew.node, htype, hvalue⟩,
      hstr⟩, hnew.ext, hnew.managed⟩
    · simp only [JsonLiteral.token, jsonYylval, hgen, map_some]
    · rw [hnew.freshNode]
      exact Nat.lt_succ_self _
    · rw [hfresh]
      exact Nat.lt_succ_self _
  | int s base' =>
    -- The string that the lexer needs meanwhile is freed.
    have hm : (jsonStringAlloc m s).2.Managed base := h.writeStr _ _ _
    rcases jsonGenValue_spec hm .integer (.i (strtoll s base')) with
      ⟨n, m', hgen, hnew, htype, hvalue, -, -, hstr, hfresh⟩
    have hold : m'.str m.freshStr = some s := by
      rw [hstr]
      exact Function.update_self ..
    let m2 : JsonMemory D :=
      { m' with
        str := Function.update m'.str m.freshStr none
        stringAllocated := m'.stringAllocated - 1 }
    have hfree : jsonStringFree m' m.freshStr = some m2 := by
      rw [jsonStringFree, hold, map_some]
    refine ⟨m2, ?_, le_refl _, ?_, ⟨n, hnew.node, htype, hvalue⟩, ?_, hnew.managed.writeStr _ _ _⟩
    · rw [JsonLiteral.token, jsonYylval,
        show jsonStringAlloc m s = (m.freshStr, (jsonStringAlloc m s).2) from rfl]
      simp only [jsonGenIntegerObject, hgen, bind_some, hfree, map_some]
      rfl
    · show m.freshNode < m'.freshNode
      rw [hnew.freshNode]
      exact Nat.lt_succ_self _
    · exact ((jsonStringAlloc_extends m s).trans hnew.ext).writeStr (le_refl _) _
        fun a ha => Function.update_of_ne (Nat.ne_of_lt ha) ..

end Actions

/-! ## Expressions -/

namespace JsonExpr

/-- An expression leaves its value in a new node, or traps. -/
theorem run_spec (R : JsonReal D) (fuel : Nat) {base : Nat} (e : JsonExpr) {m : JsonMemory D}
    (hm : m.Managed base) :
    (Defined e → ∃ p m', e.run R fuel m = some (some p, m') ∧ m.Leaves base p (value e) m') ∧
    (¬Defined e → e.run R fuel m = none) := by
  induction e generalizing m with
  | atom l =>
    rcases l.read_spec (R := R) hm with ⟨m', hread, hleaves⟩
    exact ⟨fun _ => ⟨_, m', hread, hleaves⟩, fun h => absurd trivial h⟩
  | parens e ih =>
    refine ⟨fun h => ?_, fun h => by rw [run, (ih hm).2 h, bind_none]⟩
    rcases (ih hm).1 h with ⟨p, m', hrun, hleaves⟩
    refine ⟨p, m', ?_, hleaves⟩
    rw [run, hrun, bind_some]
    rfl
  | sign u e ih =>
    refine ⟨fun h => ?_, fun h => by rw [run, (ih hm).2 h, bind_none]⟩
    rcases (ih hm).1 h with ⟨p, m', hrun, hleaves⟩
    rcases u.action_spec (R := R) hleaves with ⟨m'', haction, hleaves'⟩
    refine ⟨p, m'', ?_, hleaves'⟩
    rw [run, hrun, bind_some]
    exact haction
  | binary op l r ihl ihr =>
    by_cases hl : Defined l
    swap
    · exact ⟨fun h => absurd h.1 hl, fun _ => by rw [run, (ihl hm).2 hl, bind_none]⟩
    rcases (ihl hm).1 hl with ⟨p, m1, hrun1, hleaves1⟩
    by_cases hr : Defined r
    swap
    · refine ⟨fun h => absurd h.2.1 hr, fun _ => ?_⟩
      rw [run, hrun1, bind_some]
      simp only [(ihr hleaves1.managed).2 hr, bind_none]
    rcases (ihr hleaves1.managed).1 hr with ⟨q, m2, hrun2, hleaves2⟩
    rcases hleaves1.trans hleaves2 with ⟨hp, hq⟩
    have hrun : run R fuel (.binary op l r) m = jsonResult (op.function R m2 p q) := by
      rw [run, hrun1, bind_some]
      simp only [hrun2, bind_some, op.action_eq]
    have hfunction := op.function_spec (R := R) hp hq
    rw [hrun]
    refine ⟨fun h => ?_, fun h => ?_⟩
    · rcases hfunction.1 h.2.2 with ⟨x, m', hresult, hleaves⟩
      exact ⟨x, m', by rw [hresult, jsonResult, map_some], hleaves⟩
    · rw [hfunction.2 fun hop => h ⟨hl, hr, hop⟩, jsonResult, map_none]

/-- The actions of an expression end with its value in a new node, and leave the nodes and texts
alone that were there before. -/
def Evaluates (R : JsonReal D) (fuel : Nat) (m : JsonMemory D) (e : JsonExpr) : Prop :=
  ∃ p m', e.run R fuel m = some (some p, m') ∧ m.freshNode ≤ p ∧
    m'.Holds m.freshStr p (value e) ∧ m.Extends m'

end JsonExpr

end Kcs.Ext
