import Kcs.Ext.JsonTree

/-!
# The actions of a JSON document

What the actions of a derivation make of memory: the nodes of the document are new, all in the
list of the manager, and linked as the derivation says.

Main results:

- Theorem {lit}`JsonValue.run_built`: every derivation runs and builds its nodes.
- Theorem {lit}`jsonParse_built`: the document that a parse returns.
-/

namespace Kcs.Ext

open Option hiding or_self
open List hiding modify

variable {D : Type}

/-! ## Ranges of nodes -/

/-- A list with each number of a range once. -/
def Covers (nodes : List Nat) (lo hi : Nat) : Prop :=
  nodes.Nodup ∧ ∀ q : Nat, q ∈ nodes ↔ lo ≤ q ∧ q < hi

theorem covers_singleton (p : Nat) : Covers [p] p (p + 1) :=
  ⟨nodup_singleton p, fun q => by rw [mem_singleton]; omega⟩

theorem Covers.append {a b : List Nat} {lo mid hi : Nat} (ha : Covers a lo mid)
    (hb : Covers b mid hi) (hlo : lo ≤ mid) (hhi : mid ≤ hi) : Covers (a ++ b) lo hi := by
  refine ⟨nodup_append.mpr ⟨ha.1, hb.1, fun x hx y hy heq => ?_⟩, fun q => ?_⟩
  · have h1 := (ha.2 x).mp hx
    have h2 := (hb.2 y).mp hy
    omega
  · rw [mem_append, ha.2, hb.2]
    omega

theorem Covers.cons_top {a : List Nat} {lo p : Nat} (ha : Covers a lo p) (hlo : lo ≤ p) :
    Covers (p :: a) lo (p + 1) := by
  refine ⟨nodup_cons.mpr ⟨fun hp => ?_, ha.1⟩, fun q => ?_⟩
  · have h := (ha.2 p).mp hp
    omega
  · rw [mem_cons, ha.2]
    omega

theorem Covers.cons_bottom {a : List Nat} {p hi : Nat} (ha : Covers a (p + 1) hi)
    (hhi : p < hi) : Covers (p :: a) p hi :=
  (covers_singleton p).append ha (Nat.le_succ p) hhi

/-! ## Memory -/

namespace JsonMemory

/-- Memory with more nodes and strings, the old ones as they were. -/
structure Extends (m m' : JsonMemory D) : Prop where
  nodes_le : m.freshNode ≤ m'.freshNode
  strs_le : m.freshStr ≤ m'.freshStr
  body : ∀ q : Nat, q < m.freshNode → m.KeepsBody m' q
  next : ∀ q : Nat, q < m.freshNode → m.KeepsNext m' q
  prop : ∀ q : Nat, q < m.freshNode → m.KeepsProp m' q
  str : ∀ a : Nat, a < m.freshStr → m.KeepsStr m' a

/-- The nodes from a base on are those in the list of the manager. -/
structure Managed (m : JsonMemory D) (base : Nat) : Prop where
  base_le : base ≤ m.freshNode
  mgr_eq : m.mgr = if base < m.freshNode then some base else none
  node : ∀ q : Nat, base ≤ q → q < m.freshNode → ∃ n, m.node q = some n ∧ n.mgr = some base ∧
    n.link = if q = base then (if base + 1 < m.freshNode then some (m.freshNode - 1) else none)
      else if base + 1 < q then some (q - 1) else none

variable {m m' m'' : JsonMemory D} {p q : Nat} {n n' : JsonObject D} {base : Nat}

@[simp] theorem put_node_self : (m.put p n).node p = some n := Function.update_self ..

@[simp] theorem put_freshNode : (m.put p n).freshNode = m.freshNode := rfl

theorem put_node_of_ne (h : q ≠ p) : (m.put p n).node q = m.node q := Function.update_of_ne h ..

theorem modify_eq {f : JsonObject D → JsonObject D} (h : m.node p = some n) :
    m.modify p f = some (m.put p (f n)) := by
  rw [modify, h, map_some]

theorem Extends.trans (h : m.Extends m') (h' : m'.Extends m'') : m.Extends m'' where
  nodes_le := h.nodes_le.trans h'.nodes_le
  strs_le := h.strs_le.trans h'.strs_le
  body q hq := (h.body q hq).trans (h'.body q (hq.trans_le h.nodes_le))
  next q hq x hx := h'.next q (hq.trans_le h.nodes_le) x (h.next q hq x hx)
  prop q hq x hx := h'.prop q (hq.trans_le h.nodes_le) x (h.prop q hq x hx)
  str a ha s hs := h'.str a (ha.trans_le h.strs_le) s (h.str a ha s hs)

theorem keepsBody_of_eq (h : m'.node q = m.node q) : m.KeepsBody m' q :=
  ⟨fun n hn => ⟨n, h.trans hn, rfl, rfl, rfl, rfl, rfl⟩⟩

theorem keepsNext_of_eq (h : m'.node q = m.node q) : m.KeepsNext m' q :=
  fun _ ⟨n, hn, hx⟩ => ⟨n, h.trans hn, hx⟩

theorem keepsProp_of_eq (h : m'.node q = m.node q) : m.KeepsProp m' q :=
  fun _ ⟨n, hn, hx⟩ => ⟨n, h.trans hn, hx⟩

theorem extends_of_links (hnodes : m.freshNode ≤ m'.freshNode) (hstrs : m.freshStr ≤ m'.freshStr)
    (hnode : ∀ q : Nat, q < m.freshNode → ∀ n, m.node q = some n →
      ∃ link root, m'.node q = some { n with link := link, root := root })
    (hstr : ∀ a : Nat, a < m.freshStr → m.KeepsStr m' a) : m.Extends m' where
  nodes_le := hnodes
  strs_le := hstrs
  body q hq := ⟨fun n hn => by
    rcases hnode q hq n hn with ⟨link, root, hn'⟩
    exact ⟨_, hn', rfl, rfl, rfl, rfl, rfl⟩⟩
  next q hq x hx := by
    rcases hx with ⟨n, hn, rfl⟩
    rcases hnode q hq n hn with ⟨link, root, hn'⟩
    exact ⟨_, hn', rfl⟩
  prop q hq x hx := by
    rcases hx with ⟨n, hn, rfl⟩
    rcases hnode q hq n hn with ⟨link, root, hn'⟩
    exact ⟨_, hn', rfl⟩
  str := hstr

theorem Extends.put (h : m.Extends m') (hp : m.freshNode ≤ p) : m.Extends (m'.put p n) where
  nodes_le := h.nodes_le
  strs_le := h.strs_le
  body q hq := (h.body q hq).trans (keepsBody_of_eq (put_node_of_ne (by omega)))
  next q hq x hx := keepsNext_of_eq (put_node_of_ne (by omega)) x (h.next q hq x hx)
  prop q hq x hx := keepsProp_of_eq (put_node_of_ne (by omega)) x (h.prop q hq x hx)
  str a ha s hs := h.str a ha s hs

theorem Managed.put (h : m.Managed base) (hn : m.node p = some n) (hlink : n'.link = n.link)
    (hmgr : n'.mgr = n.mgr) : (m.put p n').Managed base where
  base_le := h.base_le
  mgr_eq := h.mgr_eq
  node q hlo hhi := by
    rcases h.node q hlo hhi with ⟨nq, hq, hm, hl⟩
    by_cases heq : q = p
    · subst heq
      rw [hn] at hq
      cases hq
      exact ⟨n', put_node_self, hmgr.trans hm, hlink.trans hl⟩
    · exact ⟨nq, (put_node_of_ne heq).trans hq, hm, hl⟩

end JsonMemory

/-! ## Each action -/

section Actions

variable {m : JsonMemory D} {base : Nat}

/-- What a new node with the list of the manager looks like. -/
structure NewNode (m : JsonMemory D) (base : Nat) (n : JsonObject D) (m' : JsonMemory D) :
    Prop where
  node : m'.node m.freshNode = some n
  freshNode : m'.freshNode = m.freshNode + 1
  ext : m.Extends m'
  managed : m'.Managed base

theorem jsonAlloc_spec (h : m.Managed base) (type : JsonType) :
    ∃ link mgr m', jsonAlloc m type = some (m.freshNode, m') ∧
      NewNode m base (.calloc type link mgr) m' ∧ m'.str = m.str ∧ m'.freshStr = m.freshStr := by
  have hbase := h.base_le
  let m1 : JsonMemory D :=
    { m with freshNode := m.freshNode + 1, objectAllocated := m.objectAllocated + 1 }
  by_cases hlt : base < m.freshNode
  · have hmgr : m.mgr = some base := by rw [h.mgr_eq, if_pos hlt]
    rcases h.node base (le_refl _) hlt with ⟨n, hn, hnm, hnl⟩
    rw [if_pos rfl] at hnl
    let m2 := (m1.put base { n with link := some m.freshNode }).put m.freshNode
      (.calloc type n.link (some base))
    have halloc : jsonAlloc m type = some (m.freshNode, m2) := by
      simp only [jsonAlloc, hmgr, hn, map_some, m1, m2]
    have hnew : m2.node m.freshNode = some (.calloc type n.link (some base)) :=
      JsonMemory.put_node_self
    have hmgrnode : m2.node base = some { n with link := some m.freshNode } := by
      rw [JsonMemory.put_node_of_ne (by omega), JsonMemory.put_node_self]
    -- Only the `link` of the manager is written among the old nodes.
    have hother : ∀ q : Nat, q < m.freshNode → q ≠ base → m2.node q = m.node q := by
      intro q hq hqb
      rw [JsonMemory.put_node_of_ne (by omega), JsonMemory.put_node_of_ne hqb]
    refine ⟨n.link, some base, m2, halloc, ⟨hnew, rfl, ?_, ?_⟩, rfl, rfl⟩
    · refine JsonMemory.extends_of_links (Nat.le_succ _) (le_refl _) (fun q hq nq hnq => ?_)
        (fun _ _ _ hs => hs)
      by_cases hqb : q = base
      · subst hqb
        rw [hn] at hnq
        cases hnq
        exact ⟨_, _, hmgrnode⟩
      · exact ⟨_, _, (hother q hq hqb).trans hnq⟩
    · have hfresh : m2.freshNode = m.freshNode + 1 := rfl
      refine ⟨by omega, ?_, fun q hlo hhi => ?_⟩
      · rw [show m2.mgr = m.mgr from rfl, hmgr, if_pos (by omega)]
      · rcases Nat.lt_trichotomy q m.freshNode with hq | hq | hq
        · by_cases hqb : q = base
          · subst hqb
            refine ⟨_, hmgrnode, hnm, ?_⟩
            rw [if_pos rfl, hfresh, if_pos (by omega), Nat.add_sub_cancel]
          · rcases h.node q hlo hq with ⟨nq, hnq, hm, hl⟩
            refine ⟨nq, (hother q hq hqb).trans hnq, hm, ?_⟩
            rw [hl, if_neg hqb, if_neg hqb]
        · subst hq
          refine ⟨_, hnew, rfl, ?_⟩
          rw [if_neg (by omega)]
          exact hnl
        · omega
  · have heq : base = m.freshNode := by omega
    have hmgr : m.mgr = none := by rw [h.mgr_eq, if_neg hlt]
    let m2 : JsonMemory D :=
      { m1.put m.freshNode (.calloc type none (some m.freshNode)) with mgr := some m.freshNode }
    have halloc : jsonAlloc m type = some (m.freshNode, m2) := by
      simp only [jsonAlloc, hmgr, m1, m2]
    have hnew : m2.node m.freshNode = some (.calloc type none (some m.freshNode)) :=
      Function.update_self ..
    have hfresh : m2.freshNode = m.freshNode + 1 := rfl
    refine ⟨none, some m.freshNode, m2, halloc, ⟨hnew, rfl, ?_, ?_⟩, rfl, rfl⟩
    · refine JsonMemory.extends_of_links (Nat.le_succ _) (le_refl _) (fun q hq nq hnq => ?_)
        (fun _ _ _ hs => hs)
      have hne : q ≠ m.freshNode := by omega
      exact ⟨_, _, (Function.update_of_ne hne ..).trans hnq⟩
    · refine ⟨by omega, ?_, fun q hlo hhi => ?_⟩
      · rw [if_pos (by omega), heq]
      · have hq : q = m.freshNode := by omega
        subst hq
        refine ⟨_, hnew, by rw [heq]; rfl, ?_⟩
        rw [if_pos heq.symm, if_neg (by omega)]
        rfl

theorem jsonGenValue_spec (h : m.Managed base) (type : JsonType) (value : JsonUnion D) :
    ∃ n m', jsonGenValue m type value = some (m.freshNode, m') ∧ NewNode m base n m' ∧
      n.type = type ∧ n.value = value ∧ n.next = none ∧ n.prop = none ∧ m'.str = m.str ∧
      m'.freshStr = m.freshStr := by
  rcases jsonAlloc_spec h type with ⟨link, mgr, m', halloc, hnew, hstr, hfresh⟩
  let n : JsonObject D :=
    { (JsonObject.calloc type link mgr : JsonObject D) with value := value }
  refine ⟨n, m'.put m.freshNode n, ?_, ⟨JsonMemory.put_node_self, hnew.freshNode, ?_, ?_⟩, rfl, rfl,
    rfl, rfl, hstr, hfresh⟩
  · rw [jsonGenValue, halloc, bind_some]
    simp only [JsonMemory.modify_eq hnew.node, map_some, n]
  · exact hnew.ext.put (le_refl _)
  · exact hnew.managed.put hnew.node rfl rfl

theorem jsonStringAlloc_extends (m : JsonMemory D) (s : List CChar) :
    m.Extends (jsonStringAlloc m s).2 :=
  JsonMemory.extends_of_links (le_refl _) (Nat.le_succ _) (fun _ _ n hn => ⟨n.link, n.root, hn⟩)
    (fun _ ha _ hs => (Function.update_of_ne (Nat.ne_of_lt ha) ..).trans hs)

theorem jsonGenTextObject_spec (h : m.Managed base) (s : List CChar) :
    ∃ n m', jsonGenTextObject m s = some (m.freshNode, m') ∧ NewNode m base n m' ∧
      n.type = .text ∧ n.value = .t m.freshStr ∧ n.next = none ∧ n.prop = none ∧
      m'.str m.freshStr = some s ∧ m'.freshStr = m.freshStr + 1 := by
  have hm : (jsonStringAlloc m s).2.Managed base := ⟨h.base_le, h.mgr_eq, h.node⟩
  rcases jsonGenValue_spec hm .text (.t m.freshStr) with
    ⟨n, m', hgen, hnew, htype, hvalue, hnext, hprop, hstr, hfresh⟩
  refine ⟨n, m', hgen, ⟨hnew.node, hnew.freshNode, ?_, hnew.managed⟩, htype, hvalue, hnext, hprop,
    ?_, hfresh⟩
  · exact (jsonStringAlloc_extends m s).trans hnew.ext
  · rw [hstr]
    exact Function.update_self ..

theorem jsonAppendValue_none (h : m.Managed base) (j2 : JsonPtr) :
    ∃ n m', jsonAppendValue m none j2 = some (m.freshNode, m') ∧ NewNode m base n m' ∧
      n.type = .array ∧ n.next = some j2 ∧ n.lary = some j2 ∧ m'.freshStr = m.freshStr := by
  rcases jsonAlloc_spec h .array with ⟨link, mgr, m', halloc, hnew, -, hfresh⟩
  let n : JsonObject D :=
    { (JsonObject.calloc .array link mgr : JsonObject D) with next := some j2, lary := some j2 }
  refine ⟨n, m'.put m.freshNode n, ?_, ⟨JsonMemory.put_node_self, hnew.freshNode, ?_, ?_⟩, rfl, rfl,
    rfl, hfresh⟩
  · simp only [jsonAppendValue, Option.elim, jsonGenArray, halloc, bind_some, hnew.node,
      JsonMemory.modify_eq hnew.node, JsonObject.calloc, map_some, n, ne_eq,
      not_true_eq_false, if_false]
  · exact hnew.ext.put (le_refl _)
  · exact hnew.managed.put hnew.node rfl rfl

theorem jsonAppendValue_some {j last j2 : JsonPtr} {n nl : JsonObject D} (hn : m.node j = some n)
    (htype : n.type = .array) (hlary : n.lary = some last) (hlast : m.node last = some nl)
    (hne : j ≠ last) :
    jsonAppendValue m (some j) j2 = some (j, (m.put last { nl with next := some j2 }).put j
      { n with lary := some j2 }) := by
  have hn' : (m.put last { nl with next := some j2 }).node j = some n :=
    (JsonMemory.put_node_of_ne hne).trans hn
  simp only [jsonAppendValue, Option.elim, bind_some, hn, htype, hlary,
    JsonMemory.modify_eq hlast, JsonMemory.modify_eq hn', map_some, ne_eq,
    not_true_eq_false, if_false]

theorem jsonAppendPair_none (h : m.Managed base) {j2 : JsonPtr} (hlt : j2 < m.freshNode)
    (hj2 : m.HasType j2 .pair) :
    ∃ n m', jsonAppendPair m none j2 = some (m.freshNode, m') ∧ NewNode m base n m' ∧
      n.type = .object ∧ n.prop = some j2 ∧ n.lobj = some j2 ∧ n.next = none ∧
      m'.freshStr = m.freshStr := by
  rcases jsonAlloc_spec h .object with ⟨link, mgr, m', halloc, hnew, -, hfresh⟩
  let n : JsonObject D :=
    { (JsonObject.calloc .object link mgr : JsonObject D) with prop := some j2, lobj := some j2 }
  rcases (hnew.ext.body j2 hlt).hasType hj2 with ⟨n2, hn2, htype⟩
  refine ⟨n, m'.put m.freshNode n, ?_, ⟨JsonMemory.put_node_self, hnew.freshNode, ?_, ?_⟩, rfl, rfl,
    rfl, rfl, hfresh⟩
  · simp only [jsonAppendPair, Option.elim, jsonGenObject, halloc, bind_some, hnew.node, hn2,
      htype, JsonMemory.modify_eq hnew.node, JsonObject.calloc, map_some, n, ne_eq,
      not_true_eq_false, or_self, if_false]
  · exact hnew.ext.put (le_refl _)
  · exact hnew.managed.put hnew.node rfl rfl

theorem jsonAppendPair_some {j last j2 : JsonPtr} {n nl : JsonObject D} (hn : m.node j = some n)
    (htype : n.type = .object) (hlobj : n.lobj = some last) (hlast : m.node last = some nl)
    (hj2 : m.HasType j2 .pair) (hne : j ≠ last) :
    jsonAppendPair m (some j) j2 = some (j, (m.put last { nl with prop := some j2 }).put j
      { n with lobj := some j2 }) := by
  rcases hj2 with ⟨n2, hn2, htype2⟩
  have hn' : (m.put last { nl with prop := some j2 }).node j = some n :=
    (JsonMemory.put_node_of_ne hne).trans hn
  simp only [jsonAppendPair, Option.elim, bind_some, hn, hn2, htype, htype2, hlobj,
    JsonMemory.modify_eq hlast, JsonMemory.modify_eq hn', map_some, ne_eq,
    not_true_eq_false, or_self, if_false]

theorem jsonGenPair_spec (h : m.Managed base) {j1 : JsonPtr} (j2 : JsonPtr) {n : JsonObject D}
    {a : Nat} {s : List CChar} (hn : m.node j1 = some n) (htype : n.type = .text) (hvalue : n.value = .t a)
    (hstr : m.str a = some s) (ha : a < m.freshStr) :
    ∃ m', jsonGenPair m j1 j2 = some (j1, m') ∧ m'.Managed base ∧
      m'.node j1 = some { n with type := .pair, key := some m.freshStr, value := .o j2 } ∧
      (∀ q, q ≠ j1 → m'.node q = m.node q) ∧ m'.freshNode = m.freshNode ∧
      m'.str m.freshStr = some s ∧ (∀ b : Nat, b < m.freshStr → b ≠ a → m'.str b = m.str b) ∧
      m'.freshStr = m.freshStr + 1 := by
  let n' : JsonObject D := { n with type := .pair, key := some m.freshStr, value := .o j2 }
  let m1 := (jsonStringAlloc m s).2
  have ha1 : m1.str a = some s := (Function.update_of_ne (Nat.ne_of_lt ha) ..).trans hstr
  let m2 : JsonMemory D :=
    { m1 with str := Function.update m1.str a none, stringAllocated := m1.stringAllocated - 1 }
  have hfree : jsonStringFree m1 a = some m2 := by rw [jsonStringFree, ha1, map_some]
  have hm2 : m2.Managed base := ⟨h.base_le, h.mgr_eq, h.node⟩
  refine ⟨m2.put j1 n', ?_, hm2.put hn rfl rfl, JsonMemory.put_node_self,
    fun q hq => JsonMemory.put_node_of_ne hq, rfl, ?_, fun b hb hba => ?_, rfl⟩
  · simp only [jsonGenPair, hn, bind_some, htype, hvalue, hstr]
    rw [show jsonStringAlloc m s = (m.freshStr, m1) from rfl]
    simp only [hfree, map_some, n']
  · exact (Function.update_of_ne (Nat.ne_of_gt ha) ..).trans (Function.update_self ..)
  · exact (Function.update_of_ne hba ..).trans (Function.update_of_ne (Nat.ne_of_lt hb) ..)

end Actions

/-! ## Derivations -/

/-- What a part of a derivation makes of memory, with the nodes and strings that it leaves. -/
structure Ran (base : Nat) (m m' : JsonMemory D) (nodes strs : List Nat) : Prop where
  ext : m.Extends m'
  managed : m'.Managed base
  covers : Covers nodes m.freshNode m'.freshNode
  strs_mem : ∀ a ∈ strs, m.freshStr ≤ a ∧ a < m'.freshStr

section Derivations

variable {m m' : JsonMemory D} {base : Nat} {nodes strs : List Nat}

variable {v : JsonValue}

theorem JsonValue.Built.extends {p : JsonPtr} {own : Option JsonPtr}
    (h : v.Built m p own nodes strs) (hext : m.Extends m') (hnodup : nodes.Nodup)
    (hlt : ∀ q ∈ nodes, q < m.freshNode) (hstrs : ∀ a ∈ strs, a < m.freshStr) :
    v.Built m' p own nodes strs :=
  h.frame v hnodup (fun q hq => ⟨hext.body q (hlt q hq), hext.prop q (hlt q hq)⟩)
    (fun q hq _ => hext.next q (hlt q hq)) (fun a ha => hext.str a (hstrs a ha))

theorem JsonMembers.Built.extends {ms : JsonMembers} {init : List JsonPtr} {last : JsonPtr}
    (h : ms.Built m init last nodes strs) (hext : m.Extends m') (hnodup : nodes.Nodup)
    (hlt : ∀ q ∈ nodes, q < m.freshNode) (hstrs : ∀ a ∈ strs, a < m.freshStr) :
    ms.Built m' init last nodes strs :=
  h.frame ms hnodup (fun q hq => ⟨hext.body q (hlt q hq), hext.next q (hlt q hq)⟩)
    (fun q hq _ => hext.prop q (hlt q hq)) (fun a ha => hext.str a (hstrs a ha))

theorem JsonElements.Built.extends {es : JsonElements} {init : List JsonPtr} {last : JsonPtr}
    {own : Option JsonPtr} (h : es.Built m init last own nodes strs) (hext : m.Extends m')
    (hnodup : nodes.Nodup) (hlt : ∀ q ∈ nodes, q < m.freshNode)
    (hstrs : ∀ a ∈ strs, a < m.freshStr) : es.Built m' init last own nodes strs :=
  h.frame es hnodup (fun q hq => ⟨hext.body q (hlt q hq), hext.prop q (hlt q hq)⟩)
    (fun q hq _ => hext.next q (hlt q hq)) (fun a ha => hext.str a (hstrs a ha))

theorem NewNode.ran {n : JsonObject D} (h : NewNode m base n m')
    (hfresh : m'.freshStr = m.freshStr) : Ran base m m' [m.freshNode] [] where
  ext := h.ext
  managed := h.managed
  covers := h.freshNode ▸ covers_singleton m.freshNode
  strs_mem a ha := absurd ha not_mem_nil

/-- What the derivation of a value does. -/
def JsonValue.Runs (R : JsonReal D) (base : Nat) (v : JsonValue) : Prop :=
  ∀ m : JsonMemory D, m.Managed base → ∃ p m' own nodes strs, v.run R m = some (p, m') ∧
    v.Built m' p own nodes strs ∧ m'.NextIs p own ∧ Ran base m m' nodes strs

/-- What the derivation of members does. -/
def JsonMembers.Runs (R : JsonReal D) (base : Nat) (ms : JsonMembers) : Prop :=
  ∀ m : JsonMemory D, m.Managed base → ∃ j m' init last nodes strs,
    ms.run R m = some (j, m') ∧ ms.Built m' init last nodes strs ∧ m'.PropIs last none ∧
    (∃ n, m'.node j = some n ∧ n.type = .object ∧ n.prop = (init ++ [last]).head? ∧
      n.lobj = some last ∧ n.next = none) ∧ Ran base m m' (j :: nodes) strs

/-- What the derivation of elements does. -/
def JsonElements.Runs (R : JsonReal D) (base : Nat) (es : JsonElements) : Prop :=
  ∀ m : JsonMemory D, m.Managed base → ∃ j m' init last own nodes strs,
    es.run R m = some (j, m') ∧ es.Built m' init last own nodes strs ∧ m'.NextIs last own ∧
    (∃ n, m'.node j = some n ∧ n.type = .array ∧ n.next = (init ++ [last]).head? ∧
      n.lary = some last) ∧ Ran base m m' (j :: nodes) strs

variable {R : JsonReal D}

theorem JsonValue.runs_leaf {type : JsonType} {value : JsonUnion D}
    (hrun : ∀ m : JsonMemory D, v.run R m = jsonGenValue m type value)
    (hbuilt : ∀ {m : JsonMemory D} {p : JsonPtr}, m.Leaf p type value →
      v.Built m p none [p] []) : v.Runs R base := by
  intro m h
  rcases jsonGenValue_spec h type value with
    ⟨n, m', hgen, hnew, htype, hvalue, hnext, -, -, hfresh⟩
  exact ⟨_, m', none, _, _, (hrun m).trans hgen, hbuilt ⟨n, hnew.node, htype, hvalue⟩,
    ⟨n, hnew.node, hnext⟩, hnew.ran hfresh⟩

theorem JsonValue.runs_alloc {type : JsonType}
    (hrun : ∀ m : JsonMemory D, v.run R m = jsonAlloc m type)
    (hbuilt : ∀ {m : JsonMemory D} {p : JsonPtr}, m.HasType p type → m.PropIs p none →
      v.Built m p none [p] []) : v.Runs R base := by
  intro m h
  rcases jsonAlloc_spec h type with ⟨link, mgr, m', halloc, hnew, -, hfresh⟩
  exact ⟨_, m', none, _, _, (hrun m).trans halloc,
    hbuilt ⟨_, hnew.node, rfl⟩ ⟨_, hnew.node, rfl⟩, ⟨_, hnew.node, rfl⟩, hnew.ran hfresh⟩

theorem JsonValue.runs_str (s : List CChar) : (JsonValue.str s).Runs R base := by
  intro m h
  rcases jsonGenTextObject_spec h s with
    ⟨n, m', hgen, hnew, htype, hvalue, hnext, -, hstr, hfresh⟩
  refine ⟨_, m', none, _, _, hgen, ⟨m.freshStr, ⟨n, hnew.node, htype, hvalue⟩, hstr, rfl, rfl, rfl⟩,
    ⟨n, hnew.node, hnext⟩, hnew.ext, hnew.managed, hnew.freshNode ▸ covers_singleton m.freshNode,
    fun a ha => ?_⟩
  rw [mem_singleton.mp ha]
  omega

theorem JsonValue.runs_minus (i : BitVec 64) : (JsonValue.minus i).Runs R base := by
  intro m h
  rcases jsonGenValue_spec h .integer (.i i) with
    ⟨n, m', hgen, hnew, htype, hvalue, hnext, -, -, hfresh⟩
  let n' : JsonObject D := { n with value := .i (-i) }
  have hrun : (JsonValue.minus i).run R m = some (m.freshNode, m'.put m.freshNode n') := by
    rw [JsonValue.run, jsonGenIntegerObject, hgen, bind_some]
    simp only [jsonNeg, hnew.node, bind_some, htype, hvalue, n']
  have hnew' : NewNode m base n' (m'.put m.freshNode n') :=
    ⟨JsonMemory.put_node_self, hnew.freshNode, hnew.ext.put (le_refl _),
      hnew.managed.put hnew.node rfl rfl⟩
  exact ⟨_, _, none, _, _, hrun, ⟨⟨n', hnew'.node, htype, rfl⟩, rfl, rfl, rfl⟩,
    ⟨n', hnew'.node, hnext⟩, hnew'.ran hfresh⟩

theorem JsonMembers.Runs.object {members : JsonMembers} (h : members.Runs R base) (comma : Bool) :
    (JsonValue.object members comma).Runs R base := by
  intro m hm
  rcases h m hm with ⟨j, m', init, last, nodes, strs, hrun, hbuilt, hlast,
    ⟨n, hn, htype, hprop, -, hnext⟩, hran⟩
  exact ⟨j, m', none, _, _, hrun, ⟨init, last, nodes, hbuilt, hlast, ⟨n, hn, htype⟩,
    ⟨n, hn, hprop⟩, rfl, rfl⟩, ⟨n, hn, hnext⟩, hran⟩

theorem JsonElements.Runs.array {elements : JsonElements} (h : elements.Runs R base)
    (comma : Bool) : (JsonValue.array elements comma).Runs R base := by
  intro m hm
  rcases h m hm with ⟨j, m', init, last, own, nodes, strs, hrun, hbuilt, hlast,
    ⟨n, hn, htype, hnext, -⟩, hran⟩
  exact ⟨j, m', _, _, _, hrun, ⟨init, last, own, nodes, hbuilt, hlast, ⟨n, hn, htype⟩, rfl, rfl⟩,
    ⟨n, hn, hnext⟩, hran⟩

variable {value : JsonValue}

theorem JsonValue.Runs.first (h : value.Runs R base) :
    (JsonElements.value value).Runs R base := by
  intro m hm
  rcases h m hm with ⟨p, m1, own, nodes, strs, hrun, hbuilt, hnext, hran⟩
  rcases jsonAppendValue_none hran.managed p with
    ⟨n, m2, happend, hnew, htype, hnnext, hlary, hfresh⟩
  have hlt : ∀ q ∈ nodes, q < m1.freshNode := fun q hq => ((hran.covers.2 q).mp hq).2
  refine ⟨_, m2, [], p, own, nodes, strs, ?_, ⟨?_, rfl⟩, ?_, ⟨n, hnew.node, htype, hnnext, hlary⟩,
    hran.ext.trans hnew.ext, hnew.managed, ?_, ?_⟩
  · rw [JsonElements.run, hrun, bind_some]
    exact happend
  · exact hbuilt.extends hnew.ext hran.covers.1 hlt fun a ha => (hran.strs_mem a ha).2
  · exact hnew.ext.next p (hlt p hbuilt.mem) _ hnext
  · rw [hnew.freshNode]
    exact hran.covers.cons_top hran.ext.nodes_le
  · rw [hfresh]
    exact hran.strs_mem

/-- A further element is linked behind the last one. -/
theorem JsonElements.Runs.append {elements : JsonElements}
    (hes : elements.Runs R base) (hvalue : value.Runs R base) :
    (JsonElements.append elements value).Runs R base := by
  intro m hm
  rcases hes m hm with ⟨j, m1, init, last, own, nodes, strs, hrun1, hbuilt1, hlast1,
    ⟨n1, hn1, htype1, hnext1, hlary1⟩, hran1⟩
  rcases hvalue m1 hran1.managed with ⟨p, m2, own2, nodes2, strs2, hrun2, hbuilt2, hnext2, hran2⟩
  rcases nodup_cons.mp hran1.covers.1 with ⟨hjmem, hnodup1⟩
  have hlt1 : ∀ q ∈ j :: nodes, m.freshNode ≤ q ∧ q < m1.freshNode :=
    fun q hq => (hran1.covers.2 q).mp hq
  have hlt2 : ∀ q ∈ nodes2, m1.freshNode ≤ q := fun q hq => ((hran2.covers.2 q).mp hq).1
  have hjlt := hlt1 j mem_cons_self
  have hlastmem : last ∈ j :: nodes := mem_cons_of_mem _ hbuilt1.last_mem
  have hlastlt := hlt1 last hlastmem
  have hne : j ≠ last := fun heq => hjmem (heq ▸ hbuilt1.last_mem)
  rcases (hran2.ext.body j hjlt.2).keeps n1 hn1 with ⟨n2, hn2, htype2, -, -, -, hlary2⟩
  rcases hran2.ext.next j hjlt.2 _ ⟨n1, hn1, hnext1⟩ with ⟨n2', hn2', hnnext2⟩
  rw [hn2] at hn2'
  cases hn2'
  rcases hran2.ext.next last hlastlt.2 _ hlast1 with ⟨nl, hnl, -⟩
  let m3 := (m2.put last { nl with next := some p }).put j { n2 with lary := some p }
  have happend : jsonAppendValue m2 (some j) p = some (j, m3) :=
    jsonAppendValue_some hn2 (htype2.trans htype1) (hlary2.trans hlary1) hnl hne
  have hlastnode : m3.node last = some { nl with next := some p } :=
    (JsonMemory.put_node_of_ne hne.symm).trans JsonMemory.put_node_self
  have hsame : ∀ q, q ≠ j → q ≠ last → m3.node q = m2.node q := fun q hj hl =>
    (JsonMemory.put_node_of_ne hj).trans (JsonMemory.put_node_of_ne hl)
  have hlastbody : m2.KeepsBody m3 last := ⟨fun n hn => by
    rw [hnl] at hn
    cases hn
    exact ⟨_, hlastnode, rfl, rfl, rfl, rfl, rfl⟩⟩
  have hlastprop : m2.KeepsProp m3 last := by
    rintro x ⟨n, hn, rfl⟩
    rw [hnl] at hn
    cases hn
    exact ⟨_, hlastnode, rfl⟩
  have hbuilt1' : elements.Built m3 init last own nodes strs := by
    have h2 := hbuilt1.extends hran2.ext hnodup1
      (fun q hq => (hlt1 q (mem_cons_of_mem _ hq)).2) fun a ha => (hran1.strs_mem a ha).2
    refine h2.frame elements hnodup1 (fun q hq => ?_) (fun q hq hql => ?_) fun _ _ _ hs => hs
    · by_cases hql : q = last
      · rw [hql]
        exact ⟨hlastbody, hlastprop⟩
      · have h := hsame q (fun heq => hjmem (heq ▸ hq)) hql
        exact ⟨JsonMemory.keepsBody_of_eq h, JsonMemory.keepsProp_of_eq h⟩
    · exact JsonMemory.keepsNext_of_eq (hsame q (fun heq => hjmem (heq ▸ hq)) hql)
  have hsame2 : ∀ q ∈ nodes2, m3.node q = m2.node q := fun q hq => by
    have hge := hlt2 q hq
    exact hsame q (Nat.ne_of_gt (hjlt.2.trans_le hge)) (Nat.ne_of_gt (hlastlt.2.trans_le hge))
  have hbuilt2' : value.Built m3 p own2 nodes2 strs2 :=
    hbuilt2.frame value hran2.covers.1
      (fun q hq => ⟨JsonMemory.keepsBody_of_eq (hsame2 q hq),
        JsonMemory.keepsProp_of_eq (hsame2 q hq)⟩)
      (fun q hq _ => JsonMemory.keepsNext_of_eq (hsame2 q hq)) fun _ _ _ hs => hs
  have hn2put : (m2.put last { nl with next := some p }).node j = some n2 :=
    (JsonMemory.put_node_of_ne hne).trans hn2
  have hmanaged : (m2.put last { nl with next := some p }).Managed base :=
    hran2.managed.put hnl rfl rfl
  refine ⟨j, m3, init ++ [last], p, own2, nodes ++ nodes2, strs ++ strs2, ?_,
    ⟨init, last, own, nodes, strs, nodes2, strs2, hbuilt1', ⟨_, hlastnode, rfl⟩, hbuilt2', rfl,
      rfl, rfl⟩, JsonMemory.keepsNext_of_eq (hsame2 p hbuilt2.mem) _ hnext2,
    ⟨_, JsonMemory.put_node_self, htype2.trans htype1, ?_, rfl⟩,
    ((hran1.ext.trans hran2.ext).put hlastlt.1).put hjlt.1,
    hmanaged.put hn2put rfl rfl, ?_, fun a ha => ?_⟩
  · rw [JsonElements.run, hrun1, bind_some]
    simp only [hrun2, bind_some, happend]
  · rw [show ({ n2 with lary := some p } : JsonObject D).next = n2.next from rfl, hnnext2]
    cases init <;> rfl
  · exact hran1.covers.append hran2.covers hran1.ext.nodes_le hran2.ext.nodes_le
  · rcases mem_append.mp ha with ha | ha
    · have h1 := hran1.strs_mem a ha
      have h2 := hran2.ext.strs_le
      exact ⟨h1.1, h1.2.trans_le h2⟩
    · have h1 := hran2.strs_mem a ha
      exact ⟨hran1.ext.strs_le.trans h1.1, h1.2⟩

/-- A key and its value become a pair. -/
theorem JsonValue.Runs.pair (h : value.Runs R base) (key : List CChar)
    (hm : m.Managed base) :
    ∃ q m1 w m2 m3 own a nodes strs, jsonGenTextObject m key = some (q, m1) ∧
      value.run R m1 = some (w, m2) ∧ jsonGenPair m2 q w = some (q, m3) ∧
      value.Built m3 w own nodes strs ∧ m3.NextIs w own ∧ m3.Pair q key a w ∧
      m3.PropIs q none ∧ Ran base m m3 (q :: nodes) (a :: strs) := by
  rcases jsonGenTextObject_spec hm key with
    ⟨n, m1, hgen, hnew, htype, hvalue, hnnext, hnprop, hstr, hfresh⟩
  rcases h m1 hnew.managed with ⟨w, m2, own, nodes, strs, hrun, hbuilt, hnext, hran⟩
  have hqlt : m.freshNode < m1.freshNode := by rw [hnew.freshNode]; exact Nat.lt_succ_self _
  have halt : m.freshStr < m1.freshStr := by rw [hfresh]; exact Nat.lt_succ_self _
  rcases (hran.ext.body _ hqlt).keeps n hnew.node with ⟨n2, hn2, htype2, -, hvalue2, -⟩
  rcases hran.ext.prop _ hqlt _ ⟨n, hnew.node, hnprop⟩ with ⟨n2', hn2', hprop2⟩
  rw [hn2] at hn2'
  cases hn2'
  have hlt2 := halt.trans_le hran.ext.strs_le
  rcases jsonGenPair_spec hran.managed w hn2 (htype2.trans htype)
    (hvalue2.trans hvalue) (hran.ext.str _ halt _ hstr) hlt2 with
    ⟨m3, hpair, hmanaged, hnode, hother, hfreshNode, hkey, hstrs, hfreshStr⟩
  have hsame : ∀ q ∈ nodes, m3.node q = m2.node q := fun q hq =>
    hother q (Nat.ne_of_gt (hqlt.trans_le ((hran.covers.2 q).mp hq).1))
  refine ⟨m.freshNode, m1, w, m2, m3, own, m2.freshStr, nodes, strs, hgen, hrun, hpair, ?_,
    JsonMemory.keepsNext_of_eq (hsame w hbuilt.mem) _ hnext,
    ⟨_, hnode, rfl, rfl, rfl, hkey⟩, ⟨_, hnode, hprop2⟩, ?_, hmanaged, ?_, ?_⟩
  · refine hbuilt.frame value hran.covers.1
      (fun q hq => ⟨JsonMemory.keepsBody_of_eq (hsame q hq),
        JsonMemory.keepsProp_of_eq (hsame q hq)⟩)
      (fun q hq _ => JsonMemory.keepsNext_of_eq (hsame q hq)) fun b hb s hs => ?_
    have hblt := hran.strs_mem b hb
    rw [hstrs b hblt.2 (Nat.ne_of_gt (halt.trans_le hblt.1))]
    exact hs
  · have hext := hnew.ext.trans hran.ext
    have hsame' : ∀ q : Nat, q < m.freshNode → m3.node q = m2.node q := fun q hq =>
      hother q (Nat.ne_of_lt hq)
    exact
      { nodes_le := hfreshNode ▸ hext.nodes_le
        strs_le := by rw [hfreshStr]; exact hext.strs_le.trans (Nat.le_succ _)
        body := fun q hq => (hext.body q hq).trans (JsonMemory.keepsBody_of_eq (hsame' q hq))
        next := fun q hq x hx =>
          JsonMemory.keepsNext_of_eq (hsame' q hq) x (hext.next q hq x hx)
        prop := fun q hq x hx =>
          JsonMemory.keepsProp_of_eq (hsame' q hq) x (hext.prop q hq x hx)
        str := fun b hb s hs => by
          rw [hstrs b (hb.trans_le hext.strs_le) (Nat.ne_of_lt hb)]
          exact hext.str b hb s hs }
  · have hcovers := hran.covers
    rw [hnew.freshNode] at hcovers
    rw [hfreshNode]
    exact hcovers.cons_bottom (hqlt.trans_le hran.ext.nodes_le)
  · intro b hb
    rw [hfreshStr]
    rcases mem_cons.mp hb with rfl | hb
    · exact ⟨(halt.trans_le hran.ext.strs_le).le, Nat.lt_succ_self _⟩
    · have hblt := hran.strs_mem b hb
      exact ⟨halt.le.trans hblt.1, hblt.2.trans (Nat.lt_succ_self _)⟩

theorem JsonValue.Runs.firstPair (h : value.Runs R base)
    (key : List CChar) : (JsonMembers.pair key value).Runs R base := by
  intro m hm
  rcases h.pair key hm with ⟨q, m1, w, m2, m3, own, a, nodes, strs, hgen, hrun, hpair, hbuilt,
    hnext, hp, hprop, hran⟩
  have hlt : ∀ x ∈ q :: nodes, x < m3.freshNode := fun x hx => ((hran.covers.2 x).mp hx).2
  have hqlt := hlt q mem_cons_self
  have htype : m3.HasType q .pair := by
    rcases hp with ⟨n, hn, ht, -⟩
    exact ⟨n, hn, ht⟩
  rcases jsonAppendPair_none hran.managed hqlt htype with
    ⟨n, m4, happend, hnew, hntype, hnprop, hlobj, hnnext, hfresh⟩
  have hstrs : ∀ b ∈ a :: strs, b < m3.freshStr := fun b hb => (hran.strs_mem b hb).2
  have hbuilt' : value.Built m4 w own nodes strs :=
    hbuilt.extends hnew.ext (nodup_cons.mp hran.covers.1).2
      (fun x hx => hlt x (mem_cons_of_mem _ hx))
      fun b hb => hstrs b (mem_cons_of_mem _ hb)
  refine ⟨_, m4, [], q, q :: nodes, a :: strs, ?_, ⟨w, own, a, nodes, strs, hbuilt',
      hnew.ext.next w (hlt w (mem_cons_of_mem _ hbuilt.mem)) _ hnext,
      (hnew.ext.body q hqlt).pair (hnew.ext.str a (hstrs a mem_cons_self)) hp, rfl, rfl, rfl⟩,
    hnew.ext.prop q hqlt _ hprop, ⟨n, hnew.node, hntype, hnprop, hlobj, hnnext⟩,
    hran.ext.trans hnew.ext, hnew.managed, ?_, ?_⟩
  · rw [JsonMembers.run, hgen, bind_some]
    simp only [hrun, bind_some, hpair, happend]
  · rw [hnew.freshNode]
    exact hran.covers.cons_top hran.ext.nodes_le
  · rw [hfresh]
    exact hran.strs_mem

/-- A further pair is linked behind the last one. -/
theorem JsonMembers.Runs.append {members : JsonMembers}
    (hms : members.Runs R base) (hvalue : value.Runs R base) (key : List CChar) :
    (JsonMembers.append members key value).Runs R base := by
  intro m hm
  rcases hms m hm with ⟨j, m0, init, last, nodes, strs, hrun0, hbuilt0, hlast0,
    ⟨n0, hn0, htype0, hprop0, hlobj0, hnext0⟩, hran0⟩
  rcases hvalue.pair key hran0.managed with ⟨q, m1, w, m2, m3, own, a, nodes2, strs2, hgen, hrun,
    hpair, hbuilt2, hnext2, hp, hqprop, hran2⟩
  rcases nodup_cons.mp hran0.covers.1 with ⟨hjmem, hnodup0⟩
  have hlt0 : ∀ x ∈ j :: nodes, m.freshNode ≤ x ∧ x < m0.freshNode :=
    fun x hx => (hran0.covers.2 x).mp hx
  have hlt2 : ∀ x ∈ q :: nodes2, m0.freshNode ≤ x := fun x hx => ((hran2.covers.2 x).mp hx).1
  have hjlt := hlt0 j mem_cons_self
  have hlastlt := hlt0 last (mem_cons_of_mem _ hbuilt0.last_mem)
  have hne : j ≠ last := fun heq => hjmem (heq ▸ hbuilt0.last_mem)
  rcases (hran2.ext.body j hjlt.2).keeps n0 hn0 with ⟨n2, hn2, htype2, -, -, hlobj2, -⟩
  rcases hran2.ext.prop j hjlt.2 _ ⟨n0, hn0, hprop0⟩ with ⟨n2', hn2', hnprop2⟩
  rcases hran2.ext.next j hjlt.2 _ ⟨n0, hn0, hnext0⟩ with ⟨n2'', hn2'', hnnext2⟩
  rw [hn2] at hn2' hn2''
  cases hn2'
  cases hn2''
  rcases hran2.ext.prop last hlastlt.2 _ hlast0 with ⟨nl, hnl, -⟩
  have htype : m3.HasType q .pair := by
    rcases hp with ⟨n, hn, ht, -⟩
    exact ⟨n, hn, ht⟩
  let m4 := (m3.put last { nl with prop := some q }).put j { n2 with lobj := some q }
  have happend : jsonAppendPair m3 (some j) q = some (j, m4) :=
    jsonAppendPair_some hn2 (htype2.trans htype0) (hlobj2.trans hlobj0) hnl htype hne
  have hlastnode : m4.node last = some { nl with prop := some q } :=
    (JsonMemory.put_node_of_ne hne.symm).trans JsonMemory.put_node_self
  have hsame : ∀ x, x ≠ j → x ≠ last → m4.node x = m3.node x := fun x hj hl =>
    (JsonMemory.put_node_of_ne hj).trans (JsonMemory.put_node_of_ne hl)
  have hlastbody : m3.KeepsBody m4 last := ⟨fun n hn => by
    rw [hnl] at hn
    cases hn
    exact ⟨_, hlastnode, rfl, rfl, rfl, rfl, rfl⟩⟩
  have hlastnext : m3.KeepsNext m4 last := by
    rintro x ⟨n, hn, rfl⟩
    rw [hnl] at hn
    cases hn
    exact ⟨_, hlastnode, rfl⟩
  have hbuilt0' : members.Built m4 init last nodes strs := by
    have h2 := hbuilt0.extends hran2.ext hnodup0
      (fun x hx => (hlt0 x (mem_cons_of_mem _ hx)).2) fun b hb => (hran0.strs_mem b hb).2
    refine h2.frame members hnodup0 (fun x hx => ?_) (fun x hx hxl => ?_) fun _ _ _ hs => hs
    · by_cases hxl : x = last
      · rw [hxl]
        exact ⟨hlastbody, hlastnext⟩
      · have h := hsame x (fun heq => hjmem (heq ▸ hx)) hxl
        exact ⟨JsonMemory.keepsBody_of_eq h, JsonMemory.keepsNext_of_eq h⟩
    · exact JsonMemory.keepsProp_of_eq (hsame x (fun heq => hjmem (heq ▸ hx)) hxl)
  have hsame2 : ∀ x ∈ q :: nodes2, m4.node x = m3.node x := fun x hx => by
    have hge := hlt2 x hx
    exact hsame x (Nat.ne_of_gt (hjlt.2.trans_le hge)) (Nat.ne_of_gt (hlastlt.2.trans_le hge))
  have hsame2' : ∀ x ∈ nodes2, m4.node x = m3.node x := fun x hx =>
    hsame2 x (mem_cons_of_mem _ hx)
  have hbuilt2' : value.Built m4 w own nodes2 strs2 :=
    hbuilt2.frame value (nodup_cons.mp hran2.covers.1).2
      (fun x hx => ⟨JsonMemory.keepsBody_of_eq (hsame2' x hx),
        JsonMemory.keepsProp_of_eq (hsame2' x hx)⟩)
      (fun x hx _ => JsonMemory.keepsNext_of_eq (hsame2' x hx)) fun _ _ _ hs => hs
  have hqsame := hsame2 q mem_cons_self
  have hp' : m4.Pair q key a w := (JsonMemory.keepsBody_of_eq hqsame).pair (fun _ hs => hs) hp
  have hn2put : (m3.put last { nl with prop := some q }).node j = some n2 :=
    (JsonMemory.put_node_of_ne hne).trans hn2
  have hmanaged : (m3.put last { nl with prop := some q }).Managed base :=
    hran2.managed.put hnl rfl rfl
  refine ⟨j, m4, init ++ [last], q, nodes ++ q :: nodes2, strs ++ a :: strs2, ?_,
    ⟨init, last, nodes, strs, w, own, a, nodes2, strs2, hbuilt0', ⟨_, hlastnode, rfl⟩, hbuilt2',
      JsonMemory.keepsNext_of_eq (hsame2' w hbuilt2.mem) _ hnext2, hp', rfl, rfl, rfl⟩,
    JsonMemory.keepsProp_of_eq hqsame _ hqprop,
    ⟨_, JsonMemory.put_node_self, htype2.trans htype0, ?_, rfl, hnnext2⟩,
    ((hran0.ext.trans hran2.ext).put hlastlt.1).put hjlt.1,
    hmanaged.put hn2put rfl rfl, ?_, fun b hb => ?_⟩
  · rw [JsonMembers.run, hrun0, bind_some]
    simp only [hgen, bind_some, hrun, hpair, happend]
  · rw [show ({ n2 with lobj := some q } : JsonObject D).prop = n2.prop from rfl, hnprop2]
    cases init <;> rfl
  · exact hran0.covers.append hran2.covers hran0.ext.nodes_le hran2.ext.nodes_le
  · rcases mem_append.mp hb with hb | hb
    · have h1 := hran0.strs_mem b hb
      exact ⟨h1.1, h1.2.trans_le hran2.ext.strs_le⟩
    · have h1 := hran2.strs_mem b hb
      exact ⟨hran0.ext.strs_le.trans h1.1, h1.2⟩

mutual

/-- Every derivation runs and builds its nodes. -/
theorem JsonValue.run_built : (v : JsonValue) → v.Runs R base
  | .emptyObject => JsonValue.runs_alloc (fun _ => rfl) fun ht hp => ⟨ht, hp, rfl, rfl, rfl⟩
  | .object members comma => (JsonMembers.run_built members).object comma
  | .emptyArray => JsonValue.runs_alloc (fun _ => rfl) fun ht _ => ⟨ht, rfl, rfl, rfl⟩
  | .array elements comma => (JsonElements.run_built elements).array comma
  | .str s => JsonValue.runs_str s
  | .int _ => JsonValue.runs_leaf (fun _ => rfl) fun h => ⟨h, rfl, rfl, rfl⟩
  | .minus i => JsonValue.runs_minus i
  | .null => JsonValue.runs_alloc (fun _ => rfl) fun ht _ => ⟨ht, rfl, rfl, rfl⟩
  | .true => JsonValue.runs_leaf (fun _ => rfl) fun h => ⟨h, rfl, rfl, rfl⟩
  | .false => JsonValue.runs_leaf (fun _ => rfl) fun h => ⟨h, rfl, rfl, rfl⟩

theorem JsonMembers.run_built : (ms : JsonMembers) → ms.Runs R base
  | .pair key value => (JsonValue.run_built value).firstPair key
  | .append members key value =>
    (JsonMembers.run_built members).append (JsonValue.run_built value) key

theorem JsonElements.run_built : (es : JsonElements) → es.Runs R base
  | .value value => (JsonValue.run_built value).first
  | .append elements value => (JsonElements.run_built elements).append (JsonValue.run_built value)

end

end Derivations

/-! ## The parser -/

section Parse

variable {m : JsonMemory D} {base : Nat}

/-- Memory in which nodes have another root. -/
structure Rooted (m m' : JsonMemory D) : Prop where
  freshNode : m'.freshNode = m.freshNode
  freshStr : m'.freshStr = m.freshStr
  str : m'.str = m.str
  mgr : m'.mgr = m.mgr
  node : ∀ q n, m.node q = some n → ∃ root, m'.node q = some { n with root := root }

theorem Rooted.trans {m' m'' : JsonMemory D} (h : Rooted m m') (h' : Rooted m' m'') :
    Rooted m m'' := by
  refine ⟨h'.freshNode.trans h.freshNode, h'.freshStr.trans h.freshStr, h'.str.trans h.str,
    h'.mgr.trans h.mgr, fun q n hn => ?_⟩
  rcases h.node q n hn with ⟨root, hn'⟩
  rcases h'.node q _ hn' with ⟨root', hn''⟩
  exact ⟨root', hn''⟩

theorem Rooted.put {n : JsonObject D} {p : JsonPtr} (hn : m.node p = some n)
    (root : Option JsonPtr) : Rooted m (m.put p { n with root := root }) := by
  refine ⟨rfl, rfl, rfl, rfl, fun q nq hq => ?_⟩
  by_cases heq : q = p
  · subst heq
    rw [hn] at hq
    cases hq
    exact ⟨root, JsonMemory.put_node_self⟩
  · exact ⟨nq.root, (JsonMemory.put_node_of_ne heq).trans hq⟩

theorem Rooted.extends {m' : JsonMemory D} (h : Rooted m m') : m.Extends m' :=
  JsonMemory.extends_of_links h.freshNode.ge h.freshStr.ge
    (fun q _ n hn => (h.node q n hn).elim fun root hn' => ⟨n.link, root, hn'⟩)
    fun a _ s hs => by rw [h.str]; exact hs

theorem Rooted.managed {m' : JsonMemory D} (h : Rooted m m') (hm : m.Managed base) :
    m'.Managed base := by
  refine ⟨h.freshNode ▸ hm.base_le, ?_, fun q hlo hhi => ?_⟩
  · rw [h.mgr, h.freshNode, hm.mgr_eq]
  · rw [h.freshNode] at hhi ⊢
    rcases hm.node q hlo hhi with ⟨n, hn, hmgr, hlink⟩
    rcases h.node q n hn with ⟨root, hn'⟩
    exact ⟨_, hn', hmgr, hlink⟩

theorem jsonSetRoot_succ {j p : JsonPtr} {n : JsonObject D} {x : Option JsonPtr} (fuel : Nat)
    (hn : m.node p = some n) (hlink : n.link = x) :
    jsonSetRoot j (fuel + 1) m (some p) =
      jsonSetRoot j fuel (m.put p { n with root := some j }) x := by
  subst hlink
  rw [jsonSetRoot, hn, bind_some]

theorem jsonSetRoot_spec (j : JsonPtr) (k : Nat) : ∀ {m : JsonMemory D}, m.Managed base →
    base + 1 + k < m.freshNode → ∃ m', Rooted m m' ∧
      ∀ fuel, k < fuel → jsonSetRoot j fuel m (some (base + 1 + k)) = some m' := by
  induction k with
  | zero =>
    intro m h hlt
    rcases h.node (base + 1 + 0) (by omega) hlt with ⟨n, hn, -, hlink⟩
    rw [if_neg (by omega), if_neg (by omega)] at hlink
    refine ⟨_, Rooted.put hn (some j), fun fuel hfuel => ?_⟩
    cases fuel with
    | zero => omega
    | succ fuel => rw [jsonSetRoot_succ fuel hn hlink, jsonSetRoot]
  | succ k ih =>
    intro m h hlt
    rcases h.node (base + 1 + (k + 1)) (by omega) hlt with ⟨n, hn, -, hlink⟩
    rw [if_neg (by omega), if_pos (by omega)] at hlink
    have hroot := Rooted.put hn (some j)
    rcases ih (hroot.managed h) (by rw [hroot.freshNode]; omega) with ⟨m', hm', hwalk⟩
    refine ⟨m', hroot.trans hm', fun fuel hfuel => ?_⟩
    cases fuel with
    | zero => omega
    | succ fuel =>
      rw [jsonSetRoot_succ fuel hn hlink]
      exact hwalk fuel (by omega)

theorem jsonSetTop_spec (h : m.Managed base) {j : Nat} (hlo : base ≤ j) (hhi : j < m.freshNode) :
    ∃ m', Rooted m m' ∧ ∃ enough, ∀ fuel, enough ≤ fuel →
      jsonSetTop fuel m j = some (j, { m' with root := some j }) := by
  rcases h.node j hlo hhi with ⟨nj, hnj, hmgr, -⟩
  have hbase : base < m.freshNode := hlo.trans_lt hhi
  rcases h.node base (le_refl _) hbase with ⟨n, hn, -, hlink⟩
  rw [if_pos rfl] at hlink
  have hroot := Rooted.put hn (some j)
  by_cases hlt : base + 1 < m.freshNode
  · rw [if_pos hlt] at hlink
    rcases jsonSetRoot_spec j (m.freshNode - base - 2) (hroot.managed h)
      (by rw [hroot.freshNode]; omega) with ⟨m', hm', hwalk⟩
    have htop : base + 1 + (m.freshNode - base - 2) = m.freshNode - 1 := by omega
    rw [htop] at hwalk
    refine ⟨m', hroot.trans hm', m.freshNode, fun fuel hfuel => ?_⟩
    cases fuel with
    | zero => omega
    | succ fuel =>
      rw [jsonSetTop, hnj, bind_some, hmgr, jsonSetRoot_succ fuel hn hlink,
        hwalk fuel (by omega), map_some]
  · rw [if_neg hlt] at hlink
    refine ⟨_, hroot, 1, fun fuel hfuel => ?_⟩
    cases fuel with
    | zero => omega
    | succ fuel =>
      rw [jsonSetTop, hnj, bind_some, hmgr, jsonSetRoot_succ fuel hn hlink, jsonSetRoot, map_some]

/-- The document that a parse returns, with all its nodes new. -/
theorem jsonParse_built (R : JsonReal D) (m : JsonMemory D) (v : JsonValue) :
    ∃ enough p m' own nodes strs, (∀ fuel, enough ≤ fuel → jsonParse R fuel m v = some (p, m')) ∧
      v.Built m' p own nodes strs ∧ m'.NextIs p own ∧
      Covers nodes m.freshNode m'.freshNode := by
  have hsetup : (jsonSetup m).Managed m.freshNode :=
    ⟨le_refl _, (if_neg (lt_irrefl m.freshNode)).symm, fun q hlo hhi => absurd hlo (Nat.not_le.mpr hhi)⟩
  rcases v.run_built (R := R) _ hsetup with ⟨p, m1, own, nodes, strs, hrun, hbuilt, hnext, hran⟩
  have hp := (hran.covers.2 p).mp hbuilt.mem
  rcases jsonSetTop_spec hran.managed hp.1 hp.2 with ⟨m2, hroot, enough, htop⟩
  have hext : m1.Extends { m2 with root := some p } :=
    { hroot.extends with
      body := fun q hq => ⟨(hroot.extends.body q hq).keeps⟩ }
  have hbuilt' : v.Built { m2 with root := some p } p own nodes strs :=
    hbuilt.extends hext hran.covers.1 (fun q hq => ((hran.covers.2 q).mp hq).2)
      fun a ha => (hran.strs_mem a ha).2
  refine ⟨enough, p, _, own, nodes, strs, fun fuel hfuel => ?_, hbuilt', hext.next p hp.2 _ hnext,
    ?_⟩
  · rw [jsonParse, hrun, bind_some]
    exact htop fuel hfuel
  · rw [show ({ m2 with root := some p } : JsonMemory D).freshNode = m1.freshNode from
      hroot.freshNode]
    exact hran.covers

end Parse

end Kcs.Ext
