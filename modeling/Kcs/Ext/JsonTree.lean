import Kcs.Ext.JsonNode

/-!
# Trees of JSON documents

The derivations of the grammar in `json.y` for documents without operators, the actions that a
derivation runs, and the nodes that it leaves behind.

Main results:

- Theorem {lit}`JsonValue.run_built`: every derivation runs and builds its nodes.
-/

namespace Kcs.Ext

/-! ## Derivations -/

mutual

/-- Derivations of `JsonValue` without operators, except the sign of a number. -/
inductive JsonValue
  | emptyObject
  | object (members : JsonMembers) (comma : Bool)
  | emptyArray
  | array (elements : JsonElements) (comma : Bool)
  | str (s : List CChar)
  | int (i : BitVec 64)
  | minus (i : BitVec 64)
  | null
  | true
  | false

/-- Derivations of `JsonMembers`. -/
inductive JsonMembers
  | pair (key : List CChar) (value : JsonValue)
  | append (members : JsonMembers) (key : List CChar) (value : JsonValue)

/-- Derivations of `JsonElements`. -/
inductive JsonElements
  | value (value : JsonValue)
  | append (elements : JsonElements) (value : JsonValue)

end

variable {D : Type}

mutual

/-- The actions of a `JsonValue`, those of a token when it is read. -/
def JsonValue.run (R : JsonReal D) : JsonValue → JsonMemory D → Option (JsonPtr × JsonMemory D)
  | .emptyObject, m => jsonGenObject m
  | .object members _, m => members.run R m
  | .emptyArray, m => jsonGenArray m
  | .array elements _, m => elements.run R m
  | .str s, m => jsonGenTextObject m s
  | .int i, m => jsonGenIntegerObject m i
  | .minus i, m => (jsonGenIntegerObject m i).bind fun (j, m) => jsonNeg R m j
  | .null, m => jsonMakeNull m
  | .true, m => jsonMakeBoolean m 1
  | .false, m => jsonMakeBoolean m 0

/-- The actions of `JsonMembers` and of the `JsonPair`s in it. -/
def JsonMembers.run (R : JsonReal D) : JsonMembers → JsonMemory D → Option (JsonPtr × JsonMemory D)
  | .pair key value, m =>
    (jsonGenTextObject m key).bind fun (j1, m) =>
      (value.run R m).bind fun (j3, m) =>
        (jsonGenPair m j1 j3).bind fun (j, m) => jsonAppendPair m none j
  | .append members key value, m =>
    (members.run R m).bind fun (j1, m) =>
      (jsonGenTextObject m key).bind fun (k, m) =>
        (value.run R m).bind fun (j3, m) =>
          (jsonGenPair m k j3).bind fun (j, m) => jsonAppendPair m (some j1) j

/-- The actions of `JsonElements`. -/
def JsonElements.run (R : JsonReal D) :
    JsonElements → JsonMemory D → Option (JsonPtr × JsonMemory D)
  | .value value, m => (value.run R m).bind fun (j, m) => jsonAppendValue m none j
  | .append elements value, m =>
    (elements.run R m).bind fun (j1, m) =>
      (value.run R m).bind fun (j3, m) => jsonAppendValue m (some j1) j3

end

/-- `__json_parse` for a text with a derivation. -/
def jsonParse (R : JsonReal D) (fuel : Nat) (m : JsonMemory D) (v : JsonValue) :
    Option (JsonPtr × JsonMemory D) :=
  (v.run R (jsonSetup m)).bind fun (j, m) => jsonSetTop fuel m j

/-! ## What memory holds -/

namespace JsonMemory

/-- The type of a node. -/
def HasType (m : JsonMemory D) (p : JsonPtr) (type : JsonType) : Prop :=
  ∃ n, m.node p = some n ∧ n.type = type

/-- The `next` of a node. -/
def NextIs (m : JsonMemory D) (p : JsonPtr) (x : Option JsonPtr) : Prop :=
  ∃ n, m.node p = some n ∧ n.next = x

/-- The `prop` of a node. -/
def PropIs (m : JsonMemory D) (p : JsonPtr) (x : Option JsonPtr) : Prop :=
  ∃ n, m.node p = some n ∧ n.prop = x

/-- A node with a value. -/
def Leaf (m : JsonMemory D) (p : JsonPtr) (type : JsonType) (value : JsonUnion D) : Prop :=
  ∃ n, m.node p = some n ∧ n.type = type ∧ n.value = value

/-- A pair with its key and its value. -/
def Pair (m : JsonMemory D) (p : JsonPtr) (key : List CChar) (a : StringPtr) (v : JsonPtr) : Prop :=
  ∃ n, m.node p = some n ∧ n.type = .pair ∧ n.key = some a ∧ n.value = .o v ∧ m.str a = some key

end JsonMemory

mutual

/-- The nodes of a value: the node `p` whose `next` was `own` when it was complete, the nodes and
the strings in the order of the text. -/
def JsonValue.Built (m : JsonMemory D) : JsonValue → (p : JsonPtr) → (own : Option JsonPtr) →
    (nodes : List JsonPtr) → (strs : List StringPtr) → Prop
  | .emptyObject, p, own, nodes, strs =>
    m.HasType p .object ∧ m.PropIs p none ∧ own = none ∧ nodes = [p] ∧ strs = []
  | .object members _, p, own, nodes, strs =>
    ∃ init last rest, members.Built m init last rest strs ∧ m.PropIs last none ∧
      m.HasType p .object ∧ m.PropIs p (init ++ [last]).head? ∧ own = none ∧ nodes = p :: rest
  | .emptyArray, p, own, nodes, strs =>
    m.HasType p .array ∧ own = none ∧ nodes = [p] ∧ strs = []
  | .array elements _, p, own, nodes, strs =>
    ∃ init last lastOwn rest, elements.Built m init last lastOwn rest strs ∧
      m.NextIs last lastOwn ∧ m.HasType p .array ∧ own = (init ++ [last]).head? ∧
      nodes = p :: rest
  | .str s, p, own, nodes, strs =>
    ∃ a, m.Leaf p .text (.t a) ∧ m.str a = some s ∧ own = none ∧ nodes = [p] ∧ strs = [a]
  | .int i, p, own, nodes, strs =>
    m.Leaf p .integer (.i i) ∧ own = none ∧ nodes = [p] ∧ strs = []
  | .minus i, p, own, nodes, strs =>
    m.Leaf p .integer (.i (-i)) ∧ own = none ∧ nodes = [p] ∧ strs = []
  | .null, p, own, nodes, strs => m.HasType p .null ∧ own = none ∧ nodes = [p] ∧ strs = []
  | .true, p, own, nodes, strs =>
    m.Leaf p .boolean (.b 1) ∧ own = none ∧ nodes = [p] ∧ strs = []
  | .false, p, own, nodes, strs =>
    m.Leaf p .boolean (.b 0) ∧ own = none ∧ nodes = [p] ∧ strs = []

/-- The pairs of members, linked up to the last one. -/
def JsonMembers.Built (m : JsonMemory D) : JsonMembers → (init : List JsonPtr) →
    (last : JsonPtr) → (nodes : List JsonPtr) → (strs : List StringPtr) → Prop
  | .pair key value, init, last, nodes, strs =>
    ∃ w own a rest strs', value.Built m w own rest strs' ∧ m.NextIs w own ∧
      m.Pair last key a w ∧ init = [] ∧ nodes = last :: rest ∧ strs = a :: strs'
  | .append members key value, init, last, nodes, strs =>
    ∃ init' last' nodes' strs' w own a rest strs'', members.Built m init' last' nodes' strs' ∧
      m.PropIs last' (some last) ∧ value.Built m w own rest strs'' ∧ m.NextIs w own ∧
      m.Pair last key a w ∧ init = init' ++ [last'] ∧ nodes = nodes' ++ last :: rest ∧
      strs = strs' ++ a :: strs''

/-- The nodes of elements, linked up to the last one. -/
def JsonElements.Built (m : JsonMemory D) : JsonElements → (init : List JsonPtr) →
    (last : JsonPtr) → (lastOwn : Option JsonPtr) → (nodes : List JsonPtr) →
    (strs : List StringPtr) → Prop
  | .value value, init, last, lastOwn, nodes, strs =>
    value.Built m last lastOwn nodes strs ∧ init = []
  | .append elements value, init, last, lastOwn, nodes, strs =>
    ∃ init' last' own' nodes' strs' rest strs'',
      elements.Built m init' last' own' nodes' strs' ∧ m.NextIs last' (some last) ∧
      value.Built m last lastOwn rest strs'' ∧ init = init' ++ [last'] ∧
      nodes = nodes' ++ rest ∧ strs = strs' ++ strs''

end

/-! ## Frames -/

namespace JsonMemory

/-- A node keeps everything but its links to siblings and managers. -/
structure KeepsBody (m m' : JsonMemory D) (p : JsonPtr) : Prop where
  keeps : ∀ n, m.node p = some n → ∃ n', m'.node p = some n' ∧ n'.type = n.type ∧
    n'.key = n.key ∧ n'.value = n.value ∧ n'.lobj = n.lobj ∧ n'.lary = n.lary

/-- A node keeps its `next`. -/
def KeepsNext (m m' : JsonMemory D) (p : JsonPtr) : Prop := ∀ x, m.NextIs p x → m'.NextIs p x

/-- A node keeps its `prop`. -/
def KeepsProp (m m' : JsonMemory D) (p : JsonPtr) : Prop := ∀ x, m.PropIs p x → m'.PropIs p x

/-- A string is kept. -/
def KeepsStr (m m' : JsonMemory D) (a : StringPtr) : Prop :=
  ∀ s, m.str a = some s → m'.str a = some s

variable {m m' m'' : JsonMemory D} {p : JsonPtr}

theorem KeepsBody.hasType (h : m.KeepsBody m' p) {type : JsonType} (ht : m.HasType p type) :
    m'.HasType p type := by
  rcases ht with ⟨n, hn, rfl⟩
  rcases h.keeps n hn with ⟨n', hn', htype, -⟩
  exact ⟨n', hn', htype⟩

theorem KeepsBody.leaf (h : m.KeepsBody m' p) {type : JsonType} {value : JsonUnion D}
    (hl : m.Leaf p type value) : m'.Leaf p type value := by
  rcases hl with ⟨n, hn, rfl, rfl⟩
  rcases h.keeps n hn with ⟨n', hn', htype, -, hvalue, -⟩
  exact ⟨n', hn', htype, hvalue⟩

theorem KeepsBody.pair (h : m.KeepsBody m' p) {key : List CChar} {a : StringPtr} {v : JsonPtr}
    (ha : m.KeepsStr m' a) (hp : m.Pair p key a v) : m'.Pair p key a v := by
  rcases hp with ⟨n, hn, htype, hkey, hvalue, hstr⟩
  rcases h.keeps n hn with ⟨n', hn', htype', hkey', hvalue', -⟩
  exact ⟨n', hn', htype'.trans htype, hkey'.trans hkey, hvalue'.trans hvalue, ha _ hstr⟩

theorem KeepsBody.trans (h : m.KeepsBody m' p) (h' : m'.KeepsBody m'' p) :
    m.KeepsBody m'' p := by
  refine ⟨fun n hn => ?_⟩
  rcases h.keeps n hn with ⟨n', hn', h1, h2, h3, h4, h5⟩
  rcases h'.keeps n' hn' with ⟨n'', hn'', h1', h2', h3', h4', h5'⟩
  exact ⟨n'', hn'', h1'.trans h1, h2'.trans h2, h3'.trans h3, h4'.trans h4, h5'.trans h5⟩

end JsonMemory

section Built

variable {m m' : JsonMemory D} {strs : List StringPtr}

variable {nodes : List JsonPtr} {own : Option JsonPtr}

theorem JsonValue.Built.nodes_eq {v : JsonValue} {p : JsonPtr}
    (h : v.Built m p own nodes strs) : ∃ rest, nodes = p :: rest := by
  cases v with
  | emptyObject => exact ⟨[], h.2.2.2.1⟩
  | object members comma =>
    rcases h with ⟨_, _, rest, -, -, -, -, -, hnodes⟩
    exact ⟨rest, hnodes⟩
  | emptyArray => exact ⟨[], h.2.2.1⟩
  | array elements comma =>
    rcases h with ⟨_, _, _, rest, -, -, -, -, hnodes⟩
    exact ⟨rest, hnodes⟩
  | str s =>
    rcases h with ⟨_, -, -, -, hnodes, -⟩
    exact ⟨[], hnodes⟩
  | null => exact ⟨[], h.2.2.1⟩
  | int i | minus i | true | false => exact ⟨[], h.2.2.1⟩

theorem JsonValue.Built.mem {v : JsonValue} {p : JsonPtr}
    (h : v.Built m p own nodes strs) : p ∈ nodes := by
  rcases h.nodes_eq with ⟨rest, rfl⟩
  exact List.mem_cons_self

theorem JsonMembers.Built.last_mem {ms : JsonMembers} {init : List JsonPtr} {last : JsonPtr}
    (h : ms.Built m init last nodes strs) : last ∈ nodes := by
  cases ms with
  | pair key value =>
    rcases h with ⟨_, _, _, _, _, -, -, -, -, rfl, -⟩
    exact List.mem_cons_self
  | append members key value =>
    rcases h with ⟨_, _, _, _, _, _, _, _, _, -, -, -, -, -, -, rfl, -⟩
    exact List.mem_append_right _ List.mem_cons_self

theorem JsonElements.Built.last_mem {es : JsonElements} {init : List JsonPtr} {last : JsonPtr}
    (h : es.Built m init last own nodes strs) :
    last ∈ nodes := by
  cases es with
  | value value => exact h.1.mem
  | append elements value =>
    rcases h with ⟨_, _, _, _, _, _, _, -, -, hv, -, rfl, -⟩
    exact List.mem_append_right _ hv.mem

-- The links that the context of a value sets may change: the `next` of the value itself, that of
-- the last element and the `prop` of the last pair.
mutual

/-- The nodes of a value are there as long as memory keeps them. -/
theorem JsonValue.Built.frame : (v : JsonValue) → ∀ {p : JsonPtr} {own : Option JsonPtr}
    {nodes : List JsonPtr} {strs : List StringPtr}, v.Built m p own nodes strs → nodes.Nodup →
    (∀ q ∈ nodes, m.KeepsBody m' q ∧ m.KeepsProp m' q) →
    (∀ q ∈ nodes, q ≠ p → m.KeepsNext m' q) → (∀ a ∈ strs, m.KeepsStr m' a) →
    v.Built m' p own nodes strs
  | .emptyObject, p, _, _, _, h, _, hbody, _, _ => by
    rcases h with ⟨htype, hprop, rfl, rfl, rfl⟩
    rcases hbody p List.mem_cons_self with ⟨hb, hp⟩
    exact ⟨hb.hasType htype, hp _ hprop, rfl, rfl, rfl⟩
  | .object members comma, p, _, _, _, h, hnodup, hbody, hnext, hstr => by
    rcases h with ⟨init, last, rest, hms, hlast, htype, hprop, rfl, rfl⟩
    rcases List.nodup_cons.mp hnodup with ⟨hmem, hrest⟩
    rcases hbody p List.mem_cons_self with ⟨hb, hp⟩
    have hbody' : ∀ q ∈ rest, m.KeepsBody m' q ∧ m.KeepsProp m' q :=
      fun q hq => hbody q (List.mem_cons_of_mem _ hq)
    have hnext' : ∀ q ∈ rest, m.KeepsNext m' q := fun q hq =>
      hnext q (List.mem_cons_of_mem _ hq) (fun heq => hmem (heq ▸ hq))
    have hms' := JsonMembers.Built.frame members hms hrest
      (fun q hq => ⟨(hbody' q hq).1, hnext' q hq⟩) (fun q hq _ => (hbody' q hq).2) hstr
    exact ⟨init, last, rest, hms', (hbody' last hms.last_mem).2 _ hlast, hb.hasType htype,
      hp _ hprop, rfl, rfl⟩
  | .emptyArray, p, _, _, _, h, _, hbody, _, _ => by
    rcases h with ⟨htype, rfl, rfl, rfl⟩
    exact ⟨(hbody p List.mem_cons_self).1.hasType htype, rfl, rfl, rfl⟩
  | .array elements comma, p, _, _, _, h, hnodup, hbody, hnext, hstr => by
    rcases h with ⟨init, last, lastOwn, rest, hes, hlast, htype, rfl, rfl⟩
    rcases List.nodup_cons.mp hnodup with ⟨hmem, hrest⟩
    have hbody' : ∀ q ∈ rest, m.KeepsBody m' q ∧ m.KeepsProp m' q :=
      fun q hq => hbody q (List.mem_cons_of_mem _ hq)
    have hnext' : ∀ q ∈ rest, m.KeepsNext m' q := fun q hq =>
      hnext q (List.mem_cons_of_mem _ hq) (fun heq => hmem (heq ▸ hq))
    have hes' := JsonElements.Built.frame elements hes hrest hbody'
      (fun q hq _ => hnext' q hq) hstr
    exact ⟨init, last, lastOwn, rest, hes', hnext' last hes.last_mem _ hlast,
      (hbody p List.mem_cons_self).1.hasType htype, rfl, rfl⟩
  | .str s, p, _, _, _, h, _, hbody, _, hstr => by
    rcases h with ⟨a, hleaf, ha, rfl, rfl, rfl⟩
    exact ⟨a, (hbody p List.mem_cons_self).1.leaf hleaf, hstr a List.mem_cons_self _ ha, rfl, rfl,
      rfl⟩
  | .int i, p, _, _, _, h, _, hbody, _, _ => by
    rcases h with ⟨hleaf, rfl, rfl, rfl⟩
    exact ⟨(hbody p List.mem_cons_self).1.leaf hleaf, rfl, rfl, rfl⟩
  | .minus i, p, _, _, _, h, _, hbody, _, _ => by
    rcases h with ⟨hleaf, rfl, rfl, rfl⟩
    exact ⟨(hbody p List.mem_cons_self).1.leaf hleaf, rfl, rfl, rfl⟩
  | .null, p, _, _, _, h, _, hbody, _, _ => by
    rcases h with ⟨htype, rfl, rfl, rfl⟩
    exact ⟨(hbody p List.mem_cons_self).1.hasType htype, rfl, rfl, rfl⟩
  | .true, p, _, _, _, h, _, hbody, _, _ => by
    rcases h with ⟨hleaf, rfl, rfl, rfl⟩
    exact ⟨(hbody p List.mem_cons_self).1.leaf hleaf, rfl, rfl, rfl⟩
  | .false, p, _, _, _, h, _, hbody, _, _ => by
    rcases h with ⟨hleaf, rfl, rfl, rfl⟩
    exact ⟨(hbody p List.mem_cons_self).1.leaf hleaf, rfl, rfl, rfl⟩

theorem JsonMembers.Built.frame : (ms : JsonMembers) → ∀ {init : List JsonPtr} {last : JsonPtr}
    {nodes : List JsonPtr} {strs : List StringPtr}, ms.Built m init last nodes strs →
    nodes.Nodup → (∀ q ∈ nodes, m.KeepsBody m' q ∧ m.KeepsNext m' q) →
    (∀ q ∈ nodes, q ≠ last → m.KeepsProp m' q) → (∀ a ∈ strs, m.KeepsStr m' a) →
    ms.Built m' init last nodes strs
  | .pair key value, _, last, _, _, h, hnodup, hbody, hprop, hstr => by
    rcases h with ⟨w, own, a, rest, strs', hv, hnext, hpair, rfl, rfl, rfl⟩
    rcases List.nodup_cons.mp hnodup with ⟨hmem, hrest⟩
    have hbody' : ∀ q ∈ rest, m.KeepsBody m' q ∧ m.KeepsNext m' q :=
      fun q hq => hbody q (List.mem_cons_of_mem _ hq)
    have hprop' : ∀ q ∈ rest, m.KeepsProp m' q := fun q hq =>
      hprop q (List.mem_cons_of_mem _ hq) (fun heq => hmem (heq ▸ hq))
    have hv' := JsonValue.Built.frame value hv hrest
      (fun q hq => ⟨(hbody' q hq).1, hprop' q hq⟩) (fun q hq _ => (hbody' q hq).2)
      (fun b hb => hstr b (List.mem_cons_of_mem _ hb))
    exact ⟨w, own, a, rest, strs', hv', (hbody' w hv.mem).2 _ hnext,
      (hbody last List.mem_cons_self).1.pair (hstr a List.mem_cons_self) hpair, rfl, rfl, rfl⟩
  | .append members key value, _, last, _, _, h, hnodup, hbody, hprop, hstr => by
    rcases h with ⟨init', last', nodes', strs', w, own, a, rest, strs'', hms, hlast, hv, hnext,
      hpair, rfl, rfl, rfl⟩
    rcases List.nodup_append.mp hnodup with ⟨hnodup', hnodup'', hdisj⟩
    rcases List.nodup_cons.mp hnodup'' with ⟨hmem, hrest⟩
    have hprop' : ∀ q ∈ nodes', m.KeepsProp m' q := fun q hq =>
      hprop q (List.mem_append_left _ hq) (hdisj q hq last List.mem_cons_self)
    have hms' := JsonMembers.Built.frame members hms hnodup'
      (fun q hq => hbody q (List.mem_append_left _ hq)) (fun q hq _ => hprop' q hq)
      (fun b hb => hstr b (List.mem_append_left _ hb))
    have hbody' : ∀ q ∈ rest, m.KeepsBody m' q ∧ m.KeepsNext m' q := fun q hq =>
      hbody q (List.mem_append_right _ (List.mem_cons_of_mem _ hq))
    have hprop'' : ∀ q ∈ rest, m.KeepsProp m' q := fun q hq =>
      hprop q (List.mem_append_right _ (List.mem_cons_of_mem _ hq)) (fun heq => hmem (heq ▸ hq))
    have hv' := JsonValue.Built.frame value hv hrest
      (fun q hq => ⟨(hbody' q hq).1, hprop'' q hq⟩) (fun q hq _ => (hbody' q hq).2)
      (fun b hb => hstr b (List.mem_append_right _ (List.mem_cons_of_mem _ hb)))
    have hpair' := (hbody last (List.mem_append_right _ List.mem_cons_self)).1.pair
      (hstr a (List.mem_append_right _ List.mem_cons_self)) hpair
    exact ⟨init', last', nodes', strs', w, own, a, rest, strs'', hms',
      hprop' last' hms.last_mem _ hlast, hv', (hbody' w hv.mem).2 _ hnext, hpair', rfl, rfl, rfl⟩

theorem JsonElements.Built.frame : (es : JsonElements) → ∀ {init : List JsonPtr}
    {last : JsonPtr} {own : Option JsonPtr} {nodes : List JsonPtr} {strs : List StringPtr},
    es.Built m init last own nodes strs → nodes.Nodup →
    (∀ q ∈ nodes, m.KeepsBody m' q ∧ m.KeepsProp m' q) →
    (∀ q ∈ nodes, q ≠ last → m.KeepsNext m' q) → (∀ a ∈ strs, m.KeepsStr m' a) →
    es.Built m' init last own nodes strs
  | .value value, _, _, _, _, _, h, hnodup, hbody, hnext, hstr => by
    rcases h with ⟨hv, rfl⟩
    exact ⟨JsonValue.Built.frame value hv hnodup hbody hnext hstr, rfl⟩
  | .append elements value, _, last, _, _, _, h, hnodup, hbody, hnext, hstr => by
    rcases h with ⟨init', last', own', nodes', strs', rest, strs'', hes, hlast, hv, rfl, rfl, rfl⟩
    rcases List.nodup_append.mp hnodup with ⟨hnodup', hrest, hdisj⟩
    have hnext' : ∀ q ∈ nodes', m.KeepsNext m' q := fun q hq =>
      hnext q (List.mem_append_left _ hq) (hdisj q hq last hv.mem)
    have hes' := JsonElements.Built.frame elements hes hnodup'
      (fun q hq => hbody q (List.mem_append_left _ hq)) (fun q hq _ => hnext' q hq)
      (fun b hb => hstr b (List.mem_append_left _ hb))
    have hv' := JsonValue.Built.frame value hv hrest
      (fun q hq => hbody q (List.mem_append_right _ hq))
      (fun q hq hne => hnext q (List.mem_append_right _ hq) hne)
      (fun b hb => hstr b (List.mem_append_right _ hb))
    exact ⟨init', last', own', nodes', strs', rest, strs'', hes',
      hnext' last' hes.last_mem _ hlast, hv', rfl, rfl, rfl⟩

end

end Built

end Kcs.Ext
