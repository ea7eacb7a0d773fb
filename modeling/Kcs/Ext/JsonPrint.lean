import Kcs.Ext.JsonRun

/-!
# Printing JSON documents

The printer follows the links from node to node.  A nonempty array that is an element of an array,
and an empty one that is not the last element, shares its `next` between its own elements and its
siblings, and the printer then comes to a node twice.

Main results:

- Theorem {lit}`JsonValue.prints`: the printer visits the nodes of an unshared document in the
  order of the text.
- Theorem {lit}`JsonValue.repeats`: it repeats nodes of every other document.
-/

namespace Kcs.Ext

open Option List

variable {D : Type}

/-! ## Arrays in arrays -/

/-- A value is an array. -/
def JsonValue.isArray : JsonValue → Bool
  | .emptyArray => Bool.true
  | .array _ _ => Bool.true
  | _ => Bool.false

/-- A value is an array with elements. -/
def JsonValue.isFilled : JsonValue → Bool
  | .array _ _ => Bool.true
  | _ => Bool.false

/-- No element is an array. -/
def JsonElements.noArrays : JsonElements → Bool
  | .value v => !v.isArray
  | .append elements v => elements.noArrays && !v.isArray

/-- No element is an array, but the last one may be an empty array. -/
def JsonElements.placed : JsonElements → Bool
  | .value v => !v.isFilled
  | .append elements v => elements.noArrays && !v.isFilled

mutual

/-- No array of a value is an element of an array, except an empty one in the last place. -/
def JsonValue.Unshared : JsonValue → Prop
  | .object members _ => members.Unshared
  | .array elements _ => elements.placed = Bool.true ∧ elements.Unshared
  | _ => True

def JsonMembers.Unshared : JsonMembers → Prop
  | .pair _ value => value.Unshared
  | .append members _ value => members.Unshared ∧ value.Unshared

def JsonElements.Unshared : JsonElements → Prop
  | .value value => value.Unshared
  | .append elements value => elements.Unshared ∧ value.Unshared

end

/-! ## Linked nodes -/

section Linked

variable {m : JsonMemory D} {next : JsonObject D → Option JsonPtr}

/-- Nodes that a loop walks from one link to another one. -/
def Linked (m : JsonMemory D) (next : JsonObject D → Option JsonPtr) :
    Option JsonPtr → List JsonPtr → Option JsonPtr → Prop
  | start, [], stop => start = stop
  | start, p :: ps, stop => start = some p ∧ ∃ n, m.node p = some n ∧ Linked m next (next n) ps stop

theorem Linked.concat {ps : List JsonPtr} {p : JsonPtr} {n : JsonObject D} (hn : m.node p = some n) :
    ∀ {start : Option JsonPtr}, Linked m next start ps (some p) →
      Linked m next start (ps ++ [p]) (next n) := by
  induction ps with
  | nil =>
    intro start h
    exact ⟨h, n, hn, rfl⟩
  | cons q ps ih =>
    intro start h
    rcases h with ⟨rfl, nq, hq, hrest⟩
    exact ⟨rfl, nq, hq, ih hrest⟩

theorem JsonElements.Built.linked : (es : JsonElements) → ∀ {init : List JsonPtr}
    {last : JsonPtr} {own stop : Option JsonPtr} {nodes strs : List Nat},
    es.Built m init last own nodes strs → m.NextIs last stop →
    Linked m (·.next) (init ++ [last]).head? (init ++ [last]) stop
  | .value v, _, last, _, _, _, _, h, hlast => by
    rcases h with ⟨-, rfl⟩
    rcases hlast with ⟨n, hn, rfl⟩
    exact ⟨rfl, n, hn, rfl⟩
  | .append elements v, _, last, _, _, _, _, h, hlast => by
    rcases h with ⟨init', last', own', _, _, _, _, hes, hlink, -, rfl, -, -⟩
    rcases hlast with ⟨n, hn, rfl⟩
    have h := (JsonElements.Built.linked elements hes hlink).concat hn
    rw [show ((init' ++ [last']) ++ [last]).head? = (init' ++ [last']).head? by
      cases init' <;> rfl]
    exact h

theorem JsonMembers.Built.linked : (ms : JsonMembers) → ∀ {init : List JsonPtr}
    {last : JsonPtr} {stop : Option JsonPtr} {nodes strs : List Nat},
    ms.Built m init last nodes strs → m.PropIs last stop →
    Linked m (·.prop) (init ++ [last]).head? (init ++ [last]) stop
  | .pair key v, _, last, _, _, _, h, hlast => by
    rcases h with ⟨_, _, _, _, _, -, -, -, rfl, -, -⟩
    rcases hlast with ⟨n, hn, rfl⟩
    exact ⟨rfl, n, hn, rfl⟩
  | .append members key v, _, last, _, _, _, h, hlast => by
    rcases h with ⟨init', last', _, _, _, _, _, _, _, hms, hlink, -, -, -, rfl, -, -⟩
    rcases hlast with ⟨n, hn, rfl⟩
    have h := (JsonMembers.Built.linked members hms hlink).concat hn
    rw [show ((init' ++ [last']) ++ [last]).head? = (init' ++ [last']).head? by
      cases init' <;> rfl]
    exact h

end Linked

/-! ## Printing -/

section Prints

variable {R : JsonReal D} {m : JsonMemory D} {next : JsonObject D → Option JsonPtr}

/-- The printer visits these nodes when it is called for a node. -/
def Prints (R : JsonReal D) (m : JsonMemory D) (p : JsonPtr) (visits : List JsonPtr) : Prop :=
  ∀ indent comma contd, ∃ enough, ∀ fuel, enough ≤ fuel → ∃ text,
    jsonPrettyPrint R m fuel p indent comma contd = some ⟨visits, text⟩

/-- The loop of the printer visits these nodes. -/
def PrintsList (R : JsonReal D) (m : JsonMemory D) (next : JsonObject D → Option JsonPtr)
    (start : Option JsonPtr) (visits : List JsonPtr) : Prop :=
  ∀ indent, ∃ enough, ∀ fuel, enough ≤ fuel → ∃ text,
    jsonPrintList R m next fuel start indent = some ⟨visits, text⟩

theorem Linked.prints {ps : List JsonPtr} {fs : List (List JsonPtr)}
    (h : List.Forall₂ (Prints R m) ps fs) : ∀ {start : Option JsonPtr},
      Linked m next start ps none → PrintsList R m next start fs.flatten := by
  induction h with
  | nil =>
    rintro start rfl indent
    exact ⟨0, fun fuel _ => ⟨[], by cases fuel <;> rfl⟩⟩
  | @cons p f ps fs hp _ ih =>
    rintro start ⟨rfl, n, hn, hrest⟩ indent
    rcases hp indent (next n).isSome Bool.false with ⟨enough1, h1⟩
    rcases ih hrest indent with ⟨enough2, h2⟩
    refine ⟨max enough1 enough2 + 1, fun fuel hfuel => ?_⟩
    cases fuel with
    | zero => omega
    | succ fuel =>
      rcases h1 fuel (by omega) with ⟨text1, ht1⟩
      rcases h2 fuel (by omega) with ⟨text2, ht2⟩
      refine ⟨text1 ++ text2, ?_⟩
      rw [jsonPrintList, hn, bind_some, ht1, bind_some, ht2, map_some,
        JsonPrinted.append, flatten_cons]

variable {p : JsonPtr}

theorem prints_of_body {n : JsonObject D} (hn : m.node p = some n)
    {type : JsonType} {value : JsonUnion D} (htype : n.type = type) (hvalue : n.value = value)
    (hleaf : type = .null ∨ (type = .integer ∧ ∃ i, value = .i i) ∨
      (type = .boolean ∧ ∃ b, value = .b b) ∨
      type = .text ∧ ∃ a s, value = .t a ∧ m.str a = some s) : Prints R m p [p] := by
  intro indent comma contd
  refine ⟨1, fun fuel hfuel => ?_⟩
  cases fuel with
  | zero => omega
  | succ fuel =>
    rcases hleaf with rfl | ⟨rfl, i, rfl⟩ | ⟨rfl, b, rfl⟩ | ⟨rfl, a, s, rfl, hs⟩
    · exact ⟨_, by simp only [jsonPrettyPrint, hn, bind_some, htype, map_some]; rfl⟩
    · exact ⟨_, by
        simp only [jsonPrettyPrint, hn, bind_some, htype, hvalue, map_some]; rfl⟩
    · exact ⟨_, by
        simp only [jsonPrettyPrint, hn, bind_some, htype, hvalue, map_some]; rfl⟩
    · exact ⟨_, by
        simp only [jsonPrettyPrint, hn, bind_some, htype, hvalue, hs, map_some]; rfl⟩

variable {visits : List JsonPtr}

theorem prints_object {start : Option JsonPtr}
    (htype : m.HasType p .object) (hprop : m.PropIs p start)
    (h : PrintsList R m (·.prop) start visits) : Prints R m p (p :: visits) := by
  intro indent comma contd
  rcases htype with ⟨n, hn, htype⟩
  rcases hprop with ⟨n', hn', rfl⟩
  rw [hn] at hn'
  cases hn'
  rcases h (indent + 1) with ⟨enough, hlist⟩
  refine ⟨enough + 1, fun fuel hfuel => ?_⟩
  cases fuel with
  | zero => omega
  | succ fuel =>
    rcases hlist fuel (by omega) with ⟨text, ht⟩
    cases hstart : n.prop with
    | none =>
      have hvisits : visits = [] := by
        rw [hstart] at ht
        cases fuel <;> cases ht <;> rfl
      subst hvisits
      exact ⟨_, by
        simp only [jsonPrettyPrint, hn, bind_some, htype, hstart, map_some]; rfl⟩
    | some c =>
      rw [hstart] at ht
      exact ⟨_, by
        simp only [jsonPrettyPrint, hn, bind_some, htype, hstart, ht, map_some]; rfl⟩

theorem prints_array {start : Option JsonPtr}
    (htype : m.HasType p .array) (hnext : m.NextIs p start)
    (h : PrintsList R m (·.next) start visits) : Prints R m p (p :: visits) := by
  intro indent comma contd
  rcases htype with ⟨n, hn, htype⟩
  rcases hnext with ⟨n', hn', rfl⟩
  rw [hn] at hn'
  cases hn'
  rcases h (indent + 1) with ⟨enough, hlist⟩
  refine ⟨enough + 1, fun fuel hfuel => ?_⟩
  cases fuel with
  | zero => omega
  | succ fuel =>
    rcases hlist fuel (by omega) with ⟨text, ht⟩
    cases hstart : n.next with
    | none =>
      have hvisits : visits = [] := by
        rw [hstart] at ht
        cases fuel <;> cases ht <;> rfl
      subst hvisits
      exact ⟨_, by
        simp only [jsonPrettyPrint, hn, bind_some, htype, hstart, map_some]; rfl⟩
    | some c =>
      rw [hstart] at ht
      exact ⟨_, by
        simp only [jsonPrettyPrint, hn, bind_some, htype, hstart, ht, map_some]; rfl⟩

theorem prints_pair {q w : JsonPtr} {key : List CChar} {a : StringPtr}
    (hp : m.Pair q key a w) (h : Prints R m w visits) : Prints R m q (q :: visits) := by
  intro indent comma contd
  rcases hp with ⟨n, hn, htype, hkey, hvalue, hstr⟩
  rcases h indent comma Bool.true with ⟨enough, hval⟩
  refine ⟨enough + 1, fun fuel hfuel => ?_⟩
  cases fuel with
  | zero => omega
  | succ fuel =>
    rcases hval fuel (by omega) with ⟨text, ht⟩
    exact ⟨_, by
      simp only [jsonPrettyPrint, hn, bind_some, htype, hkey, hvalue, hstr, ht, map_some]; rfl⟩

theorem printsList_none : PrintsList R m next none [] :=
  fun _ => ⟨0, fun fuel _ => ⟨[], by cases fuel <;> rfl⟩⟩

variable {own : Option JsonPtr}

theorem JsonValue.Built.own_eq_none {v : JsonValue}
    {nodes strs : List Nat} (h : v.Built m p own nodes strs) (hv : v.isFilled = Bool.false) :
    own = none := by
  cases v with
  | emptyObject => exact h.2.2.1
  | object members comma =>
    rcases h with ⟨_, _, _, -, -, -, -, hown, -⟩
    exact hown
  | emptyArray => exact h.2.1
  | array elements comma => cases hv
  | str s =>
    rcases h with ⟨_, -, -, hown, -, -⟩
    exact hown
  | int i | minus i | null | true | false => exact h.2.1

theorem JsonValue.isFilled_of_isArray {v : JsonValue} (h : v.isArray = Bool.false) :
    v.isFilled = Bool.false := by
  cases v <;> first | rfl | cases h

theorem JsonElements.Built.own_eq_none {es : JsonElements} {init : List JsonPtr} {last : JsonPtr}
    {nodes strs : List Nat} (h : es.Built m init last own nodes strs)
    (hes : es.placed = Bool.true) : own = none := by
  cases es with
  | value v => exact h.1.own_eq_none (by simpa [placed] using hes)
  | append elements v =>
    rcases h with ⟨_, _, _, _, _, _, _, -, -, hv, -, -, -⟩
    rw [placed, Bool.and_eq_true, Bool.not_eq_true'] at hes
    exact hv.own_eq_none hes.2

theorem JsonElements.next_of_array {es : JsonElements} {last : JsonPtr}
    (h : es.placed = Bool.true ∧ m.NextIs last own ∨ es.noArrays = Bool.true)
    (hes : es.noArrays = Bool.false) : m.NextIs last own := by
  rcases h with ⟨-, hnext⟩ | hno
  · exact hnext
  · rw [hes] at hno
    cases hno

mutual

/-- The printer visits the nodes of an unshared document in the order of the text. -/
theorem JsonValue.prints : (v : JsonValue) → v.Unshared → ∀ {p : JsonPtr} {own : Option JsonPtr}
    {nodes strs : List Nat}, v.Built m p own nodes strs →
    (v.isArray = Bool.true → m.NextIs p own) → Prints R m p nodes
  | .emptyObject, _, p, _, _, _, h, _ => by
    rcases h with ⟨htype, hprop, -, rfl, -⟩
    exact prints_object htype hprop printsList_none
  | .object members comma, hv, p, _, _, _, h, _ => by
    rcases h with ⟨init, last, rest, hms, hlast, htype, hprop, -, rfl⟩
    rcases JsonMembers.prints members hv hms with ⟨fs, rfl, hfs⟩
    exact prints_object htype hprop ((hms.linked members hlast).prints hfs)
  | .emptyArray, _, p, _, _, _, h, hnext => by
    rcases h with ⟨htype, rfl, rfl, -⟩
    exact prints_array htype (hnext rfl) printsList_none
  | .array elements comma, hv, p, _, _, _, h, hnext => by
    rcases h with ⟨init, last, own, rest, hes, hlast, htype, rfl, rfl⟩
    rcases JsonElements.prints elements hv.2 (Or.inl ⟨hv.1, hlast⟩) hes with ⟨fs, rfl, hfs⟩
    rw [hes.own_eq_none hv.1] at hlast
    exact prints_array htype (hnext rfl) ((hes.linked elements hlast).prints hfs)
  | .str s, _, p, _, _, _, h, _ => by
    rcases h with ⟨a, ⟨n, hn, htype, hvalue⟩, hs, -, rfl, -⟩
    exact prints_of_body hn htype hvalue (Or.inr (Or.inr (Or.inr ⟨rfl, a, s, rfl, hs⟩)))
  | .int i, _, p, _, _, _, h, _ => by
    rcases h with ⟨⟨n, hn, htype, hvalue⟩, -, rfl, -⟩
    exact prints_of_body hn htype hvalue (Or.inr (Or.inl ⟨rfl, i, rfl⟩))
  | .minus i, _, p, _, _, _, h, _ => by
    rcases h with ⟨⟨n, hn, htype, hvalue⟩, -, rfl, -⟩
    exact prints_of_body hn htype hvalue (Or.inr (Or.inl ⟨rfl, -i, rfl⟩))
  | .null, _, p, _, _, _, h, _ => by
    rcases h with ⟨⟨n, hn, htype⟩, -, rfl, -⟩
    exact prints_of_body hn htype rfl (Or.inl rfl)
  | .true, _, p, _, _, _, h, _ => by
    rcases h with ⟨⟨n, hn, htype, hvalue⟩, -, rfl, -⟩
    exact prints_of_body hn htype hvalue (Or.inr (Or.inr (Or.inl ⟨rfl, 1, rfl⟩)))
  | .false, _, p, _, _, _, h, _ => by
    rcases h with ⟨⟨n, hn, htype, hvalue⟩, -, rfl, -⟩
    exact prints_of_body hn htype hvalue (Or.inr (Or.inr (Or.inl ⟨rfl, 0, rfl⟩)))

theorem JsonMembers.prints : (ms : JsonMembers) → ms.Unshared → ∀ {init : List JsonPtr}
    {last : JsonPtr} {nodes strs : List Nat}, ms.Built m init last nodes strs →
    ∃ fs, nodes = fs.flatten ∧ List.Forall₂ (Prints R m) (init ++ [last]) fs
  | .pair key v, hms, _, last, _, _, h => by
    rcases h with ⟨w, own, a, rest, _, hv, hnext, hp, rfl, rfl, -⟩
    have hw := JsonValue.prints v hms hv fun _ => hnext
    exact ⟨[last :: rest], (append_nil _).symm, .cons (prints_pair hp hw) .nil⟩
  | .append members key v, hms, _, last, _, _, h => by
    rcases h with ⟨init', last', nodes', _, w, own, a, rest, _, hms', -, hv, hnext, hp, rfl, rfl, -⟩
    rcases JsonMembers.prints members hms.1 hms' with ⟨fs, rfl, hfs⟩
    have hw := JsonValue.prints v hms.2 hv fun _ => hnext
    refine ⟨fs ++ [last :: rest], ?_, rel_append hfs (.cons (prints_pair hp hw) .nil)⟩
    rw [flatten_append, flatten_singleton]

theorem JsonElements.prints : (es : JsonElements) → es.Unshared → ∀ {init : List JsonPtr}
    {last : JsonPtr} {own : Option JsonPtr} {nodes strs : List Nat},
    (es.placed = Bool.true ∧ m.NextIs last own ∨ es.noArrays = Bool.true) →
    es.Built m init last own nodes strs →
    ∃ fs, nodes = fs.flatten ∧ List.Forall₂ (Prints R m) (init ++ [last]) fs
  | .value v, hes, _, last, _, nodes, _, hlast, h => by
    rcases h with ⟨hv, rfl⟩
    have hnext : v.isArray = Bool.true → m.NextIs last _ := fun ha =>
      JsonElements.next_of_array hlast (by rw [JsonElements.noArrays, ha]; rfl)
    exact ⟨[nodes], (append_nil _).symm, .cons (JsonValue.prints v hes hv hnext) .nil⟩
  | .append elements v, hes, _, last, _, _, _, hlast, h => by
    rcases h with ⟨init', last', own', nodes', _, rest, _, hes', -, hv, rfl, rfl, -⟩
    have hno : elements.noArrays = Bool.true := by
      rcases hlast with ⟨hplaced, -⟩ | hno
      · exact (Bool.and_eq_true_iff.mp hplaced).1
      · exact (Bool.and_eq_true_iff.mp hno).1
    have hnext : v.isArray = Bool.true → m.NextIs last _ := fun ha =>
      JsonElements.next_of_array hlast (by rw [JsonElements.noArrays, ha, Bool.not_true,
        Bool.and_false])
    rcases JsonElements.prints elements hes.1 (Or.inr hno) hes' with ⟨fs, rfl, hfs⟩
    refine ⟨fs ++ [rest], ?_, rel_append hfs (.cons (JsonValue.prints v hes.2 hv hnext) .nil)⟩
    rw [flatten_append, flatten_singleton]

end

end Prints

/-! ## Repeated nodes -/

section Repeats

variable {R : JsonReal D} {m : JsonMemory D} {next : JsonObject D → Option JsonPtr}

/-- The printer does not visit each node once when it is called for a node. -/
def Repeats (R : JsonReal D) (m : JsonMemory D) (p : JsonPtr) : Prop :=
  ∀ fuel indent comma contd r, jsonPrettyPrint R m fuel p indent comma contd = some r →
    ¬ r.visits.Nodup

/-- The loop of the printer does not visit each node once. -/
def RepeatsList (R : JsonReal D) (m : JsonMemory D) (next : JsonObject D → Option JsonPtr)
    (start : Option JsonPtr) : Prop :=
  ∀ fuel indent r, jsonPrintList R m next fuel start indent = some r → ¬ r.visits.Nodup

variable {p : JsonPtr} {fuel indent : Nat} {r : JsonPrinted} {comma contd : Bool}

theorem jsonPrettyPrint_visits
    (h : jsonPrettyPrint R m fuel p indent comma contd = some r) :
    p ∈ r.visits := by
  cases fuel with
  | zero => cases h
  | succ fuel =>
    rw [jsonPrettyPrint, bind_eq_some_iff] at h
    rcases h with ⟨n, -, h⟩
    rcases map_eq_some_iff.mp h with ⟨b, -, rfl⟩
    exact mem_cons_self

theorem jsonPrintList_some
    (h : jsonPrintList R m next fuel (some p) indent = some r) :
    ∃ fuel' n a b, m.node p = some n ∧
      jsonPrettyPrint R m fuel' p indent (next n).isSome Bool.false = some a ∧
      jsonPrintList R m next fuel' (next n) indent = some b ∧ r.visits = a.visits ++ b.visits := by
  cases fuel with
  | zero => cases h
  | succ fuel =>
    rw [jsonPrintList, bind_eq_some_iff] at h
    rcases h with ⟨n, hn, h⟩
    rcases bind_eq_some_iff.mp h with ⟨a, ha, h⟩
    rcases map_eq_some_iff.mp h with ⟨b, hb, rfl⟩
    exact ⟨fuel, n, a, b, hn, ha, hb, rfl⟩

theorem jsonPrintList_visits
    (h : jsonPrintList R m next fuel (some p) indent = some r) : p ∈ r.visits := by
  rcases jsonPrintList_some h with ⟨_, _, _, _, -, ha, -, hr⟩
  rw [hr]
  exact mem_append_left _ (jsonPrettyPrint_visits ha)

variable {c : JsonPtr}

theorem jsonPrettyPrint_array
    (htype : m.HasType p .array) (hnext : m.NextIs p (some c))
    (h : jsonPrettyPrint R m fuel p indent comma contd = some r) :
    ∃ fuel' b, jsonPrintList R m (·.next) fuel' (some c) (indent + 1) = some b ∧
      r.visits = p :: b.visits := by
  rcases htype with ⟨n, hn, htype⟩
  rcases hnext with ⟨n', hn', hnext⟩
  rw [hn] at hn'
  cases hn'
  cases fuel with
  | zero => cases h
  | succ fuel =>
    simp only [jsonPrettyPrint, hn, bind_some, htype, hnext, Option.map_map, map_eq_some_iff] at h
    rcases h with ⟨b, hb, rfl⟩
    exact ⟨fuel, b, hb, rfl⟩

theorem jsonPrettyPrint_object
    (htype : m.HasType p .object) (hprop : m.PropIs p (some c))
    (h : jsonPrettyPrint R m fuel p indent comma contd = some r) :
    ∃ fuel' b, jsonPrintList R m (·.prop) fuel' (some c) (indent + 1) = some b ∧
      r.visits = p :: b.visits := by
  rcases htype with ⟨n, hn, htype⟩
  rcases hprop with ⟨n', hn', hprop⟩
  rw [hn] at hn'
  cases hn'
  cases fuel with
  | zero => cases h
  | succ fuel =>
    simp only [jsonPrettyPrint, hn, bind_some, htype, hprop, Option.map_map, map_eq_some_iff] at h
    rcases h with ⟨b, hb, rfl⟩
    exact ⟨fuel, b, hb, rfl⟩

theorem Repeats.pair {q w : JsonPtr} {key : List CChar} {a : StringPtr} (h : Repeats R m w)
    (hp : m.Pair q key a w) : Repeats R m q := by
  intro fuel indent comma contd r hr
  rcases hp with ⟨n, hn, htype, hkey, hvalue, hstr⟩
  cases fuel with
  | zero => cases hr
  | succ fuel =>
    simp only [jsonPrettyPrint, hn, bind_some, htype, hkey, hvalue, hstr, Option.map_map,
      map_eq_some_iff] at hr
    rcases hr with ⟨b, hb, rfl⟩
    exact fun hnodup => h _ _ _ _ b hb (nodup_cons.mp hnodup).2

theorem RepeatsList.array (h : RepeatsList R m (·.next) (some c))
    (htype : m.HasType p .array) (hnext : m.NextIs p (some c)) : Repeats R m p := by
  intro fuel indent comma contd r hr hnodup
  rcases jsonPrettyPrint_array htype hnext hr with ⟨_, b, hb, hvisits⟩
  rw [hvisits] at hnodup
  exact h _ _ b hb (nodup_cons.mp hnodup).2

theorem RepeatsList.object (h : RepeatsList R m (·.prop) (some c))
    (htype : m.HasType p .object) (hprop : m.PropIs p (some c)) : Repeats R m p := by
  intro fuel indent comma contd r hr hnodup
  rcases jsonPrettyPrint_object htype hprop hr with ⟨_, b, hb, hvisits⟩
  rw [hvisits] at hnodup
  exact h _ _ b hb (nodup_cons.mp hnodup).2

theorem Linked.repeats {ps : List JsonPtr} {stop : Option JsonPtr} {x : JsonPtr} (hx : x ∈ ps)
    (h : ∀ n, m.node x = some n → Repeats R m x ∨ ∃ s, next n = some s ∧
      ∀ fuel indent comma contd r, jsonPrettyPrint R m fuel x indent comma contd = some r →
        s ∈ r.visits) :
    ∀ {start : Option JsonPtr}, Linked m next start ps stop → RepeatsList R m next start := by
  induction ps with
  | nil => cases hx
  | cons p ps ih =>
    rintro start ⟨rfl, n, hn, hrest⟩ fuel indent r hr hnodup
    rcases jsonPrintList_some hr with ⟨fuel', n', a, b, hn', ha, hb, hvisits⟩
    rw [hn] at hn'
    cases hn'
    rw [hvisits] at hnodup
    rcases nodup_append.mp hnodup with ⟨hna, hnb, hdisj⟩
    rcases mem_cons.mp hx with rfl | hx
    · rcases h n hn with hrep | ⟨s, hs, hmem⟩
      · exact hrep _ _ _ _ a ha hna
      · -- What follows in the list was printed as an element already.
        rw [hs] at hb
        exact hdisj s (hmem _ _ _ _ a ha) s (jsonPrintList_visits hb) rfl
    · exact ih hx hrest _ _ b hb hnb

/-- A node with which an array goes wrong: it repeats nodes itself or shares its `next`. -/
def Spoils (R : JsonReal D) (m : JsonMemory D) (x : JsonPtr) : Prop :=
  Repeats R m x ∨ m.HasType x .array ∧ ∃ s, m.NextIs x (some s)

theorem Linked.spoils {ps : List JsonPtr} {start stop : Option JsonPtr} {x : JsonPtr}
    (h : Linked m (·.next) start ps stop) (hx : x ∈ ps) (hspoils : Spoils R m x) :
    RepeatsList R m (·.next) start := by
  refine h.repeats hx fun n hn => ?_
  rcases hspoils with hrep | ⟨htype, s, hnext⟩
  · exact Or.inl hrep
  · refine Or.inr ⟨s, ?_, fun fuel indent comma contd r hr => ?_⟩
    · rcases hnext with ⟨n', hn', hs⟩
      rw [hn] at hn'
      cases hn'
      exact hs
    · rcases jsonPrettyPrint_array htype hnext hr with ⟨_, b, hb, hvisits⟩
      rw [hvisits]
      exact mem_cons_of_mem _ (jsonPrintList_visits hb)

theorem JsonValue.Built.hasType_array {v : JsonValue} {own : Option JsonPtr}
    {nodes strs : List Nat} (h : v.Built m p own nodes strs) (hv : v.isArray = Bool.true) :
    m.HasType p .array := by
  cases v with
  | emptyArray => exact h.1
  | array elements comma =>
    rcases h with ⟨_, _, _, _, -, -, htype, -, -⟩
    exact htype
  | object _ _ | emptyObject | str _ | int _ | minus _ | null | true | false => cases hv

theorem JsonValue.Built.spoils_of_filled {v : JsonValue} {own : Option JsonPtr}
    {nodes strs : List Nat} (h : v.Built m p own nodes strs) (hv : v.isFilled = Bool.true)
    (hnext : m.NextIs p own) : Spoils R m p := by
  cases v with
  | array elements comma =>
    rcases h with ⟨init, last, _, _, -, -, htype, rfl, -⟩
    cases hstart : (init ++ [last]).head? with
    | none => simp at hstart
    | some c =>
      rw [hstart] at hnext
      exact Or.inr ⟨htype, c, hnext⟩
  | object _ _ | emptyObject | emptyArray | str _ | int _ | minus _ | null | true | false => cases hv

theorem JsonElements.Built.spoils_of_array : (es : JsonElements) → es.noArrays = Bool.false →
    ∀ {init : List JsonPtr} {last s : JsonPtr} {own : Option JsonPtr} {nodes strs : List Nat},
    es.Built m init last own nodes strs → m.NextIs last (some s) →
    ∃ x ∈ init ++ [last], Spoils R m x
  | .value v, hes, _, last, s, _, _, _, h, hnext => by
    rcases h with ⟨hv, rfl⟩
    have ha : v.isArray = Bool.true := by
      rw [JsonElements.noArrays, Bool.not_eq_false'] at hes
      exact hes
    exact ⟨last, mem_singleton_self _, Or.inr ⟨hv.hasType_array ha, s, hnext⟩⟩
  | .append elements v, hes, _, last, s, _, _, _, h, hnext => by
    rcases h with ⟨init', last', _, _, _, _, _, hes', hlink, hv, rfl, -, -⟩
    rw [JsonElements.noArrays, Bool.and_eq_false_iff] at hes
    rcases hes with hno | ha
    · rcases JsonElements.Built.spoils_of_array elements hno hes' hlink with ⟨x, hx, hspoils⟩
      exact ⟨x, mem_append_left _ hx, hspoils⟩
    · rw [Bool.not_eq_false'] at ha
      exact ⟨last, mem_append_right _ (mem_singleton_self _),
        Or.inr ⟨hv.hasType_array ha, s, hnext⟩⟩

mutual

/-- The printer repeats nodes of every document that is not unshared. -/
theorem JsonValue.repeats : (v : JsonValue) → ¬ v.Unshared → ∀ {p : JsonPtr}
    {own : Option JsonPtr} {nodes strs : List Nat}, v.Built m p own nodes strs →
    (v.isArray = Bool.true → m.NextIs p own) → Repeats R m p
  | .object members comma, hv, p, _, _, _, h, _ => by
    rcases h with ⟨init, last, rest, hms, hlast, htype, hprop, -, rfl⟩
    rcases JsonMembers.repeats members hv hms with ⟨x, hx, hrep⟩
    have hlist := (hms.linked members hlast).repeats hx fun n _ => Or.inl hrep
    cases hstart : (init ++ [last]).head? with
    | none => simp at hstart
    | some c =>
      rw [hstart] at hprop hlist
      exact hlist.object htype hprop
  | .array elements comma, hv, p, _, _, _, h, hnext => by
    rcases h with ⟨init, last, own, rest, hes, hlast, htype, rfl, rfl⟩
    rcases JsonElements.repeats elements hv hes hlast with ⟨x, hx, hspoils⟩
    have hlist := (hes.linked elements hlast).spoils hx hspoils
    have hnext := hnext rfl
    cases hstart : (init ++ [last]).head? with
    | none => simp at hstart
    | some c =>
      rw [hstart] at hnext hlist
      exact hlist.array htype hnext
  | .emptyObject, hv, _, _, _, _, _, _ => absurd trivial hv
  | .emptyArray, hv, _, _, _, _, _, _ => absurd trivial hv
  | .str _, hv, _, _, _, _, _, _ => absurd trivial hv
  | .int _, hv, _, _, _, _, _, _ => absurd trivial hv
  | .minus _, hv, _, _, _, _, _, _ => absurd trivial hv
  | .null, hv, _, _, _, _, _, _ => absurd trivial hv
  | .true, hv, _, _, _, _, _, _ => absurd trivial hv
  | .false, hv, _, _, _, _, _, _ => absurd trivial hv

theorem JsonMembers.repeats : (ms : JsonMembers) → ¬ ms.Unshared → ∀ {init : List JsonPtr}
    {last : JsonPtr} {nodes strs : List Nat}, ms.Built m init last nodes strs →
    ∃ x ∈ init ++ [last], Repeats R m x
  | .pair key v, hms, _, last, _, _, h => by
    rcases h with ⟨w, own, a, rest, _, hv, hnext, hp, rfl, -, -⟩
    exact ⟨last, mem_singleton_self _, (JsonValue.repeats v hms hv fun _ => hnext).pair hp⟩
  | .append members key v, hms, _, last, _, _, h => by
    rcases h with ⟨init', last', nodes', _, w, own, a, rest, _, hms', -, hv, hnext, hp, rfl, -, -⟩
    by_cases hu : members.Unshared
    · have hrep := JsonValue.repeats v (fun huv => hms ⟨hu, huv⟩) hv fun _ => hnext
      exact ⟨last, mem_append_right _ (mem_singleton_self _), hrep.pair hp⟩
    · rcases JsonMembers.repeats members hu hms' with ⟨x, hx, hrep⟩
      exact ⟨x, mem_append_left _ hx, hrep⟩

theorem JsonElements.repeats : (es : JsonElements) →
    ¬ (es.placed = Bool.true ∧ es.Unshared) → ∀ {init : List JsonPtr} {last : JsonPtr}
    {own : Option JsonPtr} {nodes strs : List Nat}, es.Built m init last own nodes strs →
    m.NextIs last own → ∃ x ∈ init ++ [last], Spoils R m x
  | .value v, hes, _, last, _, _, _, h, hlast => by
    rcases h with ⟨hv, rfl⟩
    refine ⟨last, mem_singleton_self _, ?_⟩
    cases hfill : v.isFilled with
    | true => exact hv.spoils_of_filled hfill hlast
    | false =>
      refine Or.inl (JsonValue.repeats v (fun hu => hes ⟨?_, hu⟩) hv fun _ => hlast)
      rw [JsonElements.placed, hfill]
      rfl
  | .append elements v, hes, _, last, _, _, _, h, hlast => by
    rcases h with ⟨init', last', _, _, _, _, _, hes', hlink, hv, rfl, -, -⟩
    have hself : last ∈ (init' ++ [last']) ++ [last] :=
      mem_append_right _ (mem_singleton_self _)
    cases hno : elements.noArrays with
    | false =>
      rcases hes'.spoils_of_array elements hno hlink with ⟨x, hx, hspoils⟩
      exact ⟨x, mem_append_left _ hx, hspoils⟩
    | true =>
      by_cases hu : elements.Unshared
      · refine ⟨last, hself, ?_⟩
        cases hfill : v.isFilled with
        | true => exact hv.spoils_of_filled hfill hlast
        | false =>
          refine Or.inl (JsonValue.repeats v (fun huv => hes ⟨?_, hu, huv⟩) hv fun _ => hlast)
          rw [JsonElements.placed, hno, hfill]
          rfl
      · rcases JsonElements.repeats_of_noArrays elements hno hu hes' with ⟨x, hx, hrep⟩
        exact ⟨x, mem_append_left _ hx, Or.inl hrep⟩

theorem JsonElements.repeats_of_noArrays : (es : JsonElements) → es.noArrays = Bool.true →
    ¬ es.Unshared → ∀ {init : List JsonPtr} {last : JsonPtr} {own : Option JsonPtr}
    {nodes strs : List Nat}, es.Built m init last own nodes strs →
    ∃ x ∈ init ++ [last], Repeats R m x
  | .value v, hno, hes, _, last, _, _, _, h => by
    rcases h with ⟨hv, rfl⟩
    refine ⟨last, mem_singleton_self _, JsonValue.repeats v hes hv fun ha => ?_⟩
    rw [JsonElements.noArrays, ha] at hno
    cases hno
  | .append elements v, hno, hes, _, last, _, _, _, h => by
    rcases h with ⟨init', last', _, _, _, _, _, hes', -, hv, rfl, -, -⟩
    rw [JsonElements.noArrays, Bool.and_eq_true] at hno
    by_cases hu : elements.Unshared
    · refine ⟨last, mem_append_right _ (mem_singleton_self _),
        JsonValue.repeats v (fun huv => hes ⟨hu, huv⟩) hv fun ha => ?_⟩
      rw [ha] at hno
      cases hno.2
    · rcases JsonElements.repeats_of_noArrays elements hno.1 hu hes' with ⟨x, hx, hrep⟩
      exact ⟨x, mem_append_left _ hx, hrep⟩

end

end Repeats

end Kcs.Ext
