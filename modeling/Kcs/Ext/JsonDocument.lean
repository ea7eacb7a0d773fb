import Kcs.Ext.JsonPrint

/-!
# Reading JSON documents

What the accessors return for the document that a parse builds.

Main results:

- Theorem {lit}`jsonParse_document_iff`: the documents that the accessors return as they are and
  that the printer visits node by node.
-/

namespace Kcs.Ext

open Option List BitVec

variable {D : Type}

/-! ## What accessors return -/

/-- The accessors of an array return these elements. -/
def HasElements (m : JsonMemory D) (p : JsonPtr) (ps : List JsonPtr) : Prop :=
  jsonGetType m (some p) = some .array ∧
  (∃ fuel count, jsonGetElementCount fuel m (some p) = some count ∧ count.toInt = ps.length) ∧
  ∀ index : BitVec 32, ∃ fuel, jsonGetElement fuel m (some p) index =
    some (if index.slt 0#32 then none else ps[index.toNat]?)

/-- The accessors of an object return these pairs, the first one for a key. -/
def HasMembers (m : JsonMemory D) (p : JsonPtr) (qs : List (List CChar × JsonPtr)) : Prop :=
  jsonGetType m (some p) = some .object ∧
  (∃ fuel count, jsonGetPropertyCount fuel m (some p) = some count ∧ count.toInt = qs.length) ∧
  ∀ key, ∃ fuel, jsonGetProperty fuel m (some p) key = some (qs.lookup key)

/-- A pair with its key and the value that it points to. -/
def IsMember (m : JsonMemory D) (q : JsonPtr) (key : List CChar) (w : JsonPtr) : Prop :=
  jsonGetType m (some q) = some .pair ∧ jsonGetKey m (some q) = some (some key) ∧
  ∃ n, m.node q = some n ∧ n.value = .o w

mutual

/-- The accessors return the structure of a document. -/
def JsonValue.Represents (m : JsonMemory D) : JsonValue → JsonPtr → Prop
  | .emptyObject, p => HasMembers m p []
  | .object members _, p => ∃ qs, HasMembers m p qs ∧ members.Represents m qs
  | .emptyArray, p => HasElements m p []
  | .array elements _, p => ∃ ps, HasElements m p ps ∧ elements.Represents m ps
  | .str s, p => jsonGetType m (some p) = some .text ∧
    ∃ fuel, jsonGetString m fuel (some p) = some (some s)
  | .int i, p => jsonGetType m (some p) = some .integer ∧ jsonGetInteger m (some p) = some i
  | .minus i, p => jsonGetType m (some p) = some .integer ∧ jsonGetInteger m (some p) = some (-i)
  | .null, p => jsonGetType m (some p) = some .null
  | .true, p => jsonGetType m (some p) = some .boolean ∧ jsonGetBoolean m (some p) = some 1
  | .false, p => jsonGetType m (some p) = some .boolean ∧ jsonGetBoolean m (some p) = some 0

def JsonMembers.Represents (m : JsonMemory D) :
    JsonMembers → List (List CChar × JsonPtr) → Prop
  | .pair key value, qs => ∃ q w, qs = [(key, q)] ∧ IsMember m q key w ∧ value.Represents m w
  | .append members key value, qs => ∃ qs' q w, qs = qs' ++ [(key, q)] ∧
    members.Represents m qs' ∧ IsMember m q key w ∧ value.Represents m w

def JsonElements.Represents (m : JsonMemory D) : JsonElements → List JsonPtr → Prop
  | .value value, ps => ∃ p, ps = [p] ∧ value.Represents m p
  | .append elements value, ps => ∃ ps' p, ps = ps' ++ [p] ∧ elements.Represents m ps' ∧
    value.Represents m p

end

/-- The printer visits the nodes of a range, each of them once. -/
def VisitsOnce (R : JsonReal D) (m : JsonMemory D) (p : JsonPtr) (lo hi : Nat) : Prop :=
  ∃ fuel r, jsonPrettyPrintAll R fuel m p = some r ∧ Covers r.visits lo hi

/-- A parse builds the tree of a document: the accessors return it, and the printer visits the
nodes of the document once. -/
def BuildsDocument (R : JsonReal D) (m : JsonMemory D) (v : JsonValue) : Prop :=
  ∃ fuel p m', jsonParse R fuel m v = some (p, m') ∧ v.Represents m' p ∧
    VisitsOnce R m' p m.freshNode m'.freshNode

/-! ## Sizes -/

/-- The number of members. -/
def JsonMembers.length : JsonMembers → Nat
  | .pair _ _ => 1
  | .append members _ _ => members.length + 1

/-- The number of elements. -/
def JsonElements.length : JsonElements → Nat
  | .value _ => 1
  | .append elements _ => elements.length + 1

mutual

/-- The members of each object and the elements of each array can be counted in an `int`. -/
def JsonValue.Countable : JsonValue → Prop
  | .object members _ => members.length < 2 ^ 31 ∧ members.Countable
  | .array elements _ => elements.length < 2 ^ 31 ∧ elements.Countable
  | _ => True

def JsonMembers.Countable : JsonMembers → Prop
  | .pair _ value => value.Countable
  | .append members _ value => members.Countable ∧ value.Countable

def JsonElements.Countable : JsonElements → Prop
  | .value value => value.Countable
  | .append elements value => elements.Countable ∧ value.Countable

end

/-! ## Loops of the accessors -/

section Loops

variable {m : JsonMemory D} {next : JsonObject D → Option JsonPtr}

theorem Linked.count {ps : List JsonPtr} : ∀ {start : Option JsonPtr} {fuel : Nat}
    {c : BitVec 32}, Linked m next start ps none → ps.length ≤ fuel →
    jsonCount m next fuel c start = some (c + BitVec.ofNat 32 ps.length) := by
  induction ps with
  | nil =>
    rintro start fuel c rfl -
    rw [length_nil, show c + BitVec.ofNat 32 0 = c from BitVec.add_zero c]
    cases fuel <;> rfl
  | cons p ps ih =>
    rintro start fuel c ⟨rfl, n, hn, hrest⟩ hfuel
    cases fuel with
    | zero => simp at hfuel
    | succ fuel =>
      rw [jsonCount, hn, bind_some, ih hrest (Nat.le_of_succ_le_succ hfuel),
        length_cons, Nat.add_comm ps.length 1, ofNat_add, BitVec.add_assoc]
      rfl

theorem Linked.findElement {ps : List JsonPtr} : ∀ {start : Option JsonPtr} {fuel k : Nat}
    {index : BitVec 32}, Linked m (·.next) start ps none → ps.length ≤ fuel →
    k ≤ index.toNat → k + ps.length ≤ 2 ^ 32 →
    jsonFindElement m index fuel (BitVec.ofNat 32 k) start = some ps[index.toNat - k]? := by
  induction ps with
  | nil =>
    rintro start fuel k index rfl - - -
    cases fuel <;> rfl
  | cons p ps ih =>
    rintro start fuel k index ⟨rfl, n, hn, hrest⟩ hfuel hk hlen
    rw [length_cons] at hfuel hlen
    cases fuel with
    | zero => omega
    | succ fuel =>
      have hkn : (BitVec.ofNat 32 k).toNat = k := by
        rw [toNat_ofNat, Nat.mod_eq_of_lt (by omega)]
      rw [jsonFindElement]
      by_cases heq : BitVec.ofNat 32 k = index
      · subst heq
        rw [if_pos rfl, hkn, Nat.sub_self, getElem?_cons_zero]
      · have hne : k ≠ index.toNat := fun h => heq (by
          apply eq_of_toNat_eq
          rw [hkn, h])
        have hsucc : BitVec.ofNat 32 k + 1 = BitVec.ofNat 32 (k + 1) :=
          (ofNat_add k 1).symm
        have hsub : index.toNat - k = (index.toNat - (k + 1)) + 1 := by omega
        rw [if_neg heq, hn, bind_some, hsucc,
          ih hrest (by omega) (by omega) (by omega), hsub, getElem?_cons_succ]

theorem Linked.findProperty {qs : List (List CChar × JsonPtr)} {key : List CChar} :
    ∀ {start : Option JsonPtr} {fuel : Nat}, Linked m (·.prop) start (qs.map Prod.snd) none →
      (∀ x ∈ qs, ∃ n, m.node x.2 = some n ∧ n.key.bind m.str = some x.1) → qs.length ≤ fuel →
      jsonFindProperty m key fuel start = some (qs.lookup key) := by
  induction qs with
  | nil =>
    rintro start fuel rfl - -
    cases fuel <;> rfl
  | cons x qs ih =>
    rintro start fuel ⟨rfl, n, hn, hrest⟩ hkeys hfuel
    rw [length_cons] at hfuel
    cases fuel with
    | zero => omega
    | succ fuel =>
      rcases hkeys x mem_cons_self with ⟨n', hn', hkey⟩
      rw [hn] at hn'
      cases hn'
      rw [jsonFindProperty, hn, bind_some, hkey, bind_some]
      by_cases heq : x.1 = key
      · rw [if_pos heq, List.lookup, beq_iff_eq.mpr heq.symm]
      · rw [if_neg heq, ih hrest (fun y hy => hkeys y (mem_cons_of_mem _ hy)) (by omega),
          List.lookup, beq_eq_false_iff_ne.mpr (Ne.symm heq)]

end Loops

/-! ## Documents that are returned -/

section Represents

variable {R : JsonReal D} {m : JsonMemory D}

theorem toInt_ofNat_of_lt {k : Nat} (h : k < 2 ^ 31) : (BitVec.ofNat 32 k).toInt = k := by
  have hk : (BitVec.ofNat 32 k).toNat = k := by
    rw [toNat_ofNat, Nat.mod_eq_of_lt (by omega)]
  rw [toInt_of_lt (by omega), hk]

theorem Linked.hasElements {p : JsonPtr} {ps : List JsonPtr} {start : Option JsonPtr}
    (htype : m.HasType p .array) (hnext : m.NextIs p start)
    (h : Linked m (·.next) start ps none) (hlen : ps.length < 2 ^ 31) : HasElements m p ps := by
  rcases htype with ⟨n, hn, htype⟩
  rcases hnext with ⟨n', hn', rfl⟩
  rw [hn] at hn'
  cases hn'
  refine ⟨by rw [jsonGetType, hn, map_some, htype], ?_, fun index => ⟨ps.length, ?_⟩⟩
  · refine ⟨ps.length, BitVec.ofNat 32 ps.length, ?_, toInt_ofNat_of_lt hlen⟩
    simp only [jsonGetElementCount, hn, bind_some, htype, if_true]
    rw [h.count (le_refl _)]
    congr 1
    exact BitVec.zero_add _
  · simp only [jsonGetElement, hn, bind_some, htype, if_true]
    have hfind := h.findElement (le_refl _) (Nat.zero_le index.toNat) (by omega)
    rw [show (0 : BitVec 32) = BitVec.ofNat 32 0 from rfl, hfind, Nat.sub_zero]
    split
    · rename_i hneg
      -- A negative index is too large for the list.
      have hge : 2 ^ 31 ≤ index.toNat := by
        rw [slt_eq_decide, decide_eq_true_eq, toInt_eq_toNat_cond] at hneg
        have hzero : (0#32).toInt = 0 := rfl
        rw [hzero] at hneg
        split at hneg <;> omega
      rw [List.getElem?_eq_none (by omega)]
    · rfl

theorem Linked.hasMembers {p : JsonPtr} {qs : List (List CChar × JsonPtr)}
    {start : Option JsonPtr} (htype : m.HasType p .object) (hprop : m.PropIs p start)
    (h : Linked m (·.prop) start (qs.map Prod.snd) none)
    (hkeys : ∀ x ∈ qs, ∃ n, m.node x.2 = some n ∧ n.key.bind m.str = some x.1)
    (hlen : qs.length < 2 ^ 31) : HasMembers m p qs := by
  rcases htype with ⟨n, hn, htype⟩
  rcases hprop with ⟨n', hn', rfl⟩
  rw [hn] at hn'
  cases hn'
  refine ⟨by rw [jsonGetType, hn, map_some, htype], ?_, fun key => ⟨qs.length, ?_⟩⟩
  · refine ⟨qs.length, BitVec.ofNat 32 qs.length, ?_, toInt_ofNat_of_lt hlen⟩
    simp only [jsonGetPropertyCount, hn, bind_some, htype, if_true]
    rw [h.count (by rw [length_map]), length_map]
    congr 1
    exact BitVec.zero_add _
  · simp only [jsonGetProperty, hn, bind_some, htype, if_true]
    exact h.findProperty hkeys (le_refl _)

theorem JsonMemory.Pair.isMember {q w : JsonPtr} {key : List CChar} {a : StringPtr}
    (h : m.Pair q key a w) : IsMember m q key w := by
  rcases h with ⟨n, hn, htype, hkey, hvalue, hstr⟩
  refine ⟨by rw [jsonGetType, hn, map_some, htype], ?_, n, hn, hvalue⟩
  simp only [jsonGetKey, hn, bind_some, htype, if_true, hkey, hstr, map_some]

theorem JsonMemory.Pair.key_eq {q w : JsonPtr} {key : List CChar} {a : StringPtr}
    (h : m.Pair q key a w) : ∃ n, m.node q = some n ∧ n.key.bind m.str = some key := by
  rcases h with ⟨n, hn, -, hkey, -, hstr⟩
  exact ⟨n, hn, by rw [hkey, bind_some, hstr]⟩

theorem JsonElements.Built.length_eq : (es : JsonElements) → ∀ {init : List JsonPtr}
    {last : JsonPtr} {own : Option JsonPtr} {nodes strs : List Nat},
    es.Built m init last own nodes strs → (init ++ [last]).length = es.length
  | .value v, _, _, _, _, _, h => by
    rcases h with ⟨-, rfl⟩
    rfl
  | .append elements v, _, _, _, _, _, h => by
    rcases h with ⟨init', last', _, _, _, _, _, hes, -, -, rfl, -, -⟩
    rw [length_append, hes.length_eq elements]
    rfl

mutual

/-- The accessors return the structure of an unshared document. -/
theorem JsonValue.represents : (v : JsonValue) → v.Unshared → v.Countable → ∀ {p : JsonPtr}
    {own : Option JsonPtr} {nodes strs : List Nat}, v.Built m p own nodes strs →
    (v.isArray = Bool.true → m.NextIs p own) → v.Represents m p
  | .emptyObject, _, _, p, _, _, _, h, _ => by
    rcases h with ⟨htype, hprop, -, -, -⟩
    exact @Linked.hasMembers D m p [] none htype hprop rfl (fun _ hx => absurd hx not_mem_nil)
      (by decide)
  | .object members comma, hv, hc, p, _, _, _, h, _ => by
    rcases h with ⟨init, last, rest, hms, hlast, htype, hprop, -, -⟩
    rcases JsonMembers.represents members hv hc.2 hms with ⟨qs, hqs, hlen, hkeys, hrep⟩
    have hlinked := hms.linked members hlast
    rw [← hqs] at hlinked hprop
    exact ⟨qs, hlinked.hasMembers htype hprop hkeys (hlen ▸ hc.1), hrep⟩
  | .emptyArray, _, _, p, _, _, _, h, hnext => by
    rcases h with ⟨htype, rfl, -, -⟩
    exact @Linked.hasElements D m p [] none htype (hnext rfl) rfl (by decide)
  | .array elements comma, hv, hc, p, _, _, _, h, hnext => by
    rcases h with ⟨init, last, own, rest, hes, hlast, htype, rfl, -⟩
    have hrep := JsonElements.represents elements hv.2 hc.2 (Or.inl ⟨hv.1, hlast⟩) hes
    rw [hes.own_eq_none hv.1] at hlast
    exact ⟨_, (hes.linked elements hlast).hasElements htype (hnext rfl)
      (hes.length_eq elements ▸ hc.1), hrep⟩
  | .str s, _, _, p, _, _, _, h, _ => by
    rcases h with ⟨a, ⟨n, hn, htype, hvalue⟩, hs, -, -, -⟩
    refine ⟨by rw [jsonGetType, hn, map_some, htype], 1, ?_⟩
    simp only [jsonGetString, hn, bind_some, htype, hvalue, hs, map_some]
  | .int i, _, _, p, _, _, _, h, _ => by
    rcases h with ⟨⟨n, hn, htype, hvalue⟩, -, -, -⟩
    refine ⟨by rw [jsonGetType, hn, map_some, htype], ?_⟩
    simp only [jsonGetInteger, hn, bind_some, htype, hvalue]
  | .minus i, _, _, p, _, _, _, h, _ => by
    rcases h with ⟨⟨n, hn, htype, hvalue⟩, -, -, -⟩
    refine ⟨by rw [jsonGetType, hn, map_some, htype], ?_⟩
    simp only [jsonGetInteger, hn, bind_some, htype, hvalue]
  | .null, _, _, p, _, _, _, h, _ => by
    rcases h with ⟨⟨n, hn, htype⟩, -, -, -⟩
    show jsonGetType m (some p) = some .null
    rw [jsonGetType, hn, map_some, htype]
  | .true, _, _, p, _, _, _, h, _ => by
    rcases h with ⟨⟨n, hn, htype, hvalue⟩, -, -, -⟩
    refine ⟨by rw [jsonGetType, hn, map_some, htype], ?_⟩
    simp only [jsonGetBoolean, hn, bind_some, htype, hvalue]
  | .false, _, _, p, _, _, _, h, _ => by
    rcases h with ⟨⟨n, hn, htype, hvalue⟩, -, -, -⟩
    refine ⟨by rw [jsonGetType, hn, map_some, htype], ?_⟩
    simp only [jsonGetBoolean, hn, bind_some, htype, hvalue]

theorem JsonMembers.represents : (ms : JsonMembers) → ms.Unshared → ms.Countable →
    ∀ {init : List JsonPtr} {last : JsonPtr} {nodes strs : List Nat},
    ms.Built m init last nodes strs → ∃ qs : List (List CChar × JsonPtr),
      qs.map Prod.snd = init ++ [last] ∧ ms.length = qs.length ∧
      (∀ x ∈ qs, ∃ n, m.node x.2 = some n ∧ n.key.bind m.str = some x.1) ∧ ms.Represents m qs
  | .pair key v, hms, hc, _, last, _, _, h => by
    rcases h with ⟨w, own, a, rest, _, hv, hnext, hp, rfl, -, -⟩
    refine ⟨[(key, last)], rfl, rfl, fun x hx => ?_, last, w, rfl, hp.isMember,
      JsonValue.represents v hms hc hv fun _ => hnext⟩
    rw [mem_singleton.mp hx]
    exact hp.key_eq
  | .append members key v, hms, hc, _, last, _, _, h => by
    rcases h with ⟨init', last', nodes', _, w, own, a, rest, _, hms', -, hv, hnext, hp, rfl, -, -⟩
    rcases JsonMembers.represents members hms.1 hc.1 hms' with ⟨qs, hqs, hlen, hkeys, hrep⟩
    refine ⟨qs ++ [(key, last)], ?_, ?_, fun x hx => ?_, qs, last, w, rfl, hrep, hp.isMember,
      JsonValue.represents v hms.2 hc.2 hv fun _ => hnext⟩
    · rw [map_append, hqs]
      rfl
    · rw [JsonMembers.length, hlen, length_append]
      rfl
    · rcases mem_append.mp hx with hx | hx
      · exact hkeys x hx
      · rw [mem_singleton.mp hx]
        exact hp.key_eq

theorem JsonElements.represents : (es : JsonElements) → es.Unshared → es.Countable →
    ∀ {init : List JsonPtr} {last : JsonPtr} {own : Option JsonPtr} {nodes strs : List Nat},
    (es.placed = Bool.true ∧ m.NextIs last own ∨ es.noArrays = Bool.true) →
    es.Built m init last own nodes strs → es.Represents m (init ++ [last])
  | .value v, hes, hc, _, last, _, nodes, _, hlast, h => by
    rcases h with ⟨hv, rfl⟩
    exact ⟨last, rfl, JsonValue.represents v hes hc hv fun ha =>
      JsonElements.next_of_array hlast (by rw [JsonElements.noArrays, ha]; rfl)⟩
  | .append elements v, hes, hc, _, last, _, _, _, hlast, h => by
    rcases h with ⟨init', last', own', nodes', _, rest, _, hes', -, hv, rfl, -, -⟩
    have hno : elements.noArrays = Bool.true := by
      rcases hlast with ⟨hplaced, -⟩ | hno
      · exact (Bool.and_eq_true_iff.mp hplaced).1
      · exact (Bool.and_eq_true_iff.mp hno).1
    exact ⟨_, last, rfl, JsonElements.represents elements hes.1 hc.1 (Or.inr hno) hes',
      JsonValue.represents v hes.2 hc.2 hv fun ha => JsonElements.next_of_array hlast
        (by rw [JsonElements.noArrays, ha, Bool.not_true, Bool.and_false])⟩

end

end Represents

/-! ## Documents that a parse builds -/

section Document

variable {R : JsonReal D} {m : JsonMemory D}

mutual

theorem JsonValue.Represents.countable : (v : JsonValue) → ∀ {p : JsonPtr},
    v.Represents m p → v.Countable
  | .object members _, _, h => by
    rcases h with ⟨qs, ⟨-, ⟨_, count, -, hcount⟩, -⟩, hrep⟩
    have hlt := toInt_lt (x := count)
    rcases JsonMembers.Represents.countable members hrep with ⟨hlen, hc⟩
    exact ⟨by omega, hc⟩
  | .array elements _, _, h => by
    rcases h with ⟨ps, ⟨-, ⟨_, count, -, hcount⟩, -⟩, hrep⟩
    have hlt := toInt_lt (x := count)
    rcases JsonElements.Represents.countable elements hrep with ⟨hlen, hc⟩
    exact ⟨by omega, hc⟩
  | .emptyObject, _, _ | .emptyArray, _, _ | .str _, _, _ | .int _, _, _ | .minus _, _, _
  | .null, _, _ | .true, _, _ | .false, _, _ => trivial

theorem JsonMembers.Represents.countable : (ms : JsonMembers) →
    ∀ {qs : List (List CChar × JsonPtr)}, ms.Represents m qs →
    ms.length = qs.length ∧ ms.Countable
  | .pair _ v, _, h => by
    rcases h with ⟨q, w, rfl, -, hv⟩
    exact ⟨rfl, JsonValue.Represents.countable v hv⟩
  | .append members _ v, _, h => by
    rcases h with ⟨qs', q, w, rfl, hms, -, hv⟩
    rcases JsonMembers.Represents.countable members hms with ⟨hlen, hc⟩
    refine ⟨?_, hc, JsonValue.Represents.countable v hv⟩
    rw [JsonMembers.length, hlen, length_append]
    rfl

theorem JsonElements.Represents.countable : (es : JsonElements) → ∀ {ps : List JsonPtr},
    es.Represents m ps → es.length = ps.length ∧ es.Countable
  | .value v, _, h => by
    rcases h with ⟨p, rfl, hv⟩
    exact ⟨rfl, JsonValue.Represents.countable v hv⟩
  | .append elements v, _, h => by
    rcases h with ⟨ps', p, rfl, hes, hv⟩
    rcases JsonElements.Represents.countable elements hes with ⟨hlen, hc⟩
    refine ⟨?_, hc, JsonValue.Represents.countable v hv⟩
    rw [JsonElements.length, hlen, length_append]
    rfl

end

theorem jsonSetRoot_mono {j : JsonPtr} {fuel fuel' : Nat} (hle : fuel ≤ fuel') :
    ∀ {m m' : JsonMemory D} {p : Option JsonPtr}, jsonSetRoot j fuel m p = some m' →
      jsonSetRoot j fuel' m p = some m' := by
  induction fuel generalizing fuel' with
  | zero =>
    intro m m' p h
    cases p with
    | none =>
      cases fuel' <;> exact h
    | some p => cases h
  | succ fuel ih =>
    intro m m' p h
    cases fuel' with
    | zero => omega
    | succ fuel' =>
      cases p with
      | none => exact h
      | some p =>
        rw [jsonSetRoot, bind_eq_some_iff] at h
        rcases h with ⟨n, hn, h⟩
        rw [jsonSetRoot, hn, bind_some]
        exact ih (Nat.le_of_succ_le_succ hle) h

theorem jsonParse_mono {v : JsonValue} {fuel fuel' : Nat} (hle : fuel ≤ fuel')
    {r : JsonPtr × JsonMemory D} (h : jsonParse R fuel m v = some r) :
    jsonParse R fuel' m v = some r := by
  rw [jsonParse, bind_eq_some_iff] at h
  rcases h with ⟨⟨j, m1⟩, hrun, h⟩
  rcases bind_eq_some_iff.mp h with ⟨n, hn, h⟩
  rcases map_eq_some_iff.mp h with ⟨m2, hwalk, rfl⟩
  rw [jsonParse, hrun, bind_some]
  simp only [jsonSetTop, hn, bind_some, jsonSetRoot_mono hle hwalk, map_some]

theorem BuildsDocument.unshared {v : JsonValue} (h : BuildsDocument R m v) :
    v.Unshared ∧ v.Countable := by
  rcases h with ⟨fuel, p, m', hparse, hrep, fuel', r, hprint, hcovers⟩
  rcases jsonParse_built R m v with ⟨enough, p', m'', own, nodes, strs, henough, hbuilt, hnext, -⟩
  have h1 := jsonParse_mono (le_max_left fuel enough) hparse
  rw [henough _ (le_max_right fuel enough)] at h1
  cases h1
  refine ⟨?_, hrep.countable v⟩
  by_contra hv
  exact JsonValue.repeats v hv hbuilt (fun _ => hnext) _ _ _ _ r hprint hcovers.1

theorem buildsDocument_of_unshared {v : JsonValue} (hv : v.Unshared) (hc : v.Countable) :
    BuildsDocument R m v := by
  rcases jsonParse_built R m v with
    ⟨enough, p, m', own, nodes, strs, henough, hbuilt, hnext, hcovers⟩
  rcases JsonValue.prints (R := R) v hv hbuilt (fun _ => hnext) 0 Bool.false Bool.false with
    ⟨enough', hprint⟩
  rcases hprint enough' (le_refl _) with ⟨text, hprint⟩
  exact ⟨enough, p, m', henough _ (le_refl _),
    JsonValue.represents v hv hc hbuilt fun _ => hnext, enough', ⟨nodes, text⟩, hprint, hcovers⟩

/-- The accessors return a document as it is, and the printer visits its nodes once, exactly if no
array in it is an element of an array, except an empty one in the last place. -/
theorem jsonParse_document_iff (R : JsonReal D) (m : JsonMemory D) (v : JsonValue) :
    BuildsDocument R m v ↔ v.Unshared ∧ v.Countable :=
  ⟨BuildsDocument.unshared, fun h => buildsDocument_of_unshared h.1 h.2⟩

/-- Arithmetic without numbers, for documents that have no reals. -/
def noReals : JsonReal Unit where
  ofInt _ := ()
  strtod _ := ()
  format _ := []
  neg _ := ()
  add _ _ := ()
  sub _ _ := ()
  mul _ _ := ()
  div _ _ := ()
  fmod _ _ := ()

/-- The array `[[1, 2]]` is returned with three elements. -/
theorem not_buildsDocument_nested :
    ¬ BuildsDocument noReals .empty
      (.array (.value (.array (.append (.value (.int 1)) (.int 2)) Bool.false)) Bool.false) ∧
    ((jsonParse noReals 9 .empty
      (.array (.value (.array (.append (.value (.int 1)) (.int 2)) Bool.false)) Bool.false)).bind
      fun (p, m) => jsonGetElementCount 9 m (some p)) = some 3 :=
  ⟨fun h => absurd h.unshared.1.1 (by decide), by decide⟩

end Document

end Kcs.Ext
