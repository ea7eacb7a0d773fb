import Kcs.Ext.JsonDocument
import Kcs.Ext.JsonFree

/-!
# Histories of JSON documents

Sequences of calls of `__json_parse` and `__json_free_all`.  The counters in
`__json_free_all` count the nodes and the strings of all documents, and a parse does not read its
text where the last one ended at a character that is {lit}`EOF`.

Main results:

- Theorem {lit}`jsonRun_right`: documents are independent in every history in which a document is
  freed alone, a text is rejected alone, and no text ended at {lit}`EOF`.
-/

namespace Kcs.Ext

open Option List JsonMemory

variable {D : Type}

/-! ## Histories -/

/-- A document that a parse returned, with the nodes and strings that were created for it. -/
structure JsonDocument where
  root : JsonPtr
  nodeLo : Nat
  nodeHi : Nat
  strLo : Nat
  strHi : Nat
  deriving DecidableEq

/-- The state of the parser and the documents that have not been freed. -/
structure JsonHistory (D : Type) where
  state : JsonState D
  documents : List JsonDocument

/-- A call of `__json_parse`, or one of `__json_free_all` for a result or for `NULL`. -/
inductive JsonCall
  | parse (str : CString)
  | freeAll (document : Option JsonDocument)

/-- A call, with the result of the assertions. -/
def JsonHistory.call (T : JsonTables) (R : JsonReal D) (fuel : Nat) (h : JsonHistory D) :
    JsonCall → Option (Bool × JsonHistory D)
  | .parse str => (jsonParseString T R fuel h.state str).map fun (j, ok, s) =>
    (ok, ⟨s, h.documents ++ j.toList.map fun j =>
      ⟨j, h.state.memory.freshNode, s.memory.freshNode, h.state.memory.freshStr,
        s.memory.freshStr⟩⟩)
  | .freeAll none => (jsonFreeAll fuel h.state.memory none).map fun (ok, m) =>
    (ok, ⟨{ h.state with memory := m }, h.documents⟩)
  | .freeAll (some d) =>
    -- Each result is freed at most once.
    if d ∈ h.documents then (jsonFreeAll fuel h.state.memory (some d.root)).map fun (ok, m) =>
      (ok, ⟨{ h.state with memory := m }, h.documents.erase d⟩)
    else none

/-- The histories of calls that are allowed. -/
inductive JsonRun (T : JsonTables) (R : JsonReal D)
    (allowed : JsonHistory D → JsonCall → Prop) : JsonHistory D → Prop
  | init : JsonRun T R allowed ⟨.init, []⟩
  | call {h h' : JsonHistory D} {c : JsonCall} {fuel : Nat} {ok : Bool} :
    JsonRun T R allowed h → allowed h c → h.call T R fuel c = some (ok, h') →
      JsonRun T R allowed h'

/-! ## Independence -/

/-- A parse does what it does when it is the first call: it returns if the first one does, and
what it returns is the same tree at other addresses.  Other documents stay as they are, and a
rejected text leaves nothing behind. -/
structure ParseRight (T : JsonTables) (R : JsonReal D) (h : JsonHistory D) (str : CString) :
    Prop where
  returns : ∀ fuel, (jsonParseString T R fuel h.state str).isSome =
    (jsonParseString T R fuel (.init : JsonState D) str).isSome
  result : ∀ fuel j0 ok0 s0 j ok s, jsonParseString T R fuel .init str = some (j0, ok0, s0) →
    jsonParseString T R fuel h.state str = some (j, ok, s) →
    j = j0.map (h.state.memory.freshNode + ·) ∧ ok = true ∧
    Region s.memory h.state.memory.freshNode h.state.memory.freshStr s0.memory ∧
    (∀ q : Nat, q < h.state.memory.freshNode → s.memory.node q = h.state.memory.node q) ∧
    (∀ a : Nat, a < h.state.memory.freshStr → s.memory.str a = h.state.memory.str a) ∧
    (j = none → (∀ q : Nat, h.state.memory.freshNode ≤ q → s.memory.node q = none) ∧
      ∀ a : Nat, h.state.memory.freshStr ≤ a → s.memory.str a = none)

/-- A document is freed: exactly the nodes and strings that were created for it, each once. -/
def FreeRight (h : JsonHistory D) (d : JsonDocument) : Prop :=
  ∃ fuel m, jsonFreeAll fuel h.state.memory (some d.root) = some (true, m) ∧
    (∀ q : Nat, m.node q =
      if d.nodeLo ≤ q ∧ q < d.nodeHi then none else h.state.memory.node q) ∧
    ∀ a : Nat, m.str a = if d.strLo ≤ a ∧ a < d.strHi then none else h.state.memory.str a

/-- A call does what it should. -/
def JsonCall.Right (T : JsonTables) (R : JsonReal D) (h : JsonHistory D) : JsonCall → Prop
  | .parse str => ParseRight T R h str
  | .freeAll none => ∀ fuel, jsonFreeAll fuel h.state.memory none = some (true, h.state.memory)
  | .freeAll (some d) => d ∈ h.documents → FreeRight h d

/-- A text that is rejected after nodes were created for it. -/
def Rejected (T : JsonTables) (R : JsonReal D) (str : CString) : Prop :=
  ∃ fuel ok s, jsonParseString T R fuel .init str = some (none, ok, s) ∧ s.memory.freshNode ≠ 0

/-- No text has ended at `EOF`, a text is rejected while there is no document, and a document is
freed while there is no other one. -/
def JsonCall.Alone (T : JsonTables) (R : JsonReal D) (h : JsonHistory D) : JsonCall → Prop
  | .parse str => h.state.ch ≠ eof ∧ (Rejected T R str → h.documents = [])
  | .freeAll none => True
  | .freeAll (some d) => h.documents = [d]

/-! ## Freeing behind other memory -/

section Embed

variable {F m m' : JsonMemory D}

theorem jsonFreeString_embed (n : JsonObject D) :
    jsonFreeString (F.embed m) (n.shift F.freshNode F.freshStr) =
      (jsonFreeString m n).map F.embed := by
  rw [jsonFreeString, jsonFreeString, owned_shift,
    show (n.shift F.freshNode F.freshStr).type = n.type from rfl]
  split
  · cases n.owned with
    | none => rfl
    | some a => exact jsonStringFree_embed a
  · rfl

theorem jsonFreeOne_embed (p : Nat) :
    jsonFreeOne (F.embed m) (F.freshNode + p) = (jsonFreeOne m p).map F.embed := by
  rw [jsonFreeOne, jsonFreeOne, embed_node]
  cases m.node p with
  | none => rfl
  | some n =>
    rw [map_some, bind_some, bind_some, jsonFreeString_embed]
    cases jsonFreeString m n with
    | none => rfl
    | some m1 =>
      have h := embed_update (F := F) (m := m1) p none
      simp only [map_none] at h
      simp only [map_some, h, some.injEq]
      simp only [JsonMemory.embed, BitVec.sub_eq_add_neg, BitVec.add_assoc]

theorem jsonFreeList_embed (fuel : Nat) : ∀ (m : JsonMemory D) (p : Option JsonPtr),
    jsonFreeList fuel (F.embed m) (p.map (F.freshNode + ·)) =
      (jsonFreeList fuel m p).map F.embed := by
  induction fuel with
  | zero =>
    intro m p
    cases p <;> rfl
  | succ fuel ih =>
    intro m p
    cases p with
    | none => rfl
    | some p =>
      rw [map_some, jsonFreeList, jsonFreeList, embed_node, jsonFreeOne_embed]
      cases m.node p with
      | none => rfl
      | some n =>
        rw [map_some, bind_some, bind_some]
        cases jsonFreeOne m p with
        | none => rfl
        | some m1 => exact ih m1 n.link

theorem jsonFreeList_mono {fuel fuel' : Nat} (hle : fuel ≤ fuel') :
    ∀ {m m' : JsonMemory D} {p : Option JsonPtr}, jsonFreeList fuel m p = some m' →
      jsonFreeList fuel' m p = some m' := by
  induction fuel generalizing fuel' with
  | zero =>
    intro m m' p h
    cases p with
    | none =>
      cases fuel' <;> exact h
    | some p => cases h
  | succ fuel ih =>
    intro m m' p h
    cases fuel' with
    | zero => omega
    | succ fuel' =>
      cases p with
      | none => exact h
      | some p =>
        rcases bind_eq_some_iff.mp h with ⟨n, hn, h⟩
        rcases bind_eq_some_iff.mp h with ⟨m1, hm1, h⟩
        rw [jsonFreeList, hn, bind_some, hm1, bind_some]
        exact ih (Nat.le_of_succ_le_succ hle) h

theorem jsonFreeAll_embed (fuel : Nat) (m : JsonMemory D) (j : Option Nat) :
    jsonFreeAll fuel (F.embed m) (j.map (F.freshNode + ·)) =
      (jsonFreeAll fuel m j).map fun x => (j.isNone || decide
        ((F.embed x.2).objectAllocated = 0 ∧ (F.embed x.2).stringAllocated = 0), F.embed x.2) := by
  cases j with
  | none => rfl
  | some j =>
    simp only [map_some, jsonFreeAll, embed_node]
    cases m.node j with
    | none => rfl
    | some n =>
      have hmgr : (n.shift F.freshNode F.freshStr).mgr.getD (F.freshNode + j) =
          F.freshNode + n.mgr.getD j := by
        show (n.mgr.map (F.freshNode + ·)).getD _ = _
        cases n.mgr <;> rfl
      have hlist := jsonFreeList_embed (F := F) fuel m (some (n.mgr.getD j))
      simp only [map_some] at hlist
      simp only [map_some, bind_some, hmgr, hlist, Option.map_map]
      cases jsonFreeList fuel m (some (n.mgr.getD j)) with
      | none => rfl
      | some m' => rfl

theorem jsonFreeAll_mono {fuel fuel' : Nat} (hle : fuel ≤ fuel') {m : JsonMemory D}
    {j : Option JsonPtr} {x : Bool × JsonMemory D} (h : jsonFreeAll fuel m j = some x) :
    jsonFreeAll fuel' m j = some x := by
  cases j with
  | none => exact h
  | some j =>
    rcases bind_eq_some_iff.mp h with ⟨n, hn, h⟩
    rcases map_eq_some_iff.mp h with ⟨m', hm', hx⟩
    rw [jsonFreeAll, hn, bind_some, jsonFreeList_mono hle hm', map_some, hx]

end Embed

/-! ## The first parse -/

section First

variable {m m' : JsonMemory D} {T : JsonTables} {R : JsonReal D} {fuel : Nat} {str : CString}

theorem shift_zero (n : JsonObject D) : n.shift 0 0 = n := by
  rcases n with ⟨type, link, root, mgr, prop, lobj, next, lary, key, value⟩
  cases value <;> simp [JsonObject.shift, JsonUnion.shift]

theorem region_zero (m : JsonMemory D) : Region m 0 0 m where
  node q _ := by
    rw [Nat.zero_add]
    cases m.node q with
    | none => rfl
    | some n => rw [map_some, shift_zero]
  str a _ := by rw [Nat.zero_add]

/-- Nothing is left of a document. -/
structure JsonMemory.Empty (m : JsonMemory D) : Prop where
  node : ∀ q : Nat, m.node q = none
  str : ∀ a : Nat, m.str a = none
  objects : m.objectAllocated = 0
  strings : m.stringAllocated = 0

theorem Sound.empty (h : Sound m []) (hzero : m.freshNode = 0) : m.Empty := by
  have hnode : ∀ q : Nat, m.node q = none := fun q => by
    cases hn : m.node q with
    | none => rfl
    | some n => exact absurd (h.owned.bounded q n hn) (by omega)
  have howner : ∀ q, m.owner q = none := fun q => by
    rw [JsonMemory.owner, hnode q, bind_none]
  refine ⟨hnode, fun a => ?_, ?_, ?_⟩
  · by_contra hsome
    rcases (h.owned.live a).mp (isSome_iff_ne_none.mpr hsome) with hnil | ⟨q, hq⟩
    · cases hnil
    · rw [howner q] at hq
      cases hq
  · rw [h.owned.objects, hzero]
    rfl
  · rw [h.owned.strings, JsonMemory.owners, hzero]
    rfl

theorem Sound.freed (h : Sound m []) {ok : Bool} (hx : jsonFreeAll fuel m m.mgr = some (ok, m')) :
    ok = true ∧ m'.Empty ∧ m'.freshNode = m.freshNode ∧ m'.freshStr = m.freshStr := by
  have hmgr := h.owned.managed.mgr_eq
  by_cases hzero : m.freshNode = 0
  · rw [if_neg (by omega)] at hmgr
    rw [hmgr] at hx
    cases hx
    exact ⟨rfl, h.empty hzero, rfl, rfl⟩
  · rw [if_pos (by omega)] at hmgr
    rcases h.owned.managed.node 0 (le_refl 0) (by omega) with ⟨n, hn, -⟩
    rcases (region_zero m).freeAll h (j := 0) (by rw [hn]; rfl) with ⟨G, hgone, hfree⟩
    have hmono := jsonFreeAll_mono (Nat.le_max_left fuel m.freshNode) hx
    have hfree' := hfree (max fuel m.freshNode) (Nat.le_max_right _ _)
    rw [hmgr] at hmono
    rw [Nat.zero_add] at hfree'
    have heq := some.inj (hmono.symm.trans hfree')
    rw [Prod.mk.injEq] at heq
    rcases heq with ⟨rfl, rfl⟩
    have hempty : m'.Empty := by
      refine ⟨fun q => ?_, fun a => ?_, ?_, ?_⟩
      · rw [hgone.node q]
        split
        · rfl
        · rename_i hq
          cases hn : m.node q with
          | none => rfl
          | some n => exact absurd (h.owned.bounded q n hn) (by omega)
      · rw [hgone.str a]
        split
        · rfl
        · rename_i ha
          cases hs : m.str a with
          | none => rfl
          | some t => exact absurd (h.owned.old a (by rw [hs]; rfl)) (by omega)
      · rw [hgone.objects, h.owned.objects, BitVec.sub_self]
        rfl
      · rw [hgone.strings, h.owned.strings, length_nil, Nat.zero_add, BitVec.sub_self]
        rfl
    exact ⟨decide_eq_true ⟨hempty.objects, hempty.strings⟩, hempty, hgone.freshNode, hgone.freshStr⟩

/-- What the first parse leaves: a document, or nothing. -/
structure FirstParse (j : Option JsonPtr) (ok : Bool) (m : JsonMemory D) : Prop where
  ok : ok = true
  accepted : ∀ r, j = some r → Sound m [] ∧ (m.node r).isSome
  rejected : j = none → m.Empty

theorem jsonParseString_first {j : Option JsonPtr} {ok : Bool} {s : JsonState D}
    (h : jsonParseString T R fuel .init str = some (j, ok, s)) : FirstParse j ok s.memory := by
  rcases bind_eq_some_iff.mp h with ⟨input, -, h⟩
  rcases bind_eq_some_iff.mp h with ⟨⟨c, status⟩, hparse, h⟩
  have hboth : Sound c.memory [] ∧ (status = true → c.memory.root.isSome) :=
    jsonYyparse_sound sound_empty hparse
  rcases hboth with ⟨hsound, hroot⟩
  cases status with
  | true =>
    cases h
    refine ⟨rfl, fun r hr => ⟨hsound, hsound.root r hr⟩, fun hnone => ?_⟩
    exact absurd (hroot rfl) (by rw [hnone]; decide)
  | false =>
    rcases map_eq_some_iff.mp h with ⟨⟨ok', m'⟩, hfree, h⟩
    cases h
    rcases hsound.freed hfree with ⟨hok, hempty, -⟩
    exact ⟨hok, (fun _ hr => nomatch hr), fun _ => hempty⟩

end First

/-! ## A parse behind other documents -/

/-- Nothing is allocated where new nodes and strings will be. -/
structure JsonMemory.Clear (m : JsonMemory D) : Prop where
  node : ∀ q : Nat, m.freshNode ≤ q → m.node q = none
  str : ∀ a : Nat, m.freshStr ≤ a → m.str a = none

section Parse

variable {G m : JsonMemory D} {T : JsonTables} {R : JsonReal D} {fuel : Nat} {str : CString}

theorem jsonSetup_embed (h : G.Clear) : jsonSetup G = G.embed (jsonSetup .empty) := by
  have hnode : G.node = (G.embed (jsonSetup .empty)).node := by
    funext q
    show G.node q = if q < G.freshNode then G.node q else none
    split
    · rfl
    · rename_i hq
      exact h.node q (Nat.le_of_not_lt hq)
  have hstr : G.str = (G.embed (jsonSetup .empty)).str := by
    funext a
    show G.str a = if a < G.freshStr then G.str a else none
    split
    · rfl
    · rename_i ha
      exact h.str a (Nat.le_of_not_lt ha)
  have hobjects : G.objectAllocated = G.objectAllocated + 0 := (BitVec.add_zero _).symm
  have hstrings : G.stringAllocated = G.stringAllocated + 0 := (BitVec.add_zero _).symm
  rw [jsonSetup, hnode, hstr, hobjects, hstrings]
  rfl

/-- A parse does what the first parse does, at other addresses. -/
theorem jsonParseString_embed {s : JsonState D} (hclear : s.memory.Clear) (hch : s.ch ≠ eof) :
    jsonParseString T R fuel s str = (jsonParseString T R fuel .init str).map fun x =>
      (x.1.map (s.memory.freshNode + ·), x.1.isSome || (decide (x.2.2.memory.freshNode = 0) ||
        decide (s.memory.objectAllocated = 0 ∧ s.memory.stringAllocated = 0)),
        ⟨x.2.2.ch, s.memory.embed x.2.2.memory⟩) := by
  rw [jsonParseString, jsonParseString, jsonLexNext_ch hch (by decide : (0 : BitVec 32) ≠ eof),
    show (JsonState.init : JsonState D).ch = 0 from rfl]
  cases jsonLexNext ⟨0, str.chars ++ [0#8]⟩ with
  | none => rfl
  | some input =>
    have hconfig : (⟨T.start, none, [], input, jsonSetup s.memory⟩ : JsonConfig T.State D) =
        JsonConfig.embed s.memory ⟨T.start, none, [], input, jsonSetup .empty⟩ := by
      rw [jsonSetup_embed hclear]
      rfl
    rw [bind_some, bind_some, hconfig, jsonYyparse_embed]
    show _ = Option.map _
      ((jsonYyparse T R fuel ⟨T.start, none, [], input, jsonSetup .empty⟩).bind _)
    cases hparse : jsonYyparse T R fuel (⟨T.start, none, [], input, jsonSetup .empty⟩ :
        JsonConfig T.State D) with
    | none => rfl
    | some x =>
      rcases x with ⟨c, status⟩
      have hboth : Sound c.memory [] ∧ (status = true → c.memory.root.isSome) :=
        jsonYyparse_sound sound_empty hparse
      rcases hboth with ⟨hsound, hroot⟩
      cases status with
      | true =>
        show some (c.memory.root.map _, true, _) = some (_, c.memory.root.isSome || _, _)
        rw [hroot rfl, Bool.true_or]
        rfl
      | false =>
        have hfree := jsonFreeAll_embed (F := s.memory) fuel c.memory c.memory.mgr
        simp only [map_some, bind_some, Bool.false_eq_true, if_false]
        show Option.map _ (jsonFreeAll fuel (s.memory.embed c.memory)
          (c.memory.mgr.map (s.memory.freshNode + ·))) = _
        rw [hfree]
        cases hx : jsonFreeAll fuel c.memory c.memory.mgr with
        | none => rfl
        | some y =>
          rcases y with ⟨ok, m'⟩
          rcases hsound.freed hx with ⟨-, hempty, hfreshNode, -⟩
          have hmgr : c.memory.mgr.isNone = decide (m'.freshNode = 0) := by
            rw [hsound.owned.managed.mgr_eq, hfreshNode]
            by_cases hzero : c.memory.freshNode = 0
            · rw [if_neg (by omega)]
              simp [hzero]
            · rw [if_pos (by omega)]
              simp [hzero]
          have hobjects : (s.memory.embed m').objectAllocated = s.memory.objectAllocated := by
            show _ + m'.objectAllocated = _
            rw [hempty.objects]
            exact BitVec.add_zero _
          have hstrings : (s.memory.embed m').stringAllocated = s.memory.stringAllocated := by
            show _ + m'.stringAllocated = _
            rw [hempty.strings]
            exact BitVec.add_zero _
          simp only [map_some, hmgr, hobjects, hstrings, isSome_none, Bool.false_or, map_none]
          rfl

end Parse

/-! ## The invariant of a history -/

/-- Memory holds a document whose nodes and strings were created like those of the first one. -/
structure JsonDocument.In (d : JsonDocument) (G m : JsonMemory D) : Prop where
  sound : Sound m []
  region : Region G d.nodeLo d.strLo m
  nodeHi : d.nodeHi = d.nodeLo + m.freshNode
  strHi : d.strHi = d.strLo + m.freshStr
  nodeHi_le : d.nodeHi ≤ G.freshNode
  strHi_le : d.strHi ≤ G.freshStr
  root : ∃ j : Nat, d.root = d.nodeLo + j ∧ (m.node j).isSome

/-- The documents that have not been freed are in memory, and the counters count them. -/
structure JsonHistory.Sound (h : JsonHistory D) : Prop where
  clear : h.state.memory.Clear
  documents : ∃ ms : List (JsonMemory D),
    List.Forall₂ (fun d m => d.In h.state.memory m) h.documents ms ∧
    h.state.memory.objectAllocated = BitVec.ofNat 32 (ms.map (·.freshNode)).sum ∧
    h.state.memory.stringAllocated = BitVec.ofNat 32 (ms.map (·.owners)).sum

section History

variable {h h' : JsonHistory D} {T : JsonTables} {R : JsonReal D} {fuel : Nat} {ok : Bool}

theorem JsonHistory.sound_init : (⟨.init, []⟩ : JsonHistory D).Sound where
  clear := ⟨fun _ _ => rfl, fun _ _ => rfl⟩
  documents := ⟨[], .nil, rfl, rfl⟩

theorem JsonDocument.In.embed {d : JsonDocument} {G m m' : JsonMemory D} (hd : d.In G m) :
    d.In (G.embed m') m := by
  have hn := hd.nodeHi
  have hs := hd.strHi
  have hnle := hd.nodeHi_le
  have hsle := hd.strHi_le
  refine ⟨hd.sound, ⟨fun q hq => ?_, fun a ha => ?_⟩, hn, hs, ?_, ?_, hd.root⟩
  · rw [← hd.region.node q hq]
    show (if d.nodeLo + q < G.freshNode then _ else _) = _
    rw [if_pos (by omega)]
  · rw [← hd.region.str a ha]
    show (if d.strLo + a < G.freshStr then _ else _) = _
    rw [if_pos (by omega)]
  · exact Nat.le_trans hnle (Nat.le_add_right _ _)
  · exact Nat.le_trans hsle (Nat.le_add_right _ _)

theorem JsonMemory.clear_embed {G m : JsonMemory D} (hm : m.Clear) : (G.embed m).Clear where
  node q hq := by
    have hlt : ¬ q < G.freshNode := Nat.not_lt.mpr (Nat.le_trans (Nat.le_add_right _ _) hq)
    have hle : m.freshNode ≤ q - G.freshNode := Nat.le_sub_of_add_le' hq
    show (if q < G.freshNode then G.node q else _) = _
    rw [if_neg hlt, hm.node _ hle]
    rfl
  str a ha := by
    have hlt : ¬ a < G.freshStr := Nat.not_lt.mpr (Nat.le_trans (Nat.le_add_right _ _) ha)
    have hle : m.freshStr ≤ a - G.freshStr := Nat.le_sub_of_add_le' ha
    show (if a < G.freshStr then G.str a else _) = _
    rw [if_neg hlt, hm.str _ hle]

theorem Sound.clear {m : JsonMemory D} (hm : Sound m []) : m.Clear where
  node q hq := by
    cases hn : m.node q with
    | none => rfl
    | some n => exact absurd (hm.owned.bounded q n hn) (Nat.not_lt.mpr hq)
  str a ha := by
    cases hs : m.str a with
    | none => rfl
    | some t => exact absurd (hm.owned.old a (by rw [hs]; rfl)) (Nat.not_lt.mpr ha)

theorem JsonHistory.Sound.parse {str : CString} (hs : h.Sound) (hch : h.state.ch ≠ eof)
    (hcall : h.call T R fuel (.parse str) = some (ok, h')) : h'.Sound := by
  rcases hs with ⟨hclear, ms, hdocs, hobjects, hstrings⟩
  rw [JsonHistory.call, jsonParseString_embed hclear hch, Option.map_map] at hcall
  rcases map_eq_some_iff.mp hcall with ⟨⟨j, ok0, s0⟩, hfirst, hcall⟩
  have hparse := jsonParseString_first hfirst
  cases hcall
  have hold : List.Forall₂ (fun d m => d.In (h.state.memory.embed s0.memory) m) h.documents ms :=
    hdocs.imp fun _ _ hd => hd.embed
  cases j with
  | none =>
    have hempty := hparse.rejected rfl
    have hclear' : s0.memory.Clear := ⟨fun q _ => hempty.node q, fun a _ => hempty.str a⟩
    refine ⟨clear_embed hclear', ms, ?_, ?_, ?_⟩
    · simpa using hold
    · show _ + s0.memory.objectAllocated = _
      rw [hempty.objects, hobjects]
      exact BitVec.add_zero _
    · show _ + s0.memory.stringAllocated = _
      rw [hempty.strings, hstrings]
      exact BitVec.add_zero _
  | some r =>
    rcases hparse.accepted r rfl with ⟨hsound, hroot⟩
    refine ⟨clear_embed hsound.clear, ms ++ [s0.memory], ?_, ?_, ?_⟩
    · refine rel_append hold (.cons ⟨hsound, ⟨fun q hq => ?_, fun a ha => ?_⟩, rfl, rfl,
        le_refl _, le_refl _, r, rfl, hroot⟩ .nil)
      · exact embed_node q
      · exact embed_str a
    · show _ + s0.memory.objectAllocated = _
      rw [hobjects, hsound.owned.objects, ← BitVec.ofNat_add, map_append, sum_append]
      rfl
    · show _ + s0.memory.stringAllocated = _
      rw [hstrings, hsound.owned.strings, ← BitVec.ofNat_add, map_append, sum_append,
        length_nil, Nat.zero_add]
      rfl

theorem JsonHistory.Sound.free_alone {d : JsonDocument} (hs : h.Sound)
    (hd : h.documents = [d]) : ∃ m G, d.In h.state.memory m ∧
      Gone h.state.memory G d.nodeLo d.strLo m ∧ G.objectAllocated = 0 ∧ G.stringAllocated = 0 ∧
      ∀ fuel, m.freshNode ≤ fuel →
        jsonFreeAll fuel h.state.memory (some d.root) = some (true, G) := by
  rcases hs with ⟨hclear, ms, hdocs, hobjects, hstrings⟩
  rw [hd] at hdocs
  rcases forall₂_cons_left_iff.mp hdocs with ⟨m, ms', hin, hnil, rfl⟩
  rw [forall₂_nil_left_iff] at hnil
  subst hnil
  rcases hin.root with ⟨j, hj, hjn⟩
  rcases hin.region.freeAll hin.sound hjn with ⟨G, hgone, hfree⟩
  have hobjects' : G.objectAllocated = 0 := by
    rw [hgone.objects, hobjects, map_singleton, sum_singleton, BitVec.sub_self]
    rfl
  have hstrings' : G.stringAllocated = 0 := by
    rw [hgone.strings, hstrings, map_singleton, sum_singleton, BitVec.sub_self]
    rfl
  refine ⟨m, G, hin, hgone, hobjects', hstrings', fun fuel hfuel => ?_⟩
  rw [hj, hfree fuel hfuel, decide_eq_true ⟨hobjects', hstrings'⟩]

theorem JsonHistory.Sound.free {d : JsonDocument} (hs : h.Sound) (hd : h.documents = [d])
    (hcall : h.call T R fuel (.freeAll (some d)) = some (ok, h')) : h'.Sound := by
  rcases hs.free_alone hd with ⟨m, G, hin, hgone, hobjects, hstrings, hfree⟩
  rw [JsonHistory.call, if_pos (by rw [hd]; exact mem_singleton_self d)] at hcall
  rcases map_eq_some_iff.mp hcall with ⟨⟨ok', m'⟩, hx, hcall⟩
  have hmono := jsonFreeAll_mono (Nat.le_max_left fuel m.freshNode) hx
  rw [hfree _ (Nat.le_max_right _ _)] at hmono
  cases hmono
  cases hcall
  refine ⟨⟨fun q hq => ?_, fun a ha => ?_⟩, [], ?_, hobjects, hstrings⟩
  · rw [hgone.node q]
    split
    · rfl
    · exact hs.clear.node q (hgone.freshNode ▸ hq)
  · rw [hgone.str a]
    split
    · rfl
    · exact hs.clear.str a (hgone.freshStr ▸ ha)
  · rw [hd, erase_cons_head]
    exact .nil

theorem JsonHistory.Sound.call {c : JsonCall} (hs : h.Sound) (hc : c.Alone T R h)
    (hcall : h.call T R fuel c = some (ok, h')) : h'.Sound := by
  cases c with
  | parse str => exact hs.parse hc.1 hcall
  | freeAll d =>
    cases d with
    | none =>
      cases hcall
      exact hs
    | some d => exact hs.free hc hcall

theorem jsonRun_sound (hr : JsonRun T R (JsonCall.Alone T R) h) : h.Sound := by
  induction hr with
  | init => exact JsonHistory.sound_init
  | call _ hallowed hcall ih => exact ih.call hallowed hcall

/-! ## Independence of documents -/

theorem JsonHistory.Sound.parseRight {str : CString} (hs : h.Sound)
    (hc : (JsonCall.parse str).Alone T R h) : ParseRight T R h str where
  returns fuel := by
    rw [jsonParseString_embed hs.clear hc.1, isSome_map]
  result fuel j0 ok0 s0 j ok s hfirst hparse := by
    rw [jsonParseString_embed hs.clear hc.1, hfirst] at hparse
    cases hparse
    have hfirst' := jsonParseString_first hfirst
    refine ⟨rfl, ?_, ⟨fun q _ => embed_node q, fun a _ => embed_str a⟩,
      fun q hq => if_pos hq, fun a ha => if_pos ha, fun hnone => ?_⟩
    · cases j0 with
      | some r => rfl
      | none =>
        by_cases hzero : s0.memory.freshNode = 0
        · simp [hzero]
        · -- The counters are zero because there is no other document.
          have hnil := hc.2 ⟨fuel, ok0, s0, hfirst, hzero⟩
          rcases hs.documents with ⟨ms, hdocs, hobjects, hstrings⟩
          rw [hnil, forall₂_nil_left_iff] at hdocs
          subst hdocs
          have hcounters : h.state.memory.objectAllocated = 0 ∧
              h.state.memory.stringAllocated = 0 := ⟨hobjects, hstrings⟩
          rw [decide_eq_true hcounters, Bool.or_true, Bool.or_true]
    · have hempty := hfirst'.rejected (map_eq_none_iff.mp hnone)
      constructor
      · intro q hq
        show (if q < h.state.memory.freshNode then _ else _) = _
        rw [if_neg (Nat.not_lt.mpr hq), hempty.node]
        rfl
      · intro a ha
        show (if a < h.state.memory.freshStr then _ else _) = _
        rw [if_neg (Nat.not_lt.mpr ha), hempty.str]

/-- Documents are independent in every history in which a document is freed alone, a text is
rejected alone, and no text ended at `EOF`. -/
theorem jsonRun_right (T : JsonTables) (R : JsonReal D) (h : JsonHistory D)
    (hr : JsonRun T R (JsonCall.Alone T R) h) (c : JsonCall) (hc : c.Alone T R h) :
    c.Right T R h := by
  have hs := jsonRun_sound hr
  cases c with
  | parse str => exact hs.parseRight hc
  | freeAll d =>
    cases d with
    | none => exact fun fuel => rfl
    | some d =>
      intro _
      rcases hs.free_alone hc with ⟨m, G, hin, hgone, -, -, hfree⟩
      refine ⟨m.freshNode, G, hfree _ (le_refl _), fun q => ?_, fun a => ?_⟩
      · rw [hgone.node q, hin.nodeHi]
      · rw [hgone.str a, hin.strHi]

end History

/-! ## Two documents -/

/-- The steps of the parser for the text of an empty object. -/
def bracesTables : JsonTables where
  State := Nat
  start := 0
  step
    | 0, none => (.read, 0)
    | 0, some .obeg => (.shift, 1)
    | 1, none => (.read, 1)
    | 1, some .oend => (.shift, 2)
    | 2, none => (.reduce .emptyObject, 3)
    | 3, none => (.read, 3)
    | 3, some .eot => (.reduce .unit, 4)
    | 4, some .eot => (.reduce .start, 5)
    | 5, some .eot => (.accept, 5)
    | state, _ => (.error, state)

/-- The text of an empty object. -/
def bracesText : CString := ⟨[0x7b, 0x7d], by decide⟩

/-- An empty object is parsed and freed. -/
theorem jsonRun_right_braces : ∃ h : JsonHistory Unit, h.documents = [⟨0, 0, 1, 0, 0⟩] ∧
    (JsonCall.freeAll (some ⟨0, 0, 1, 0, 0⟩)).Right bracesTables noReals h := by
  have hcall : ((JsonHistory.call bracesTables noReals 20 ⟨.init, []⟩ (.parse bracesText)).map
      fun x => x.2.documents) = some [⟨0, 0, 1, 0, 0⟩] := by decide
  rcases map_eq_some_iff.mp hcall with ⟨⟨ok, h⟩, hparse, hdocuments⟩
  have halone : (JsonCall.parse bracesText).Alone bracesTables noReals ⟨.init, []⟩ :=
    ⟨by decide, fun _ => rfl⟩
  exact ⟨h, hdocuments,
    jsonRun_right bracesTables noReals h (.call .init halone hparse) _ hdocuments⟩

/-- A document is freed while there is another one. -/
theorem not_jsonRun_right : ¬ ∀ h : JsonHistory Unit,
    JsonRun bracesTables noReals (fun _ _ => True) h →
    ∀ c : JsonCall, c.Right bracesTables noReals h := by
  intro hright
  have hcall : ((JsonHistory.call bracesTables noReals 20 ⟨.init, []⟩ (.parse bracesText)).bind
      fun x => (x.2.call bracesTables noReals 20 (.parse bracesText)).map fun y =>
        (y.2.documents, (jsonFreeAll 1 y.2.state.memory (some 0)).map (·.1))) =
      some ([⟨0, 0, 1, 0, 0⟩, ⟨1, 1, 2, 0, 0⟩], some false) := by decide
  rcases bind_eq_some_iff.mp hcall with ⟨⟨ok1, h1⟩, hparse1, hcall⟩
  rcases map_eq_some_iff.mp hcall with ⟨⟨ok2, h2⟩, hparse2, hcall⟩
  rcases Prod.mk.inj hcall with ⟨hdocuments, hfree⟩
  rcases map_eq_some_iff.mp hfree with ⟨x, hx, hfalse⟩
  have hfreed := hright h2 (.call (.call .init trivial hparse1) trivial hparse2)
    (.freeAll (some ⟨0, 0, 1, 0, 0⟩)) (by rw [hdocuments]; exact mem_cons_self)
  rcases hfreed with ⟨fuel, m, hm, -⟩
  have heq := (jsonFreeAll_mono (Nat.le_max_left 1 fuel) hx).symm.trans
    (jsonFreeAll_mono (Nat.le_max_right 1 fuel) hm)
  rw [some.inj heq] at hfalse
  cases hfalse

end Kcs.Ext
