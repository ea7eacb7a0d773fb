import Kcs.Ext.JsonEmbed
import Kcs.Ext.JsonOwned
import Kcs.Ext.JsonPrint

/-!
# Freeing JSON documents

`__json_free_all` frees the nodes in the list of the manager and the strings that they own.

Main results:

- Theorem {lit}`Region.freeAll`: freeing a document frees its nodes and strings, each once, and
  nothing else.
-/

namespace Kcs.Ext

open Option List Function

variable {D : Type}

/-! ## Released nodes -/

/-- Memory without some nodes and the strings that they own. -/
def JsonMemory.released (m : JsonMemory D) (ps : List Nat) : JsonMemory D :=
  { m with
    node := fun q => if q ∈ ps then none else m.node q
    str := fun a => if ∃ q ∈ ps, m.owner q = some a then none else m.str a
    objectAllocated := m.objectAllocated - BitVec.ofNat 32 ps.length
    stringAllocated := m.stringAllocated -
      BitVec.ofNat 32 (ps.countP fun q => (m.owner q).isSome) }

section Released

variable {m : JsonMemory D} {ps : List Nat} {p : Nat} {n : JsonObject D}

theorem released_nil (m : JsonMemory D) : m.released [] = m := by
  simp [JsonMemory.released]

theorem released_node_concat (m : JsonMemory D) (ps : List Nat) (p : Nat) :
    (m.released (ps ++ [p])).node = Function.update (m.released ps).node p none := by
  funext q
  by_cases hq : q = p
  · rw [hq, update_self]
    exact if_pos (mem_append_right _ (mem_singleton_self p))
  · rw [update_of_ne hq]
    simp [JsonMemory.released, hq]

theorem released_str_concat (m : JsonMemory D) (ps : List Nat) (p : Nat) :
    (m.released (ps ++ [p])).str =
      fun a => if m.owner p = some a then none else (m.released ps).str a := by
  funext a
  show (if ∃ q ∈ ps ++ [p], m.owner q = some a then none else m.str a) =
    if m.owner p = some a then none
    else if ∃ q ∈ ps, m.owner q = some a then none else m.str a
  by_cases hp : m.owner p = some a
  · rw [if_pos hp, if_pos ⟨p, mem_append_right _ (mem_singleton_self p), hp⟩]
  · rw [if_neg hp]
    congr 1
    simp [hp]

theorem released_objects_concat (m : JsonMemory D) (ps : List Nat) (p : Nat) :
    (m.released (ps ++ [p])).objectAllocated = (m.released ps).objectAllocated - 1 := by
  show m.objectAllocated - BitVec.ofNat 32 (ps ++ [p]).length =
    m.objectAllocated - BitVec.ofNat 32 ps.length - 1
  rw [length_append, length_singleton, BitVec.ofNat_add, BitVec.sub_sub]
  rfl

theorem released_strings_concat (m : JsonMemory D) (ps : List Nat) (p : Nat) :
    (m.released (ps ++ [p])).stringAllocated =
      (m.released ps).stringAllocated - if (m.owner p).isSome then 1 else 0 := by
  show m.stringAllocated - BitVec.ofNat 32 ((ps ++ [p]).countP _) =
    m.stringAllocated - BitVec.ofNat 32 (ps.countP _) - _
  rw [countP_append, countP_singleton, BitVec.ofNat_add, BitVec.sub_sub]
  congr 2
  split <;> rfl

theorem jsonFreeOne_released (hn : m.node p = some n) (hp : p ∉ ps) (htyped : n.Typed)
    (hstr : ∀ a, n.owned = some a → (m.str a).isSome ∧ ∀ q ∈ ps, m.owner q ≠ some a) :
    jsonFreeOne (m.released ps) p = some (m.released (ps ++ [p])) := by
  have hnode : (m.released ps).node p = some n := (if_neg hp).trans hn
  have howner : m.owner p = n.owned := owner_eq hn
  have hfree : jsonFreeString (m.released ps) n = some { m.released ps with
      str := (m.released (ps ++ [p])).str
      stringAllocated := (m.released (ps ++ [p])).stringAllocated } := by
    rw [released_str_concat, released_strings_concat, howner, jsonFreeString]
    split
    · rename_i htype
      rcases isSome_iff_exists.mp (htyped htype) with ⟨a, ha⟩
      rcases hstr a ha with ⟨hlive, hother⟩
      rcases isSome_iff_exists.mp hlive with ⟨s, hs⟩
      have hrel : (m.released ps).str a = some s := by
        refine (if_neg ?_).trans hs
        rintro ⟨q, hq, hqa⟩
        exact hother q hq hqa
      rw [ha, bind_some, jsonStringFree, hrel, map_some]
      congr 2
      funext b
      by_cases hb : b = a
      · rw [hb, update_self, if_pos rfl]
      · rw [update_of_ne hb, if_neg (fun h => hb (some.inj h).symm)]
    · rename_i htype
      rw [not_or] at htype
      rw [owned_of_type htype rfl]
      simp
  rw [jsonFreeOne, hnode, bind_some, hfree, map_some]
  congr 1
  have hnodes := released_node_concat m ps p
  have hobjects := released_objects_concat m ps p
  rw [show m.released (ps ++ [p]) = { m.released ps with
    node := (m.released (ps ++ [p])).node
    str := (m.released (ps ++ [p])).str
    objectAllocated := (m.released (ps ++ [p])).objectAllocated
    stringAllocated := (m.released (ps ++ [p])).stringAllocated } from rfl, hnodes, hobjects]

theorem jsonFreeList_released {all : List Nat}
    (htyped : ∀ q ∈ all, ∀ n, m.node q = some n → n.Typed)
    (hlive : ∀ q ∈ all, ∀ a, m.owner q = some a → (m.str a).isSome)
    (hinj : ∀ q ∈ all, ∀ r ∈ all, ∀ a, m.owner q = some a → m.owner r = some a → q = r)
    (hnodup : all.Nodup) {rest : List Nat} :
    ∀ {ps : List Nat} {start : Option JsonPtr} {fuel : Nat},
      Linked m (·.link) start rest none → ps ++ rest = all → rest.length ≤ fuel →
      jsonFreeList fuel (m.released ps) start = some (m.released all) := by
  induction rest with
  | nil =>
    rintro ps start fuel rfl hall -
    rw [← hall, append_nil]
    cases fuel <;> rfl
  | cons p rest ih =>
    rintro ps start fuel ⟨rfl, n, hn, hrest⟩ hall hfuel
    rw [length_cons] at hfuel
    rw [← hall] at hnodup
    rcases nodup_append.mp hnodup with ⟨-, -, hdisj⟩
    have hp : p ∉ ps := fun h => hdisj p h p mem_cons_self rfl
    have hpall : p ∈ all := hall ▸ mem_append_right _ mem_cons_self
    have hpsall : ∀ q ∈ ps, q ∈ all := fun q hq => hall ▸ mem_append_left _ hq
    cases fuel with
    | zero => omega
    | succ fuel =>
      have hnode : (m.released ps).node p = some n := (if_neg hp).trans hn
      have hfree : jsonFreeOne (m.released ps) p = some (m.released (ps ++ [p])) := by
        refine jsonFreeOne_released hn hp (htyped p hpall n hn) fun a ha => ?_
        have howner : m.owner p = some a := (owner_eq hn).trans ha
        exact ⟨hlive p hpall a howner,
          fun q hq hqa => hp (hinj q (hpsall q hq) p hpall a hqa howner ▸ hq)⟩
      rw [jsonFreeList, hnode, bind_some, hfree, bind_some]
      exact ih hrest (by rw [append_assoc]; exact hall) (by omega)

end Released

/-! ## Documents among others -/

/-- Memory holds a document from these addresses on. -/
structure Region (G : JsonMemory D) (b c : Nat) (m : JsonMemory D) : Prop where
  node : ∀ q : Nat, q < m.freshNode → G.node (b + q) = (m.node q).map (·.shift b c)
  str : ∀ a : Nat, a < m.freshStr → G.str (c + a) = m.str a

/-- Nodes and strings of a document are gone, and nothing else. -/
structure Gone (G G' : JsonMemory D) (b c : Nat) (m : JsonMemory D) : Prop where
  node : ∀ q : Nat, G'.node q = if b ≤ q ∧ q < b + m.freshNode then none else G.node q
  str : ∀ a : Nat, G'.str a = if c ≤ a ∧ a < c + m.freshStr then none else G.str a
  freshNode : G'.freshNode = G.freshNode
  freshStr : G'.freshStr = G.freshStr
  mgr : G'.mgr = none
  objects : G'.objectAllocated = G.objectAllocated - BitVec.ofNat 32 m.freshNode
  strings : G'.stringAllocated = G.stringAllocated - BitVec.ofNat 32 m.owners

section Region

variable {G m : JsonMemory D} {b c : Nat}

@[simp] theorem owned_shift (n : JsonObject D) (b c : Nat) :
    (n.shift b c).owned = n.owned.map (c + ·) := by
  rcases n with ⟨type, link, root, mgr, prop, lobj, next, lary, key, value⟩
  cases type <;> first | rfl | exact text?_shift value b c

theorem Region.owner (h : Region G b c m) {q : Nat} (hq : q < m.freshNode) :
    G.owner (b + q) = (m.owner q).map (c + ·) := by
  rw [JsonMemory.owner, JsonMemory.owner, h.node q hq]
  cases m.node q with
  | none => rfl
  | some n => exact owned_shift n b c

/-- The nodes below one, in the order of the list of the manager. -/
def below (b : Nat) : Nat → List Nat
  | 0 => []
  | k + 1 => (b + (k + 1)) :: below b k

theorem mem_below (b k q : Nat) : q ∈ below b k ↔ b < q ∧ q ≤ b + k := by
  induction k with
  | zero =>
    rw [below]
    simp
  | succ k ih =>
    rw [below, mem_cons, ih]
    omega

theorem nodup_below (b k : Nat) : (below b k).Nodup := by
  induction k with
  | zero => exact nodup_nil
  | succ k ih =>
    refine nodup_cons.mpr ⟨fun h => ?_, ih⟩
    rw [mem_below] at h
    omega

theorem length_below (b k : Nat) : (below b k).length = k := by
  induction k with
  | zero => rfl
  | succ k ih => rw [below, length_cons, ih]

/-- The nodes of a document in the order in which they are freed. -/
def managed (b k : Nat) : List Nat := b :: below b (k - 1)

theorem mem_managed {b k : Nat} (hk : 0 < k) (q : Nat) : q ∈ managed b k ↔ b ≤ q ∧ q < b + k := by
  rw [managed, mem_cons, mem_below]
  omega

theorem nodup_managed (b k : Nat) : (managed b k).Nodup := by
  refine nodup_cons.mpr ⟨fun h => ?_, nodup_below b _⟩
  rw [mem_below] at h
  omega

theorem length_managed {k : Nat} (hk : 0 < k) (b : Nat) : (managed b k).length = k := by
  rw [managed, length_cons, length_below]
  omega

theorem Region.linked (h : Region G b c m) (hm : m.Managed 0) (hpos : 0 < m.freshNode) :
    Linked G (·.link) (some b) (managed b m.freshNode) none := by
  have hbelow : ∀ k : Nat, k < m.freshNode →
      Linked G (·.link) (if k = 0 then none else some (b + k)) (below b k) none := by
    intro k
    induction k with
    | zero => exact fun _ => rfl
    | succ k ih =>
      intro hk
      rcases hm.node (k + 1) (Nat.zero_le _) hk with ⟨n, hn, -, hlink⟩
      rw [if_neg (Nat.succ_ne_zero k)] at hlink ⊢
      refine ⟨rfl, n.shift b c, by rw [h.node _ hk, hn]; rfl, ?_⟩
      show Linked G _ (n.link.map (b + ·)) _ none
      rw [hlink]
      have hk' := ih (by omega)
      by_cases hzero : k = 0
      · subst hzero
        exact hk'
      · rw [if_neg hzero] at hk'
        rw [if_pos (by omega)]
        exact hk'
  rcases hm.node 0 (le_refl 0) hpos with ⟨n, hn, -, hlink⟩
  rw [if_pos rfl] at hlink
  refine ⟨rfl, n.shift b c, by rw [← Nat.add_zero b, h.node 0 hpos, hn]; rfl, ?_⟩
  show Linked G _ (n.link.map (b + ·)) _ none
  rw [hlink]
  have htop := hbelow (m.freshNode - 1) (by omega)
  by_cases hone : 0 + 1 < m.freshNode
  · rw [if_pos hone]
    rw [if_neg (by omega)] at htop
    exact htop
  · rw [if_neg hone]
    rw [if_pos (by omega)] at htop
    exact htop

theorem Region.countP_managed (h : Region G b c m) (hpos : 0 < m.freshNode) :
    ((managed b m.freshNode).countP fun q => (G.owner q).isSome) = m.owners := by
  have hperm : (managed b m.freshNode).Perm ((List.range m.freshNode).map (b + ·)) := by
    refine (perm_ext_iff_of_nodup (nodup_managed b _)
      (List.Nodup.map (fun _ _ => Nat.add_left_cancel) nodup_range)).mpr fun q => ?_
    rw [mem_managed hpos, List.mem_map]
    constructor
    · intro hq
      exact ⟨q - b, mem_range.mpr (by omega), by omega⟩
    · rintro ⟨r, hr, rfl⟩
      rw [mem_range] at hr
      omega
  rw [hperm.countP_eq, countP_map, JsonMemory.owners]
  refine countP_congr fun q hq => ?_
  rw [comp_apply, h.owner (mem_range.mp hq), isSome_map]

/-- Freeing a document frees its nodes and its strings, each once, and nothing else. -/
theorem Region.freeAll (h : Region G b c m) (hm : Sound m []) {j : Nat}
    (hj : (m.node j).isSome) : ∃ G', Gone G G' b c m ∧ ∀ fuel, m.freshNode ≤ fuel →
      jsonFreeAll fuel G (some (b + j)) =
        some (decide (G'.objectAllocated = 0 ∧ G'.stringAllocated = 0), G') := by
  rcases isSome_iff_exists.mp hj with ⟨nj, hnj⟩
  have hjlt := hm.owned.bounded j nj hnj
  have hpos : 0 < m.freshNode := by omega
  have hmem := mem_managed hpos (b := b)
  have hat : ∀ q ∈ managed b m.freshNode, ∃ r, r < m.freshNode ∧ q = b + r := fun q hq => by
    have := (hmem q).mp hq
    exact ⟨q - b, by omega, by omega⟩
  -- A string of a node of the document is a string of the document.
  have hown : ∀ q ∈ managed b m.freshNode, ∀ a, G.owner q = some a →
      ∃ r a', q = b + r ∧ a = c + a' ∧ m.owner r = some a' ∧ (m.str a').isSome ∧
        a' < m.freshStr := by
    intro q hq a ha
    rcases hat q hq with ⟨r, hr, rfl⟩
    rw [h.owner hr] at ha
    rcases map_eq_some_iff.mp ha with ⟨a', ha', rfl⟩
    have hlive := (hm.owned.live a').mpr (Or.inr ⟨r, ha'⟩)
    exact ⟨r, a', rfl, rfl, ha', hlive, hm.owned.old a' hlive⟩
  have hfree : ∀ fuel, m.freshNode ≤ fuel →
      jsonFreeList fuel G (some b) = some (G.released (managed b m.freshNode)) := by
    intro fuel hfuel
    have hlen : (managed b m.freshNode).length ≤ fuel := by rw [length_managed hpos]; exact hfuel
    show jsonFreeList fuel G (some b) = _
    nth_rewrite 1 [← released_nil G]
    refine jsonFreeList_released (fun q hq n hn ht => ?_) (fun q hq a ha => ?_)
      (fun q hq r hr a hqa hra => ?_) (nodup_managed b _) (h.linked hm.owned.managed hpos)
      (nil_append _) hlen
    · rcases hat q hq with ⟨r, hr, rfl⟩
      rw [h.node r hr] at hn
      rcases map_eq_some_iff.mp hn with ⟨n0, hn0, rfl⟩
      rw [owned_shift, isSome_map]
      exact hm.typed r n0 hn0 ht
    · rcases hown q hq a ha with ⟨r, a', rfl, rfl, -, hlive, hlt⟩
      rw [h.str a' hlt]
      exact hlive
    · rcases hown q hq a hqa with ⟨q', a1, rfl, rfl, hq', -⟩
      rcases hown r hr _ hra with ⟨r', a2, rfl, ha, hr', -⟩
      rw [Nat.add_left_cancel ha] at hq'
      rw [hm.owned.inj q' r' a2 hq' hr']
  have hnode : G.node (b + j) = some (nj.shift b c) := by rw [h.node j hjlt, hnj]; rfl
  have hmgr : (nj.shift b c).mgr.getD (b + j) = b := by
    rcases hm.owned.managed.node j (Nat.zero_le j) hjlt with ⟨n', hn', hmgr', -⟩
    rw [hnj] at hn'
    cases hn'
    show (nj.mgr.map (b + ·)).getD (b + j) = b
    rw [hmgr']
    rfl
  refine ⟨{ G.released (managed b m.freshNode) with mgr := none },
    ⟨fun q => ?_, fun a => ?_, rfl, rfl, rfl, ?_, ?_⟩, fun fuel hfuel => ?_⟩
  · show (if q ∈ managed b m.freshNode then none else G.node q) = _
    simp only [hmem]
  · show (if ∃ q ∈ managed b m.freshNode, G.owner q = some a then none else G.str a) = _
    by_cases hlo : c ≤ a ∧ a < c + m.freshStr
    · rw [if_pos hlo]
      split
      · rfl
      · -- A string of the document that no node owns has been freed before.
        rename_i hno
        have hlt : a - c < m.freshStr := by omega
        have hstr := h.str (a - c) hlt
        rw [show c + (a - c) = a by omega] at hstr
        rw [hstr]
        by_contra hsome
        have hlive := (hm.owned.live (a - c)).mp (isSome_iff_ne_none.mpr hsome)
        rcases hlive with hnil | ⟨r, hr⟩
        · cases hnil
        · cases hnr : m.node r with
          | none => rw [JsonMemory.owner, hnr] at hr; cases hr
          | some n =>
            have hrlt := hm.owned.bounded r n hnr
            refine hno ⟨b + r, (hmem _).mpr (by omega), ?_⟩
            rw [h.owner hrlt, hr, map_some, show c + (a - c) = a by omega]
    · rw [if_neg hlo, if_neg]
      rintro ⟨q, hq, hqa⟩
      rcases hown q hq a hqa with ⟨r, a', -, rfl, -, -, hlt⟩
      omega
  · show G.objectAllocated - BitVec.ofNat 32 (managed b m.freshNode).length = _
    rw [length_managed hpos]
  · show G.stringAllocated - BitVec.ofNat 32 ((managed b m.freshNode).countP _) = _
    rw [h.countP_managed hpos]
  · simp only [jsonFreeAll, hnode, bind_some, hmgr, hfree fuel hfuel, map_some]

end Region

end Kcs.Ext
