import Kcs.Ext.JsonParser
import Kcs.Ext.JsonRun

/-!
# Strings of JSON documents

What holds in memory while a document is parsed: the manager lists every node, every string is
owned by one node, and the counters count the nodes and the strings.

Main results:

- Theorem {lit}`JsonRule.action_sound`: every action of the grammar keeps it.
- Theorem {lit}`jsonYyparse_sound`: and so does the parser.
-/

namespace Kcs.Ext

open List JsonMemory Function
open Option hiding or_assoc

variable {D : Type}

/-! ## Owned strings -/

/-- The string of the node at an address. -/
def JsonMemory.owner (m : JsonMemory D) (q : Nat) : Option Nat := (m.node q).bind (·.owned)

/-- The number of nodes with strings. -/
def JsonMemory.owners (m : JsonMemory D) : Nat :=
  (List.range m.freshNode).countP fun q => (m.owner q).isSome

/-- The nodes own the strings, except some others. -/
structure Owned (m : JsonMemory D) (others : List Nat) : Prop where
  managed : m.Managed 0
  bounded : ∀ (q : Nat) n, m.node q = some n → q < m.freshNode
  objects : m.objectAllocated = BitVec.ofNat 32 m.freshNode
  live : ∀ a, (m.str a).isSome ↔ a ∈ others ∨ ∃ q, m.owner q = some a
  inj : ∀ q r a, m.owner q = some a → m.owner r = some a → q = r
  fresh : ∀ a ∈ others, ∀ q, m.owner q ≠ some a
  nodup : others.Nodup
  old : ∀ a : Nat, (m.str a).isSome → a < m.freshStr
  strings : m.stringAllocated = BitVec.ofNat 32 (others.length + m.owners)

/-- A node whose type has a string owns one. -/
def JsonObject.Typed (n : JsonObject D) : Prop :=
  n.type = .text ∨ n.type = .pair → n.owned.isSome

/-- The invariant of memory while a document is parsed. -/
structure Sound (m : JsonMemory D) (others : List Nat) : Prop where
  owned : Owned m others
  typed : ∀ q n, m.node q = some n → n.Typed
  root : ∀ j, m.root = some j → (m.node j).isSome

theorem sound_empty : Sound (jsonSetup (.empty : JsonMemory D)) [] where
  owned :=
    { managed := ⟨le_refl _, rfl, fun q _ hq => absurd hq (Nat.not_lt_zero q)⟩
      bounded := fun _ _ h => nomatch h
      objects := rfl
      live := fun a => by
        refine ⟨fun h => ?_, fun h => ?_⟩
        · cases h
        · rcases h with h | ⟨q, hq⟩
          · cases h
          · cases hq
      inj := fun _ _ _ h => nomatch h
      fresh := fun _ h => nomatch h
      nodup := nodup_nil
      old := fun _ h => nomatch h
      strings := rfl }
  typed _ _ h := nomatch h
  root _ h := nomatch h

section Owned

variable {m m' : JsonMemory D} {others : List Nat} {n n' : JsonObject D} {p : Nat}

theorem owner_eq (h : m.node p = some n) : m.owner p = n.owned := by
  rw [JsonMemory.owner, h, bind_some]

theorem owner_put_self : (m.put p n).owner p = n.owned := owner_eq put_node_self

theorem owner_put_of_ne {q : Nat} (h : q ≠ p) : (m.put p n).owner q = m.owner q := by
  rw [JsonMemory.owner, put_node_of_ne h, JsonMemory.owner]

theorem countP_range_update {f g : Nat → Bool} {k p : Nat} (hp : p < k)
    (hother : ∀ q, q ≠ p → f q = g q) :
    (List.range k).countP g + (f p).toNat = (List.range k).countP f + (g p).toNat := by
  induction k with
  | zero => omega
  | succ k ih =>
    rw [range_succ, countP_append, countP_append, countP_singleton, countP_singleton]
    by_cases hk : p = k
    · have hsame : (List.range k).countP g = (List.range k).countP f :=
        countP_congr fun q hq => by
          rw [hother q (by rw [mem_range] at hq; omega)]
      rw [hsame, ← hk]
      cases f p <;> cases g p <;> simp [Bool.toNat]
    · have h := ih (by omega)
      rw [hother k (Ne.symm hk)]
      omega

theorem Owned.put_same (h : Owned m others) (hn : m.node p = some n) (hlink : n'.link = n.link)
    (hmgr : n'.mgr = n.mgr) (howned : n'.owned = n.owned) : Owned (m.put p n') others := by
  have hp := h.bounded p n hn
  have howner : ∀ q, (m.put p n').owner q = m.owner q := fun q => by
    by_cases hq : q = p
    · rw [hq, owner_put_self, howned, owner_eq hn]
    · exact owner_put_of_ne hq
  have howners : (m.put p n').owners = m.owners := by
    rw [JsonMemory.owners, JsonMemory.owners, put_freshNode]
    simp only [howner]
  exact
    { managed := h.managed.put hn hlink hmgr
      bounded := fun q nq hq => by
        by_cases hqp : q = p
        · exact hqp ▸ hp
        · exact h.bounded q nq ((put_node_of_ne hqp).symm.trans hq)
      objects := h.objects
      live := fun a => by simp only [howner]; exact h.live a
      inj := fun q r a => by simp only [howner]; exact h.inj q r a
      fresh := fun a ha q => by rw [howner]; exact h.fresh a ha q
      nodup := h.nodup
      old := h.old
      strings := howners ▸ h.strings }

/-- A node is written that owns another string, or one where it did not, or none where it did. -/
theorem Owned.put_change (others : List Nat) (h : Owned m (n'.owned.toList ++ others)) (hn : m.node p = some n)
    (hlink : n'.link = n.link) (hmgr : n'.mgr = n.mgr) :
    Owned (m.put p n') (n.owned.toList ++ others) := by
  have hp := h.bounded p n hn
  have hself : (m.put p n').owner p = n'.owned := owner_put_self
  have hold : m.owner p = n.owned := owner_eq hn
  have hother : ∀ q, q ≠ p → (m.put p n').owner q = m.owner q := fun q => owner_put_of_ne
  have hnew : ∀ q b, (m.put p n').owner q = some b ↔
      q = p ∧ n'.owned = some b ∨ q ≠ p ∧ m.owner q = some b := by
    intro q b
    by_cases hqp : q = p
    · subst hqp
      simp [hself]
    · simp [hqp, hother q hqp]
  have hmem : ∀ {o : Option Nat} {b : Nat}, b ∈ o.toList ++ others ↔ o = some b ∨ b ∈ others := by
    intro o b
    rw [mem_append, mem_toList]
  rcases nodup_append.mp h.nodup with ⟨-, hnodup, hdisj⟩
  exact
    { managed := h.managed.put hn hlink hmgr
      bounded := fun q nq hq => by
        by_cases hqp : q = p
        · exact hqp ▸ hp
        · exact h.bounded q nq ((put_node_of_ne hqp).symm.trans hq)
      objects := h.objects
      live := fun b => by
        refine (h.live b).trans ?_
        rw [hmem, hmem]
        simp only [hnew]
        constructor
        · rintro ((hb | hb) | ⟨q, hq⟩)
          · exact Or.inr ⟨p, Or.inl ⟨rfl, hb⟩⟩
          · exact Or.inl (Or.inr hb)
          · by_cases hqp : q = p
            · exact Or.inl (Or.inl (by rw [← hold, ← hqp, hq]))
            · exact Or.inr ⟨q, Or.inr ⟨hqp, hq⟩⟩
        · rintro ((hb | hb) | ⟨q, ⟨-, hb⟩ | ⟨-, hq⟩⟩)
          · exact Or.inr ⟨p, hold.trans hb⟩
          · exact Or.inl (Or.inr hb)
          · exact Or.inl (Or.inl hb)
          · exact Or.inr ⟨q, hq⟩
      inj := fun q r b hq hr => by
        rcases (hnew q b).mp hq with ⟨hqp, hb⟩ | ⟨-, hq'⟩ <;>
          rcases (hnew r b).mp hr with ⟨hrp, hb'⟩ | ⟨-, hr'⟩
        · rw [hqp, hrp]
        · exact absurd hr' (h.fresh b (hmem.mpr (Or.inl hb)) r)
        · exact absurd hq' (h.fresh b (hmem.mpr (Or.inl hb')) q)
        · exact h.inj q r b hq' hr'
      fresh := fun b hb q hq => by
        rcases hmem.mp hb with hb | hb <;> rcases (hnew q b).mp hq with ⟨-, hq⟩ | ⟨hqp, hq⟩
        · exact h.fresh b (hmem.mpr (Or.inl hq)) p (hold.trans hb)
        · exact hqp (h.inj q p b hq (hold.trans hb))
        · exact hdisj b (mem_toList.mpr hq) b hb rfl
        · exact h.fresh b (hmem.mpr (Or.inr hb)) q hq
      nodup := by
        refine nodup_append.mpr ⟨?_, hnodup, fun b hb c hc heq => ?_⟩
        · cases n.owned with
          | none => exact nodup_nil
          | some b => exact nodup_singleton b
        · subst heq
          exact h.fresh b (hmem.mpr (Or.inr hc)) p (hold.trans (mem_toList.mp hb))
      old := h.old
      strings := by
        have hcount := countP_range_update (f := fun q => (m.owner q).isSome)
          (g := fun q => ((m.put p n').owner q).isSome) hp fun q hq => by rw [hother q hq]
        have hlen : ∀ o : Option Nat, o.toList.length = o.isSome.toNat := fun o => by
          cases o <;> rfl
        have hstr := h.strings
        rw [length_append, hlen] at hstr ⊢
        simp only [hself, hold] at hcount
        have howners : (m.put p n').owners + n.owned.isSome.toNat =
          m.owners + n'.owned.isSome.toNat := hcount
        rw [show n.owned.isSome.toNat + others.length + (m.put p n').owners =
          n'.owned.isSome.toNat + others.length + m.owners by omega]
        exact hstr }

theorem Owned.stringAlloc (h : Owned m others) (s : List CChar) :
    Owned (jsonStringAlloc m s).2 (m.freshStr :: others) := by
  have hnone : m.str m.freshStr = none := by
    cases hs : m.str m.freshStr with
    | none => rfl
    | some t => exact absurd (h.old m.freshStr (by rw [hs]; rfl)) (lt_irrefl _)
  have hlive : ∀ a, (m.str a).isSome → a ≠ m.freshStr := fun a ha heq => by
    rw [heq, hnone] at ha
    cases ha
  have hstr : ∀ a, ((jsonStringAlloc m s).2.str a).isSome ↔ a = m.freshStr ∨ (m.str a).isSome := by
    intro a
    by_cases ha : a = m.freshStr
    · rw [ha, show (jsonStringAlloc m s).2.str m.freshStr = some s from update_self ..]
      simp
    · rw [show (jsonStringAlloc m s).2.str a = m.str a from update_of_ne ha ..]
      simp [ha]
  exact
    { managed := ⟨h.managed.base_le, h.managed.mgr_eq, h.managed.node⟩
      bounded := h.bounded
      objects := h.objects
      live := fun a => by
        rw [hstr, h.live, mem_cons, or_assoc]
        rfl
      inj := h.inj
      fresh := fun a ha q hq => by
        rcases mem_cons.mp ha with rfl | ha
        · exact hlive _ ((h.live _).mpr (Or.inr ⟨q, hq⟩)) rfl
        · exact h.fresh a ha q hq
      nodup := nodup_cons.mpr ⟨fun hmem => hlive _ ((h.live _).mpr (Or.inl hmem)) rfl, h.nodup⟩
      old := fun a ha => by
        rcases (hstr a).mp ha with rfl | ha
        · exact Nat.lt_succ_self _
        · exact (h.old a ha).trans (Nat.lt_succ_self _)
      strings := by
        show m.stringAllocated + 1 = _
        rw [h.strings, length_cons, Nat.add_right_comm, BitVec.ofNat_add _ 1]
        rfl }

theorem Owned.stringFree {a : Nat} (h : Owned m (a :: others)) :
    ∃ m', jsonStringFree m a = some m' ∧ m'.node = m.node ∧ m'.root = m.root ∧
      m'.freshNode = m.freshNode ∧ Owned m' others := by
  have hlive := (h.live a).mpr (Or.inl mem_cons_self)
  rcases isSome_iff_exists.mp hlive with ⟨s, hs⟩
  rcases nodup_cons.mp h.nodup with ⟨hmem, hnodup⟩
  let m' : JsonMemory D :=
    { m with str := Function.update m.str a none, stringAllocated := m.stringAllocated - 1 }
  have hstr : ∀ b, (m'.str b).isSome ↔ b ≠ a ∧ (m.str b).isSome := by
    intro b
    by_cases hb : b = a
    · rw [hb, show m'.str a = none from update_self ..]
      simp
    · rw [show m'.str b = m.str b from update_of_ne hb ..]
      simp [hb]
  refine ⟨m', by rw [jsonStringFree, hs, map_some], rfl, rfl, rfl, ?_⟩
  exact
    { managed := ⟨h.managed.base_le, h.managed.mgr_eq, h.managed.node⟩
      bounded := h.bounded
      objects := h.objects
      live := fun b => by
        rw [hstr, h.live, mem_cons]
        constructor
        · rintro ⟨hne, (hb | hb) | hq⟩
          · exact absurd hb hne
          · exact Or.inl hb
          · exact Or.inr hq
        · rintro (hb | ⟨q, hq⟩)
          · exact ⟨fun heq => hmem (heq ▸ hb), Or.inl (Or.inr hb)⟩
          · exact ⟨fun heq => h.fresh a mem_cons_self q (heq ▸ hq), Or.inr ⟨q, hq⟩⟩
      inj := h.inj
      fresh := fun b hb => h.fresh b (mem_cons_of_mem _ hb)
      nodup := hnodup
      old := fun b hb => h.old b ((hstr b).mp hb).2
      strings := by
        show m.stringAllocated - 1 = _
        rw [h.strings, length_cons, Nat.add_right_comm, BitVec.ofNat_add _ 1]
        exact BitVec.add_sub_cancel _ _ }

theorem owner_of_keepsBody (h : m.KeepsBody m' p) (hn : m.node p = some n) :
    ∃ n', m'.node p = some n' ∧ n'.type = n.type ∧ n'.owned = n.owned := by
  rcases h.keeps n hn with ⟨n', hn', htype, hkey, hvalue, -⟩
  refine ⟨n', hn', htype, ?_⟩
  rw [JsonObject.owned, JsonObject.owned, htype, hkey, hvalue]

theorem owned_calloc (type : JsonType) (link mgr : Option JsonPtr) :
    (JsonObject.calloc type link mgr : JsonObject D).owned = none := by
  cases type <;> rfl

/-- A new node owns nothing. -/
theorem Owned.alloc {type : JsonType} {x : JsonPtr × JsonMemory D} (h : Owned m others)
    (hx : jsonAlloc m type = some x) :
    Owned x.2 others ∧ (∃ link mgr, x.2.node x.1 = some (.calloc type link mgr)) ∧
      x.2.root = m.root ∧ (∀ q, q ≠ x.1 → ∀ n, x.2.node q = some n →
        ∃ n0, m.node q = some n0 ∧ n.type = n0.type ∧ n.owned = n0.owned) ∧
      ∀ q, (m.node q).isSome → (x.2.node q).isSome := by
  rcases jsonAlloc_spec h.managed type with ⟨link, mgr, m1, halloc, hnew, hstr, hfreshStr⟩
  rw [halloc] at hx
  cases hx
  have hfresh := hnew.freshNode
  have hcounters : m1.objectAllocated = m.objectAllocated + 1 ∧
      m1.stringAllocated = m.stringAllocated ∧ m1.root = m.root ∧
      ∀ q : Nat, m.freshNode < q → m.node q = none → m1.node q = none := by
    rw [jsonAlloc] at halloc
    cases hmgr : m.mgr with
    | none =>
      simp only [hmgr, some.injEq, Prod.mk.injEq, true_and] at halloc
      subst halloc
      exact ⟨rfl, rfl, rfl, fun q hq hn => (update_of_ne (Nat.ne_of_gt hq) ..).trans hn⟩
    | some g =>
      simp only [hmgr] at halloc
      rcases map_eq_some_iff.mp halloc with ⟨n, hn, heq⟩
      cases heq
      refine ⟨rfl, rfl, rfl, fun q hq hqn => ?_⟩
      have hqg : q ≠ g := fun hqg => by
        rw [hqg] at hqn
        cases hn.symm.trans hqn
      rw [put_node_of_ne (Nat.ne_of_gt hq), put_node_of_ne hqg]
      exact hqn
  rcases hcounters with ⟨hobj, hstrs, hroot, hbeyond⟩
  have hlt : ∀ (q : Nat) n, m1.node q = some n → q < m.freshNode + 1 := fun q n hq => by
    by_contra hge
    have hnone : m.node q = none := by
      cases hmq : m.node q with
      | none => rfl
      | some n0 => exact absurd (h.bounded q n0 hmq) (by omega)
    rw [hbeyond q (by omega) hnone] at hq
    cases hq
  have hold : ∀ q : Nat, q ≠ m.freshNode → ∀ n, m1.node q = some n →
      ∃ n0, m.node q = some n0 ∧ n.type = n0.type ∧ n.owned = n0.owned := by
    intro q hq n hn
    have hqlt : q < m.freshNode := by
      have := hlt q n hn
      omega
    rcases h.managed.node q (Nat.zero_le q) hqlt with ⟨n0, hn0, -⟩
    rcases owner_of_keepsBody (hnew.ext.body q hqlt) hn0 with ⟨n', hn', htype, howned⟩
    rw [hn] at hn'
    cases hn'
    exact ⟨n0, hn0, htype, howned⟩
  have hkeep : ∀ q n0, m.node q = some n0 → ∃ n, m1.node q = some n ∧ n.owned = n0.owned := by
    intro q n0 hn0
    rcases owner_of_keepsBody (hnew.ext.body q (h.bounded q n0 hn0)) hn0 with ⟨n, hn, -, howned⟩
    exact ⟨n, hn, howned⟩
  have howner : ∀ q, m1.owner q = m.owner q := by
    intro q
    cases hq : m.node q with
    | some n0 =>
      rcases hkeep q n0 hq with ⟨n, hn, howned⟩
      rw [owner_eq hn, owner_eq hq, howned]
    | none =>
      rw [show m.owner q = none by rw [JsonMemory.owner, hq]; rfl]
      by_cases hqf : q = m.freshNode
      · rw [hqf, owner_eq hnew.node, owned_calloc]
      · cases hq1 : m1.node q with
        | none => rw [JsonMemory.owner, hq1]; rfl
        | some n =>
          rcases hold q hqf n hq1 with ⟨n0, hn0, -⟩
          rw [hq] at hn0
          cases hn0
  refine ⟨?_, ⟨link, mgr, hnew.node⟩, hroot, hold, fun q hq => ?_⟩
  · exact
      { managed := hnew.managed
        bounded := fun q n hq => hfresh ▸ hlt q n hq
        objects := by rw [hobj, h.objects, hfresh, BitVec.ofNat_add _ 1]; rfl
        live := fun a => by simp only [hstr, howner]; exact h.live a
        inj := fun q r a => by simp only [howner]; exact h.inj q r a
        fresh := fun a ha q => by rw [howner]; exact h.fresh a ha q
        nodup := h.nodup
        old := fun a ha => by rw [hstr] at ha; rw [hfreshStr]; exact h.old a ha
        strings := by
          have hnone : m.owner m.freshNode = none := by
            rw [← howner, owner_eq hnew.node, owned_calloc]
          have howners : m1.owners = m.owners := by
            rw [JsonMemory.owners, JsonMemory.owners, hfresh, range_succ, countP_append,
              countP_singleton]
            simp only [howner, hnone]
            rfl
          rw [hstrs, h.strings, howners] }
  · rcases isSome_iff_exists.mp hq with ⟨n0, hn0⟩
    rcases hkeep q n0 hn0 with ⟨n, hn, -⟩
    rw [hn]
    rfl

end Owned

/-! ## Actions -/

section Sound

variable {m m' : JsonMemory D} {n n' : JsonObject D} {p : Nat} {others : List Nat}

theorem typed_put (h : ∀ q, q ≠ p → ∀ n, m.node q = some n → n.Typed) (hn' : n'.Typed) :
    ∀ q n, (m.put p n').node q = some n → n.Typed := by
  intro q n hn
  by_cases hq : q = p
  · rw [hq, put_node_self] at hn
    cases hn
    exact hn'
  · exact h q hq n ((put_node_of_ne hq).symm.trans hn)

theorem isSome_put {q : JsonPtr} (h : (m.node q).isSome) : ((m.put p n').node q).isSome := by
  by_cases hq : q = p
  · rw [hq, put_node_self]
    rfl
  · rw [put_node_of_ne hq]
    exact h

theorem Sound.put (h : Sound m others) (hn : m.node p = some n) (hlink : n'.link = n.link)
    (hmgr : n'.mgr = n.mgr) (howned : n'.owned = n.owned) (htyped : n'.Typed) :
    Sound (m.put p n') others where
  owned := h.owned.put_same hn hlink hmgr howned
  typed := typed_put (fun q _ => h.typed q) htyped
  root j hj := isSome_put (h.root j hj)

theorem Sound.modify {f : JsonObject D → JsonObject D} (h : Sound m others)
    (hm' : m.modify p f = some m') (hf : ∀ n, (f n).link = n.link ∧ (f n).mgr = n.mgr ∧
      (f n).type = n.type ∧ (f n).owned = n.owned) : Sound m' others := by
  rcases map_eq_some_iff.mp hm' with ⟨n, hn, rfl⟩
  rcases hf n with ⟨hlink, hmgr, htype, howned⟩
  refine h.put hn hlink hmgr howned fun ht => ?_
  rw [htype] at ht
  rw [howned]
  exact h.typed _ n hn ht

variable {x : JsonPtr × JsonMemory D} {type : JsonType}

theorem Sound.alloc (h : Sound m others)
    (htype : type ≠ .text ∧ type ≠ .pair) (hx : jsonAlloc m type = some x) : Sound x.2 others := by
  rcases h.owned.alloc hx with ⟨howned, ⟨link, mgr, hnew⟩, hroot, hold, hkeep⟩
  refine ⟨howned, fun q n hn ht => ?_, fun j hj => hkeep j (h.root j (hroot.symm.trans hj))⟩
  by_cases hq : q = x.1
  · rw [hq, hnew] at hn
    cases hn
    rcases ht with ht | ht
    · exact absurd ht htype.1
    · exact absurd ht htype.2
  · rcases hold q hq n hn with ⟨n0, hn0, htype0, howned0⟩
    rw [htype0] at ht
    rw [howned0]
    exact h.typed q n0 hn0 ht

theorem owned_of_type (htype : type ≠ .text ∧ type ≠ .pair)
    (h : n.type = type) : n.owned = none := by
  subst h
  unfold JsonObject.owned
  cases ht : n.type <;> first | rfl | simp_all

theorem typed_of_type (htype : n.type ≠ .text ∧ n.type ≠ .pair) : n.Typed :=
  fun h => h.elim (fun h => absurd h htype.1) fun h => absurd h htype.2

theorem Sound.genValue {value : JsonUnion D}
    (h : Sound m others) (htype : type ≠ .text ∧ type ≠ .pair)
    (hx : jsonGenValue m type value = some x) : Sound x.2 others := by
  rcases bind_eq_some_iff.mp hx with ⟨⟨j, m1⟩, halloc, hx⟩
  rcases map_eq_some_iff.mp hx with ⟨m2, hm2, rfl⟩
  rcases map_eq_some_iff.mp hm2 with ⟨n, hn, rfl⟩
  have h1 := h.alloc htype halloc
  rcases h.owned.alloc halloc with ⟨-, ⟨link, mgr, hnew⟩, -⟩
  rw [hnew] at hn
  cases hn
  refine h1.put hnew rfl rfl ?_ (typed_of_type htype)
  rw [owned_of_type htype rfl, owned_of_type htype rfl]

variable {s : List CChar}

theorem Sound.genText (h : Sound m others)
    (hx : jsonGenTextObject m s = some x) : Sound x.2 others := by
  have h0 := h.owned.stringAlloc s
  rcases bind_eq_some_iff.mp hx with ⟨⟨j, m1⟩, halloc, hx⟩
  rcases map_eq_some_iff.mp hx with ⟨m2, hm2, rfl⟩
  rcases map_eq_some_iff.mp hm2 with ⟨n, hn, rfl⟩
  rcases h0.alloc halloc with ⟨h1, ⟨link, mgr, hnew⟩, hroot, hold, hkeep⟩
  rw [hnew] at hn
  cases hn
  refine ⟨Owned.put_change others h1 hnew rfl rfl, typed_put (fun q hq n hn ht => ?_) fun _ => rfl,
    fun r hr => isSome_put (hkeep r (h.root r (hroot.symm.trans hr)))⟩
  rcases hold q hq n hn with ⟨n0, hn0, htype0, howned0⟩
  rw [htype0] at ht
  rw [howned0]
  exact h.typed q n0 hn0 ht

variable {j2 j1 : JsonPtr}

theorem Sound.genPair (h : Sound m others)
    (hx : jsonGenPair m j1 j2 = some x) : Sound x.2 others := by
  rcases bind_eq_some_iff.mp hx with ⟨n, hn, hx⟩
  split at hx
  · rename_i a htype hvalue
    rcases bind_eq_some_iff.mp hx with ⟨s, hs, hx⟩
    have h0 := h.owned.stringAlloc s
    let n' : JsonObject D := { n with type := .pair, key := some m.freshStr, value := .o j2 }
    have hown : n.owned = some a := by rw [JsonObject.owned, htype, hvalue]; rfl
    have h1 : Owned ((jsonStringAlloc m s).2.put j1 n') (n.owned.toList ++ others) :=
      Owned.put_change others h0 hn rfl rfl
    rw [hown] at h1
    rcases h1.stringFree with ⟨m2, hfree, hnode, hroot, hfresh, h2⟩
    -- The string of the text is freed before the node is written, which is the same.
    have hcomm : (jsonStringFree (jsonStringAlloc m s).2 a).map (fun m => m.put j1 n') = some m2 := by
      rw [← hfree, jsonStringFree, jsonStringFree, Option.map_map]
      rfl
    have hx' : some (j1, m2) = some x := by
      rw [← hx, ← map_some (f := fun m => (j1, m)), ← hcomm, Option.map_map]
      rfl
    cases hx'
    refine ⟨h2, fun q nq hq => ?_, fun r hr => ?_⟩
    · rw [hnode] at hq
      exact typed_put (fun q _ => h.typed q) (fun _ => rfl) q nq hq
    · rw [hnode]
      exact isSome_put (h.root r (hroot.symm.trans hr))
  · cases hx
  · cases hx
    exact h

theorem Sound.appendPair {j1 : Option JsonPtr}
    (h : Sound m others) (hx : jsonAppendPair m j1 j2 = some x) : Sound x.2 others := by
  rcases bind_eq_some_iff.mp hx with ⟨⟨j, m1⟩, hstart, hx⟩
  have h1 : Sound m1 others := by
    cases j1 with
    | none => exact h.alloc (x := (j, m1)) (by decide) hstart
    | some j1 =>
      cases hstart
      exact h
  rcases bind_eq_some_iff.mp hx with ⟨n, hn, hx⟩
  rcases bind_eq_some_iff.mp hx with ⟨n2, hn2, hx⟩
  split at hx
  · cases hx
  · split at hx
    · rcases bind_eq_some_iff.mp hx with ⟨m2, hm2, hx⟩
      rcases map_eq_some_iff.mp hx with ⟨m3, hm3, rfl⟩
      exact (h1.modify hm2 fun _ => ⟨rfl, rfl, rfl, rfl⟩).modify hm3
        fun _ => ⟨rfl, rfl, rfl, rfl⟩
    · rcases map_eq_some_iff.mp hx with ⟨m3, hm3, rfl⟩
      exact h1.modify hm3 fun _ => ⟨rfl, rfl, rfl, rfl⟩

theorem Sound.appendValue {j1 : Option JsonPtr}
    (h : Sound m others) (hx : jsonAppendValue m j1 j2 = some x) : Sound x.2 others := by
  rcases bind_eq_some_iff.mp hx with ⟨⟨j, m1⟩, hstart, hx⟩
  have h1 : Sound m1 others := by
    cases j1 with
    | none => exact h.alloc (x := (j, m1)) (by decide) hstart
    | some j1 =>
      cases hstart
      exact h
  rcases bind_eq_some_iff.mp hx with ⟨n, hn, hx⟩
  split at hx
  · cases hx
  · split at hx
    · rcases bind_eq_some_iff.mp hx with ⟨m2, hm2, hx⟩
      rcases map_eq_some_iff.mp hx with ⟨m3, hm3, rfl⟩
      exact (h1.modify hm2 fun _ => ⟨rfl, rfl, rfl, rfl⟩).modify hm3
        fun _ => ⟨rfl, rfl, rfl, rfl⟩
    · rcases map_eq_some_iff.mp hx with ⟨m3, hm3, rfl⟩
      exact h1.modify hm3 fun _ => ⟨rfl, rfl, rfl, rfl⟩

variable {fuel : Nat} {j : JsonPtr}

theorem Sound.setRoot : ∀ {m m' : JsonMemory D} {p : Option JsonPtr},
    Sound m others → jsonSetRoot j fuel m p = some m' →
    Sound m' others ∧ ∀ q, (m.node q).isSome → (m'.node q).isSome := by
  induction fuel with
  | zero =>
    intro m m' p h hm'
    cases p with
    | none =>
      cases hm'
      exact ⟨h, fun _ hq => hq⟩
    | some p => cases hm'
  | succ fuel ih =>
    intro m m' p h hm'
    cases p with
    | none =>
      cases hm'
      exact ⟨h, fun _ hq => hq⟩
    | some p =>
      rw [jsonSetRoot, bind_eq_some_iff] at hm'
      rcases hm' with ⟨n, hn, hm'⟩
      have hput : Sound (m.put p { n with root := some j }) others :=
        h.put hn rfl rfl rfl (h.typed p n hn)
      rcases ih hput hm' with ⟨hs, hkeep⟩
      exact ⟨hs, fun q hq => hkeep q (isSome_put hq)⟩

theorem Sound.setTop (h : Sound m others)
    (hx : jsonSetTop fuel m j = some x) : Sound x.2 others := by
  rcases bind_eq_some_iff.mp hx with ⟨n, hn, hx⟩
  rcases map_eq_some_iff.mp hx with ⟨m1, hm1, rfl⟩
  rcases h.setRoot hm1 with ⟨h1, hkeep⟩
  refine ⟨⟨⟨h1.owned.managed.base_le, h1.owned.managed.mgr_eq, h1.owned.managed.node⟩,
    h1.owned.bounded, h1.owned.objects, h1.owned.live, h1.owned.inj, h1.owned.fresh, h1.owned.nodup,
    h1.owned.old, h1.owned.strings⟩, h1.typed, fun r hr => ?_⟩
  cases hr
  exact hkeep j (by rw [hn]; rfl)

theorem Sound.putNumber (h : Sound m others) (hn : m.node p = some n)
    (htype : n.type ≠ .text ∧ n.type ≠ .pair) (hlink : n'.link = n.link) (hmgr : n'.mgr = n.mgr)
    (htype' : n'.type ≠ .text ∧ n'.type ≠ .pair) : Sound (m.put p n') others :=
  h.put hn hlink hmgr (by rw [owned_of_type htype' rfl, owned_of_type htype rfl])
    (typed_of_type htype')

variable {R : JsonReal D}

theorem Sound.neg (h : Sound m others)
    (hx : jsonNeg R m j = some x) : Sound x.2 others := by
  rcases bind_eq_some_iff.mp hx with ⟨n, hn, hx⟩
  split at hx
  · rename_i htype _
    cases hx
    exact h.putNumber hn (by rw [htype]; decide) rfl rfl (by rw [htype]; decide)
  · rename_i htype _
    cases hx
    exact h.putNumber hn (by rw [htype]; decide) rfl rfl (by rw [htype]; decide)
  · cases hx
  · cases hx
  · cases hx
    exact h

theorem Sound.bitwise {op : BitVec 64 → BitVec 64 → BitVec 64}
    (h : Sound m others) (hx : jsonBitwise op m j1 j2 = some x) :
    Sound x.2 others := by
  rcases bind_eq_some_iff.mp hx with ⟨n, hn, hx⟩
  rcases bind_eq_some_iff.mp hx with ⟨n2, hn2, hx⟩
  split at hx
  · rename_i htype
    rcases bind_eq_some_iff.mp hx with ⟨a, ha, hx⟩
    rcases map_eq_some_iff.mp hx with ⟨b, hb, rfl⟩
    exact h.putNumber hn (by rw [htype.1]; decide) rfl rfl (by
      show n.type ≠ .text ∧ n.type ≠ .pair
      rw [htype.1]
      decide)
  · cases hx
    exact h

theorem Sound.arith {iop : BitVec 64 → BitVec 64 → Option (BitVec 64)} {dop : D → D → D}
    (h : Sound m others)
    (hx : jsonArith iop dop R m j1 j2 = some x) : Sound x.2 others := by
  rcases bind_eq_some_iff.mp hx with ⟨n, hn, hx⟩
  rcases bind_eq_some_iff.mp hx with ⟨n2, hn2, hx⟩
  have hput : ∀ {n' : JsonObject D}, n.type ≠ .text ∧ n.type ≠ .pair → n'.link = n.link →
      n'.mgr = n.mgr → n'.type ≠ .text ∧ n'.type ≠ .pair → Sound (m.put j1 n') others :=
    fun h1 h2 h3 h4 => h.putNumber hn h1 h2 h3 h4
  split at hx
  · rename_i htype _
    rcases bind_eq_some_iff.mp hx with ⟨a, ha, hx⟩
    rcases bind_eq_some_iff.mp hx with ⟨b, hb, hx⟩
    rcases map_eq_some_iff.mp hx with ⟨c, hc, rfl⟩
    exact hput (by rw [htype]; decide) rfl rfl (by
      show n.type ≠ .text ∧ n.type ≠ .pair
      rw [htype]
      decide)
  · rename_i htype _
    rcases bind_eq_some_iff.mp hx with ⟨a, ha, hx⟩
    rcases map_eq_some_iff.mp hx with ⟨b, hb, rfl⟩
    exact hput (by rw [htype]; decide) rfl rfl ⟨nofun, nofun⟩
  · rename_i htype _
    rcases bind_eq_some_iff.mp hx with ⟨a, ha, hx⟩
    rcases map_eq_some_iff.mp hx with ⟨b, hb, rfl⟩
    exact hput (by rw [htype]; decide) rfl rfl (by
      show n.type ≠ .text ∧ n.type ≠ .pair
      rw [htype]
      decide)
  · rename_i htype _
    rcases bind_eq_some_iff.mp hx with ⟨a, ha, hx⟩
    rcases map_eq_some_iff.mp hx with ⟨b, hb, rfl⟩
    exact hput (by rw [htype]; decide) rfl rfl (by
      show n.type ≠ .text ∧ n.type ≠ .pair
      rw [htype]
      decide)
  · cases hx
    exact h

theorem Sound.textAppend (h : Sound m others)
    (hm' : jsonTextAppend m n s = some m') : Sound m' others := by
  rcases bind_eq_some_iff.mp hm' with ⟨a, ha, hm'⟩
  rcases map_eq_some_iff.mp hm' with ⟨t, ht, rfl⟩
  have hstr : ∀ b, (Function.update m.str a (some (t ++ s)) b).isSome = (m.str b).isSome := by
    intro b
    by_cases hb : b = a
    · rw [hb, update_self, ht]
      rfl
    · rw [update_of_ne hb]
  have h1 := h.owned
  exact ⟨⟨⟨h1.managed.base_le, h1.managed.mgr_eq, h1.managed.node⟩, h1.bounded, h1.objects,
    fun b => by rw [hstr]; exact h1.live b, h1.inj, h1.fresh, h1.nodup,
    fun b hb => h1.old b (by rw [← hstr]; exact hb), h1.strings⟩, h.typed, h.root⟩

theorem Sound.addText {n1 n2 : JsonObject D}
    (h : Sound m others) (hn : m.node j1 = some n1)
    (htype : n1.type ≠ .text ∧ n1.type ≠ .pair) (hx : jsonAddText m j1 n1 n2 s = some x) :
    Sound x.2 others := by
  rcases bind_eq_some_iff.mp hx with ⟨s', hs', hx⟩
  rcases map_eq_some_iff.mp hx with ⟨t, ht, rfl⟩
  have h0 := h.owned.stringAlloc (s' ++ t)
  let n' : JsonObject D := { n1 with type := .text, value := .t m.freshStr }
  have h1 : Owned ((jsonStringAlloc m (s' ++ t)).2.put j1 n') (n1.owned.toList ++ others) :=
    Owned.put_change others h0 hn rfl rfl
  rw [owned_of_type htype rfl] at h1
  exact ⟨h1, typed_put (fun q _ => h.typed q) fun _ => rfl, fun r hr => isSome_put (h.root r hr)⟩

theorem Sound.add
    (h : Sound m others) (hx : jsonAdd R m j1 j2 = some x) : Sound x.2 others := by
  rcases bind_eq_some_iff.mp hx with ⟨n1, hn1, hx⟩
  rcases bind_eq_some_iff.mp hx with ⟨n2, hn2, hx⟩
  split at hx
  · rename_i htype _
    rcases bind_eq_some_iff.mp hx with ⟨a, ha, hx⟩
    exact h.addText hn1 (by rw [htype]; decide) hx
  · rename_i htype _
    rcases bind_eq_some_iff.mp hx with ⟨a, ha, hx⟩
    exact h.addText hn1 (by rw [htype]; decide) hx
  · rcases bind_eq_some_iff.mp hx with ⟨b, hb, hx⟩
    rcases map_eq_some_iff.mp hx with ⟨m1, hm1, rfl⟩
    exact h.textAppend hm1
  · rcases map_eq_some_iff.mp hx with ⟨m1, hm1, rfl⟩
    exact h.textAppend hm1
  · rcases bind_eq_some_iff.mp hx with ⟨t, ht, hx⟩
    rcases map_eq_some_iff.mp hx with ⟨m1, hm1, rfl⟩
    exact h.textAppend hm1
  · exact h.arith hx

theorem Sound.stringAlloc (h : Sound m others) (s : List CChar) :
    Sound (jsonStringAlloc m s).2 (m.freshStr :: others) :=
  ⟨h.owned.stringAlloc s, h.typed, h.root⟩

theorem Sound.stringFree {a : Nat} (h : Sound m (a :: others)) (hm' : jsonStringFree m a = some m') :
    Sound m' others := by
  rcases h.owned.stringFree with ⟨m1, hm1, hnode, hroot, -, howned⟩
  rw [hm'] at hm1
  cases hm1
  exact ⟨howned, hnode ▸ h.typed, hroot ▸ hnode ▸ h.root⟩

/-! ## The parser -/

theorem Sound.yylval {l : JsonLexeme} {x : Option JsonPtr × JsonMemory D}
    (h : Sound m others) (hx : jsonYylval R m l = some x) : Sound x.2 others := by
  cases l with
  | none =>
    cases hx
    exact h
  | keyword s =>
    rcases map_eq_some_iff.mp hx with ⟨m1, hm1, rfl⟩
    exact (h.stringAlloc s).stringFree hm1
  | text s =>
    rcases map_eq_some_iff.mp hx with ⟨y, hy, rfl⟩
    exact h.genText hy
  | int s base =>
    rcases bind_eq_some_iff.mp hx with ⟨y, hy, hx⟩
    rcases map_eq_some_iff.mp hx with ⟨m1, hm1, rfl⟩
    exact ((h.stringAlloc s).genValue (by decide) hy).stringFree hm1
  | dbl s =>
    rcases bind_eq_some_iff.mp hx with ⟨y, hy, hx⟩
    rcases map_eq_some_iff.mp hx with ⟨m1, hm1, rfl⟩
    exact ((h.stringAlloc s).genValue (by decide) hy).stringFree hm1

theorem Sound.result {f : Option (JsonPtr × JsonMemory D)} {x : Option JsonPtr × JsonMemory D}
    (hf : ∀ y, f = some y → Sound y.2 others) (hx : jsonResult f = some x) : Sound x.2 others := by
  rcases map_eq_some_iff.mp hx with ⟨y, hy, rfl⟩
  exact hf y hy

theorem Sound.unary {f : JsonPtr → Option (JsonPtr × JsonMemory D)} {v : Option JsonPtr}
    {x : Option JsonPtr × JsonMemory D} (hf : ∀ j y, f j = some y → Sound y.2 others)
    (hx : jsonUnary f v = some x) : Sound x.2 others := by
  rcases bind_eq_some_iff.mp hx with ⟨j, -, hx⟩
  exact Sound.result (hf j) hx

theorem Sound.binary {f : JsonPtr → JsonPtr → Option (JsonPtr × JsonMemory D)}
    {v w : Option JsonPtr} {x : Option JsonPtr × JsonMemory D}
    (hf : ∀ i j y, f i j = some y → Sound y.2 others) (hx : jsonBinary f v w = some x) :
    Sound x.2 others := by
  rcases bind_eq_some_iff.mp hx with ⟨i, -, hx⟩
  rcases bind_eq_some_iff.mp hx with ⟨j, -, hx⟩
  exact Sound.result (hf i j) hx

/-- Every action of the grammar keeps the invariant. -/
theorem JsonRule.action_sound {rule : JsonRule}
    {vs : List (Option JsonPtr)} {x : Option JsonPtr × JsonMemory D} (h : Sound m others)
    (hx : rule.action R fuel m vs = some x) : Sound x.2 others := by
  have hempty : ∀ {type : JsonType}, type ≠ .text ∧ type ≠ .pair → ∀ y,
      jsonAlloc m type = some y → Sound y.2 others := fun htype _ hy => h.alloc htype hy
  cases rule with
  | start => exact Sound.unary (fun _ _ => h.setTop) hx
  | emptyObject | emptyArray | null => exact Sound.result (hempty (by decide)) hx
  | firstPair | appendPair => exact Sound.unary (fun _ _ => h.appendPair) hx
  | firstValue | appendValue => exact Sound.unary (fun _ _ => h.appendValue) hx
  | pair => exact Sound.binary (fun _ _ _ => h.genPair) hx
  | object | array | noComma | comma | unit | plus | parens =>
    cases hx
    exact h
  | lor =>
    rw [JsonRule.action] at hx
    split at hx
    · cases hx
      exact h
    · split at hx
      · cases hx
        exact h
      · exact Sound.result (hempty (by decide)) hx
  | land =>
    rw [JsonRule.action] at hx
    split at hx
    · exact Sound.result (hempty (by decide)) hx
    · cases hx
      exact h
  | bitOr | bitXor | bitAnd => exact Sound.binary (fun _ _ _ => h.bitwise) hx
  | add => exact Sound.binary (fun _ _ _ => h.add) hx
  | sub | mul | div | mod => exact Sound.binary (fun _ _ _ => h.arith) hx
  | neg => exact Sound.unary (fun _ _ => h.neg) hx
  | true | false => exact Sound.result (fun _ => h.genValue (by decide)) hx

theorem jsonYystep_sound {T : JsonTables}
    {c : JsonConfig T.State D} {x : JsonConfig T.State D × Option Bool}
    (h : Sound c.memory others) (hx : jsonYystep T R fuel c = some x) :
    Sound x.1.memory others ∧ (x.2 = some Bool.true → x.1.memory.root.isSome) := by
  rw [jsonYystep] at hx
  cases hmove : (T.step c.state (c.lookahead.map (·.1))).1 with
  | read =>
    simp only [hmove, JsonMove.apply] at hx
    split at hx
    · cases hx
    · rcases bind_eq_some_iff.mp hx with ⟨y, -, hx⟩
      rcases map_eq_some_iff.mp hx with ⟨z, hz, rfl⟩
      exact ⟨h.yylval hz, nofun⟩
  | shift =>
    simp only [hmove, JsonMove.apply] at hx
    rcases map_eq_some_iff.mp hx with ⟨y, -, rfl⟩
    exact ⟨h, nofun⟩
  | reduce rule =>
    simp only [hmove, JsonMove.apply] at hx
    split at hx
    · cases hx
    · rcases map_eq_some_iff.mp hx with ⟨y, hy, rfl⟩
      exact ⟨JsonRule.action_sound h hy, nofun⟩
  | accept =>
    simp only [hmove, JsonMove.apply] at hx
    rcases map_eq_some_iff.mp hx with ⟨j, hj, rfl⟩
    exact ⟨h, fun _ => by rw [hj]; rfl⟩
  | error =>
    simp only [hmove, JsonMove.apply] at hx
    cases hx
    exact ⟨h, nofun⟩

/-- The parser keeps the invariant, and it accepts with a root. -/
theorem jsonYyparse_sound {T : JsonTables} :
    ∀ {c : JsonConfig T.State D} {x : JsonConfig T.State D × Bool}, Sound c.memory others →
      jsonYyparse T R fuel c = some x →
      Sound x.1.memory others ∧ (x.2 = Bool.true → x.1.memory.root.isSome) := by
  induction fuel with
  | zero =>
    intro c x _ hx
    cases hx
  | succ fuel ih =>
    intro c x h hx
    rcases bind_eq_some_iff.mp hx with ⟨⟨c', status⟩, hstep, hx⟩
    rcases jsonYystep_sound h hstep with ⟨h', hroot⟩
    cases status with
    | none => exact ih h' hx
    | some status =>
      cases hx
      exact ⟨h', fun hs => hroot (congrArg some hs)⟩

end Sound

end Kcs.Ext
