import Mathlib

/-!
# Chained hash tables

A table has a fixed number of slots, each with a chain of entries.  An entry keeps the hash of
its key.  Inserting an element whose key is there returns the element of the table; clearing
keeps the entries of the chains for reuse.

Main results:

- Lemma {lit}`HashTable.lookup_insert`: inserting adds at most the key of the element.
- Lemma {lit}`HashTable.insert_fst`: the element returned is the one that is found from then on.
-/

namespace Kcs

/-- An entry of a chain. -/
structure HashEntry (α : Type) where
  data : α
  hash : UInt64

/-- A table: its slots, and the entries that are kept for reuse. -/
structure HashTable (α : Type) where
  capacity : Nat
  capacity_pos : 0 < capacity
  slots : Fin capacity → List (HashEntry α)
  unused : List (HashEntry α)

namespace HashTable

variable {α κ : Type} [DecidableEq κ] (hash : κ → UInt64) (key : α → κ)

/-- A table without elements. -/
def init (capacity : Nat) (h : 0 < capacity) : HashTable α := ⟨capacity, h, fun _ => [], []⟩

/-- The slot of a hash. -/
def position (t : HashTable α) (h : UInt64) : Fin t.capacity :=
  ⟨h.toNat % t.capacity, Nat.mod_lt _ t.capacity_pos⟩

/-- Does an entry have a key?  The hash is compared first. -/
def matchesKey (k : κ) (e : HashEntry α) : Bool := e.hash == hash k && decide (key e.data = k)

/-- The first entry of a chain with a key. -/
def walk (chain : List (HashEntry α)) (k : κ) : Option (HashEntry α) :=
  chain.find? (matchesKey hash key k)

/-- The element with a key. -/
def lookup (t : HashTable α) (k : κ) : Option α :=
  (walk hash key (t.slots (t.position (hash k))) k).map (·.data)

/-- The entries for reuse after a chain has got one more: the first entry of a chain is part of
the table. -/
def unusedAfter (chain unused : List (HashEntry α)) : List (HashEntry α) :=
  match chain with
  | [] => unused
  | _ :: _ => unused.tail

/-- The table with one more entry at the end of its chain. -/
def addEntry (t : HashTable α) (e : HashEntry α) : HashTable α :=
  { t with
    slots := Function.update t.slots (t.position e.hash) (t.slots (t.position e.hash) ++ [e])
    unused := unusedAfter (t.slots (t.position e.hash)) t.unused }

/-- Insert an element, or find the one with its key.  What is added is made from the element. -/
def insert (add : α → α) (t : HashTable α) (a : α) : α × HashTable α :=
  match lookup hash key t (key a) with
  | some b => (b, t)
  | none => (add a, addEntry t ⟨add a, hash (key a)⟩)

/-- Remove all elements. -/
def clear (t : HashTable α) : HashTable α :=
  { t with
    slots := fun _ => []
    unused := ((List.finRange t.capacity).flatMap fun p => (t.slots p).tail) ++ t.unused }

section Lookup

variable {hash key}

@[simp]
theorem lookup_init (capacity : Nat) (h : 0 < capacity) (k : κ) :
    lookup hash key (init capacity h) k = none := rfl

@[simp]
theorem lookup_clear (t : HashTable α) (k : κ) : lookup hash key (clear t) k = none := rfl

theorem key_of_lookup {t : HashTable α} {k : κ} {a : α} (h : lookup hash key t k = some a) :
    key a = k := by
  rcases Option.map_eq_some_iff.mp h with ⟨e, he, rfl⟩
  have hmatch := List.find?_some he
  simp only [matchesKey, Bool.and_eq_true, decide_eq_true_eq] at hmatch
  exact hmatch.2

theorem insert_fst (add : α → α) (t : HashTable α) (a : α) :
    (insert hash key add t a).1 = (lookup hash key t (key a)).getD (add a) := by
  unfold insert
  cases h : lookup hash key t (key a) with
  | some b => rfl
  | none => rfl

theorem slots_addEntry (t : HashTable α) (e : HashEntry α) (p : Fin t.capacity) :
    (addEntry t e).slots p =
      if p = t.position e.hash then t.slots (t.position e.hash) ++ [e] else t.slots p :=
  Function.update_apply ..

theorem lookup_addEntry {t : HashTable α} {a : α} {k : κ} (hkey : key a = k)
    (hnone : lookup hash key t k = none) (k' : κ) :
    lookup hash key (addEntry t ⟨a, hash k⟩) k' =
      if k' = k then some a else lookup hash key t k' := by
  have hslots := slots_addEntry t ⟨a, hash k⟩ (t.position (hash k'))
  have hlookup : lookup hash key (addEntry t ⟨a, hash k⟩) k' =
      (walk hash key ((addEntry t ⟨a, hash k⟩).slots (t.position (hash k'))) k').map (·.data) := rfl
  rw [hlookup, hslots]
  by_cases heq : k' = k
  · subst heq
    have hwalk : (t.slots (t.position (hash k'))).find? (matchesKey hash key k') = none :=
      Option.map_eq_none_iff.mp hnone
    simp [walk, hwalk, matchesKey, hkey]
  · have hother : matchesKey hash key k' ⟨a, hash k⟩ = false := by
      simp [matchesKey, hkey, Ne.symm heq]
    rw [if_neg heq]
    split
    · rename_i hslot
      simp [lookup, walk, hother, hslot]
    · rfl

theorem lookup_insert {add : α → α} {a : α} (hadd : key (add a) = key a) (t : HashTable α)
    (k : κ) :
    lookup hash key (insert hash key add t a).2 k =
      if k = key a then some ((lookup hash key t (key a)).getD (add a))
      else lookup hash key t k := by
  unfold insert
  split
  · rename_i b hfound
    rw [hfound]
    split
    · rename_i heq
      rw [heq, hfound]
      rfl
    · rfl
  · rename_i hnone
    rw [lookup_addEntry hadd hnone, hnone]
    rfl

end Lookup

/-! ## Elements -/

/-- A property of every element of a table. -/
def Forall (P : α → Prop) (t : HashTable α) : Prop := ∀ p, ∀ e ∈ t.slots p, P e.data

section Elements

variable {P : α → Prop}

theorem forall_init (capacity : Nat) (h : 0 < capacity) : Forall P (init capacity h) :=
  fun _ _ he => absurd he List.not_mem_nil

theorem Forall.lookup {hash : κ → UInt64} {key : α → κ} {t : HashTable α} (ht : Forall P t) {k : κ}
    {a : α} (h : lookup hash key t k = some a) : P a := by
  rcases Option.map_eq_some_iff.mp h with ⟨e, he, rfl⟩
  exact ht _ e (List.mem_of_find?_eq_some he)

theorem Forall.insert {t : HashTable α} (ht : Forall P t) (add : α → α) {a : α} (ha : P (add a)) :
    P (insert hash key add t a).1 ∧ Forall P (insert hash key add t a).2 := by
  unfold HashTable.insert
  split
  · rename_i b hb
    exact ⟨ht.lookup hb, ht⟩
  · refine ⟨ha, fun p e he => ?_⟩
    have hslots := slots_addEntry t ⟨add a, hash (key a)⟩ p
    rw [show (addEntry t ⟨add a, hash (key a)⟩).slots p = _ from hslots] at he
    split at he
    · rcases List.mem_append.mp he with he | he
      · exact ht _ e he
      · rw [List.mem_singleton.mp he]
        exact ha
    · exact ht _ e he

end Elements

end HashTable

end Kcs
