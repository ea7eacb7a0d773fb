import Mathlib

/-!
# Blocks of memory

A block from an allocator, with cells that may be uninitialised and accesses that fail outside.

Main results:

- Lemmas {lit}`memcpy_start` and {lit}`memcpy_end`: copies to the start and behind the contents
  of a block.
- Lemma {lit}`put_end`: a cell is written behind the contents.
-/

/-- The cells of a block, {lit}`none` for one that is not initialised. -/
abbrev Block (α : Type) := List (Option α)

namespace Block

open List

variable {α : Type}

/-! ## Operations -/

/-- Allocate a block without contents. -/
def malloc (n : Nat) : Block α := List.replicate n none

/-- Allocate a block that is filled. -/
def calloc (n : Nat) (x : α) : Block α := List.replicate n (some x)

/-- Read cells; a read outside the block fails. -/
def peek (b : Block α) (off : Int) (n : Nat) : Option (List (Option α)) :=
  if 0 ≤ off ∧ off + n ≤ b.length then some ((b.drop off.toNat).take n) else none

/-- Write cells; a write outside the block fails. -/
def poke (b : Block α) (off : Int) (xs : List (Option α)) : Option (Block α) :=
  if 0 ≤ off ∧ off + xs.length ≤ b.length then
    some (b.take off.toNat ++ xs ++ b.drop (off.toNat + xs.length))
  else none

/-- Copy cells from one block to another. -/
def memcpy (dst : Block α) (off : Int) (src : Block α) (srcOff : Int) (n : Nat) :
    Option (Block α) :=
  (peek src srcOff n).bind (poke dst off)

/-- The block that {lit}`realloc` makes of a block. -/
def resize (b : Block α) (n : Nat) : Block α := b.take n ++ malloc (n - b.length)

/-- Write one cell. -/
def put (b : Block α) (off : Int) (x : α) : Option (Block α) := poke b off [some x]

/-! ## Contents -/

/-- A block that starts with initialised cells. -/
def Holds (b : Block α) (xs : List α) : Prop := xs.map some <+: b

variable {b src : Block α} {xs ys : List α}

theorem holds_nil (b : Block α) : b.Holds [] := nil_prefix

theorem Holds.length_le (h : b.Holds xs) : xs.length ≤ b.length := by
  simpa using IsPrefix.length_le h

theorem Holds.of_append (h : b.Holds (xs ++ ys)) : b.Holds xs := by
  unfold Holds at h ⊢
  rw [map_append] at h
  exact (prefix_append _ _).trans h

theorem holds_map (xs : List α) : Holds (xs.map some) xs := prefix_rfl

theorem holds_iff_getElem? : b.Holds xs ↔ ∀ i (hi : i < xs.length), b[i]? = some (some xs[i]) := by
  constructor
  · rintro ⟨rest, rfl⟩ i hi
    rw [getElem?_append_left (by rwa [length_map]), getElem?_map, getElem?_eq_getElem hi]
    rfl
  · intro h
    refine prefix_iff_getElem?.mpr fun i hi => ?_
    rw [length_map] at hi
    rw [h i hi, getElem_map]

theorem peek_holds (h : b.Holds xs) (off n : Nat) (hle : off + n ≤ xs.length) :
    b.peek off n = some (((xs.drop off).take n).map some) := by
  rcases h with ⟨rest, rfl⟩
  have hlen : off + n ≤ (xs.map some ++ rest).length := by
    rw [length_append, length_map]
    omega
  rw [peek, if_pos ⟨by omega, by exact_mod_cast hlen⟩, Int.toNat_natCast,
    drop_append_of_le_length (by rw [length_map]; omega),
    take_append_of_le_length (by rw [length_drop, length_map]; omega), map_take, map_drop]

theorem poke_holds (h : b.Holds xs) (ys : List α) {off : Nat} (hoff : off ≤ xs.length)
    (hle : off + ys.length ≤ b.length) :
    ∃ b', b.poke off (ys.map some) = some b' ∧ b'.length = b.length ∧
      b'.Holds (xs.take off ++ ys) := by
  rcases h with ⟨rest, rfl⟩
  refine ⟨_, if_pos ⟨by omega, by rw [length_map]; exact_mod_cast hle⟩, ?_, ?_⟩
  · rw [Int.toNat_natCast, length_map, length_append, length_append,
      length_take, length_drop, length_map]
    omega
  · rw [Int.toNat_natCast, take_append_of_le_length (by rwa [length_map])]
    unfold Holds
    rw [map_append, map_take]
    exact prefix_append _ _

/-- A copy to the start of a block. -/
theorem memcpy_start (b : Block α) (hsrc : src.Holds ys) (off n : Nat)
    (hn : off + n ≤ ys.length) (hle : n ≤ b.length) :
    ∃ b', b.memcpy 0 src off n = some b' ∧ b'.length = b.length ∧
      b'.Holds ((ys.drop off).take n) := by
  have hlen : ((ys.drop off).take n).length = n := by
    rw [length_take, length_drop]
    omega
  rw [memcpy, peek_holds hsrc off n hn, Option.bind_some]
  simpa using poke_holds (holds_nil b) ((ys.drop off).take n) (Nat.zero_le _)
    (by omega)

/-- A copy behind the contents of a block. -/
theorem memcpy_end (h : b.Holds xs) (hsrc : src.Holds ys) {n : Nat} (hn : n ≤ ys.length)
    (hle : xs.length + n ≤ b.length) :
    ∃ b', b.memcpy xs.length src 0 n = some b' ∧ b'.length = b.length ∧
      b'.Holds (xs ++ ys.take n) := by
  have hpeek := peek_holds hsrc 0 n (by omega)
  rw [memcpy, show src.peek 0 n = _ from hpeek, Option.bind_some, drop_zero]
  simpa using poke_holds h (ys.take n) (Nat.le_refl _) (by
    rw [length_take]
    omega)

theorem put_end (h : b.Holds xs) (x : α) (hlt : xs.length < b.length) :
    ∃ b', b.put xs.length x = some b' ∧ b'.length = b.length ∧ b'.Holds (xs ++ [x]) := by
  simpa [put] using poke_holds h [x] (Nat.le_refl _) hlt

@[simp]
theorem length_malloc (n : Nat) : (malloc n : Block α).length = n := length_replicate

@[simp]
theorem length_calloc (n : Nat) (x : α) : (calloc n x).length = n := length_replicate

theorem length_resize (b : Block α) (n : Nat) : (b.resize n).length = n := by
  rw [resize, length_append, length_take, length_malloc]
  omega

theorem Holds.resize (h : b.Holds xs) {n : Nat} (hn : b.length ≤ n) : (b.resize n).Holds xs := by
  rw [Block.resize, take_of_length_le hn]
  exact h.trans (prefix_append _ _)

/-! ## Single cells -/

theorem poke_getElem? (b : Block α) (zs : List (Option α)) (off : Nat)
    (hle : off + zs.length ≤ b.length) :
    ∃ b', b.poke off zs = some b' ∧ b'.length = b.length ∧
      ∀ i, b'[i]? = if off ≤ i ∧ i < off + zs.length then zs[i - off]? else b[i]? := by
  refine ⟨_, if_pos ⟨by omega, by exact_mod_cast hle⟩, ?_, ?_⟩
  · rw [Int.toNat_natCast, length_append, length_append, length_take, length_drop]
    omega
  · intro i
    have hfront : (b.take off).length = off := by
      rw [length_take]
      omega
    rw [Int.toNat_natCast, append_assoc]
    by_cases hlo : off ≤ i
    · rw [getElem?_append_right (by omega), hfront]
      by_cases hhi : i < off + zs.length
      · rw [if_pos ⟨hlo, hhi⟩, getElem?_append_left (by omega)]
      · rw [if_neg (by omega), getElem?_append_right (by omega), getElem?_drop]
        congr 1
        omega
    · rw [if_neg (by omega), getElem?_append_left (by omega), getElem?_take_of_lt (by omega)]

theorem memcpy_getElem? (b src : Block α) (off srcOff n : Nat) (hsrc : srcOff + n ≤ src.length)
    (hle : off + n ≤ b.length) :
    ∃ b', b.memcpy off src srcOff n = some b' ∧ b'.length = b.length ∧
      ∀ i, b'[i]? = if off ≤ i ∧ i < off + n then src[srcOff + (i - off)]? else b[i]? := by
  have hpeek : src.peek srcOff n = some ((src.drop srcOff).take n) := by
    rw [peek, if_pos ⟨by omega, by exact_mod_cast hsrc⟩, Int.toNat_natCast]
  have hlen : ((src.drop srcOff).take n).length = n := by
    rw [length_take, length_drop]
    omega
  rw [memcpy, hpeek, Option.bind_some]
  rcases poke_getElem? b ((src.drop srcOff).take n) off (by omega) with
    ⟨b', hpoke, hlength, hcells⟩
  refine ⟨b', hpoke, hlength, ?_⟩
  intro i
  rw [hcells, hlen]
  split
  · rw [getElem?_take_of_lt (by omega), getElem?_drop]
  · rfl

theorem put_getElem? (b : Block α) (off : Nat) (x : α) (hlt : off < b.length) :
    ∃ b', b.put off x = some b' ∧ b'.length = b.length ∧
      ∀ i, b'[i]? = if i = off then some (some x) else b[i]? := by
  rcases poke_getElem? b [some x] off hlt with ⟨b', hpoke, hlength, hcells⟩
  refine ⟨b', hpoke, hlength, ?_⟩
  intro i
  rw [hcells]
  by_cases hi : i = off
  · rw [if_pos (by simp [hi]), if_pos hi, hi, Nat.sub_self]
    rfl
  · rw [if_neg (by simp; omega), if_neg hi]

end Block
