import Kcs.Lib.Block

/-!
# Heaps of blocks

Blocks of memory by the pointers that an allocator handed out for them.  A pointer is the number of
its block; a null pointer stands for a block without cells.

Main results:

- Lemma {lit}`Heap.realloc_spec`: a block moves to a new pointer, with its contents.
- Lemmas {lit}`Heap.memcpy_spec` and {lit}`Heap.memset_spec`: accesses inside a block, cell by cell.
-/

/-- The blocks that were allocated so far, {lit}`none` for one that was freed. -/
abbrev Heap (α : Type) := List (Option (Block α))

namespace Heap

open List Option

variable {α : Type}

/-! ## Operations -/

/-- The block of a pointer. -/
def block (h : Heap α) (p : Nat) : Option (Block α) := h[p]?.join

/-- The cells that a pointer gives access to. -/
def contents (h : Heap α) : Option Nat → Option (Block α)
  | none => some []
  | some p => h.block p

/-- Replace the block of a pointer. -/
def put (h : Heap α) (p : Option Nat) (b : Option (Block α)) : Heap α :=
  p.elim h fun p => h.set p b

/-- `realloc` to a number of cells: the block moves, the old pointer is freed. -/
def realloc (h : Heap α) (p : Option Nat) (n : Nat) : Option (Nat × Heap α) :=
  (h.contents p).map fun b => (h.length, h.put p none ++ [some (b.resize n)])

/-- `memcpy`, and `memmove` inside a block. -/
def memcpy (h : Heap α) (dst : Option Nat) (off : Int) (src : Option Nat) (srcOff : Int) (n : Nat) :
    Option (Heap α) :=
  (h.contents dst).bind fun d => (h.contents src).bind fun s =>
    (d.memcpy off s srcOff n).map fun d => h.put dst (some d)

/-- `memset` of whole cells. -/
def memset (h : Heap α) (p : Option Nat) (off : Int) (n : Nat) (x : α) : Option (Heap α) :=
  (h.contents p).bind fun b => (b.poke off (replicate n (some x))).map fun b => h.put p (some b)

/-! ## Frames -/

/-- Every block but the one of a pointer is as it was. -/
def KeepsOthers (h : Heap α) (p : Option Nat) (h' : Heap α) : Prop :=
  ∀ q b, p ≠ some q → h.block q = some b → h'.block q = some b

variable {h h' h'' : Heap α} {p : Option Nat} {b : Block α}

theorem KeepsOthers.refl (h : Heap α) (p : Option Nat) : h.KeepsOthers p h := fun _ _ _ hb => hb

theorem KeepsOthers.trans (hk : h.KeepsOthers p h') (hk' : h'.KeepsOthers p h'') :
    h.KeepsOthers p h'' := fun q b hq hb => hk' q b hq (hk q b hq hb)

theorem KeepsOthers.contents (hk : h.KeepsOthers p h') {r : Option Nat}
    (hr : ∀ q, r = some q → p ≠ some q) (hb : h.contents r = some b) : h'.contents r = some b := by
  cases r with
  | none => exact hb
  | some q => exact hk q b (hr q rfl) hb

theorem lt_of_block {q : Nat} (hb : h.block q = some b) : q < h.length := by
  by_contra hq
  rw [block, getElem?_eq_none (by omega)] at hb
  cases hb

theorem KeepsOthers.trans_moved (hk : h.KeepsOthers p h') {q : Option Nat}
    (hk' : h'.KeepsOthers q h'') (hq : q = p ∨ q = some h.length) : h.KeepsOthers p h'' := by
  intro r b hr hb
  refine hk' r b (fun heq => ?_) (hk r b hr hb)
  rcases hq with rfl | rfl
  · exact hr heq
  · have hlt := lt_of_block hb
    cases heq
    omega

theorem keepsOthers_put (h : Heap α) (p : Option Nat) (b : Option (Block α)) :
    h.KeepsOthers p (h.put p b) := by
  intro q c hq hc
  cases p with
  | none => exact hc
  | some p =>
    have hne : p ≠ q := fun heq => hq (congrArg some heq)
    rwa [put, Option.elim, block, getElem?_set_ne hne]

theorem contents_put {c : Block α} (hb : h.contents p = some b) (hlen : c.length = b.length) :
    (h.put p (some c)).contents p = some c := by
  cases p with
  | none =>
    cases hb
    rw [length_eq_zero_iff.mp hlen]
    rfl
  | some p => rw [contents, put, Option.elim, block, getElem?_set_self (lt_of_block hb)]; rfl

/-! ## Each operation -/

theorem realloc_spec (hb : h.contents p = some b) (n : Nat) :
    ∃ h', h.realloc p n = some (h.length, h') ∧
      h'.contents (some h.length) = some (b.resize n) ∧ h.KeepsOthers p h' := by
  refine ⟨h.put p none ++ [some (b.resize n)], ?_, ?_, fun q c hq hc => ?_⟩
  · rw [realloc, hb, map_some]
  · have hlen : (h.put p none).length = h.length := by
      cases p with
      | none => rfl
      | some p => exact length_set
    rw [contents, block, ← hlen, getElem?_concat_length]
    rfl
  · have hold := keepsOthers_put h p none q c hq hc
    rw [block, getElem?_append_left (lt_of_block hold)]
    exact hold

theorem memcpy_spec {dst src : Option Nat} {d s : Block α} (hd : h.contents dst = some d)
    (hs : h.contents src = some s) (off srcOff n : Nat) (hread : srcOff + n ≤ s.length)
    (hwrite : off + n ≤ d.length) :
    ∃ d' h', h.memcpy dst off src srcOff n = some h' ∧ h'.contents dst = some d' ∧
      d'.length = d.length ∧ h.KeepsOthers dst h' ∧
      ∀ i, d'[i]? = if off ≤ i ∧ i < off + n then s[srcOff + (i - off)]? else d[i]? := by
  rcases Block.memcpy_getElem? d s off srcOff n hread hwrite with ⟨d', hcopy, hlen, hcells⟩
  refine ⟨d', h.put dst (some d'), ?_, contents_put hd hlen, hlen, keepsOthers_put h dst _, hcells⟩
  rw [memcpy, hd, bind_some, hs, bind_some, hcopy, map_some]

theorem memcpy_eq_none {dst src : Option Nat} {d s : Block α} (hd : h.contents dst = some d)
    (hs : h.contents src = some s) (off srcOff n : Nat) (hread : srcOff + n ≤ s.length)
    (hwrite : d.length < off + n) : h.memcpy dst off src srcOff n = none := by
  have hpeek : s.peek srcOff n = some ((s.drop srcOff).take n) := by
    rw [Block.peek, if_pos ⟨by omega, by exact_mod_cast hread⟩, Int.toNat_natCast]
  have hlen : ((s.drop srcOff).take n).length = n := by
    rw [length_take, length_drop]
    omega
  rw [memcpy, hd, bind_some, hs, bind_some, Block.memcpy, hpeek, bind_some, Block.poke,
    if_neg (by omega), map_none]

theorem memset_spec (hb : h.contents p = some b) (off n : Nat) (x : α) (hle : off + n ≤ b.length) :
    ∃ b' h', h.memset p off n x = some h' ∧ h'.contents p = some b' ∧ b'.length = b.length ∧
      h.KeepsOthers p h' ∧ ∀ i, i < off → b'[i]? = b[i]? := by
  rcases Block.poke_getElem? b (replicate n (some x)) off (by rwa [length_replicate]) with
    ⟨b', hpoke, hlen, hcells⟩
  refine ⟨b', h.put p (some b'), ?_, contents_put hb hlen, hlen, keepsOthers_put h p _, ?_⟩
  · rw [memset, hb, bind_some, hpoke, map_some]
  · intro i hi
    rw [hcells, if_neg (by omega)]

end Heap
