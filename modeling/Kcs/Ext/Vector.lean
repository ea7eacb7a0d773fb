import Kcs.Lib.Block

/-!
# Vectors, stacks and queues

The macros of the extended library for vectors of any element type and the stacks and queues on
them, `ext.h` and `ext_vector.c`.

Main results:

- Theorem {lit}`vectors_refine`: vectors refine lists over all sequences of operations that never
  grow a vector that has a block.
-/

namespace Kcs.Ext

open Option List BitVec

/-- What a vector points behind: the size of its block, `vector_t`, and cells for elements. -/
structure VectorBlock (α : Type) where
  bytes : Nat
  allocated : BitVec 64
  used : BitVec 64
  data : Block α

/-- `sizeof(vector_t)` -/
def sizeofVectorT : BitVec 64 := 16#64

section Operations

variable {α : Type} (size : BitVec 64)

/-- The elements that as many bytes cover as that many elements have. -/
def coveredCells (n : BitVec 64) : Nat := (n * size).toNat / size.toNat

/-- `vec_grow`: the header is filled in, and the new block copies as many bytes as it has. -/
def vecGrow (vector : Option (VectorBlock α)) (more : BitVec 64) : Option (VectorBlock α) :=
  match vector with
  | some block =>
    let count := 2#64 * block.allocated + more
    let bytes := (size * count + sizeofVectorT).toNat
    if 16 ≤ bytes ∧ bytes ≤ block.bytes then
      some { block with
        bytes := bytes
        allocated := count
        data := block.data.take ((bytes - 16) / size.toNat) }
    else none
  | none =>
    let count := more + 1#64
    let bytes := (size * count + sizeofVectorT).toNat
    if 16 ≤ bytes then
      some {
        bytes := bytes
        allocated := count
        used := 0#64
        data := Block.malloc ((bytes - 16) / size.toNat) }
    else none

/-- `vector_try_grow` -/
def vectorTryGrow (vector : Option (VectorBlock α)) (more : BitVec 64) : Option (VectorBlock α) :=
  match vector with
  | some block =>
    if block.allocated.ule (block.used + more) then vecGrow size vector more else some block
  | none => vecGrow size vector more

/-- `vector_push` -/
def vectorPush (vector : Option (VectorBlock α)) (value : α) : Option (VectorBlock α) :=
  (vectorTryGrow size vector 1#64).bind fun block =>
    (block.data.put block.used.toNat value).map fun data =>
      { block with data := data, used := block.used + 1#64 }

/-- `vector_unshift` -/
def vectorUnshift (vector : Option (VectorBlock α)) (value : α) : Option (VectorBlock α) :=
  (vectorTryGrow size vector 1#64).bind fun block =>
    (block.data.memcpy 1 block.data 0 (coveredCells size (block.allocated - 1#64))).bind fun data =>
      (data.put 0 value).map fun data => { block with data := data, used := block.used + 1#64 }

/-- `vector_resize` -/
def vectorResize (vector : Option (VectorBlock α)) (more : BitVec 64) : Option (VectorBlock α) :=
  (vectorTryGrow size vector more).map fun block => { block with used := block.used + more }

/-- `vector_append` of all elements of a block. -/
def vectorAppend (vector : Option (VectorBlock α)) (pointer : Block α) : Option (VectorBlock α) :=
  let count := BitVec.ofNat 64 pointer.length
  (vectorResize size vector count).bind fun block =>
    (block.data.memcpy (block.used - count).toNat pointer 0 (coveredCells size count)).map fun data =>
      { block with data := data }

/-- `vector_pop`, which needs a vector that is not `NULL`. -/
def vectorPop (vector : Option (VectorBlock α)) : Option (VectorBlock α) :=
  vector.map fun block => { block with used := block.used - 1#64 }

/-- `vector_remove` -/
def vectorRemove (vector : Option (VectorBlock α)) (index count : BitVec 64) :
    Option (VectorBlock α) :=
  vector.bind fun block =>
    (block.data.memcpy index.toNat block.data (index + count).toNat
      (coveredCells size (block.used - index - count))).map fun data =>
        { block with data := data, used := block.used - count }

/-- `stack_pop`: the vector and the element behind its end. -/
def stackPop (vector : Option (VectorBlock α)) : Option (VectorBlock α × List (Option α)) :=
  (vectorPop vector).bind fun block =>
    (block.data.peek block.used.toNat 1).map fun value => (block, value)

/-- `queue_dequeue` -/
def queueDequeue (vector : Option (VectorBlock α)) : Option (VectorBlock α × List (Option α)) :=
  stackPop vector

end Operations

/-- The macros for vectors, stacks and queues. -/
inductive VectorOp (α : Type) where
  | push (value : α)
  | unshift (value : α)
  | pop
  | resize (more : BitVec 64)
  | append (elements : List α)
  | remove (index count : BitVec 64)
  | stackPush (value : α)
  | stackPop
  | enqueue (value : α)
  | dequeue

section Runs

variable {α : Type} (size : BitVec 64)

/-- Perform an operation: the vector behind it and the element that it returns, if any. -/
def VectorOp.run (vector : Option (VectorBlock α)) :
    VectorOp α → Option (VectorBlock α × List (Option α))
  | push value | stackPush value => (vectorPush size vector value).map fun v => (v, [])
  | unshift value | enqueue value => (vectorUnshift size vector value).map fun v => (v, [])
  | pop => (vectorPop vector).map fun v => (v, [])
  | resize more => (vectorResize size vector more).map fun v => (v, [])
  | append elements => (vectorAppend size vector (elements.map some)).map fun v => (v, [])
  | remove index count => (vectorRemove size vector index count).map fun v => (v, [])
  | stackPop => Ext.stackPop vector
  | dequeue => queueDequeue vector

/-- Perform operations: the vector behind them and the elements that they return; an access
outside a block ends them. -/
def runVector (vector : Option (VectorBlock α)) :
    List (VectorOp α) → Option (Option (VectorBlock α) × List (Option α))
  | [] => some (vector, [])
  | op :: ops =>
    (op.run size vector).bind fun (v, out) =>
      (runVector (some v) ops).map fun (v, rest) => (v, out ++ rest)

/-! ## Lists -/

/-- The list that an operation makes and the element that it returns; elements that a resize
adds are unspecified. -/
def VectorOp.list (xs : List (Option α)) : VectorOp α → List (Option α) × List (Option α)
  | push value | stackPush value => (xs ++ [some value], [])
  | unshift value | enqueue value => (some value :: xs, [])
  | pop => (xs.dropLast, [])
  | resize more => (xs ++ List.replicate more.toNat none, [])
  | append elements => (xs ++ elements.map some, [])
  | remove index count => (xs.take index.toNat ++ xs.drop (index.toNat + count.toNat), [])
  | stackPop | dequeue => (xs.dropLast, xs.getLast?.toList)

/-- The list behind operations and the elements that they return. -/
def runList (xs : List (Option α)) : List (VectorOp α) → List (Option α) × List (Option α)
  | [] => (xs, [])
  | op :: ops =>
    let (ys, out) := op.list xs
    let (zs, rest) := runList ys ops
    (zs, out ++ rest)

/-! ## Refinement -/

/-- Cells that have the specified elements of a list. -/
def Matches (cells xs : List (Option α)) : Prop :=
  ∀ (i : Nat) (x : α), xs[i]? = some (some x) → cells[i]? = some (some x)

/-- A block whose cells are as many as its header says. -/
structure VectorBlock.Valid (block : VectorBlock α) : Prop where
  bytes : block.bytes = size.toNat * block.allocated.toNat + 16
  bound : block.bytes < 2 ^ 64
  data : block.data.length = block.allocated.toNat
  used : block.used.toNat ≤ block.allocated.toNat

/-- A vector holds the elements of a list; `NULL` is the empty vector. -/
def Represents : Option (VectorBlock α) → List (Option α) → Prop
  | none, xs => xs = []
  | some block, xs => block.Valid size ∧ block.used.toNat = xs.length ∧ Matches block.data xs

/-- The elements that an operation makes room for. -/
def VectorOp.more : VectorOp α → Option Nat
  | push _ | unshift _ | stackPush _ | enqueue _ => some 1
  | resize more => some more.toNat
  | append elements => some elements.length
  | pop | remove _ _ | stackPop | dequeue => none

/-- The arguments that callers may pass: elements are taken only from where they are. -/
def VectorOp.InRange (vector : Option (VectorBlock α)) : VectorOp α → Prop
  | pop | stackPop | dequeue => ∃ block ∈ vector, 0 < block.used.toNat
  | remove index count => ∃ block ∈ vector, index.toNat + count.toNat ≤ block.used.toNat
  | _ => True

/-- A new vector gets a block whose size does not wrap, and a vector with a block has the room
that is needed. -/
def HasRoom (more : Nat) : Option (VectorBlock α) → Prop
  | none => size.toNat * (more + 1) + 16 < 2 ^ 64
  | some block => block.used.toNat + more < block.allocated.toNat

/-- The operations that refine lists: no vector that has a block is grown. -/
def VectorOp.Fits (vector : Option (VectorBlock α)) (op : VectorOp α) : Prop :=
  ∀ more ∈ op.more, HasRoom size more vector

/-- Every operation meets a condition on the vector in front of it. -/
def VectorOp.EachStep (p : Option (VectorBlock α) → VectorOp α → Prop)
    (vector : Option (VectorBlock α)) : List (VectorOp α) → Prop
  | [] => True
  | op :: ops => p vector op ∧ ∀ out ∈ op.run size vector, VectorOp.EachStep p (some out.1) ops

section Specs

variable {size} {vector : Option (VectorBlock α)} {block : VectorBlock α} {xs : List (Option α)}

theorem coveredCells_eq {n : BitVec 64} (hsize : 0 < size.toNat)
    (h : n.toNat * size.toNat < 2 ^ 64) : coveredCells size n = n.toNat := by
  rw [coveredCells, toNat_mul, Nat.mod_eq_of_lt h, Nat.mul_div_cancel _ hsize]

theorem coveredCells_of_valid (hsize : 0 < size.toNat) (h : block.Valid size) {n : BitVec 64}
    (hn : n.toNat ≤ block.allocated.toNat) : coveredCells size n = n.toNat := by
  apply coveredCells_eq hsize
  have hbytes := h.bytes
  have hbound := h.bound
  have hle := Nat.mul_le_mul_right size.toNat hn
  rw [Nat.mul_comm block.allocated.toNat] at hle
  omega

theorem vecGrow_none (hsize : 0 < size.toNat) {more : BitVec 64}
    (hfits : size.toNat * (more.toNat + 1) + 16 < 2 ^ 64) :
    ∃ block : VectorBlock α, vecGrow size none more = some block ∧ block.Valid size ∧
      block.used.toNat = 0 ∧ block.allocated.toNat = more.toNat + 1 := by
  have hle : more.toNat + 1 ≤ size.toNat * (more.toNat + 1) := Nat.le_mul_of_pos_left _ hsize
  have hcount : (more + 1#64).toNat = more.toNat + 1 := by
    rw [toNat_add, toNat_ofNat]
    omega
  have hbytes : (size * (more + 1#64) + sizeofVectorT).toNat =
      size.toNat * (more.toNat + 1) + 16 := by
    rw [toNat_add, toNat_mul, hcount]
    simp only [sizeofVectorT, toNat_ofNat]
    omega
  simp only [vecGrow, hbytes]
  rw [if_pos (by omega)]
  refine ⟨_, rfl, ⟨?_, hfits, ?_, Nat.zero_le _⟩, rfl, hcount⟩
  · simp only [hcount]
  · rw [Block.length_malloc, Nat.add_sub_cancel, Nat.mul_div_cancel_left _ hsize, hcount]

theorem vectorTryGrow_spec (hsize : 0 < size.toNat) (h : Represents size vector xs)
    (more : BitVec 64) (hfits : HasRoom size more.toNat vector) :
    ∃ block, vectorTryGrow size vector more = some block ∧ Represents size (some block) xs ∧
      block.used.toNat + more.toNat < block.allocated.toNat := by
  cases vector with
  | none =>
    rcases vecGrow_none (α := α) hsize hfits with ⟨block, hgrow, hvalid, hused, hallocated⟩
    have hnil : xs = [] := h
    subst hnil
    exact ⟨block, hgrow, ⟨hvalid, hused, by simp [Matches]⟩, by omega⟩
  | some block =>
    have hlt : block.used.toNat + more.toNat < block.allocated.toNat := hfits
    have hroom : block.allocated.ule (block.used + more) = false := by
      have hallocated := block.allocated.isLt
      rw [BitVec.ule, decide_eq_false_iff_not, toNat_add]
      omega
    exact ⟨block, by simp [vectorTryGrow, hroom], h, hlt⟩

theorem toNat_add_of_lt {a b c : BitVec 64} (h : a.toNat + b.toNat < c.toNat) :
    (a + b).toNat = a.toNat + b.toNat := by
  have hc := c.isLt
  rw [toNat_add]
  omega

section

variable (hsize : 0 < size.toNat) (h : Represents size vector xs)
include hsize h

theorem vectorPush_spec {value : α}
    (hfits : HasRoom size 1 vector) :
    ∃ block, vectorPush size vector value = some block ∧
      Represents size (some block) (xs ++ [some value]) := by
  have hone : (1#64).toNat = 1 := rfl
  rcases vectorTryGrow_spec hsize h 1#64 hfits with ⟨block, hgrow, hrep, hroom⟩
  rcases hrep with ⟨hvalid, hused, hmatches⟩
  rw [hone] at hroom
  have hnext : (block.used + 1#64).toNat = block.used.toNat + 1 := toNat_add_of_lt hroom
  rcases Block.put_getElem? block.data block.used.toNat value
    (by rw [hvalid.data]; omega) with ⟨data, hput, hlength, hcells⟩
  refine ⟨{ block with data := data, used := block.used + 1#64 }, ?_,
    ⟨hvalid.bytes, hvalid.bound, hlength.trans hvalid.data, ?_⟩, ?_, ?_⟩
  · rw [vectorPush, hgrow, bind_some, hput, map_some]
  · show (block.used + 1#64).toNat ≤ block.allocated.toNat
    omega
  · rw [length_append, length_singleton, ← hused]
    exact hnext
  · intro i x hi
    rw [hcells]
    by_cases hlast : i = block.used.toNat
    · rw [if_pos hlast]
      rw [hlast, hused, getElem?_concat_length, some.injEq] at hi
      rw [hi]
    · have hlt : i < xs.length := by
        have := (List.getElem?_eq_some_iff.mp hi).1
        rw [length_append, length_singleton] at this
        omega
      rw [if_neg hlast]
      rw [getElem?_append_left hlt] at hi
      exact hmatches i x hi

theorem vectorUnshift_spec {value : α}
    (hfits : HasRoom size 1 vector) :
    ∃ block, vectorUnshift size vector value = some block ∧
      Represents size (some block) (some value :: xs) := by
  have hone : (1#64).toNat = 1 := rfl
  rcases vectorTryGrow_spec hsize h 1#64 hfits with ⟨block, hgrow, hrep, hroom⟩
  rcases hrep with ⟨hvalid, hused, hmatches⟩
  rw [hone] at hroom
  have hnext : (block.used + 1#64).toNat = block.used.toNat + 1 := toNat_add_of_lt hroom
  have hcount : (block.allocated - 1#64).toNat = block.allocated.toNat - 1 := by
    have hallocated := block.allocated.isLt
    rw [toNat_sub]
    omega
  have hdata := hvalid.data
  rcases Block.memcpy_getElem? block.data block.data 1 0
    (block.allocated.toNat - 1) (by omega) (by omega) with ⟨data1, hcopy, hlength1, hcells1⟩
  rcases Block.put_getElem? data1 0 value (by omega) with
    ⟨data2, hput, hlength2, hcells2⟩
  refine ⟨{ block with data := data2, used := block.used + 1#64 }, ?_,
    ⟨hvalid.bytes, hvalid.bound, (hlength2.trans hlength1).trans hdata, ?_⟩, ?_, ?_⟩
  · rw [vectorUnshift, hgrow, bind_some,
      coveredCells_of_valid hsize hvalid (by rw [hcount]; omega), hcount,
      show block.data.memcpy 1 _ 0 _ = some data1 from hcopy, bind_some,
      show data1.put 0 value = some data2 from hput, map_some]
  · show (block.used + 1#64).toNat ≤ block.allocated.toNat
    omega
  · rw [length_cons, ← hused]
    exact hnext
  · intro i x hi
    rw [hcells2, hcells1]
    cases i with
    | zero =>
      rw [getElem?_cons_zero, some.injEq] at hi
      rw [if_pos rfl, hi]
    | succ i =>
      rw [getElem?_cons_succ] at hi
      have hlt := (List.getElem?_eq_some_iff.mp hi).1
      rw [if_neg (by omega), if_pos (by omega), Nat.zero_add, Nat.add_sub_cancel]
      exact hmatches i x hi

theorem vectorResize_spec (more : BitVec 64) (hfits : HasRoom size more.toNat vector) :
    ∃ block, vectorResize size vector more = some block ∧
      Represents size (some block) (xs ++ List.replicate more.toNat none) ∧
      (block.used - more).toNat = xs.length := by
  rcases vectorTryGrow_spec hsize h more hfits with ⟨block, hgrow, ⟨hvalid, hused, hmatches⟩, hroom⟩
  have hnext : (block.used + more).toNat = block.used.toNat + more.toNat := toNat_add_of_lt hroom
  refine ⟨{ block with used := block.used + more }, ?_,
    ⟨⟨hvalid.bytes, hvalid.bound, hvalid.data, ?_⟩, ?_, ?_⟩, ?_⟩
  · rw [vectorResize, hgrow, map_some]
  · show (block.used + more).toNat ≤ block.allocated.toNat
    omega
  · rw [length_append, length_replicate, ← hused]
    exact hnext
  · intro i x hi
    by_cases hlt : i < xs.length
    · rw [getElem?_append_left hlt] at hi
      exact hmatches i x hi
    · rw [getElem?_append_right (by omega), getElem?_replicate] at hi
      split at hi <;> cases hi
  · show (block.used + more - more).toNat = xs.length
    rw [BitVec.add_sub_cancel, hused]

theorem vectorAppend_spec {elements : List α} (hfits : HasRoom size elements.length vector) :
    ∃ block, vectorAppend size vector (elements.map some) = some block ∧
      Represents size (some block) (xs ++ elements.map some) := by
  have hlt : elements.length < 2 ^ 64 := by
    cases vector with
    | none =>
      have hfits : size.toNat * (elements.length + 1) + 16 < 2 ^ 64 := hfits
      have hle : elements.length + 1 ≤ size.toNat * (elements.length + 1) :=
        Nat.le_mul_of_pos_left _ hsize
      omega
    | some block =>
      have hfits : block.used.toNat + elements.length < block.allocated.toNat := hfits
      have hallocated := block.allocated.isLt
      omega
  have hcount : (BitVec.ofNat 64 elements.length).toNat = elements.length := by
    rw [toNat_ofNat, Nat.mod_eq_of_lt hlt]
  rcases vectorResize_spec hsize h (BitVec.ofNat 64 elements.length)
    (by rw [hcount]; exact hfits) with ⟨block, hresize, ⟨hvalid, hused, hmatches⟩, hstart⟩
  rw [hcount, length_append, length_replicate] at hused
  have hroom := hvalid.used
  have hdata := hvalid.data
  rcases Block.memcpy_getElem? block.data (elements.map some) xs.length 0 elements.length
    (by rw [length_map]; omega) (by omega) with ⟨data, hcopy, hlength, hcells⟩
  refine ⟨{ block with data := data }, ?_,
    ⟨hvalid.bytes, hvalid.bound, hlength.trans hdata, hroom⟩, ?_, ?_⟩
  · simp only [vectorAppend, length_map, hresize, bind_some, hstart]
    rw [coveredCells_of_valid hsize hvalid (by rw [hcount]; omega), hcount,
      show block.data.memcpy _ _ 0 _ = some data from hcopy, map_some]
  · rw [length_append, length_map]
    exact hused
  · intro i x hi
    rw [hcells]
    by_cases hold : i < xs.length
    · rw [if_neg (by omega)]
      rw [getElem?_append_left hold] at hi
      apply hmatches i x
      rw [getElem?_append_left hold]
      exact hi
    · rw [getElem?_append_right (by omega)] at hi
      have hnew := (List.getElem?_eq_some_iff.mp hi).1
      rw [length_map] at hnew
      rw [if_pos (by omega), Nat.zero_add]
      exact hi

end

theorem vectorPop_spec (h : Represents size vector xs)
    (hrange : ∃ block ∈ vector, 0 < block.used.toNat) :
    ∃ block, vectorPop vector = some block ∧ Represents size (some block) xs.dropLast ∧
      block.used.toNat + 1 = xs.length ∧ Matches block.data xs ∧
        xs.length ≤ block.data.length := by
  rcases hrange with ⟨block, hblock, hpos⟩
  rw [mem_def] at hblock
  subst hblock
  rcases h with ⟨hvalid, hused, hmatches⟩
  have hless : (block.used - 1#64).toNat = block.used.toNat - 1 := by
    have husedLt := block.used.isLt
    rw [toNat_sub, toNat_ofNat]
    omega
  have hallocated := hvalid.used
  refine ⟨{ block with used := block.used - 1#64 }, rfl,
    ⟨⟨hvalid.bytes, hvalid.bound, hvalid.data, ?_⟩, ?_, ?_⟩, ?_, hmatches, ?_⟩
  · show (block.used - 1#64).toNat ≤ block.allocated.toNat
    omega
  · show (block.used - 1#64).toNat = _
    rw [length_dropLast]
    omega
  · intro i x hi
    apply hmatches i x
    have hlt := (List.getElem?_eq_some_iff.mp hi).1
    rw [length_dropLast] at hlt
    rw [dropLast_eq_take, getElem?_take_of_lt hlt] at hi
    exact hi
  · show (block.used - 1#64).toNat + 1 = xs.length
    omega
  · show xs.length ≤ block.data.length
    rw [hvalid.data]
    omega

theorem stackPop_spec (h : Represents size vector xs)
    (hrange : ∃ block ∈ vector, 0 < block.used.toNat) :
    ∃ block out, stackPop vector = some (block, out) ∧ Represents size (some block) xs.dropLast ∧
      out.length = 1 ∧ Matches out xs.getLast?.toList := by
  rcases vectorPop_spec h hrange with ⟨block, hpop, hrep, hlast, hmatches, hlength⟩
  have hlt : block.used.toNat < block.data.length := by omega
  have hpeek : block.data.peek block.used.toNat 1 = some [block.data[block.used.toNat]] := by
    rw [Block.peek, if_pos ⟨by omega, by exact_mod_cast hlt⟩, Int.toNat_natCast,
      drop_eq_getElem_cons hlt]
    rfl
  refine ⟨block, [block.data[block.used.toNat]], ?_, hrep, rfl, ?_⟩
  · rw [stackPop, hpop, bind_some, hpeek, map_some]
  · intro i x hi
    cases hlastElement : xs.getLast? with
    | none => simp [hlastElement] at hi
    | some y =>
      have hi0 : i = 0 := by
        have := (List.getElem?_eq_some_iff.mp hi).1
        simpa [hlastElement] using this
      subst hi0
      rw [hlastElement] at hi
      simp only [toList_some, getElem?_cons_zero, some.injEq] at hi
      rw [getLast?_eq_getElem?, ← hlast, Nat.add_sub_cancel, hi] at hlastElement
      have hcell := hmatches _ _ hlastElement
      rw [List.getElem?_eq_getElem hlt] at hcell
      simpa using hcell

/-- `vector_remove` -/
theorem vectorRemove_spec (hsize : 0 < size.toNat) (h : Represents size vector xs)
    {index count : BitVec 64}
    (hrange : ∃ block ∈ vector, index.toNat + count.toNat ≤ block.used.toNat) :
    ∃ block, vectorRemove size vector index count = some block ∧
      Represents size (some block) (xs.take index.toNat ++ xs.drop (index.toNat + count.toNat)) := by
  rcases hrange with ⟨block, hblock, hle⟩
  rw [mem_def] at hblock
  subst hblock
  rcases h with ⟨hvalid, hused, hmatches⟩
  have husedLt := block.used.isLt
  have hallocated := hvalid.used
  have hdata := hvalid.data
  have hsum : (index + count).toNat = index.toNat + count.toNat := by
    rw [toNat_add]
    omega
  have hrest : (block.used - index - count).toNat =
      block.used.toNat - (index.toNat + count.toNat) := by
    rw [toNat_sub, toNat_sub]
    omega
  have hless : (block.used - count).toNat = block.used.toNat - count.toNat := by
    rw [toNat_sub]
    omega
  rcases Block.memcpy_getElem? block.data block.data index.toNat (index.toNat + count.toNat)
    (block.used.toNat - (index.toNat + count.toNat)) (by omega) (by omega) with
    ⟨data, hcopy, hlength, hcells⟩
  refine ⟨{ block with data := data, used := block.used - count }, ?_,
    ⟨hvalid.bytes, hvalid.bound, hlength.trans hdata, ?_⟩, ?_, ?_⟩
  · rw [vectorRemove, bind_some, coveredCells_of_valid hsize hvalid (by rw [hrest]; omega),
      hrest, hsum, hcopy, map_some]
  · show (block.used - count).toNat ≤ block.allocated.toNat
    omega
  · show (block.used - count).toNat = _
    rw [length_append, length_take, length_drop]
    omega
  · intro i x hi
    have hfront : (xs.take index.toNat).length = index.toNat := by
      rw [length_take]
      omega
    rw [hcells]
    by_cases hlt : i < index.toNat
    · rw [if_neg (by omega)]
      rw [getElem?_append_left (by omega), getElem?_take_of_lt hlt] at hi
      exact hmatches i x hi
    · have hbound := (List.getElem?_eq_some_iff.mp hi).1
      rw [length_append, hfront, length_drop] at hbound
      rw [getElem?_append_right (by omega), hfront, getElem?_drop] at hi
      rw [if_pos (by omega)]
      exact hmatches _ x hi


theorem VectorOp.run_spec (hsize : 0 < size.toNat) {op : VectorOp α}
    (h : Represents size vector xs) (hrange : op.InRange vector) (hfits : op.Fits size vector) :
    ∃ block out, op.run size vector = some (block, out) ∧
      Represents size (some block) (op.list xs).1 ∧ out.length = (op.list xs).2.length ∧
      Matches out (op.list xs).2 := by
  have hnone : ∀ {f : Option (VectorBlock α)} {ys : List (Option α)},
      (∃ block, f = some block ∧ Represents size (some block) ys) →
        ∃ block out, f.map (fun v => (v, ([] : List (Option α)))) = some (block, out) ∧
          Represents size (some block) ys ∧ out.length = ([] : List (Option α)).length ∧
          Matches out [] := by
    rintro f ys ⟨block, rfl, hrep⟩
    exact ⟨block, [], rfl, hrep, rfl, fun i x hi => hi⟩
  cases op with
  | push value => exact hnone (vectorPush_spec hsize h (hfits 1 rfl))
  | stackPush value => exact hnone (vectorPush_spec hsize h (hfits 1 rfl))
  | unshift value => exact hnone (vectorUnshift_spec hsize h (hfits 1 rfl))
  | enqueue value => exact hnone (vectorUnshift_spec hsize h (hfits 1 rfl))
  | pop =>
    rcases vectorPop_spec h hrange with ⟨block, hpop, hrep, -⟩
    exact hnone ⟨block, hpop, hrep⟩
  | resize more =>
    rcases vectorResize_spec hsize h more (hfits _ rfl) with ⟨block, hresize, hrep, -⟩
    exact hnone ⟨block, hresize, hrep⟩
  | append elements => exact hnone (vectorAppend_spec hsize h (hfits _ rfl))
  | remove index count => exact hnone (vectorRemove_spec hsize h hrange)
  | stackPop | dequeue =>
    have hlast : xs.getLast?.toList.length = 1 := by
      rcases vectorPop_spec h hrange with ⟨block, -, -, hlength, -⟩
      have hne : xs ≠ [] := by
        rintro rfl
        cases hlength
      simp [getLast?_eq_some_getLast hne]
    rcases stackPop_spec h hrange with ⟨block, out, hpop, hrep, hlength, hmatches⟩
    exact ⟨block, out, hpop, hrep, hlength.trans hlast.symm, hmatches⟩

theorem matches_append {out rest out' rest' : List (Option α)} (hlength : out.length = out'.length)
    (h : Matches out out') (hrest : Matches rest rest') :
    Matches (out ++ rest) (out' ++ rest') := by
  intro i x hi
  by_cases hlt : i < out'.length
  · rw [getElem?_append_left hlt] at hi
    rw [getElem?_append_left (by omega)]
    exact h i x hi
  · rw [getElem?_append_right (by omega)] at hi
    rw [getElem?_append_right (by omega), hlength]
    exact hrest _ x hi

theorem runVector_spec (hsize : 0 < size.toNat) {ops : List (VectorOp α)}
    (h : Represents size vector xs) (hrange : VectorOp.EachStep size VectorOp.InRange vector ops)
    (hfits : VectorOp.EachStep size (VectorOp.Fits size) vector ops) :
    ∃ vector' out, runVector size vector ops = some (vector', out) ∧
      Represents size vector' (runList xs ops).1 ∧ out.length = (runList xs ops).2.length ∧
      Matches out (runList xs ops).2 := by
  induction ops generalizing vector xs with
  | nil => exact ⟨vector, [], rfl, h, rfl, fun i x hi => hi⟩
  | cons op ops ih =>
    rcases op.run_spec hsize h hrange.1 hfits.1 with ⟨block, out, hrun, hrep, hlength, hout⟩
    rcases ih hrep (hrange.2 _ hrun) (hfits.2 _ hrun) with
      ⟨vector', rest, hrest, hrep', hlength', hout'⟩
    refine ⟨vector', out ++ rest, ?_, hrep', ?_, matches_append hlength hout hout'⟩
    · simp only [runVector, hrun, bind_some, hrest, map_some]
    · rw [length_append, hlength, hlength']
      exact (length_append ..).symm

end Specs

/-! ## Order of elements -/

/-- The elements that operations put in a queue. -/
def enqueued : List (VectorOp α) → List (Option α)
  | [] => []
  | .enqueue value :: ops => some value :: enqueued ops
  | _ :: ops => enqueued ops

/-- Operations of a queue. -/
def IsQueueOp : VectorOp α → Prop
  | .enqueue _ | .dequeue => True
  | _ => False

theorem queue_fifo {ops : List (VectorOp α)} (h : ∀ op ∈ ops, IsQueueOp op)
    (xs : List (Option α)) :
    (runList xs ops).2 ++ (runList xs ops).1.reverse = xs.reverse ++ enqueued ops := by
  induction ops generalizing xs with
  | nil => simp [runList, enqueued]
  | cons op ops ih =>
    have hrest := ih fun op hop => h op (mem_cons_of_mem _ hop)
    have hop := h op mem_cons_self
    cases op with
    | enqueue value =>
      have hnext := hrest (some value :: xs)
      simp only [runList, VectorOp.list, nil_append, enqueued]
      rw [hnext, reverse_cons, List.append_assoc]
      rfl
    | dequeue =>
      have hnext := hrest xs.dropLast
      simp only [runList, VectorOp.list, enqueued]
      rw [List.append_assoc, hnext, ← List.append_assoc]
      congr 1
      rcases eq_nil_or_concat xs with rfl | ⟨ys, y, rfl⟩ <;> simp
    | _ => exact hop.elim

/-- Operations of a stack. -/
def IsStackOp : VectorOp α → Prop
  | .stackPush _ | .stackPop => True
  | _ => False

/-- Operations on a list whose head is the top of the stack. -/
def runStack (stack : List (Option α)) : List (VectorOp α) → List (Option α) × List (Option α)
  | [] => (stack, [])
  | .stackPush value :: ops => runStack (some value :: stack) ops
  | .stackPop :: ops =>
    let (rest, out) := runStack stack.tail ops
    (rest, stack.head?.toList ++ out)
  | _ :: ops => runStack stack ops

theorem stack_lifo {ops : List (VectorOp α)} (h : ∀ op ∈ ops, IsStackOp op)
    (xs : List (Option α)) :
    ((runList xs ops).1.reverse, (runList xs ops).2) = runStack xs.reverse ops := by
  induction ops generalizing xs with
  | nil => simp [runList, runStack]
  | cons op ops ih =>
    have hrest := ih fun op hop => h op (mem_cons_of_mem _ hop)
    have hop := h op mem_cons_self
    cases op with
    | stackPush value =>
      have hnext := hrest (xs ++ [some value])
      rw [List.reverse_append, reverse_singleton, singleton_append] at hnext
      simpa only [runList, VectorOp.list, runStack, nil_append] using hnext
    | stackPop =>
      have hnext := hrest xs.dropLast
      have htail : xs.dropLast.reverse = xs.reverse.tail := by
        rcases eq_nil_or_concat xs with rfl | ⟨ys, y, rfl⟩ <;> simp
      rw [htail] at hnext
      simp only [runList, VectorOp.list, runStack, ← hnext, head?_reverse]
    | _ => exact hop.elim

/-- In every run of operations that fit, a vector holds the elements of its list, its header
counts its cells, and what is returned are the elements of the list, those of a queue first in
first out and those of a stack last in first out; no operation leaves the blocks. -/
theorem vectors_refine {size : BitVec 64} (hsize : 0 < size.toNat) {ops : List (VectorOp α)}
    (hrange : VectorOp.EachStep size VectorOp.InRange none ops)
    (hfits : VectorOp.EachStep size (VectorOp.Fits size) none ops) :
    (∃ vector out, runVector size none ops = some (vector, out) ∧
      Represents size vector (runList [] ops).1 ∧ out.length = (runList [] ops).2.length ∧
      Matches out (runList [] ops).2) ∧
    ((∀ op ∈ ops, IsQueueOp op) →
      (runList [] ops).2 ++ (runList [] ops).1.reverse = enqueued ops) ∧
    ((∀ op ∈ ops, IsStackOp op) →
      ((runList [] ops).1.reverse, (runList [] ops).2) = runStack [] ops) :=
  ⟨runVector_spec hsize rfl hrange hfits, fun h => queue_fifo h [], fun h => stack_lifo h []⟩

/-- A queue with one element of four bytes. -/
theorem vectors_refine_queue :
    (∃ vector out, runVector 4#64 none [.enqueue 'a', .dequeue] = some (vector, out) ∧
      Represents 4#64 vector (runList [] [.enqueue 'a', .dequeue]).1 ∧
      out.length = (runList [] [VectorOp.enqueue 'a', .dequeue]).2.length ∧
      Matches out (runList [] [.enqueue 'a', .dequeue]).2) ∧
    ((∀ op ∈ [VectorOp.enqueue 'a', .dequeue], IsQueueOp op) →
      (runList [] [.enqueue 'a', .dequeue]).2 ++
        (runList [] [.enqueue 'a', .dequeue]).1.reverse = enqueued [.enqueue 'a', .dequeue]) ∧
    ((∀ op ∈ [VectorOp.enqueue 'a', .dequeue], IsStackOp op) →
      ((runList [] [.enqueue 'a', .dequeue]).1.reverse,
        (runList [] [.enqueue 'a', .dequeue]).2) = runStack [] [.enqueue 'a', .dequeue]) := by
  apply vectors_refine (by decide)
  · refine ⟨trivial, ?_⟩
    rintro _ ⟨⟩
    refine ⟨⟨_, rfl, by decide⟩, ?_⟩
    rintro _ ⟨⟩
    trivial
  · refine ⟨?_, ?_⟩
    · rintro _ ⟨⟩
      show 4 * (1 + 1) + 16 < 2 ^ 64
      decide
    · rintro _ ⟨⟩
      refine ⟨nofun, ?_⟩
      rintro _ ⟨⟩
      trivial

/-- The second element of four bytes that is pushed does not fit: from the block of two elements
are copied five. -/
theorem not_vectors_refine :
    VectorOp.EachStep 4#64 VectorOp.InRange none [.push 'a', .push 'b'] ∧
      runVector 4#64 none [.push 'a', .push 'b'] = none := by
  constructor
  · refine ⟨trivial, ?_⟩
    rintro _ ⟨⟩
    exact ⟨trivial, fun _ _ => trivial⟩
  · rfl

end Runs

end Kcs.Ext
