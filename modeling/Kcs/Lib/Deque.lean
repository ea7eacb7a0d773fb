import Mathlib

/-!
# Double-ended queues in growing arrays

A queue keeps its elements behind a cursor in an array.  Taking the first element moves
the cursor; when the array is full, the elements move back to its start before it grows.

Main results:

- Lemma {lit}`Deque.toList_pushBack`: an element that is pushed comes last.
- Lemma {lit}`Deque.popFront_cons`: the element that is taken is the first one.
-/

namespace Kcs

open List

/-- A queue: the elements of the array from the cursor on. -/
structure Deque (α : Type) where
  cursor : Nat
  capacity : Nat
  array : List α
  cursor_le : cursor ≤ array.length
  length_le : array.length ≤ capacity

namespace Deque

variable {α : Type}

/-- The empty queue, with no memory of its own. -/
def empty : Deque α := ⟨0, 0, [], le_rfl, le_rfl⟩

/-- The elements, first one first. -/
def toList (q : Deque α) : List α := q.array.drop q.cursor

/-- The number of elements. -/
def len (q : Deque α) : Nat := q.array.length - q.cursor

/-- The capacity of an array that takes one more element. -/
def grow (capacity length : Nat) : Nat :=
  if length = capacity then if capacity = 0 then 16 else capacity * 2 else capacity

theorem lt_grow {capacity length : Nat} (h : length ≤ capacity) : length < grow capacity length := by
  unfold grow
  split
  · split <;> omega
  · omega

/-- A full array whose first elements are taken is moved to its start. -/
def compact (q : Deque α) : Deque α :=
  if q.cursor ≠ 0 ∧ q.array.length = q.capacity then
    { cursor := 0
      capacity := q.capacity
      array := q.array.drop q.cursor
      cursor_le := Nat.zero_le _
      length_le := by
        rw [length_drop]
        exact (Nat.sub_le _ _).trans q.length_le }
  else q

/-- An element is added at the end. -/
def pushBack (q : Deque α) (a : α) : Deque α :=
  { cursor := q.compact.cursor
    capacity := grow q.compact.capacity q.compact.array.length
    array := q.compact.array ++ [a]
    cursor_le := by
      rw [length_append]
      exact q.compact.cursor_le.trans (Nat.le_add_right _ _)
    length_le := by
      rw [length_append]
      exact lt_grow q.compact.length_le }

/-- The element at a position. -/
def get? (q : Deque α) (i : Nat) : Option α := q.array[q.cursor + i]?

/-- The last element. -/
def back? (q : Deque α) : Option α := q.get? (q.len - 1)

/-- The last element is replaced. -/
def setBack (q : Deque α) (a : α) : Deque α :=
  { q with
    array := q.array.set (q.cursor + (q.len - 1)) a
    cursor_le := by
      rw [length_set]
      exact q.cursor_le
    length_le := by
      rw [length_set]
      exact q.length_le }

/-- The first element is taken. -/
def popFront (q : Deque α) : Option (α × Deque α) :=
  if h : q.cursor < q.array.length then
    some (q.array.get ⟨q.cursor, h⟩, { q with cursor := q.cursor + 1, cursor_le := h })
  else none

/-! ## The queue as a list -/

@[simp]
theorem toList_empty : (empty : Deque α).toList = [] := rfl

@[simp]
theorem length_toList (q : Deque α) : q.toList.length = q.len := length_drop

theorem get?_eq (q : Deque α) (i : Nat) : q.get? i = q.toList[i]? := by
  rw [get?, toList, getElem?_drop]

theorem back?_eq (q : Deque α) : q.back? = q.toList.getLast? := by
  rw [back?, get?_eq, getLast?_eq_getElem?, length_toList]

@[simp]
theorem toList_compact (q : Deque α) : q.compact.toList = q.toList := by
  unfold compact
  split <;> simp [toList]

@[simp]
theorem toList_pushBack (q : Deque α) (a : α) : (q.pushBack a).toList = q.toList ++ [a] := by
  have h : (q.pushBack a).toList = q.compact.toList ++ [a] :=
    drop_append_of_le_length q.compact.cursor_le
  rw [h, toList_compact]

theorem toList_setBack (q : Deque α) (a : α) (h : q.toList ≠ []) :
    (q.setBack a).toList = q.toList.dropLast ++ [a] := by
  have hlen : 0 < q.len := by
    rw [← length_toList]
    exact length_pos_iff.mpr h
  have hset : (q.setBack a).toList = q.toList.set (q.len - 1) a := by
    simp only [setBack, toList, drop_set]
    rw [if_neg (by omega)]
    congr 1
    omega
  refine hset.trans (ext_getElem ?_ fun i hi hi' => ?_)
  · simp only [length_set, length_toList, length_append, length_dropLast, length_singleton]
    omega
  · simp only [length_set, length_toList] at hi
    rw [getElem_set, getElem_append]
    simp only [length_dropLast, length_toList, getElem_dropLast]
    by_cases hlast : q.len - 1 = i
    · rw [if_pos hlast, dif_neg (by omega)]
      simp [hlast]
    · rw [if_neg hlast, dif_pos (by omega)]

theorem popFront_cons {q : Deque α} {a : α} {l : List α} (h : q.toList = a :: l) :
    ∃ q', q.popFront = some (a, q') ∧ q'.toList = l := by
  have hlt : q.cursor < q.array.length := by
    by_contra hge
    rw [toList, drop_eq_nil_of_le (not_lt.mp hge)] at h
    cases h
  rw [toList, drop_eq_getElem_cons hlt, List.cons.injEq] at h
  refine ⟨{ q with cursor := q.cursor + 1, cursor_le := hlt }, ?_, h.2⟩
  rw [popFront, dif_pos hlt, ← h.1]
  rfl

end Deque

end Kcs
