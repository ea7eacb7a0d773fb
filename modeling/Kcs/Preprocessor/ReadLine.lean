import Mathlib

/-!
# Logical lines

`read_line` in `input.c`: joining of line continuations, replacement of trigraphs and removal of
comments, on the part of the input that is in the buffer.  The end of the buffer reads as a null
character.

Main results:

- Theorem {lit}`readLine_append`: a line that is read is the same when more input follows.
-/

namespace Kcs.Preprocessor

open List

/-! ## Scanners -/

/-- `read_trigraph` -/
def readTrigraph (c : Char) : Option Char :=
  match c with
  | '=' => some '#'
  | '(' => some '['
  | '/' => some '\\'
  | ')' => some ']'
  | '\'' => some '^'
  | '<' => some '{'
  | '!' => some '|'
  | '>' => some '}'
  | '-' => some '~'
  | _ => none

/-- The character of a trigraph whose first question mark is read, and the input behind it. -/
def trigraphAt : List Char → Option (Char × List Char)
  | '?' :: c :: rest => (readTrigraph c).map fun t => (t, rest)
  | _ => none

/-- The input behind a line end that continues a line, behind the backslash. -/
def continuation : List Char → Option (List Char)
  | '\r' :: '\n' :: rest => some rest
  | '\r' :: rest => some rest
  | '\n' :: rest => some rest
  | _ => none

/-- Input that is left when some of it is read. -/
def Behind (r input : List Char) : Prop := ∃ c rest, input = c :: rest ∧ r <:+ rest

theorem behind_cons (c : Char) (rest : List Char) : Behind rest (c :: rest) :=
  ⟨c, rest, rfl, suffix_rfl⟩

variable {input r : List Char}

theorem Behind.suffix (h : Behind r input) : r <:+ input := by
  rcases h with ⟨c, rest, rfl, hr⟩
  exact hr.trans (suffix_cons c rest)

theorem Behind.length_lt (h : Behind r input) : r.length < input.length := by
  rcases h with ⟨c, rest, rfl, hr⟩
  exact Nat.lt_succ_of_le hr.length_le

theorem Behind.cons {r rest : List Char} (h : Behind r rest) (c : Char) : Behind r (c :: rest) :=
  ⟨c, rest, rfl, h.suffix⟩

theorem Behind.trans {r s input : List Char} (h : Behind r s) (h' : Behind s input) :
    Behind r input := by
  rcases h' with ⟨c, rest, rfl, hs⟩
  exact ⟨c, rest, rfl, h.suffix.trans hs⟩

theorem Behind.of_tail {r rest : List Char} (h : Behind r rest.tail) (c : Char) :
    Behind r (c :: rest) :=
  ⟨c, rest, rfl, h.suffix.trans (tail_suffix rest)⟩

theorem trigraphAt_behind {t : Char} (h : trigraphAt input = some (t, r)) :
    Behind r input := by
  unfold trigraphAt at h
  split at h
  · rcases Option.map_eq_some_iff.1 h with ⟨_, _, h⟩
    cases h
    exact (behind_cons _ _).cons _
  · cases h

theorem continuation_behind (h : continuation input = some r) :
    Behind r input := by
  unfold continuation at h
  split at h
  · cases h
    exact (behind_cons _ _).cons _
  · cases h
    exact behind_cons _ _
  · cases h
    exact behind_cons _ _
  · cases h

/-- `read_comment`, behind the star that opens it: the input behind the comment and the number of
lines.  The flag tells that the last character, line continuations apart, is a star. -/
def readComment : Bool → List Char → Nat → Option (List Char × Nat)
  | _, [], _ => none
  | star, c :: rest, lines =>
    if star && c == '/' then some (rest, lines)
    else if star && c == '\\' && rest.head? == some '\n' then
      readComment true rest.tail (lines + 1)
    else if c = '*' then readComment true rest lines
    else if c = '\n' then readComment false rest (lines + 1)
    else if c = '\x00' then none
    else readComment false rest lines
termination_by _ input => input.length
decreasing_by all_goals simp_wf

/-- `read_line_comment`, behind the second slash. -/
def readLineComment : List Char → Nat → Option (List Char × Nat)
  | [], _ => none
  | c :: rest, lines =>
    if c = '\\' ∧ rest.head? = some '\n' then readLineComment rest.tail (lines + 1)
    else if c = '\n' then some (rest, lines)
    else if c = '\x00' then none
    else readLineComment rest lines
termination_by input => input.length
decreasing_by all_goals simp_wf

/-- The result of reading a literal: the input ends, there is a newline in it, or the input behind
it with the characters written, last one first, and the number of lines. -/
inductive LiteralResult where
  | incomplete
  | newlineInLiteral
  | literal (rest written : List Char) (lines : Nat)
deriving DecidableEq, Repr

/-- `read_literal`, behind the opening quote. -/
def readLiteral (q : Char) : List Char → List Char → Nat → LiteralResult
  | [], _, _ => .incomplete
  | c :: rest, written, lines =>
    if c = '\x00' then .incomplete
    else if c = '\n' then
      if written.head? = some '\\' then readLiteral q rest written.tail (lines + 1)
      else .newlineInLiteral
    else if c = '?' then
      match _h : trigraphAt rest with
      | some (t, r) => readLiteral q r (t :: written) lines
      | none => readLiteral q rest (c :: written) lines
    else if c = q ∧ (written.takeWhile (· = '\\')).length % 2 = 0 then
      .literal rest (c :: written) lines
    else readLiteral q rest (c :: written) lines
termination_by input => input.length
decreasing_by
  all_goals simp_wf
  have := (trigraphAt_behind _h).length_lt
  omega

variable {lines n : Nat}

theorem readComment_behind {star : Bool}
    (h : readComment star input lines = some (r, n)) : Behind r input := by
  fun_induction readComment star input lines
  case case1 | case6 => cases h
  case case2 =>
    cases h
    exact behind_cons _ _
  case case3 ih => exact (ih h).of_tail _
  case case4 ih | case5 ih | case7 ih => exact (ih h).cons _

theorem readLineComment_behind
    (h : readLineComment input lines = some (r, n)) : Behind r input := by
  fun_induction readLineComment input lines
  case case1 | case4 => cases h
  case case2 ih => exact (ih h).of_tail _
  case case3 =>
    cases h
    exact behind_cons _ _
  case case5 ih => exact (ih h).cons _

variable {written : List Char} {q : Char}

theorem readLiteral_behind {input written r w : List Char}
    (h : readLiteral q input written lines = .literal r w n) : Behind r input := by
  fun_induction readLiteral q input written lines
  case case1 | case2 | case4 => cases h
  case case3 ih | case6 ih | case8 ih => exact (ih h).cons _
  case case5 ht _ _ ih => exact ((ih h).trans (trigraphAt_behind ht)).cons _
  case case7 =>
    cases h
    exact behind_cons _ _

/-! ## `read_line` -/

/-- The result of reading a line: there is no complete line in the input, there is a newline in a
literal, or the text of the line, the input behind it and the number of lines it takes. -/
inductive LineResult where
  | incomplete
  | newlineInLiteral
  | line (text rest : List Char) (lines : Nat)
deriving DecidableEq, Repr

/-- The loop of `read_line`, with the characters written to the line, last one first. -/
def readLineFrom : List Char → List Char → Nat → LineResult
  | [], _, _ => .incomplete
  | c :: rest, written, lines =>
    if c = '\n' then .line written.reverse rest (lines + 1)
    else if c = '\\' then
      match _h : continuation rest with
      | some r => readLineFrom r written (lines + 1)
      | none => readLineFrom rest (c :: written) lines
    else if c = '?' then
      match _h : trigraphAt rest with
      | some (t, r) => readLineFrom r (t :: written) lines
      | none => readLineFrom rest (c :: written) lines
    else if c = '\'' ∨ c = '"' then
      match _h : readLiteral c rest (c :: written) lines with
      | .incomplete => .incomplete
      | .newlineInLiteral => .newlineInLiteral
      | .literal r w n => readLineFrom r w n
    else if c = '/' ∧ written.head? = some '/' then
      match readLineComment rest lines with
      | none => .incomplete
      | some (r, n) => .line written.tail.reverse r (n + 1)
    else if c = '*' ∧ written.head? = some '/' then
      match _h : readComment false rest lines with
      | none => .incomplete
      | some (r, n) => readLineFrom r (' ' :: written.tail) n
    else readLineFrom rest (c :: written) lines
termination_by input => input.length
decreasing_by
  all_goals simp_wf
  · have := (continuation_behind _h).length_lt
    omega
  · have := (trigraphAt_behind _h).length_lt
    omega
  · have := (readLiteral_behind _h).length_lt
    omega
  · have := (readComment_behind _h).length_lt
    omega

/-- `read_line` -/
def readLine (input : List Char) : LineResult := readLineFrom input [] 0

theorem readLiteral_trigraph (q : Char) (rest written : List Char) (lines : Nat) :
    readLiteral q ('?' :: rest) written lines =
      match trigraphAt rest with
      | some (t, r) => readLiteral q r (t :: written) lines
      | none => readLiteral q rest ('?' :: written) lines := by
  rw [readLiteral, if_neg (by decide), if_neg (by decide), if_pos rfl]
  split <;> simp only [*]

theorem readLineFrom_backslash (rest written : List Char) (lines : Nat) :
    readLineFrom ('\\' :: rest) written lines =
      match continuation rest with
      | some r => readLineFrom r written (lines + 1)
      | none => readLineFrom rest ('\\' :: written) lines := by
  rw [readLineFrom, if_neg (by decide), if_pos rfl]
  split <;> simp only [*]

theorem readLineFrom_trigraph (rest written : List Char) (lines : Nat) :
    readLineFrom ('?' :: rest) written lines =
      match trigraphAt rest with
      | some (t, r) => readLineFrom r (t :: written) lines
      | none => readLineFrom rest ('?' :: written) lines := by
  rw [readLineFrom, if_neg (by decide), if_neg (by decide), if_pos rfl]
  split <;> simp only [*]

theorem readLineFrom_quote (hq : q = '\'' ∨ q = '"') (rest written : List Char)
    (lines : Nat) :
    readLineFrom (q :: rest) written lines =
      match readLiteral q rest (q :: written) lines with
      | .incomplete => .incomplete
      | .newlineInLiteral => .newlineInLiteral
      | .literal r w n => readLineFrom r w n := by
  rw [readLineFrom]
  rcases hq with rfl | rfl <;> grind

theorem readLineFrom_slash (rest written : List Char) (lines : Nat) :
    readLineFrom ('/' :: rest) ('/' :: written) lines =
      match readLineComment rest lines with
      | none => .incomplete
      | some (r, n) => .line written.reverse r (n + 1) := by
  rw [readLineFrom]
  grind

theorem readLineFrom_star (rest written : List Char) (lines : Nat) :
    readLineFrom ('*' :: rest) ('/' :: written) lines =
      match readComment false rest lines with
      | none => .incomplete
      | some (r, n) => readLineFrom r (' ' :: written) n := by
  rw [readLineFrom]
  grind

/-- The characters that the loop of `read_line` looks at. -/
def isSpecial (c : Char) (written : List Char) : Bool :=
  c = '\n' || c = '\\' || c = '?' || c = '\'' || c = '"' ||
    (written.head? = some '/' && (c = '/' || c = '*'))

theorem readLineFrom_plain {c : Char} (h : isSpecial c written = false)
    (rest : List Char) (lines : Nat) :
    readLineFrom (c :: rest) written lines = readLineFrom rest (c :: written) lines := by
  rw [readLineFrom]
  grind [isSpecial]

theorem readLineFrom_behind {input written text r : List Char}
    (h : readLineFrom input written lines = .line text r n) : Behind r input := by
  fun_induction readLineFrom input written lines
  case case1 | case7 | case8 | case10 | case12 => cases h
  case case2 =>
    cases h
    exact behind_cons _ _
  case case3 hc _ ih => exact ((ih h).trans (continuation_behind hc)).cons _
  case case4 ih => exact (ih h).cons _
  case case5 ht _ _ ih => exact ((ih h).trans (trigraphAt_behind ht)).cons _
  case case6 ih => exact (ih h).cons _
  case case9 _ _ _ hl ih => exact ((ih h).trans (readLiteral_behind hl)).cons _
  case case11 hl =>
    cases h
    exact (readLineComment_behind hl).cons _
  case case13 hl ih => exact ((ih h).trans (readComment_behind hl)).cons _
  case case14 ih => exact (ih h).cons _

/-! ## More input -/

theorem trigraphAt_append {t : Char} (more : List Char)
    (h : trigraphAt input = some (t, r)) : trigraphAt (input ++ more) = some (t, r ++ more) := by
  unfold trigraphAt at h
  split at h
  · rcases Option.map_eq_some_iff.1 h with ⟨_, ht, h⟩
    cases h
    simp [trigraphAt, ht]
  · cases h

theorem trigraphAt_append_none (more : List Char)
    (h : trigraphAt input = none) :
    input = [] ∨ input = ['?'] ∨ trigraphAt (input ++ more) = none := by
  match input with
  | [] => exact Or.inl rfl
  | [c] =>
    by_cases hc : c = '?'
    · exact Or.inr (Or.inl (by rw [hc]))
    · refine Or.inr (Or.inr ?_)
      cases more <;> simp [trigraphAt, hc]
  | c :: d :: rest =>
    refine Or.inr (Or.inr ?_)
    by_cases hc : c = '?'
    · subst hc
      simpa [trigraphAt] using h
    · simp [trigraphAt, hc]

theorem continuation_append (more : List Char)
    (h : continuation input = some r) :
    r = [] ∨ continuation (input ++ more) = some (r ++ more) := by
  unfold continuation at h
  split at h
  · cases h
    exact Or.inr rfl
  · rename_i rest hr
    cases h
    cases r with
    | nil => exact Or.inl rfl
    | cons c rest =>
      refine Or.inr ?_
      have hc : c ≠ '\n' := fun hc => hr rest (by rw [hc])
      simp [continuation, hc]
  · cases h
    exact Or.inr rfl
  · cases h

theorem continuation_append_none (more : List Char)
    (h : continuation input = none) :
    input = [] ∨ continuation (input ++ more) = none := by
  cases input with
  | nil => exact Or.inl rfl
  | cons c rest =>
    refine Or.inr ?_
    have hr : c ≠ '\r' := by
      rintro rfl
      unfold continuation at h
      split at h <;> simp_all
    have hn : c ≠ '\n' := by
      rintro rfl
      unfold continuation at h
      split at h <;> simp_all
    simp [continuation, hr, hn]

theorem readComment_append {star : Bool} (more : List Char)
    (h : readComment star input lines = some (r, n)) :
    readComment star (input ++ more) lines = some (r ++ more, n) := by
  have hne {star : Bool} {rest : List Char} {lines : Nat}
      (h : readComment star rest lines = some (r, n)) : rest ≠ [] :=
    ne_nil_of_length_pos (Nat.zero_lt_of_lt (readComment_behind h).length_lt)
  fun_induction readComment star input lines
  case case1 | case6 => cases h
  case case2 hc =>
    cases h
    rw [cons_append, readComment, if_pos hc]
  case case3 hc hs ih =>
    rename_i c rest lines
    have hr : rest ≠ [] := by
      rintro rfl
      simp at hs
    rw [cons_append, readComment, if_neg hc, head?_append_of_ne_nil _ hr, if_pos hs,
      tail_append_of_ne_nil hr, ih h]
  case case4 hc hs ih =>
    rw [cons_append, readComment, if_neg hc, head?_append_of_ne_nil _ (hne h), if_neg hs,
      if_pos rfl, ih h]
  case case5 hc hs hstar ih =>
    rw [cons_append, readComment, if_neg hc, head?_append_of_ne_nil _ (hne h), if_neg hs,
      if_neg hstar, if_pos rfl, ih h]
  case case7 hc hs hstar hline hnull ih =>
    rw [cons_append, readComment, if_neg hc, head?_append_of_ne_nil _ (hne h), if_neg hs,
      if_neg hstar, if_neg hline, if_neg hnull, ih h]

theorem readLineComment_append (more : List Char)
    (h : readLineComment input lines = some (r, n)) :
    readLineComment (input ++ more) lines = some (r ++ more, n) := by
  have hne {rest : List Char} {lines : Nat}
      (h : readLineComment rest lines = some (r, n)) : rest ≠ [] :=
    ne_nil_of_length_pos (Nat.zero_lt_of_lt (readLineComment_behind h).length_lt)
  fun_induction readLineComment input lines
  case case1 | case4 => cases h
  case case2 hc ih =>
    rename_i c rest lines
    have hr : rest ≠ [] := by
      rintro rfl
      simp at hc
    rw [cons_append, readLineComment, head?_append_of_ne_nil _ hr, if_pos hc,
      tail_append_of_ne_nil hr, ih h]
  case case3 rest lines hc =>
    cases h
    rw [cons_append, readLineComment, if_neg (by simp), if_pos rfl]
  case case5 hc hline hnull ih =>
    rw [cons_append, readLineComment, head?_append_of_ne_nil _ (hne h), if_neg hc,
      if_neg hline, if_neg hnull, ih h]

/-- The result with more input behind the literal. -/
def LiteralResult.append (more : List Char) : LiteralResult → LiteralResult
  | .literal r w n => .literal (r ++ more) w n
  | result => result

theorem readLiteral_nil (q : Char) (written : List Char) (lines : Nat) :
    readLiteral q [] written lines = .incomplete := by
  rw [readLiteral]

theorem readLiteral_question (q : Char) (written : List Char) (lines : Nat) :
    readLiteral q ['?'] written lines = .incomplete := by
  rw [readLiteral_trigraph]
  exact readLiteral_nil _ _ _

theorem readLiteral_append
    (more : List Char) (h : readLiteral q input written lines ≠ .incomplete) :
    readLiteral q (input ++ more) written lines =
      (readLiteral q input written lines).append more := by
  fun_induction readLiteral q input written lines
  case case1 | case2 => exact absurd rfl h
  case case3 hb _ ih =>
    rw [cons_append, readLiteral, if_neg (by decide), if_pos rfl, if_pos hb, ih h]
  case case4 hb _ =>
    rw [cons_append, readLiteral, if_neg (by decide), if_pos rfl, if_neg hb]
    rfl
  case case5 ht _ _ ih =>
    rw [cons_append, readLiteral_trigraph, trigraphAt_append more ht]
    exact ih h
  case case6 ht _ _ ih =>
    rcases trigraphAt_append_none more ht with rfl | rfl | hnone
    · exact absurd (readLiteral_nil _ _ _) h
    · exact absurd (readLiteral_question _ _ _) h
    · rw [cons_append, readLiteral_trigraph, hnone]
      exact ih h
  case case7 h0 hn ht hq =>
    rw [cons_append, readLiteral, if_neg h0, if_neg hn, if_neg ht, if_pos hq]
    rfl
  case case8 h0 hn ht hq ih =>
    rw [cons_append, readLiteral, if_neg h0, if_neg hn, if_neg ht, if_neg hq, ih h]

/-- The result with more input behind the line. -/
def LineResult.append (more : List Char) : LineResult → LineResult
  | .line text r n => .line text (r ++ more) n
  | result => result

theorem readLineFrom_nil (written : List Char) (lines : Nat) :
    readLineFrom [] written lines = .incomplete := by
  rw [readLineFrom]

theorem readLineFrom_question (written : List Char) (lines : Nat) :
    readLineFrom ['?'] written lines = .incomplete := by
  rw [readLineFrom_trigraph]
  exact readLineFrom_nil _ _

/-- The loop of `read_line` on more input. -/
theorem readLineFrom_append (more : List Char)
    (h : readLineFrom input written lines ≠ .incomplete) :
    readLineFrom (input ++ more) written lines =
      (readLineFrom input written lines).append more := by
  fun_induction readLineFrom input written lines
  case case1 => exact absurd rfl h
  case case2 =>
    rw [cons_append, readLineFrom, if_pos rfl]
    rfl
  case case3 hc _ ih =>
    rcases continuation_append more hc with rfl | happ
    · exact absurd (readLineFrom_nil _ _) h
    · rw [cons_append, readLineFrom_backslash, happ]
      exact ih h
  case case4 hc _ ih =>
    rcases continuation_append_none more hc with rfl | hnone
    · exact absurd (readLineFrom_nil _ _) h
    · rw [cons_append, readLineFrom_backslash, hnone]
      exact ih h
  case case5 ht _ _ ih =>
    rw [cons_append, readLineFrom_trigraph, trigraphAt_append more ht]
    exact ih h
  case case6 ht _ _ ih =>
    rcases trigraphAt_append_none more ht with rfl | rfl | hnone
    · exact absurd (readLineFrom_nil _ _) h
    · exact absurd (readLineFrom_question _ _) h
    · rw [cons_append, readLineFrom_trigraph, hnone]
      exact ih h
  case case7 => exact absurd rfl h
  case case8 hq hl =>
    rw [cons_append, readLineFrom_quote hq, readLiteral_append more (by simp [hl]), hl]
    rfl
  case case9 hq r w n hl ih =>
    rw [cons_append, readLineFrom_quote hq, readLiteral_append more (by simp [hl]), hl]
    exact ih h
  case case10 => exact absurd rfl h
  case case11 hs r n hl =>
    rcases hs with ⟨rfl, hw⟩
    rcases head?_eq_some_iff.1 hw with ⟨w, rfl⟩
    rw [cons_append, readLineFrom_slash, readLineComment_append more hl]
    rfl
  case case12 => exact absurd rfl h
  case case13 hs r n hl ih =>
    rcases hs with ⟨rfl, hw⟩
    rcases head?_eq_some_iff.1 hw with ⟨w, rfl⟩
    rw [cons_append, readLineFrom_star, readComment_append more hl]
    exact ih h
  case case14 hn hb hq hl hs ht ih =>
    rw [cons_append, readLineFrom_plain (by grind [isSpecial])]
    exact ih h

theorem readLine_append (input more : List Char)
    (h : readLine input ≠ .incomplete) :
    readLine (input ++ more) = (readLine input).append more :=
  readLineFrom_append more h

end Kcs.Preprocessor
