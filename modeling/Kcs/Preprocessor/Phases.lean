import Kcs.Preprocessor.ReadLine

/-!
# Translation phases

The first three translation phases of C on a source text, next to the lines that `read_line`
makes of it: trigraphs are replaced, lines are spliced, comments are replaced by a space.

Main results:

- Theorem {lit}`readLines_eq_phases`: the lines of a text with none of the constructs that
  `read_line` treats in another way are those of the phases.
-/

namespace Kcs.Preprocessor

open Option List

/-! ## The phases -/

/-- The trigraphs of C. -/
def trigraphs : List (Char × Char) :=
  [('=', '#'), ('(', '['), ('/', '\\'), (')', ']'), ('\'', '^'), ('<', '{'), ('!', '|'),
    ('>', '}'), ('-', '~')]

/-- Phase 1. -/
def replaceTrigraphs : List Char → List Char
  | '?' :: '?' :: c :: rest =>
    match trigraphs.lookup c with
    | some t => t :: replaceTrigraphs rest
    | none => '?' :: replaceTrigraphs ('?' :: c :: rest)
  | c :: rest => c :: replaceTrigraphs rest
  | [] => []

/-- Phase 2: a backslash in front of a line end is deleted with the line end. -/
def spliceLines : List Char → List Char
  | '\\' :: '\n' :: rest => spliceLines rest
  | '\\' :: '\r' :: '\n' :: rest => spliceLines rest
  | c :: rest => c :: spliceLines rest
  | [] => []

/-- The rest of a literal with its closing quote, and what is behind it. -/
def closeLiteral (q : Char) : Bool → List Char → Option (List Char × List Char)
  | _, [] => none
  | escaped, c :: rest =>
    if c = '\n' then none
    else if !escaped && c = q then some ([c], rest)
    else (closeLiteral q (!escaped && c = '\\') rest).map fun (s, r) => (c :: s, r)

/-- What is behind the end of a comment. -/
def closeComment : List Char → Option (List Char)
  | '*' :: '/' :: rest => some rest
  | _ :: rest => closeComment rest
  | [] => none

variable {q : Char} {escaped : Bool} {r : List Char}

theorem closeLiteral_behind {input s r : List Char}
    (h : closeLiteral q escaped input = some (s, r)) : Behind r input := by
  induction input generalizing escaped s with
  | nil => cases h
  | cons c rest ih =>
    rw [closeLiteral] at h
    split at h
    · cases h
    · split at h
      · cases h
        exact behind_cons _ _
      · rcases map_eq_some_iff.1 h with ⟨⟨s', r'⟩, h, hs⟩
        cases hs
        exact (ih h).cons _

theorem closeComment_behind {input r : List Char} (h : closeComment input = some r) :
    Behind r input := by
  fun_induction closeComment input
  case case1 =>
    cases h
    exact (behind_cons _ _).cons _
  case case2 ih => exact (ih h).cons _
  case case3 => cases h

/-- Phase 3: a comment outside of literals is replaced by a space. -/
def replaceComments : List Char → Option (List Char)
  | [] => some []
  | c :: rest =>
    if c = '\'' ∨ c = '"' then
      match _h : closeLiteral c false rest with
      | some (s, r) => (replaceComments r).map (c :: s ++ ·)
      | none => none
    else if c = '/' ∧ rest.head? = some '*' then
      match _h : closeComment rest.tail with
      | some r => (replaceComments r).map (' ' :: ·)
      | none => none
    else if c = '/' ∧ rest.head? = some '/' then
      (replaceComments (rest.dropWhile (· ≠ '\n'))).map (' ' :: ·)
    else (replaceComments rest).map (c :: ·)
termination_by text => text.length
decreasing_by
  all_goals simp_wf
  · have := (closeLiteral_behind _h).length_lt
    omega
  · have := (closeComment_behind _h).length_lt
    rw [length_tail] at this
    omega
  · exact (dropWhile_suffix _).length_le

/-- The first line of a text and what is behind its end. -/
def takeLine : List Char → Option (List Char × List Char)
  | '\n' :: rest => some ([], rest)
  | '\r' :: '\n' :: rest => some ([], rest)
  | c :: rest => (takeLine rest).map fun (l, r) => (c :: l, r)
  | [] => none

variable {l : List Char}

theorem takeLine_behind {input l r : List Char} (h : takeLine input = some (l, r)) :
    Behind r input := by
  fun_induction takeLine input generalizing l
  case case1 =>
    cases h
    exact behind_cons _ _
  case case2 =>
    cases h
    exact (behind_cons _ _).cons _
  case case3 ih =>
    rcases map_eq_some_iff.1 h with ⟨⟨l', r'⟩, h, hl⟩
    cases hl
    exact (ih h).cons _
  case case4 => cases h

/-- The lines of a text that ends with a line end. -/
def splitLines (text : List Char) : Option (List (List Char)) :=
  if text = [] then some []
  else
    match _h : takeLine text with
    | some (l, r) => (splitLines r).map (l :: ·)
    | none => none
termination_by text.length
decreasing_by exact (takeLine_behind _h).length_lt

/-- The text after the first two phases. -/
def logical (text : List Char) : List Char := spliceLines (replaceTrigraphs text)

/-- The logical lines of a text, where the phases define them: its literals and its comments
are closed, and it ends with a line end. -/
def phases (text : List Char) : Option (List (List Char)) :=
  (replaceComments (logical text)).bind splitLines

/-! ## The lines of the source -/

/-- The characters of a string up to the null character. -/
def cString (text : List Char) : List Char := text.takeWhile (· ≠ '\x00')

/-- The lines that `read_line` takes from a text, if it takes all of it. -/
def readLines (text : List Char) : Option (List (List Char)) :=
  if text = [] then some []
  else
    match _h : readLine text with
    | .line l rest _ => (readLines rest).map (cString l :: ·)
    | _ => none
termination_by text.length
decreasing_by exact (readLineFrom_behind _h).length_lt

/-! ## Units of the text -/

/-- A character of the logical text, or a backslash with a line end.  The flags tell a trigraph and
a line end that is CR LF. -/
inductive LogicalUnit where
  | char (c : Char) (trigraph : Bool)
  | splice (trigraph crlf : Bool)
deriving DecidableEq, Repr

/-- The first character after phase 1. -/
def charAt : List Char → Option (Char × Bool × List Char)
  | [] => none
  | c :: rest =>
    if c = '?' then
      match trigraphAt rest with
      | some (t, r) => some (t, true, r)
      | none => some (c, false, rest)
    else some (c, false, rest)

/-- A line end. -/
def lineEndAt : List Char → Option (Bool × List Char)
  | '\n' :: rest => some (false, rest)
  | '\r' :: '\n' :: rest => some (true, rest)
  | _ => none

/-- The first unit and the text behind it. -/
def unitAt (text : List Char) : Option (LogicalUnit × List Char) :=
  (charAt text).map fun (c, trigraph, r) =>
    match if c = '\\' then lineEndAt r else none with
    | some (crlf, r) => (.splice trigraph crlf, r)
    | none => (.char c trigraph, r)

variable {c : Char} {b : Bool}

theorem charAt_behind {text r : List Char}
    (h : charAt text = some (c, b, r)) : Behind r text := by
  unfold charAt at h
  split at h
  · cases h
  · split at h
    · split at h
      · rename_i ht
        cases h
        exact (trigraphAt_behind ht).cons _
      · cases h
        exact behind_cons _ _
    · cases h
      exact behind_cons _ _

theorem lineEndAt_behind {text r : List Char} (h : lineEndAt text = some (b, r)) :
    Behind r text := by
  unfold lineEndAt at h
  split at h
  · cases h
    exact behind_cons _ _
  · cases h
    exact (behind_cons _ _).cons _
  · cases h

variable {u : LogicalUnit}

theorem unitAt_behind {text r : List Char} (h : unitAt text = some (u, r)) :
    Behind r text := by
  rcases map_eq_some_iff.1 h with ⟨⟨c, trigraph, r'⟩, hc, hu⟩
  simp only at hu
  split at hu
  · rename_i hl
    split at hl
    · cases hu
      exact (lineEndAt_behind hl).trans (charAt_behind hc)
    · cases hl
  · cases hu
    exact charAt_behind hc

theorem readTrigraph_eq (c : Char) : readTrigraph c = trigraphs.lookup c := by
  unfold readTrigraph
  split
  any_goals rfl
  symm
  rw [lookup_eq_none_iff]
  simp_all [trigraphs]

variable {rest : List Char}

theorem replaceTrigraphs_trigraph {t : Char}
    (h : trigraphAt rest = some (t, r)) :
    replaceTrigraphs ('?' :: rest) = t :: replaceTrigraphs r := by
  unfold trigraphAt at h
  split at h
  · rcases map_eq_some_iff.1 h with ⟨_, hread, h⟩
    cases h
    rw [readTrigraph_eq] at hread
    rw [replaceTrigraphs, hread]
  · cases h

theorem replaceTrigraphs_char
    (h : c = '?' → trigraphAt rest = none) :
    replaceTrigraphs (c :: rest) = c :: replaceTrigraphs rest := by
  rw [replaceTrigraphs.eq_def]
  split
  · rename_i e rest' heq
    cases heq
    have hnone : trigraphs.lookup e = none := by
      rw [← readTrigraph_eq]
      simpa [trigraphAt] using h rfl
    rw [hnone]
  · rename_i heq
    cases heq
    rfl
  · rename_i heq
    cases heq

theorem charAt_cases {text r : List Char} (h : charAt text = some (c, b, r)) :
    (b = true ∧ ∃ e, text = '?' :: '?' :: e :: r ∧ readTrigraph e = some c) ∨
    (b = false ∧ text = c :: r ∧ (c = '?' → trigraphAt r = none)) := by
  unfold charAt at h
  split at h
  · cases h
  · split at h
    · rename_i hc
      split at h
      · rename_i ht
        cases h
        unfold trigraphAt at ht
        split at ht
        · rcases map_eq_some_iff.1 ht with ⟨_, hread, ht⟩
          cases ht
          exact Or.inl ⟨rfl, _, by rw [hc], hread⟩
        · cases ht
      · rename_i ht
        cases h
        exact Or.inr ⟨rfl, rfl, fun _ => ht⟩
    · rename_i hc
      cases h
      exact Or.inr ⟨rfl, rfl, fun h => absurd h hc⟩

variable {e : Char}

theorem readTrigraph_mem (h : readTrigraph e = some c) :
    c ∈ ['#', '[', '\\', ']', '^', '{', '|', '}', '~'] := by
  unfold readTrigraph at h
  split at h <;> cases h <;> decide

theorem replaceTrigraphs_charAt {text r : List Char}
    (h : charAt text = some (c, b, r)) : replaceTrigraphs text = c :: replaceTrigraphs r := by
  rcases charAt_cases h with ⟨_, e, rfl, he⟩ | ⟨_, rfl, hc⟩
  · exact replaceTrigraphs_trigraph (by simp [trigraphAt, he])
  · exact replaceTrigraphs_char hc

theorem replaceTrigraphs_eq_cons (hc : c = '\n' ∨ c = '\r') {text x : List Char}
    (h : replaceTrigraphs text = c :: x) : ∃ r, text = c :: r ∧ x = replaceTrigraphs r := by
  cases hat : charAt text with
  | none =>
    have hnil : text = [] := by
      unfold charAt at hat
      split at hat
      · rfl
      · split at hat
        · split at hat <;> cases hat
        · cases hat
    rw [hnil] at h
    cases h
  | some found =>
    rcases found with ⟨d, b, r⟩
    rw [replaceTrigraphs_charAt hat] at h
    cases h
    rcases charAt_cases hat with ⟨_, e, rfl, he⟩ | ⟨_, rfl, _⟩
    · have := readTrigraph_mem he
      rcases hc with rfl | rfl <;> simp at this
    · exact ⟨r, rfl, rfl⟩

theorem replaceTrigraphs_lineEnd {text r : List Char}
    (h : lineEndAt text = some (b, r)) :
    replaceTrigraphs text = (if b then ['\r', '\n'] else ['\n']) ++ replaceTrigraphs r := by
  unfold lineEndAt at h
  split at h
  · cases h
    rw [replaceTrigraphs_char (by simp)]
    rfl
  · cases h
    rw [replaceTrigraphs_char (by simp), replaceTrigraphs_char (by simp)]
    rfl
  · cases h

theorem spliceLines_backslash {text : List Char} (h : lineEndAt text = none) :
    spliceLines ('\\' :: replaceTrigraphs text) = '\\' :: logical text := by
  rw [spliceLines.eq_def]
  split
  · rename_i heq
    rcases replaceTrigraphs_eq_cons (Or.inl rfl) (List.cons.inj heq).2 with ⟨r, rfl, _⟩
    cases h
  · rename_i heq
    rcases replaceTrigraphs_eq_cons (Or.inr rfl) (List.cons.inj heq).2 with ⟨r, rfl, hr⟩
    rcases replaceTrigraphs_eq_cons (Or.inl rfl) hr.symm with ⟨r', rfl, _⟩
    cases h
  · rename_i heq
    cases heq
    rfl
  · rename_i heq
    cases heq

theorem spliceLines_char (h : c ≠ '\\') (rest : List Char) :
    spliceLines (c :: rest) = c :: spliceLines rest := by
  rw [spliceLines.eq_def]
  split <;> simp_all

/-- What a unit adds to the logical text. -/
def LogicalUnit.text : LogicalUnit → List Char
  | .char c _ => [c]
  | .splice _ _ => []

theorem logical_eq {text r : List Char} (h : unitAt text = some (u, r)) :
    logical text = u.text ++ logical r := by
  rcases map_eq_some_iff.1 h with ⟨⟨c, trigraph, r'⟩, hc, hu⟩
  rw [logical, replaceTrigraphs_charAt hc]
  by_cases hb : c = '\\'
  · subst hb
    simp only [if_true] at hu
    cases hl : lineEndAt r' with
    | none =>
      rw [hl] at hu
      cases hu
      exact spliceLines_backslash hl
    | some found =>
      rcases found with ⟨crlf, r''⟩
      rw [hl] at hu
      cases hu
      rw [replaceTrigraphs_lineEnd hl]
      cases crlf <;> rfl
  · simp only [hb, if_false] at hu
    cases hu
    exact spliceLines_char hb _

/-! ## What `read_line` supports -/

/-- Where a unit stands: outside of literals and comments, behind the last character; in a literal,
behind a backslash or not; in a comment, behind a star or not.  A star is joined with what is behind
the line ends that continue its line if these are newlines behind backslashes. -/
inductive Context where
  | plain (last : Option Char)
  | literal (q : Char) (escaped : Bool)
  | comment (star joined : Bool)
deriving DecidableEq, Repr

/-- The context behind a unit, if the source supports the unit.  Not supported are a null
character; outside of literals and comments, a line end CR LF, a line comment, a splice by a
trigraph or at the end of the text, and a backslash in front of a carriage return; in a literal, a splice of a line end CR LF;
in a comment, any other splice than a backslash and a newline between a star and a slash. -/
def Context.next : Context → LogicalUnit → List Char → Option Context
  | .plain last, .splice trigraph _, behind =>
    if trigraph || behind.isEmpty then none else some (.plain last)
  | .plain last, .char c trigraph, behind =>
    if c = '\x00' then none
    else if c = '\n' then if last = some '\r' then none else some (.plain none)
    else if c = '\\' ∧ trigraph = false ∧ behind.head? = some '\r' then none
    else if c = '\'' ∨ c = '"' then some (.literal c false)
    else if c = '/' ∧ last = some '/' then none
    else if c = '*' ∧ last = some '/' then some (.comment false true)
    else some (.plain (some c))
  | .literal q escaped, .splice _ crlf, _ => if crlf then none else some (.literal q escaped)
  | .literal q escaped, .char c _, _ =>
    if c = '\x00' then none
    else if !escaped && c = q then some (.plain (some q))
    else some (.literal q (!escaped && c = '\\'))
  | .comment star joined, .splice trigraph crlf, _ =>
    some (.comment star (joined && !trigraph && !crlf))
  | .comment star joined, .char c _, _ =>
    if c = '\x00' then none
    else if star && c = '/' then if joined then some (.plain (some ' ')) else none
    else some (.comment (c = '*') true)

/-- Every unit of a text is supported. -/
def supported (ctx : Context) (text : List Char) : Bool :=
  match _h : unitAt text with
  | none => true
  | some (u, r) =>
    match ctx.next u r with
    | none => false
    | some ctx => supported ctx r
termination_by text.length
decreasing_by exact (unitAt_behind _h).length_lt

theorem supported_unit {ctx : Context} {text r : List Char}
    (h : unitAt text = some (u, r)) (hs : supported ctx text = true) :
    ∃ next, ctx.next u r = some next ∧ supported next r = true := by
  rw [supported] at hs
  split at hs
  · rename_i hnone
    rw [h] at hnone
    cases hnone
  · rename_i hsome
    rw [h] at hsome
    cases hsome
    split at hs
    · cases hs
    · rename_i next hnext
      exact ⟨next, hnext, hs⟩

/-- A text by its first unit. -/
inductive UnitView : List Char → Option (LogicalUnit × List Char) → Prop
  | nil : UnitView [] none
  | spliceLF (r : List Char) : UnitView ('\\' :: '\n' :: r) (some (.splice false false, r))
  | spliceCRLF (r : List Char) :
    UnitView ('\\' :: '\r' :: '\n' :: r) (some (.splice false true, r))
  | trigraphLF (r : List Char) :
    UnitView ('?' :: '?' :: '/' :: '\n' :: r) (some (.splice true false, r))
  | trigraphCRLF (r : List Char) :
    UnitView ('?' :: '?' :: '/' :: '\r' :: '\n' :: r) (some (.splice true true, r))
  | trigraph {e t : Char} (r : List Char) (he : readTrigraph e = some t) :
    UnitView ('?' :: '?' :: e :: r) (some (.char t true, r))
  | char {c : Char} {r : List Char} (hq : c = '?' → trigraphAt r = none)
    (hb : c = '\\' → lineEndAt r = none) : UnitView (c :: r) (some (.char c false, r))

theorem lineEndAt_eq_some {text r : List Char} {crlf : Bool}
    (h : lineEndAt text = some (crlf, r)) :
    (crlf = false ∧ text = '\n' :: r) ∨ (crlf = true ∧ text = '\r' :: '\n' :: r) := by
  unfold lineEndAt at h
  split at h
  · cases h
    exact Or.inl ⟨rfl, rfl⟩
  · cases h
    exact Or.inr ⟨rfl, rfl⟩
  · cases h

theorem charAt_eq_none {text : List Char} (h : charAt text = none) : text = [] := by
  cases text with
  | nil => rfl
  | cons c rest =>
    simp only [charAt] at h
    split at h
    · split at h <;> cases h
    · cases h

theorem readTrigraph_eq_backslash (h : readTrigraph e = some '\\') : e = '/' := by
  unfold readTrigraph at h
  split at h <;> first | rfl | cases h

/-- The first unit of a text. -/
theorem unitView (text : List Char) : UnitView text (unitAt text) := by
  cases hat : charAt text with
  | none =>
    rw [charAt_eq_none hat]
    exact .nil
  | some found =>
    rcases found with ⟨c, b, r⟩
    have hunit : unitAt text = some (match if c = '\\' then lineEndAt r else none with
        | some (crlf, r) => (.splice b crlf, r)
        | none => (.char c b, r)) := by
      rw [unitAt, hat]
      rfl
    rw [hunit]
    rcases charAt_cases hat with ⟨rfl, e, rfl, he⟩ | ⟨rfl, rfl, hq⟩
    · by_cases hb : c = '\\'
      · rw [if_pos hb]
        subst hb
        cases readTrigraph_eq_backslash he
        cases hl : lineEndAt r with
        | none => exact .trigraph r he
        | some found =>
          rcases lineEndAt_eq_some hl with ⟨hcrlf, rfl⟩ | ⟨hcrlf, rfl⟩
          · rcases found with ⟨crlf, r'⟩
            cases hcrlf
            exact .trigraphLF r'
          · rcases found with ⟨crlf, r'⟩
            cases hcrlf
            exact .trigraphCRLF r'
      · rw [if_neg hb]
        exact .trigraph r he
    · by_cases hb : c = '\\'
      · rw [if_pos hb]
        subst hb
        cases hl : lineEndAt r with
        | none => exact .char hq fun _ => hl
        | some found =>
          rcases lineEndAt_eq_some hl with ⟨hcrlf, rfl⟩ | ⟨hcrlf, rfl⟩
          · rcases found with ⟨crlf, r'⟩
            cases hcrlf
            exact .spliceLF r'
          · rcases found with ⟨crlf, r'⟩
            cases hcrlf
            exact .spliceCRLF r'
      · rw [if_neg hb]
        exact .char hq fun h => absurd h hb

/-! ## Literals -/

/-- The number of backslashes at the end of what is written. -/
def backslashes (written : List Char) : Nat := (written.takeWhile (· = '\\')).length

theorem backslashes_cons (c : Char) (written : List Char) :
    backslashes (c :: written) = if c = '\\' then backslashes written + 1 else 0 := by
  by_cases hc : c = '\\' <;> simp [backslashes, hc]

theorem readLiteral_splice (hq : q ≠ '\\') (r written : List Char) (lines : Nat) :
    readLiteral q ('\\' :: '\n' :: r) written lines = readLiteral q r written (lines + 1) := by
  rw [readLiteral, if_neg (by decide), if_neg (by decide), if_neg (by decide),
    if_neg (fun h => hq h.1.symm), readLiteral, if_neg (by decide), if_pos rfl,
    head?_cons, if_pos rfl, tail_cons]

theorem readLiteral_trigraph_some {q t : Char} (he : readTrigraph e = some t)
    (r written : List Char) (lines : Nat) :
    readLiteral q ('?' :: '?' :: e :: r) written lines =
      readLiteral q r (t :: written) lines := by
  rw [readLiteral_trigraph]
  simp [trigraphAt, he]

variable {written : List Char}

theorem readLiteral_char {lines : Nat}
    (hq : c = '?' → trigraphAt r = none) (h0 : c ≠ '\x00') (hn : c ≠ '\n')
    (hend : ¬(c = q ∧ backslashes written % 2 = 0)) :
    readLiteral q (c :: r) written lines = readLiteral q r (c :: written) lines := by
  by_cases hc : c = '?'
  · subst hc
    rw [readLiteral_trigraph, hq rfl]
  · rw [readLiteral, if_neg h0, if_neg hn, if_neg hc]
    exact if_neg hend

theorem escaped_cons
    (hw : escaped = decide (backslashes written % 2 = 1)) :
    (!escaped && decide (c = '\\')) = decide (backslashes (c :: written) % 2 = 1) := by
  rw [backslashes_cons, hw]
  by_cases hc : c = '\\'
  · simp only [hc, decide_true, Bool.and_true, if_true]
    grind
  · simp [hc]

variable {t : List Char}

/-- A literal ends where the phases end it. -/
theorem readLiteral_spec (hq : q = '\'' ∨ q = '"') {text : List Char}
    {written s t : List Char} (lines : Nat) (hs : supported (.literal q escaped) text = true)
    (hclose : closeLiteral q escaped (logical text) = some (s, t))
    (hw : escaped = decide (backslashes written % 2 = 1)) :
    ∃ r n, readLiteral q text written lines = .literal r (s.reverse ++ written) n ∧
      logical r = t ∧ supported (.plain (some q)) r = true ∧ r.length < text.length := by
  have hqb : q ≠ '\\' := by rcases hq with rfl | rfl <;> decide
  induction hlen : text.length using Nat.strong_induction_on generalizing text escaped written s
    lines with
  | _ len ih =>
    subst hlen
    have hview := unitView text
    cases hu : unitAt text with
    | none =>
      rw [hu] at hview
      cases hview
      cases hclose
    | some found =>
      rcases found with ⟨u, r⟩
      have hlt := (unitAt_behind hu).length_lt
      rcases supported_unit hu hs with ⟨next, hnext, hr⟩
      rw [logical_eq hu] at hclose
      rw [hu] at hview
      -- a character that does not end the literal is written
      have hstep {c : Char} (hc : u.text = [c])
          (hnext : next = .literal q (!escaped && decide (c = '\\')))
          (hend : ¬((!escaped && decide (c = q)) = true))
          (hread : c ≠ '\n' → readLiteral q text written lines =
            readLiteral q r (c :: written) lines) :
          ∃ r n, readLiteral q text written lines = .literal r (s.reverse ++ written) n ∧
            logical r = t ∧ supported (.plain (some q)) r = true ∧ r.length < text.length := by
        rw [hc, singleton_append, closeLiteral, if_neg hend] at hclose
        split at hclose
        · cases hclose
        · rename_i hn
          rcases map_eq_some_iff.1 hclose with ⟨⟨s', t'⟩, hclose, hst⟩
          cases hst
          subst hnext
          rcases ih r.length hlt lines hr hclose (escaped_cons hw) rfl with
            ⟨r', n, hlit, hlog, hsupp, hlt'⟩
          refine ⟨r', n, ?_, hlog, hsupp, Nat.lt_trans hlt' hlt⟩
          rw [hread hn, hlit, reverse_cons, append_assoc]
          rfl
      cases hview with
      | spliceLF =>
        cases hnext
        rcases ih r.length hlt (lines + 1) hr hclose hw rfl with
          ⟨r', n, hlit, hlog, hsupp, hlt'⟩
        refine ⟨r', n, ?_, hlog, hsupp, Nat.lt_trans hlt' hlt⟩
        rw [readLiteral_splice hqb, hlit]
      | spliceCRLF => cases hnext
      | trigraphLF =>
        cases hnext
        rcases ih r.length hlt (lines + 1) hr hclose hw rfl with
          ⟨r', n, hlit, hlog, hsupp, hlt'⟩
        refine ⟨r', n, ?_, hlog, hsupp, Nat.lt_trans hlt' hlt⟩
        rw [readLiteral_trigraph_some rfl, readLiteral, if_neg (by decide), if_pos rfl,
          head?_cons, if_pos rfl, tail_cons, hlit]
      | trigraphCRLF => cases hnext
      | @trigraph e c _ he =>
        have hmem := readTrigraph_mem he
        have hcq : c ≠ q := by
          rintro rfl
          rcases hq with rfl | rfl <;> simp at hmem
        have h0 : c ≠ '\x00' := by
          rintro rfl
          simp at hmem
        rw [Context.next, if_neg h0, if_neg (by simp [hcq])] at hnext
        exact hstep rfl (some.inj hnext).symm (by simp [hcq]) fun _ =>
          readLiteral_trigraph_some he _ _ _
      | @char c _ hquestion hb =>
        rw [Context.next] at hnext
        split at hnext
        · cases hnext
        · rename_i h0
          by_cases hend : (!escaped && decide (c = q)) = true
          · rw [if_pos hend] at hnext
            cases hnext
            simp only [Bool.and_eq_true, Bool.not_eq_true', decide_eq_true_eq] at hend
            rcases hend with ⟨hescaped, rfl⟩
            have hn : c ≠ '\n' := by rcases hq with rfl | rfl <;> decide
            have hc : c ≠ '?' := by rcases hq with rfl | rfl <;> decide
            have hclosed : closeLiteral c escaped (c :: logical r) = some ([c], logical r) := by
              rw [closeLiteral, if_neg hn, if_pos (by simp [hescaped])]
            rw [LogicalUnit.text, singleton_append, hclosed] at hclose
            cases hclose
            have heven : (written.takeWhile (· = '\\')).length % 2 = 0 := by
              rw [hescaped] at hw
              have := of_decide_eq_false hw.symm
              unfold backslashes at this
              omega
            refine ⟨r, lines, ?_, rfl, hr, hlt⟩
            rw [readLiteral, if_neg h0, if_neg hn, if_neg hc, if_pos ⟨rfl, heven⟩]
            rfl
          · rw [if_neg hend] at hnext
            refine hstep rfl (some.inj hnext).symm hend fun hn =>
              readLiteral_char hquestion h0 hn fun hcq => hend ?_
            rw [hw, hcq.1]
            simp [hcq.2]

/-! ## Comments -/

theorem readComment_char {flag : Bool} (lines : Nat)
    (hend : ¬(flag && c == '/') = true) (hb : c = '\\' → lineEndAt r = none) (h0 : c ≠ '\x00') :
    ∃ n, readComment flag (c :: r) lines = readComment (decide (c = '*')) r n := by
  have hsplice : ¬(flag && c == '\\' && r.head? == some '\n') = true := by
    intro h
    simp only [Bool.and_eq_true, beq_iff_eq] at h
    rcases head?_eq_some_iff.1 h.2 with ⟨r', rfl⟩
    cases hb h.1.2
  rw [readComment, if_neg hend, if_neg hsplice]
  by_cases hstar : c = '*'
  · exact ⟨lines, by simp [hstar]⟩
  · by_cases hn : c = '\n'
    · exact ⟨lines + 1, by simp [hn]⟩
    · exact ⟨lines, by simp [hstar, hn, h0]⟩

theorem readComment_spliceLF (flag : Bool) (r : List Char) (lines : Nat) :
    readComment flag ('\\' :: '\n' :: r) lines = readComment flag r (lines + 1) := by
  cases flag <;> simp [readComment]

theorem readComment_spliceCRLF (flag : Bool) (r : List Char) (lines : Nat) :
    readComment flag ('\\' :: '\r' :: '\n' :: r) lines = readComment false r (lines + 1) := by
  simp [readComment]

theorem readComment_question (he : e ≠ '*' ∧ e ≠ '\n' ∧ e ≠ '\x00') (flag : Bool)
    (r : List Char) (lines : Nat) :
    readComment flag ('?' :: '?' :: e :: r) lines = readComment false r lines := by
  simp [readComment, he]

theorem closeComment_char {star : Bool} (hend : ¬(star && decide (c = '/')) = true)
    (x : List Char) :
    closeComment (if star then '*' :: c :: x else c :: x) =
      closeComment (if decide (c = '*') then '*' :: x else x) := by
  have hskip {a : Char} {y : List Char} (h : a = '*' → y.head? ≠ some '/') :
      closeComment (a :: y) = closeComment y := by
    rw [closeComment.eq_def]
    split
    · rename_i heq
      cases heq
      exact absurd rfl (h rfl)
    · rename_i heq
      cases heq
      rfl
    · rename_i heq
      cases heq
  have hcons : closeComment (c :: x) = closeComment (if decide (c = '*') then '*' :: x else x) := by
    by_cases hc : c = '*'
    · simp [hc]
    · rw [hskip fun h => absurd h hc]
      simp [hc]
  cases star with
  | false => exact hcons
  | true =>
    rw [if_pos rfl, hskip (by simpa using hend), hcons]

/-- A comment ends where the phases end it. -/
theorem readComment_spec {text : List Char} {star joined : Bool} (lines : Nat)
    (hs : supported (.comment star joined) text = true)
    (hclose : closeComment (if star then '*' :: logical text else logical text) = some t) :
    ∃ r n, readComment (star && joined) text lines = some (r, n) ∧ logical r = t ∧
      supported (.plain (some ' ')) r = true ∧ r.length < text.length := by
  induction hlen : text.length using Nat.strong_induction_on generalizing text star joined lines with
  | _ len ih =>
    subst hlen
    have hview := unitView text
    cases hu : unitAt text with
    | none =>
      rw [hu] at hview
      cases hview
      cases star <;> cases hclose
    | some found =>
      rcases found with ⟨u, r⟩
      have hlt := (unitAt_behind hu).length_lt
      rcases supported_unit hu hs with ⟨next, hnext, hr⟩
      rw [logical_eq hu] at hclose
      rw [hu] at hview
      -- the comment goes on behind the unit
      have hstep {star' joined' : Bool} (hnext : next = .comment star' joined')
          (hclose : closeComment (if star' then '*' :: logical r else logical r) = some t)
          (hread : ∃ n, readComment (star && joined) text lines =
            readComment (star' && joined') r n) :
          ∃ r n, readComment (star && joined) text lines = some (r, n) ∧ logical r = t ∧
            supported (.plain (some ' ')) r = true ∧ r.length < text.length := by
        subst hnext
        rcases hread with ⟨n, hread⟩
        rcases ih r.length hlt n hr hclose rfl with ⟨r', n', hcom, hlog, hsupp, hlt'⟩
        exact ⟨r', n', hread.trans hcom, hlog, hsupp, Nat.lt_trans hlt' hlt⟩
      cases hview with
      | spliceLF =>
        refine hstep (some.inj hnext).symm hclose ⟨lines + 1, ?_⟩
        simp [readComment_spliceLF]
      | spliceCRLF =>
        refine hstep (some.inj hnext).symm hclose ⟨lines + 1, ?_⟩
        simp [readComment_spliceCRLF]
      | trigraphLF =>
        refine hstep (some.inj hnext).symm hclose ⟨lines + 1, ?_⟩
        simp [readComment_question, readComment]
      | trigraphCRLF =>
        refine hstep (some.inj hnext).symm hclose ⟨lines + 1, ?_⟩
        simp [readComment_question, readComment]
      | @trigraph e c _ he =>
        have hmem := readTrigraph_mem he
        have hstar : c ≠ '*' := by
          rintro rfl
          simp at hmem
        have hslash : c ≠ '/' := by
          rintro rfl
          simp at hmem
        have h0 : c ≠ '\x00' := by
          rintro rfl
          simp at hmem
        have hread : e ≠ '*' ∧ e ≠ '\n' ∧ e ≠ '\x00' := by
          refine ⟨?_, ?_, ?_⟩ <;> rintro rfl <;> cases he
        rw [Context.next, if_neg h0, if_neg (by simp [hslash])] at hnext
        refine hstep (some.inj hnext).symm ?_ ⟨lines, ?_⟩
        · have hend : ¬(star && decide (c = '/')) = true := by simp [hslash]
          rwa [← closeComment_char hend]
        · simp [hstar, readComment_question hread]
      | @char c _ hquestion hb =>
        rw [Context.next] at hnext
        split at hnext
        · cases hnext
        · rename_i h0
          by_cases hend : (star && decide (c = '/')) = true
          · rw [if_pos hend] at hnext
            simp only [Bool.and_eq_true, decide_eq_true_eq] at hend
            rcases hend with ⟨rfl, rfl⟩
            cases joined with
            | false => cases hnext
            | true =>
              cases hnext
              rw [if_pos rfl] at hclose
              cases hclose
              exact ⟨r, lines, by simp [readComment], rfl, hr, hlt⟩
          · rw [if_neg hend] at hnext
            have hend' : ¬((star && joined) && c == '/') = true := by
              grind
            rcases readComment_char lines hend' hb h0 with ⟨n, hread⟩
            refine hstep (some.inj hnext).symm ?_ ⟨n, ?_⟩
            · rwa [← closeComment_char hend]
            · rw [hread, Bool.and_true]

/-! ## Plain text -/

/-- The last character, when what it is depends on the next one. -/
def held : Option Char → List Char
  | some '/' => ['/']
  | some '\r' => ['\r']
  | _ => []

theorem held_eq (h : Option Char) :
    (held h = [] ∧ h ≠ some '/' ∧ h ≠ some '\r') ∨ (h = some '/' ∧ held h = ['/']) ∨
      (h = some '\r' ∧ held h = ['\r']) := by
  unfold held
  split
  · exact Or.inr (Or.inl ⟨rfl, rfl⟩)
  · exact Or.inr (Or.inr ⟨rfl, rfl⟩)
  · rename_i hslash hcr
    exact Or.inl ⟨rfl, hslash, hcr⟩

theorem replaceComments_quote (hq : q = '\'' ∨ q = '"') (rest : List Char) :
    replaceComments (q :: rest) = (closeLiteral q false rest).bind fun p =>
      (replaceComments p.2).map (q :: p.1 ++ ·) := by
  rw [replaceComments, if_pos hq]
  split <;> simp [*]

theorem replaceComments_comment (rest : List Char) :
    replaceComments ('/' :: '*' :: rest) =
      (closeComment rest).bind fun r => (replaceComments r).map (' ' :: ·) := by
  rw [replaceComments, if_neg (by simp), if_pos ⟨rfl, rfl⟩, tail_cons]
  split <;> simp [*]

theorem replaceComments_char (hq : ¬(c = '\'' ∨ c = '"'))
    (hc : c = '/' → rest.head? ≠ some '*' ∧ rest.head? ≠ some '/') :
    replaceComments (c :: rest) = (replaceComments rest).map (c :: ·) := by
  rw [replaceComments, if_neg hq, if_neg fun h => (hc h.1).1 h.2, if_neg fun h => (hc h.1).2 h.2]

theorem takeLine_char (hn : c ≠ '\n')
    (hc : c = '\r' → rest.head? ≠ some '\n') :
    takeLine (c :: rest) = (takeLine rest).map fun p => (c :: p.1, p.2) := by
  rw [takeLine.eq_def]
  split
  · rename_i heq
    cases heq
    exact absurd rfl hn
  · rename_i heq
    cases heq
    exact absurd rfl (hc rfl)
  · rename_i heq
    cases heq
    rfl
  · rename_i heq
    cases heq

theorem head?_replaceComments (hn : c ≠ '\n')
    (h : replaceComments (c :: rest) = some t) : t.head? ≠ some '\n' := by
  rw [replaceComments] at h
  split at h
  · split at h
    · rcases map_eq_some_iff.1 h with ⟨_, _, rfl⟩
      simpa using hn
    · cases h
  · split at h
    · split at h
      · rcases map_eq_some_iff.1 h with ⟨_, _, rfl⟩
        simp
      · cases h
    · split at h
      · rcases map_eq_some_iff.1 h with ⟨_, _, rfl⟩
        simp
      · rcases map_eq_some_iff.1 h with ⟨_, _, rfl⟩
        simpa using hn

variable {x t' : List Char}

theorem held_release {h : Option Char} (hn : c ≠ '\n')
    (hc : h = some '/' → c ≠ '*' ∧ c ≠ '/') (ht : replaceComments (held h ++ c :: x) = some t)
    (hl : takeLine t = some (l, t')) :
    ∃ t₂ l₂, replaceComments (c :: x) = some t₂ ∧ takeLine t₂ = some (l₂, t') ∧
      l = held h ++ l₂ := by
  rcases held_eq h with ⟨hh, _, _⟩ | ⟨rfl, hh⟩ | ⟨rfl, hh⟩
  · rw [hh] at ht ⊢
    exact ⟨t, l, ht, hl, rfl⟩
  · rw [hh, singleton_append, replaceComments_char (by simp) fun _ => by simpa using hc rfl]
      at ht
    rcases map_eq_some_iff.1 ht with ⟨t₂, ht₂, rfl⟩
    rw [takeLine_char (by simp) (by simp)] at hl
    rcases map_eq_some_iff.1 hl with ⟨⟨l₂, r⟩, hl₂, heq⟩
    cases heq
    exact ⟨t₂, l₂, ht₂, hl₂, by rw [hh]; rfl⟩
  · rw [hh, singleton_append, replaceComments_char (by simp) (by simp)] at ht
    rcases map_eq_some_iff.1 ht with ⟨t₂, ht₂, rfl⟩
    rw [takeLine_char (by simp) fun _ => head?_replaceComments hn ht₂] at hl
    rcases map_eq_some_iff.1 hl with ⟨⟨l₂, r⟩, hl₂, heq⟩
    cases heq
    exact ⟨t₂, l₂, ht₂, hl₂, by rw [hh]; rfl⟩

theorem held_push (hq : ¬(c = '\'' ∨ c = '"'))
    (hn : c ≠ '\n') (ht : replaceComments (c :: x) = some t) (hl : takeLine t = some (l, t')) :
    ∃ base t₂ l₂, c :: written = held (some c) ++ base ∧
      replaceComments (held (some c) ++ x) = some t₂ ∧ takeLine t₂ = some (l₂, t') ∧
      base.reverse ++ l₂ = written.reverse ++ l := by
  rcases held_eq (some c) with ⟨hh, hslash, hcr⟩ | ⟨hc, hh⟩ | ⟨hc, hh⟩
  · rw [replaceComments_char hq fun h => absurd (congrArg some h) hslash] at ht
    rcases map_eq_some_iff.1 ht with ⟨t₂, ht₂, rfl⟩
    rw [takeLine_char hn fun h => absurd (congrArg some h) hcr] at hl
    rcases map_eq_some_iff.1 hl with ⟨⟨l₂, r⟩, hl₂, heq⟩
    cases heq
    exact ⟨c :: written, t₂, l₂, by rw [hh]; rfl, by rw [hh]; exact ht₂, hl₂, by simp⟩
  · cases hc
    exact ⟨written, t, l, by rw [hh]; rfl, by rw [hh]; exact ht, hl, rfl⟩
  · cases hc
    exact ⟨written, t, l, by rw [hh]; rfl, by rw [hh]; exact ht, hl, rfl⟩

theorem head?_closeLiteral {text s r : List Char}
    (h : closeLiteral q escaped text = some (s, r)) : ∃ c rest, s = c :: rest ∧ c ≠ '\n' := by
  cases text with
  | nil => cases h
  | cons c rest =>
    rw [closeLiteral] at h
    split at h
    · cases h
    · rename_i hn
      split at h
      · cases h
        exact ⟨c, [], rfl, hn⟩
      · rcases map_eq_some_iff.1 h with ⟨⟨s', r'⟩, _, heq⟩
        cases heq
        exact ⟨c, s', rfl, hn⟩

theorem takeLine_literal (hq : q = '\'' ∨ q = '"')
    {text s r : List Char} (h : closeLiteral q escaped text = some (s, r)) (y : List Char) :
    s.getLast? = some q ∧ takeLine (s ++ y) = (takeLine y).map fun p => (s ++ p.1, p.2) := by
  have hqn : q ≠ '\n' := by rcases hq with rfl | rfl <;> decide
  have hqr : q ≠ '\r' := by rcases hq with rfl | rfl <;> decide
  induction text generalizing escaped s with
  | nil => cases h
  | cons c rest ih =>
    rw [closeLiteral] at h
    split at h
    · cases h
    · rename_i hn
      split at h
      · rename_i hend
        simp only [Bool.and_eq_true, decide_eq_true_eq] at hend
        rcases hend with ⟨_, rfl⟩
        cases h
        exact ⟨rfl, by rw [singleton_append, takeLine_char hqn (by simp [hqr])]; rfl⟩
      · rcases map_eq_some_iff.1 h with ⟨⟨s', r'⟩, h, heq⟩
        cases heq
        rcases ih h with ⟨hlast, htake⟩
        refine ⟨by simp [getLast?_cons, hlast], ?_⟩
        rw [cons_append, takeLine_char hn, htake]
        · cases takeLine y <;> rfl
        · intro _
          rcases head?_closeLiteral h with ⟨d, s'', rfl, hd⟩
          simpa using hd

theorem held_reverse (h : Option Char) : (held h).reverse = held h := by
  rcases held_eq h with ⟨hh, _, _⟩ | ⟨_, hh⟩ | ⟨_, hh⟩ <;> rw [hh] <;> rfl

theorem continuation_eq_none {text : List Char} (h : lineEndAt text = none)
    (hcr : text.head? ≠ some '\r') : continuation text = none := by
  unfold continuation
  split
  · exact absurd rfl hcr
  · exact absurd rfl hcr
  · cases h
  · rfl

theorem takeLine_newline {h : Option Char} (hcr : h ≠ some '\r')
    (ht : replaceComments (held h ++ '\n' :: x) = some t) (hl : takeLine t = some (l, t')) :
    l = held h ∧ replaceComments x = some t' := by
  have hnewline : replaceComments ('\n' :: x) = (replaceComments x).map ('\n' :: ·) :=
    replaceComments_char (by simp) (by simp)
  rcases held_eq h with ⟨hh, _, _⟩ | ⟨rfl, hh⟩ | ⟨rfl, _⟩
  · rw [hh, nil_append, hnewline] at ht
    rcases map_eq_some_iff.1 ht with ⟨t₂, ht₂, rfl⟩
    cases hl
    exact ⟨hh.symm, ht₂⟩
  · rw [hh, singleton_append, replaceComments_char (by simp) (by simp), hnewline] at ht
    rcases map_eq_some_iff.1 ht with ⟨t₁, ht₁, rfl⟩
    rcases map_eq_some_iff.1 ht₁ with ⟨t₂, ht₂, rfl⟩
    cases hl
    exact ⟨hh.symm, ht₂⟩
  · exact absurd rfl hcr

variable {last : Option Char}

theorem next_plain_char {trigraph : Bool} {behind : List Char}
    {next : Context} (h : Context.next (.plain last) (.char c trigraph) behind = some next) :
    (c = '\n' ∧ last ≠ some '\r' ∧ next = .plain none) ∨
    ((c = '\'' ∨ c = '"') ∧ next = .literal c false) ∨
    (c = '*' ∧ last = some '/' ∧ next = .comment false true) ∨
    (c ≠ '\n' ∧ ¬(c = '\'' ∨ c = '"') ∧ (last = some '/' → c ≠ '*' ∧ c ≠ '/') ∧
      (c = '\\' → trigraph = false → behind.head? ≠ some '\r') ∧ next = .plain (some c)) := by
  rw [Context.next] at h
  split at h
  · cases h
  · split at h
    · rename_i hn
      split at h
      · cases h
      · rename_i hcr
        cases h
        exact Or.inl ⟨hn, hcr, rfl⟩
    · rename_i hn
      split at h
      · cases h
      · rename_i hback
        split at h
        · rename_i hq
          cases h
          exact Or.inr (Or.inl ⟨hq, rfl⟩)
        · rename_i hq
          split at h
          · cases h
          · rename_i hslash
            split at h
            · rename_i hstar
              cases h
              exact Or.inr (Or.inr (Or.inl ⟨hstar.1, hstar.2, rfl⟩))
            · rename_i hstar
              cases h
              exact Or.inr (Or.inr (Or.inr ⟨hn, hq,
                fun hl => ⟨fun hc => hstar ⟨hc, hl⟩, fun hc => hslash ⟨hc, hl⟩⟩,
                fun hc ht hb => hback ⟨hc, ht, hb⟩, rfl⟩))

theorem next_plain_splice {trigraph crlf : Bool} {behind : List Char}
    {next : Context}
    (h : Context.next (.plain last) (.splice trigraph crlf) behind = some next) :
    trigraph = false ∧ behind ≠ [] ∧ next = .plain last := by
  rw [Context.next] at h
  split at h
  · cases h
  · rename_i hno
    cases h
    simpa using hno

/-- A line that is read is the first line of the phases. -/
theorem readLineFrom_spec {text written base t l t' : List Char} (lines : Nat)
    (hs : supported (.plain written.head?) text = true) (hbase : written = held written.head? ++ base)
    (ht : replaceComments (held written.head? ++ logical text) = some t)
    (hl : takeLine t = some (l, t')) :
    ∃ r n, readLineFrom text written lines = .line (base.reverse ++ l) r n ∧
      replaceComments (logical r) = some t' ∧ supported (.plain none) r = true := by
  induction hlen : text.length using Nat.strong_induction_on generalizing text written base t l
    lines with
  | _ len ih =>
    subst hlen
    have hview := unitView text
    cases hu : unitAt text with
    | none =>
      rw [hu] at hview
      cases hview
      have htake : takeLine t = none := by
        rcases held_eq written.head? with ⟨hh, _, _⟩ | ⟨_, hh⟩ | ⟨_, hh⟩ <;> rw [hh] at ht <;>
          simp [logical, replaceTrigraphs, spliceLines, replaceComments] at ht <;> subst ht <;> rfl
      rw [htake] at hl
      cases hl
    | some found =>
      rcases found with ⟨u, r⟩
      have hlt := (unitAt_behind hu).length_lt
      rcases supported_unit hu hs with ⟨next, hnext, hr⟩
      rw [logical_eq hu] at ht
      rw [hu] at hview
      have hrev : written.reverse = base.reverse ++ held written.head? := by
        conv_lhs => rw [hbase]
        rw [reverse_append, held_reverse]
      -- a character that is written, and held if need be
      have hstep {c : Char} (hc : u.text = [c]) (hnext : next = .plain (some c))
          (hq : ¬(c = '\'' ∨ c = '"')) (hn : c ≠ '\n')
          (hopen : written.head? = some '/' → c ≠ '*' ∧ c ≠ '/')
          (hread : readLineFrom text written lines = readLineFrom r (c :: written) lines) :
          ∃ r n, readLineFrom text written lines = .line (base.reverse ++ l) r n ∧
            replaceComments (logical r) = some t' ∧ supported (.plain none) r = true := by
        rw [hc] at ht
        rcases held_release hn hopen ht hl with ⟨t₁, l₁, ht₁, hl₁, rfl⟩
        rcases held_push hq hn ht₁ hl₁ with ⟨base', t₂, l₂, hbase', ht₂, hl₂, hsum⟩
        subst hnext
        rcases @ih r.length hlt r (c :: written) base' t₂ l₂ lines hr hbase' ht₂ hl₂ rfl with
          ⟨r', n, hline, hrest⟩
        refine ⟨r', n, ?_, hrest⟩
        rw [hread, hline, hsum, hrev, append_assoc]
      cases hview with
      | spliceLF =>
        rcases next_plain_splice hnext with ⟨_, _, rfl⟩
        rw [readLineFrom_backslash]
        exact ih r.length hlt (lines + 1) hr hbase ht hl rfl
      | spliceCRLF =>
        rcases next_plain_splice hnext with ⟨_, _, rfl⟩
        rw [readLineFrom_backslash]
        exact ih r.length hlt (lines + 1) hr hbase ht hl rfl
      | trigraphLF => cases hnext
      | trigraphCRLF => cases hnext
      | @trigraph e c _ he =>
        have hread : readLineFrom ('?' :: '?' :: e :: r) written lines =
            readLineFrom r (c :: written) lines := by
          rw [readLineFrom_trigraph]
          simp [trigraphAt, he]
        have hmem := readTrigraph_mem he
        rcases next_plain_char hnext with ⟨rfl, _⟩ | ⟨rfl | rfl, _⟩ | ⟨rfl, _⟩ |
          ⟨hn, hq, hopen, _, hnext⟩
        · simp at hmem
        · simp at hmem
        · simp at hmem
        · simp at hmem
        · exact hstep rfl hnext hq hn hopen hread
      | @char c _ hquestion hb =>
        rcases next_plain_char hnext with ⟨rfl, hcr, rfl⟩ | ⟨hq, rfl⟩ | ⟨rfl, hslash, rfl⟩ |
          ⟨hn, hq, hopen, hback, hnext⟩
        · rcases takeLine_newline hcr ht hl with ⟨rfl, ht'⟩
          refine ⟨r, lines + 1, ?_, ht', hr⟩
          rw [readLineFrom, if_pos rfl, hrev]
        · have hn : c ≠ '\n' := by rcases hq with rfl | rfl <;> decide
          have hcr : c ≠ '\r' := by rcases hq with rfl | rfl <;> decide
          have hopen : c ≠ '*' ∧ c ≠ '/' := by rcases hq with rfl | rfl <;> decide
          have hb : c ≠ '\\' := by rcases hq with rfl | rfl <;> decide
          rcases held_release hn (fun _ => hopen) ht hl with ⟨t₁, l₁, ht₁, hl₁, rfl⟩
          rw [replaceComments_quote hq] at ht₁
          rcases bind_eq_some_iff.1 ht₁ with ⟨⟨s, x⟩, hclose, ht₁⟩
          rcases map_eq_some_iff.1 ht₁ with ⟨t₂, ht₂, rfl⟩
          rcases takeLine_literal hq hclose t₂ with ⟨hlast, htake⟩
          rw [cons_append, takeLine_char hn (by simp [hcr]), htake, Option.map_map] at hl₁
          rcases map_eq_some_iff.1 hl₁ with ⟨⟨l₂, r₂⟩, hl₂, heq⟩
          cases heq
          have heven : false = decide (backslashes (c :: written) % 2 = 1) := by
            simp [backslashes_cons, hb]
          rcases readLiteral_spec hq lines hr hclose heven with ⟨r', n, hlit, rfl, hr', hlt'⟩
          have hhead : (s.reverse ++ c :: written).head? = some c := by
            rw [head?_append, head?_reverse, hlast]
            rfl
          have hheld : held (some c) = [] := by rcases hq with rfl | rfl <;> rfl
          rcases @ih r'.length (Nat.lt_trans hlt' hlt) r' (s.reverse ++ c :: written)
            (s.reverse ++ c :: written) t₂ l₂ n (by rw [hhead]; exact hr')
            (by rw [hhead, hheld]; rfl) (by rw [hhead, hheld]; exact ht₂) hl₂ rfl with
            ⟨r₃, n₃, hline, hrest⟩
          refine ⟨r₃, n₃, ?_, hrest⟩
          rw [readLineFrom_quote hq, hlit]
          simp only [hline, reverse_append, reverse_reverse, reverse_cons, hrev,
            append_assoc, cons_append, nil_append]
        · have hw : written = '/' :: base := by
            rw [hslash] at hbase
            exact hbase
          rw [hslash] at ht
          subst hw
          have ht : replaceComments ('/' :: '*' :: logical r) = some t := ht
          rw [replaceComments_comment] at ht
          rcases bind_eq_some_iff.1 ht with ⟨x, hclose, ht⟩
          rcases map_eq_some_iff.1 ht with ⟨t₂, ht₂, rfl⟩
          rw [takeLine_char (by simp) (by simp)] at hl
          rcases map_eq_some_iff.1 hl with ⟨⟨l₂, r₂⟩, hl₂, heq⟩
          cases heq
          rcases readComment_spec lines hr hclose with ⟨r', n, hcom, rfl, hr', hlt'⟩
          rcases @ih r'.length (Nat.lt_trans hlt' hlt) r' (' ' :: base) (' ' :: base) t₂ l₂ n hr'
            rfl ht₂ hl₂ rfl with ⟨r₃, n₃, hline, hrest⟩
          refine ⟨r₃, n₃, ?_, hrest⟩
          rw [Bool.false_and] at hcom
          rw [readLineFrom_star, hcom]
          simp only [hline, reverse_cons, append_assoc, singleton_append]
        · refine hstep rfl hnext hq hn hopen ?_
          by_cases hb' : c = '\\'
          · subst hb'
            rw [readLineFrom_backslash, continuation_eq_none (hb rfl) (hback rfl rfl)]
          · by_cases hc : c = '?'
            · subst hc
              rw [readLineFrom_trigraph, hquestion rfl]
            · refine readLineFrom_plain ?_ r lines
              simp only [isSpecial]
              grind

/-! ## Texts -/

theorem logical_ne_nil {text : List Char}
    (hs : supported (.plain last) text = true) (hne : text ≠ []) : logical text ≠ [] := by
  induction hlen : text.length using Nat.strong_induction_on generalizing text with
  | _ len ih =>
    subst hlen
    cases hu : unitAt text with
    | none =>
      have hview := unitView text
      rw [hu] at hview
      cases hview
      exact absurd rfl hne
    | some found =>
      rcases found with ⟨u, r⟩
      rcases supported_unit hu hs with ⟨next, hnext, hr⟩
      rw [logical_eq hu]
      cases u with
      | char c trigraph => simp [LogicalUnit.text]
      | splice trigraph crlf =>
        rcases next_plain_splice hnext with ⟨_, hbehind, rfl⟩
        exact ih r.length (unitAt_behind hu).length_lt hr hbehind rfl

theorem null_notMem_logical {ctx : Context} {text : List Char} (hs : supported ctx text = true) :
    '\x00' ∉ logical text := by
  induction hlen : text.length using Nat.strong_induction_on generalizing ctx text with
  | _ len ih =>
    subst hlen
    cases hu : unitAt text with
    | none =>
      have hview := unitView text
      rw [hu] at hview
      cases hview
      simp [logical, replaceTrigraphs, spliceLines]
    | some found =>
      rcases found with ⟨u, r⟩
      rcases supported_unit hu hs with ⟨next, hnext, hr⟩
      have hrest := ih r.length (unitAt_behind hu).length_lt hr rfl
      rw [logical_eq hu, mem_append, not_or]
      refine ⟨?_, hrest⟩
      cases u with
      | splice trigraph crlf => exact not_mem_nil
      | char c trigraph =>
        rw [LogicalUnit.text, mem_singleton]
        rintro rfl
        cases ctx <;> cases hnext

theorem closeLiteral_append {text s r : List Char}
    (h : closeLiteral q escaped text = some (s, r)) : s ++ r = text := by
  induction text generalizing escaped s with
  | nil => cases h
  | cons c rest ih =>
    rw [closeLiteral] at h
    split at h
    · cases h
    · split at h
      · cases h
        rfl
      · rcases map_eq_some_iff.1 h with ⟨⟨s', r'⟩, h, heq⟩
        cases heq
        rw [cons_append, ih h]

theorem null_notMem_replaceComments {text t : List Char} (h : replaceComments text = some t)
    (hnull : '\x00' ∉ text) : '\x00' ∉ t := by
  fun_induction replaceComments text generalizing t
  case case1 =>
    cases h
    exact hnull
  case case2 c rest _ s r hclose ih =>
    rcases map_eq_some_iff.1 h with ⟨t', ht', rfl⟩
    rw [← closeLiteral_append hclose, mem_cons, mem_append, not_or, not_or] at hnull
    rw [cons_append, mem_cons, mem_append, not_or, not_or]
    exact ⟨hnull.1, hnull.2.1, ih ht' hnull.2.2⟩
  case case3 => cases h
  case case4 c rest _ _ r hclose ih =>
    rcases map_eq_some_iff.1 h with ⟨t', ht', rfl⟩
    have hr : '\x00' ∉ r := fun hmem => hnull (mem_cons_of_mem _
      (mem_of_mem_tail ((closeComment_behind hclose).suffix.subset hmem)))
    rw [mem_cons, not_or]
    exact ⟨by decide, ih ht' hr⟩
  case case5 => cases h
  case case6 c rest _ _ _ ih =>
    rcases map_eq_some_iff.1 h with ⟨t', ht', rfl⟩
    rw [mem_cons, not_or]
    exact ⟨by decide, ih ht' fun hmem => hnull (mem_cons_of_mem _
      ((dropWhile_suffix _).subset hmem))⟩
  case case7 c rest _ _ _ ih =>
    rcases map_eq_some_iff.1 h with ⟨t', ht', rfl⟩
    rw [mem_cons, not_or] at hnull ⊢
    exact ⟨hnull.1, ih ht' hnull.2⟩

theorem takeLine_subset {text l r : List Char} (h : takeLine text = some (l, r)) : l ⊆ text := by
  fun_induction takeLine text generalizing l
  case case1 =>
    cases h
    exact nil_subset _
  case case2 =>
    cases h
    exact nil_subset _
  case case3 ih =>
    rcases map_eq_some_iff.1 h with ⟨⟨l', r'⟩, h, heq⟩
    cases heq
    exact cons_subset_cons _ (ih h)
  case case4 => cases h

theorem replaceComments_ne_nil {text : List Char} (hne : text ≠ []) :
    replaceComments text ≠ some [] := by
  cases text with
  | nil => exact absurd rfl hne
  | cons c rest =>
    rw [replaceComments]
    split
    · split <;> simp
    · split
      · split <;> simp
      · split <;> simp

/-- The lines that `read_line` makes are the logical lines of the translation phases. -/
def FollowsPhases (text : List Char) : Prop :=
  ∀ lines, phases text = some lines → readLines text = some lines

/-- The lines of a supported text are the logical lines of the translation phases. -/
theorem readLines_eq_phases {text : List Char} (hs : supported (.plain none) text = true) :
    FollowsPhases text := by
  intro lines hp
  induction hlen : text.length using Nat.strong_induction_on generalizing text lines with
  | _ len ih =>
    subst hlen
    rcases bind_eq_some_iff.1 hp with ⟨t, ht, hlines⟩
    by_cases hne : text = []
    · subst hne
      have hnil : t = [] := by
        simpa [logical, replaceTrigraphs, spliceLines, replaceComments] using ht.symm
      rw [hnil, splitLines, if_pos rfl] at hlines
      rw [readLines, if_pos rfl, hlines]
    · have hnull := null_notMem_replaceComments ht (null_notMem_logical hs)
      have ht0 : t ≠ [] := by
        rintro rfl
        exact replaceComments_ne_nil (logical_ne_nil hs hne) ht
      rw [splitLines, if_neg ht0] at hlines
      split at hlines
      · rename_i l t' hl
        rcases map_eq_some_iff.1 hlines with ⟨lines', hlines', rfl⟩
        have hbase : ([] : List Char) = held ([] : List Char).head? ++ [] := rfl
        have hs' : supported (.plain ([] : List Char).head?) text = true := hs
        rcases readLineFrom_spec 0 hs' hbase ht hl with ⟨r, n, hline, hr, hsr⟩
        have hlt := (readLineFrom_behind hline).length_lt
        have hrest := ih r.length hlt hsr lines' (bind_eq_some_iff.2 ⟨t', hr, hlines'⟩) rfl
        have hcut : cString l = l := by
          refine takeWhile_eq_self_iff.2 fun c hc => ?_
          have hc0 : c ≠ '\x00' := fun h0 => hnull (takeLine_subset hl (h0 ▸ hc))
          simpa using hc0
        rw [readLines, if_neg hne]
        split
        · rename_i l' r' n' hline'
          rw [readLine, hline] at hline'
          cases hline'
          rw [hrest, reverse_nil, nil_append, hcut]
          rfl
        · rename_i hno
          exact absurd hline (hno _ _ _)
      · cases hlines

/-- A text with splices in a name, a comment and a literal. -/
theorem readLines_eq_phases_spliced :
    supported (.plain none) "a\\\nb /* *\\\n/ '??/\n\"' ??=\n".toList = true ∧
      FollowsPhases "a\\\nb /* *\\\n/ '??/\n\"' ??=\n".toList := by
  have hs : supported (.plain none) "a\\\nb /* *\\\n/ '??/\n\"' ??=\n".toList = true := by
    decide +kernel
  exact ⟨hs, readLines_eq_phases hs⟩

-- where a comment goes on behind its end, the rest of the line may still come out the same
example : supported (.plain none) "/**??/\n/*/*/**/\n".toList = false ∧
    readLines "/**??/\n/*/*/**/\n".toList = phases "/**??/\n/*/*/**/\n".toList := by
  decide +kernel

/-- A backslash that a trigraph stands for does not continue a line. -/
theorem not_followsPhases : ¬FollowsPhases "a ??/\nb\n".toList := by
  intro h
  have hphases : phases "a ??/\nb\n".toList = some ["a b".toList] := by decide +kernel
  have hlines : readLines "a ??/\nb\n".toList = some ["a \\".toList, "b".toList] := by
    decide +kernel
  have := (h _ hphases).symm.trans hlines
  simp at this

end Kcs.Preprocessor
