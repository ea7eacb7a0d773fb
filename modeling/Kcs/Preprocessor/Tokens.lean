import Kcs.Preprocessor.Lexeme

/-!
# Reading a line

What one call of `tokenize` has to do with the language of preprocessing tokens,
and what repeated calls make of a line.

Main results:

- Theorem {lit}`tokenizeLine_lawful`: repeated calls split a line into longest tokens
  or report an error where no token starts.
-/

namespace Kcs.Preprocessor

open List

/-! ## The law of a call -/

/-- The text that a token has to carry: what stands between the quotes of a
constant or a string, and everything otherwise. -/
def content (t : TokenType) (s : List Char) : List Char :=
  if t = .prepChar ∨ t = .prepString then s.tail.dropLast else s

section

variable (G : TokenType → List Char → Prop)

/-- No token starts here. -/
def NoToken (l : List Char) : Prop := ∀ t s, G t s → ¬ s <+: l

/-- The token of type `t` and text `s` is the longest one here. -/
def Longest (l : List Char) (t : TokenType) (s : List Char) : Prop :=
  G t s ∧ s <+: l ∧ ∀ t' s', G t' s' → s' <+: l → s'.length ≤ s.length

/-- A call at `l`, where white space is skipped already, may read `s` as `tok`: the
longest token, or a character of its own where no token starts. -/
def Reads (l : List Char) (tok : Token) (s : List Char) : Prop :=
  (Longest G l tok.token s ∧ tok.str = content tok.token s) ∨
    (NoToken G l ∧ s <+: l ∧ s.length = 1 ∧ tok.str = s)

/-- What a call has to do: skip white space and read one token, or report the end
of the line, or report an error where no token starts. -/
def Obeys (std : Cstd) (l : List Char) : Prop :=
  match tokenize std l with
  | .ok (tok, rest) =>
    (l.dropWhile isSpace = [] ∧ tok.token = .end_ ∧ rest = []) ∨
      ∃ s, l.dropWhile isSpace = s ++ rest ∧ tok.token ≠ .end_ ∧
        Reads G (l.dropWhile isSpace) tok s
  | .error (.error _) => l.dropWhile isSpace ≠ [] ∧ NoToken G (l.dropWhile isSpace)
  | .error _ => False

end

/-- Positions where a call does something else: a byte outside the seven-bit
characters or a control character that is not white space, an identifier that
goes on after `_Static_assert`, a string without a closing quote, and a quote or
a quote and a backslash at the end of the line. -/
inductive Slip : List Char → Prop where
  | control {c : Char} {l : List Char} : c.toNat < 32 → Slip (c :: l)
  | high {c : Char} {l : List Char} : 128 ≤ c.toNat → Slip (c :: l)
  | staticAssert {c : Char} {l : List Char} : isIdent c = true →
      Slip (staticAssertText ++ c :: l)
  | string {l : List Char} : (∀ s, Quoted '"' s → ¬ s ++ ['"'] <+: l) → Slip ('"' :: l)
  | quote : Slip ['\'']
  | backslash : Slip ['\'', '\\']


/-! ## One call -/

section

variable {std : Cstd}

variable {l s : List Char}

theorem length_le_takeWhile (hs : s.all isIdent = true) (h : s <+: l) :
    s.length ≤ (l.takeWhile isIdent).length := by
  rcases h with ⟨r, rfl⟩
  rw [takeWhile_append_of_pos (all_eq_true.mp hs)]
  simp

variable {c : Char} {t : TokenType}

theorem longest_identifier
    (hc : isIdentStart c = true) (ht : Lexeme std t (c :: l.takeWhile isIdent)) :
    Longest (Lexeme std) (c :: l) t (c :: l.takeWhile isIdent) := by
  rcases isIdentStart_excludes hc with ⟨hdigit, hdot, hquote, hstring, hop⟩
  refine ⟨ht, cons_prefix_cons.mpr ⟨rfl, takeWhile_prefix _⟩, ?_⟩
  rintro t' s' hs' hpre
  cases s' with
  | nil => simp
  | cons d s' =>
    rcases cons_prefix_cons.mp hpre with ⟨rfl, hpre'⟩
    rcases hs'.cases_cons with ⟨_, hs'⟩ | ⟨_, hs'⟩ | ⟨h, _⟩ | ⟨h, _⟩ | ⟨hp, hs'⟩
    · simpa using length_le_takeWhile hs' hpre'
    · cases hs' with
      | digit h _ => simp [hdigit] at h
      | dot _ _ => exact absurd rfl hdot
    · exact absurd h hquote
    · exact absurd h hstring
    · rw [isOpStart_of_punctuator hp hs'] at hop
      exact absurd hop (by decide)

theorem keyword_entry (ht : t ∈ keywords std) :
    t ≠ .end_ ∧ t ≠ .prepChar ∧ t ≠ .prepString := by
  refine ⟨?_, ?_, ?_⟩ <;> rintro rfl <;> simp [keywords] at ht

theorem strtoident_of_keyword
    (hk : keyword std c l = some t) (ht : t ≠ .staticAssert) :
    strtoident std c l = (basicToken t, (basicToken t).str.length) := by
  unfold strtoident
  rw [hk]
  cases t <;> first | rfl | exact absurd rfl ht

/-- What a call that reads a token from `c :: l` has to return. -/
def ReadsFrom (std : Cstd) (c : Char) (l : List Char) (r : Token × Nat) : Prop :=
  ∃ s rest, c :: l = s ++ rest ∧ r.2 = s.length ∧ r.1.token ≠ .end_ ∧
    Reads (Lexeme std) (c :: l) r.1 s

/-- `strtoident` reads an identifier or a keyword. -/
theorem strtoident_spec (hc : isIdentStart c = true)
    (hslip : ¬ Slip (c :: l)) : ReadsFrom std c l (strtoident std c l) := by
  have hsplit : c :: l = (c :: l.takeWhile isIdent) ++ l.dropWhile isIdent := by
    rw [cons_append, takeWhile_append_dropWhile]
  have hident : isIdentifier (c :: l.takeWhile isIdent) = true := by
    simp [isIdentifier, hc]
  cases hk : keyword std c l with
  | none =>
    have hno : ∀ t ∈ keywords std, spelling t ≠ c :: l.takeWhile isIdent := by
      intro t ht h
      rw [keyword_of_spelling ht h] at hk
      exact absurd hk (by simp)
    refine ⟨_, _, hsplit, ?_, ?_, Or.inl ⟨?_, ?_⟩⟩
    · simp [strtoident, hk, Nat.add_comm]
    · simp [strtoident, hk]
    · simpa [strtoident, hk] using longest_identifier hc (Lexeme.identifier hident hno)
    · simp [strtoident, hk, Token.str, content]
  | some t =>
    have hmem := mem_keywords_of_keyword hk
    rcases keyword_entry hmem with ⟨hend, hchar, hstring⟩
    have hspell : spelling t = c :: l.takeWhile isIdent := by
      by_cases ht : t = .staticAssert
      · subst ht
        rcases staticAssert_of_keyword hk with ⟨r, hr⟩
        have hE : E r = true := by
          cases r with
          | nil => rfl
          | cons d r =>
            by_contra hd
            exact hslip (hr ▸ Slip.staticAssert (by simpa [E] using hd))
        rcases List.cons.inj hr with ⟨rfl, rfl⟩
        have hword : ((staticAssertText.tail ++ r).takeWhile isIdent) = staticAssertText.tail := by
          rw [takeWhile_append_of_pos (all_eq_true.mp rfl), E_iff.mp hE, append_nil]
        exact congrArg _ hword.symm
      · exact spelling_of_keyword hk ht
    have hlex := longest_identifier hc (hspell ▸ Lexeme.keyword hmem)
    by_cases ht : t = .staticAssert
    · subst ht
      have htext : staticAssertText = c :: l.takeWhile isIdent := hspell
      refine ⟨_, _, hsplit, ?_, ?_, Or.inl ⟨?_, ?_⟩⟩
      · simp [strtoident, hk, htext]
      · simp [strtoident, hk]
      · simpa [strtoident, hk] using hlex
      · simp [strtoident, hk, Token.str, content, htext]
    · have htext : (basicToken t).str = c :: l.takeWhile isIdent := by
        simpa [spelling, ht] using hspell
      rw [strtoident_of_keyword hk ht]
      refine ⟨_, _, hsplit, ?_, ?_, Or.inl ⟨?_, ?_⟩⟩
      · simp [htext]
      · simpa using hend
      · simpa using hlex
      · simp [content, hchar, hstring, htext]

theorem numberLength_digit (std : Cstd) (hc : c.isDigit = true) :
    numberLength std (c :: l) = numberLength std l + 1 := by
  cases l <;> simp [numberLength, hc, Nat.add_comm]

theorem isDigit_excludes (hc : c.isDigit = true) :
    isIdentStart c = false ∧ c ≠ '.' ∧ c ≠ '\'' ∧ c ≠ '"' ∧ isOpStart c = false := by
  refine ⟨?_, ?_, ?_, ?_, ?_⟩
  · by_contra h
    rw [(isIdentStart_excludes (by simpa using h)).1] at hc
    exact absurd hc (by decide)
  · rintro rfl
    exact absurd hc (by decide)
  · rintro rfl
    exact absurd hc (by decide)
  · rintro rfl
    exact absurd hc (by decide)
  · simp [isOpStart, hc]

theorem longest_number (hc : c.isDigit = true) :
    Longest (Lexeme std) (c :: l) .prepNumber (c :: l.take (numberLength std l)) := by
  rcases isDigit_excludes hc with ⟨hident, hdot, hquote, hstring, hop⟩
  refine ⟨Lexeme.number (Number.digit hc (numberTail_take std l)),
    cons_prefix_cons.mpr ⟨rfl, take_prefix _ _⟩, ?_⟩
  rintro t' s' hs' hpre
  cases s' with
  | nil => simp
  | cons d s' =>
    rcases cons_prefix_cons.mp hpre with ⟨rfl, hpre'⟩
    rcases hs'.cases_cons with ⟨h, _⟩ | ⟨_, hs'⟩ | ⟨h, _⟩ | ⟨h, _⟩ | ⟨hp, hs'⟩
    · simp [hident] at h
    · cases hs' with
      | digit _ htail =>
        have := htail.length_le hpre'
        have hle := numberLength_le std l
        simp only [length_cons, length_take]
        omega
      | dot _ _ => exact absurd rfl hdot
    · exact absurd h hquote
    · exact absurd h hstring
    · rw [isOpStart_of_punctuator hp hs'] at hop
      exact absurd hop (by decide)

theorem longest_number_dot (hc : c.isDigit = true) :
    Longest (Lexeme std) ('.' :: c :: l) .prepNumber
      ('.' :: c :: l.take (numberLength std l)) := by
  refine ⟨Lexeme.number (Number.dot hc (numberTail_take std l)),
    cons_prefix_cons.mpr ⟨rfl, cons_prefix_cons.mpr ⟨rfl, take_prefix _ _⟩⟩, ?_⟩
  rintro t' s' hs' hpre
  cases s' with
  | nil => simp
  | cons d s' =>
    rcases cons_prefix_cons.mp hpre with ⟨rfl, hpre'⟩
    rcases hs'.cases_cons with ⟨h, _⟩ | ⟨_, hs'⟩ | ⟨h, _⟩ | ⟨h, _⟩ | ⟨hp, hs'⟩
    · exact absurd h (by decide)
    · cases hs' with
      | digit h _ => exact absurd h (by decide)
      | @dot d s' _ htail =>
        have := htail.length_le (cons_prefix_cons.mp hpre').2
        have hle := numberLength_le std l
        simp only [length_cons, length_take]
        omega
    · exact absurd h (by decide)
    · exact absurd h (by decide)
    · -- a punctuator that starts with a point is the point or the ellipsis
      have hall : ∀ t ∈ punctuators, (spelling t).head? = some '.' →
          spelling t = ['.'] ∨ spelling t = ['.', '.', '.'] := by decide +kernel
      rcases hall t' hp (by rw [hs']; rfl) with h | h
      · rw [hs'] at h
        simp [h]
      · rw [hs'] at h
        rcases List.cons.inj h with ⟨_, rfl⟩
        rcases cons_prefix_cons.mp hpre' with ⟨rfl, _⟩
        exact absurd hc (by decide)

theorem stringtonum_spec
    (h : (c.isDigit || (c = '.' && l.head?.any Char.isDigit)) = true) :
    ∃ r, stringtonum std (c :: l) = .ok r ∧ ReadsFrom std c l r := by
  simp only [Bool.or_eq_true, Bool.and_eq_true, decide_eq_true_eq] at h
  rcases h with hd | ⟨rfl, hd⟩
  · have hdot : c ≠ '.' := (isDigit_excludes hd).2.1
    have hn := numberLength_digit (l := l) std hd
    have hle := numberLength_le std l
    refine ⟨({ token := .prepNumber, d := .string (c :: l.take (numberLength std l)) },
      numberLength std l + 1), ?_, c :: l.take (numberLength std l), l.drop (numberLength std l),
      ?_, ?_, by simp, Or.inl ⟨longest_number hd, rfl⟩⟩
    · simp [stringtonum, hdot, hd, hn]
    · simp
    · simp [hle]
  · cases l with
    | nil => simp at hd
    | cons d l =>
      have hd : d.isDigit = true := by simpa using hd
      have hn := numberLength_digit (l := l) std hd
      have hle := numberLength_le std l
      refine ⟨({ token := .prepNumber, d := .string ('.' :: d :: l.take (numberLength std l)) },
        numberLength std l + 1 + 1), ?_, '.' :: d :: l.take (numberLength std l),
        l.drop (numberLength std l), ?_, ?_, by simp, Or.inl ⟨longest_number_dot hd, rfl⟩⟩
      · simp [stringtonum, hd, hn, Nat.add_comm 1]
      · simp
      · simp
        omega

theorem Quoted.length_unique {s s' l : List Char} (h : Quoted '"' s) (h' : Quoted '"' s')
    (hl : s ++ ['"'] <+: l) (hl' : s' ++ ['"'] <+: l) : s.length = s'.length := by
  rcases hl with ⟨r, rfl⟩
  rcases hl' with ⟨r', hr'⟩
  rw [append_assoc, append_assoc] at hr'
  have h1 := stringLength_eq (r := r) h (Nat.lt_succ_of_le (Nat.le_add_right _ s'.length))
  have h2 := stringLength_eq (r := r') h' (Nat.lt_succ_of_le (Nat.le_add_left _ s.length))
  rw [show s' ++ '"' :: r' = s ++ '"' :: r from hr', h1] at h2
  simpa using h2

theorem strtostr_spec (hslip : ¬ Slip ('"' :: l)) :
    ∃ r, strtostr l = .ok r ∧ ReadsFrom std '"' l r := by
  have hclosed : ∃ s, Quoted '"' s ∧ s ++ ['"'] <+: l := by
    by_contra h
    push Not at h
    exact hslip (Slip.string h)
  rcases hclosed with ⟨s, hs, r, rfl⟩
  have hlt : s.length < (s ++ '"' :: r).length + 1 := by simp
  have hrun := stringLength_eq (r := r) hs hlt
  refine ⟨({ token := .prepString, d := .string s }, s.length + 2), ?_, '"' :: (s ++ ['"']), r,
    by simp, by simp, by simp, Or.inl ⟨⟨Lexeme.string hs, by simp, ?_⟩, ?_⟩⟩
  · rw [append_assoc, cons_append, nil_append, strtostr, hrun]
    simp [Functor.map, Except.map]
  · rintro t' s' hs' hpre
    cases s' with
    | nil => simp
    | cons d s' =>
      rcases cons_prefix_cons.mp hpre with ⟨rfl, hpre'⟩
      rcases hs'.cases_cons with ⟨h, _⟩ | ⟨_, hs'⟩ | ⟨h, _⟩ | ⟨_, b, hb, rfl⟩ | ⟨hp, hs'⟩
      · exact absurd h (by decide)
      · cases hs' with
        | digit h _ => exact absurd h (by decide)
      · exact absurd h (by decide)
      · have := hb.length_unique hs hpre' ⟨r, rfl⟩
        simp [this]
      · exact absurd (isOpStart_of_punctuator hp hs') (by decide)
  · simp [Token.str, content]

theorem Single.length_unique {s s' l : List Char} (h : Single s) (h' : Single s')
    (hl : s ++ ['\''] <+: l) (hl' : s' ++ ['\''] <+: l) : s.length = s'.length := by
  rcases hl with ⟨r, rfl⟩
  rcases hl' with ⟨r', hr'⟩
  rw [append_assoc, append_assoc] at hr'
  have h1 := (h.length_eq (r := r)).1
  have h2 := (h'.length_eq (r := r')).1
  rw [show s' ++ '\'' :: r' = s ++ '\'' :: r from hr', h1] at h2
  exact h2

theorem readChar_spec (hslip : ¬ Slip ('\'' :: l)) :
    (∃ r, strtochar l = .ok r ∧ ReadsFrom std '\'' l r) ∨
      (∃ m, strtochar l = .error (.error m)) ∧ NoToken (Lexeme std) ('\'' :: l) := by
  have hnil : l ≠ [] := by
    rintro rfl
    exact hslip Slip.quote
  have hback : l ≠ ['\\'] := by
    rintro rfl
    exact hslip Slip.backslash
  have hlex : ∀ {t s}, Lexeme std t s → s <+: '\'' :: l →
      ∃ b, Single b ∧ s = '\'' :: (b ++ ['\'']) ∧ b ++ ['\''] <+: l := by
    intro t s hs hpre
    cases s with
    | nil => exact absurd rfl hs.ne_nil
    | cons d s =>
      rcases cons_prefix_cons.mp hpre with ⟨rfl, hpre'⟩
      rcases hs.cases_cons with ⟨h, _⟩ | ⟨_, hs⟩ | ⟨_, b, hb, rfl⟩ | ⟨h, _⟩ | ⟨hp, hs⟩
      · exact absurd h (by decide)
      · cases hs with
        | digit h _ => exact absurd h (by decide)
      · exact ⟨b, hb, rfl, hpre'⟩
      · exact absurd h (by decide)
      · exact absurd (isOpStart_of_punctuator hp hs) (by decide)
  rcases strtochar_spec hnil hback with ⟨s, r, hs, rfl, hrun⟩ | ⟨hrun, hno⟩
  · left
    refine ⟨_, hrun, '\'' :: (s ++ ['\'']), r, by simp, by simp, by simp,
      Or.inl ⟨⟨Lexeme.character hs, by simp, ?_⟩, by simp [Token.str, content]⟩⟩
    rintro t' s' hs' hpre
    rcases hlex hs' hpre with ⟨b, hb, rfl, hbl⟩
    have := hb.length_unique hs hbl ⟨r, by simp⟩
    simp [this]
  · right
    refine ⟨hrun, ?_⟩
    intro t s hs hpre
    rcases hlex hs hpre with ⟨b, hb, rfl, hbl⟩
    exact hno b hb hbl

theorem punctuator_of_lexeme
    (hc : isOpStart c = true) (hdot : (c = '.' && l.head?.any Char.isDigit) = false)
    (hs : Lexeme std t s) (hpre : s <+: c :: l) : t ∈ punctuators ∧ spelling t = s := by
  simp only [isOpStart, Bool.and_eq_true, Bool.not_eq_true', decide_eq_true_eq] at hc
  rcases hc with ⟨⟨⟨⟨hident, hdigit⟩, hstring⟩, hquote⟩, _⟩
  cases s with
  | nil => exact absurd rfl hs.ne_nil
  | cons d s =>
    rcases cons_prefix_cons.mp hpre with ⟨rfl, hpre'⟩
    rcases hs.cases_cons with ⟨h, _⟩ | ⟨_, hs⟩ | ⟨h, _⟩ | ⟨h, _⟩ | hp
    · simp [hident] at h
    · cases hs with
      | digit h _ => simp [hdigit] at h
      | @dot d s hd _ =>
        rcases hpre' with ⟨r, rfl⟩
        simp [hd] at hdot
    · exact absurd h hquote
    · exact absurd h hstring
    · exact hp

/-- `strtoop` reads a punctuator or a character of its own, or reports an error. -/
theorem strtoop_spec (hc : isOpStart c = true)
    (hdot : (c = '.' && l.head?.any Char.isDigit) = false) (hslip : ¬ Slip (c :: l)) :
    (∃ r, strtoop c l = .ok r ∧ ReadsFrom std c l r) ∨
      (∃ m, strtoop c l = .error (.error m)) ∧ NoToken (Lexeme std) (c :: l) := by
  have hlow : 32 ≤ c.toNat := by
    by_contra h
    exact hslip (Slip.control (by omega))
  have hhigh : c.toNat < 128 := by
    by_contra h
    exact hslip (Slip.high (by omega))
  have hpunct : ∀ t ∈ punctuators, t ≠ .end_ ∧ t ≠ .staticAssert ∧ t ≠ .prepChar ∧
      t ≠ .prepString := by decide +kernel
  cases hop : operator c l with
  | some t =>
    left
    rcases operator_spec hop with ⟨ht, r, hr⟩
    rcases hpunct t ht with ⟨hend, hassert, hchar, hstring⟩
    have hstr : (basicToken t).str = spelling t := by simp [spelling, hassert]
    refine ⟨_, by rw [strtoop, hop], spelling t, r, hr.symm, by rw [hstr], by simpa using hend,
      Or.inl ⟨⟨?_, ⟨r, hr⟩, ?_⟩, ?_⟩⟩
    · simpa using Lexeme.punctuator ht
    · intro t' s' hs' hpre
      rcases punctuator_of_lexeme hc hdot hs' hpre with ⟨ht', rfl⟩
      have := length_le_operatorLength ht' hpre
      simpa [operatorLength, hop] using this
    · simp [content, hchar, hstring, hstr]
  | none =>
    have hlen : ∀ {t s}, Lexeme std t s → s <+: c :: l →
        t ∈ punctuators ∧ (spelling t).head? = some c ∧ s.length ≤ 1 := by
      intro t s hs hpre
      rcases punctuator_of_lexeme hc hdot hs hpre with ⟨ht, rfl⟩
      have hle := length_le_operatorLength ht hpre
      refine ⟨ht, ?_, by simpa [operatorLength, hop] using hle⟩
      cases h : spelling t with
      | nil => exact absurd h hs.ne_nil
      | cons d s =>
        rw [h] at hpre
        rw [(cons_prefix_cons.mp hpre).1]
        rfl
    rcases basicTokens_char hc hlow hhigh with ⟨e, he, ⟨hend, hno⟩ | ⟨hend, hchar, hstring, hstr, h⟩⟩
    · right
      refine ⟨⟨"Unknown token '%c'", by simp [strtoop, hop, he, hend]⟩, ?_⟩
      intro t s hs hpre
      rcases hlen hs hpre with ⟨ht, hhead, _⟩
      exact hno t ht hhead
    · left
      refine ⟨(e, 1), by simp [strtoop, hop, he, hend], [c], l, rfl, rfl, hend, ?_⟩
      rcases h with ⟨ht, hspell⟩ | hno
      · refine Or.inl ⟨⟨hspell ▸ Lexeme.punctuator ht, ⟨l, rfl⟩, ?_⟩, ?_⟩
        · intro t' s' hs' hpre
          exact (hlen hs' hpre).2.2
        · simp [content, hchar, hstring, hstr]
      · refine Or.inr ⟨?_, ⟨l, rfl⟩, rfl, hstr⟩
        intro t s hs hpre
        rcases hlen hs hpre with ⟨ht, hhead, _⟩
        exact hno t ht hhead

theorem readToken_spec (std : Cstd) (hspace : isSpace c = false)
    (hslip : ¬ Slip (c :: l)) :
    (∃ r, readToken std c l = .ok r ∧ ReadsFrom std c l r) ∨
      (∃ m, readToken std c l = .error (.error m)) ∧ NoToken (Lexeme std) (c :: l) := by
  unfold readToken
  split
  · rename_i hident
    exact Or.inl ⟨_, rfl, strtoident_spec hident hslip⟩
  · rename_i hident
    split
    · rename_i hnum
      exact Or.inl (stringtonum_spec hnum)
    · rename_i hnum
      split
      · rename_i hquote
        subst hquote
        exact Or.inl (strtostr_spec hslip)
      · rename_i hstring
        split
        · rename_i hquote
          subst hquote
          exact readChar_spec hslip
        · rename_i hquote
          simp only [Bool.or_eq_true, not_or, Bool.not_eq_true] at hnum hident
          exact strtoop_spec (by simp [isOpStart, hident, hnum.1, hstring, hquote, hspace])
            hnum.2 hslip

theorem drop_length_takeWhile (p : Char → Bool) (l : List Char) :
    l.drop (l.takeWhile p).length = l.dropWhile p := by
  have h : (l.takeWhile p ++ l.dropWhile p).drop (l.takeWhile p).length = l.dropWhile p :=
    drop_left
  rwa [takeWhile_append_dropWhile] at h

theorem isSpace_of_dropWhile {l r : List Char} (h : l.dropWhile isSpace = c :: r) :
    isSpace c = false := by
  have := head?_dropWhile_not isSpace l
  rw [h] at this
  simpa using this

theorem tokenize_nil (h : l.dropWhile isSpace = []) :
    ∃ tok, tokenize std l = .ok (tok, []) ∧ tok.token = .end_ := by
  simp only [tokenize, drop_length_takeWhile, h]
  exact ⟨_, rfl, basicToken_token .end_⟩

theorem tokenize_cons {l r : List Char} (h : l.dropWhile isSpace = c :: r) :
    tokenize std l = (readToken std c r).map fun res =>
      ({ res.1 with leadingWhitespace := (l.takeWhile isSpace).length % 2 ^ 16 },
        (c :: r).drop res.2) := by
  simp only [tokenize, drop_length_takeWhile, h]
  rfl

theorem Reads.withSpace {G : TokenType → List Char → Prop} {tok : Token}
    (h : Reads G l tok s) (n : Nat) : Reads G l { tok with leadingWhitespace := n } s := h

theorem tokenize_spec (std : Cstd) (l : List Char) (hslip : ¬ Slip (l.dropWhile isSpace)) :
    (l.dropWhile isSpace = [] ∧ ∃ tok, tokenize std l = .ok (tok, []) ∧ tok.token = .end_) ∨
      (∃ tok s rest, tokenize std l = .ok (tok, rest) ∧ l.dropWhile isSpace = s ++ rest ∧
        tok.token ≠ .end_ ∧ Reads (Lexeme std) (l.dropWhile isSpace) tok s) ∨
      (l.dropWhile isSpace ≠ [] ∧ (∃ m, tokenize std l = .error (.error m)) ∧
        NoToken (Lexeme std) (l.dropWhile isSpace)) := by
  cases hr : l.dropWhile isSpace with
  | nil => exact Or.inl ⟨rfl, tokenize_nil hr⟩
  | cons c r =>
    rw [hr] at hslip
    rw [tokenize_cons hr]
    rcases readToken_spec std (isSpace_of_dropWhile hr) hslip with
      ⟨res, hres, s, rest, hsplit, hlen, hend, hreads⟩ | ⟨⟨m, hm⟩, hno⟩
    · right; left
      refine ⟨{ res.1 with leadingWhitespace := (l.takeWhile isSpace).length % 2 ^ 16 }, s, rest,
        ?_, hsplit, hend, hreads.withSpace _⟩
      rw [hres, Except.map, hlen, hsplit, drop_left]
    · right; right
      exact ⟨by simp, ⟨m, by rw [hm, Except.map]⟩, hno⟩

end

/-! ## A line -/

section

variable (std : Cstd)

/-- Text that a token may cover where white space is skipped already: the longest
token, or one character where no token starts. -/
def Piece (l s : List Char) : Prop :=
  (∃ t, Longest (Lexeme std) l t s) ∨ (NoToken (Lexeme std) l ∧ s <+: l ∧ s.length = 1)

/-- The positions of a line where a token starts, or where the line ends. -/
inductive Starts (l : List Char) : List Char → Prop where
  | first : Starts l (l.dropWhile isSpace)
  | next {s rest : List Char} : Starts l (s ++ rest) → Piece std (s ++ rest) s →
      Starts l (rest.dropWhile isSpace)

/-- The tokens cover the line from the left to the position `r`, each one read
where the one before it ended, up to white space. -/
inductive Reading : List Char → List Token → List Char → Prop where
  | stop {l : List Char} : Reading l [] (l.dropWhile isSpace)
  | token {l s rest r : List Char} {tok : Token} {toks : List Token} :
      l.dropWhile isSpace = s ++ rest → tok.token ≠ .end_ →
      Reads (Lexeme std) (l.dropWhile isSpace) tok s → Reading rest toks r →
      Reading l (tok :: toks) r

variable {std}

variable {l : List Char}

theorem Reads.piece {l s : List Char} {tok : Token} (h : Reads (Lexeme std) l tok s) :
    Piece std l s := by
  rcases h with ⟨h, _⟩ | ⟨hno, hpre, hlen, _⟩
  · exact Or.inl ⟨_, h⟩
  · exact Or.inr ⟨hno, hpre, hlen⟩

theorem Piece.length_pos {l s : List Char} (h : Piece std l s) : 0 < s.length := by
  rcases h with ⟨t, ht, _⟩ | ⟨_, _, hlen⟩
  · exact length_pos_iff.mpr ht.ne_nil
  · omega

theorem Starts.of_rest {l s rest r : List Char} (hl : l.dropWhile isSpace = s ++ rest)
    (hs : Piece std (s ++ rest) s) (h : Starts std rest r) : Starts std l r := by
  induction h with
  | first => exact Starts.next (hl ▸ Starts.first) hs
  | next _ hp ih => exact Starts.next ih hp

theorem tokenizeLine_spec {fuel : Nat} (hfuel : l.length < fuel)
    (hslip : ∀ r, Starts std l r → ¬ Slip r) :
    (∃ toks, tokenizeLine std fuel l = .ok toks ∧ Reading std l toks []) ∨
      ∃ m toks r, tokenizeLine std fuel l = .error (.error m) ∧ Reading std l toks r ∧ r ≠ [] ∧
        NoToken (Lexeme std) r := by
  induction fuel generalizing l with
  | zero => omega
  | succ fuel ih =>
    rcases tokenize_spec std l (hslip _ Starts.first) with ⟨hr, tok, htok, hend⟩ |
      ⟨tok, s, rest, htok, hsplit, hend, hreads⟩ | ⟨hne, ⟨m, hm⟩, hno⟩
    · left
      refine ⟨[], ?_, hr ▸ Reading.stop⟩
      simp [tokenizeLine, htok, hend, Except.bind]
    · have hpiece := hreads.piece
      have hlen : rest.length < fuel := by
        have hpos := hpiece.length_pos
        have hdrop := (dropWhile_suffix (p := isSpace) (l := l)).length_le
        rw [hsplit, length_append] at hdrop
        omega
      rw [hsplit] at hpiece
      rcases ih hlen (fun r hr => hslip r (hr.of_rest hsplit hpiece)) with
        ⟨toks, hrun, hread⟩ | ⟨m, toks, r, hrun, hread, hne, hno⟩
      · left
        refine ⟨tok :: toks, ?_, Reading.token hsplit hend hreads hread⟩
        simp [tokenizeLine, htok, hend, Except.bind, hrun, Functor.map, Except.map]
      · right
        refine ⟨m, tok :: toks, r, ?_, Reading.token hsplit hend hreads hread, hne, hno⟩
        simp [tokenizeLine, htok, hend, Except.bind, hrun, Functor.map, Except.map]
    · right
      refine ⟨m, [], l.dropWhile isSpace, ?_, Reading.stop, hne, hno⟩
      simp [tokenizeLine, hm, Except.bind]

theorem Starts.suffix {l r : List Char} (h : Starts std l r) : r <:+ l := by
  induction h with
  | first => exact dropWhile_suffix _
  | next _ _ ih => exact ((dropWhile_suffix _).trans (suffix_append _ _)).trans ih

end

end Kcs.Preprocessor
