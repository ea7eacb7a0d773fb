import Kcs.Preprocessor.Tokenize

/-!
# Preprocessing tokens as a language

What a preprocessing token is, stated without the tokenizer, and what each scanner
of the tokenizer finds of it.

Main results:

- Lemmas {lit}`spelling_of_keyword` and {lit}`keyword_of_spelling`: the nested tests of
  `strtoident` find a keyword exactly where it stands as a whole identifier, with
  the exception of `_Static_assert`.
- Lemma {lit}`NumberTail.length_le`: the loop of `stringtonum` consumes the longest
  number.
-/

namespace Kcs.Preprocessor

open List

/-! ## The language of tokens -/

/-- The keywords of the language. -/
def keywords (std : Cstd) : List TokenType :=
  [.auto, .break_, .case_, .char, .const, .continue_, .default, .do_, .double, .else_, .enum,
    .extern_, .float, .for_, .goto, .if_, .int, .long, .register, .return_, .short, .signed,
    .sizeof, .static, .struct, .switch, .typedef_, .union, .unsigned, .void, .volatile, .while_,
    .bool, .alignof, .noreturn, .staticAssert] ++
  if std.atLeastC99 then [.inline_, .restrict] else []

/-- The punctuators, the operators of preprocessing directives included. -/
def punctuators : List TokenType :=
  [.not, .hash, .modulo, .and, .openParen, .closeParen, .star, .plus, .comma, .minus, .dot,
    .slash, .colon, .semicolon, .lt, .assign, .gt, .question, .logicalOr, .logicalAnd, .leq,
    .geq, .eq, .neq, .arrow, .increment, .decrement, .lshift, .rshift, .mulAssign, .divAssign,
    .modAssign, .plusAssign, .minusAssign, .lshiftAssign, .rshiftAssign, .andAssign, .xorAssign,
    .orAssign, .tokenPaste, .dots, .openBracket, .closeBracket, .xor, .openCurly, .or,
    .closeCurly, .neg]

/-- The fixed text of a keyword or a punctuator. -/
def spelling (t : TokenType) : List Char :=
  if t = .staticAssert then staticAssertText else (basicToken t).str

/-- The identifiers, keywords included. -/
def isIdentifier : List Char → Bool
  | [] => false
  | c :: s => isIdentStart c && s.all isIdent

/-- What may follow the first digit of a number. -/
inductive NumberTail (std : Cstd) : List Char → Prop where
  | nil : NumberTail std []
  | char {c : Char} {s : List Char} :
      (c.isDigit || c = '.' || c = '_' || c.isAlpha) = true → NumberTail std s →
      NumberTail std (c :: s)
  | exponent {e d : Char} {s : List Char} : isExponent std e = true → isSign d = true →
      NumberTail std s → NumberTail std (e :: d :: s)

/-- The preprocessing numbers. -/
inductive Number (std : Cstd) : List Char → Prop where
  | digit {c : Char} {s : List Char} : c.isDigit = true → NumberTail std s → Number std (c :: s)
  | dot {c : Char} {s : List Char} : c.isDigit = true → NumberTail std s →
      Number std ('.' :: c :: s)

/-- Text between quotes, up to the closing one. -/
inductive Quoted (quote : Char) : List Char → Prop where
  | nil : Quoted quote []
  | char {c : Char} {s : List Char} : c ≠ quote → c ≠ '\\' → Quoted quote s →
      Quoted quote (c :: s)
  | escape {c : Char} {s : List Char} : Quoted quote s → Quoted quote ('\\' :: c :: s)

/-- One character or one escape sequence. -/
inductive Single : List Char → Prop where
  | char {c : Char} : c ≠ '\'' → c ≠ '\\' → Single [c]
  | hex {s : List Char} : s.all isXdigit = true → Single ('\\' :: 'x' :: s)
  | octal {c : Char} {s : List Char} : isOctal c = true → s.all isOctal = true → s.length ≤ 2 →
      Single ('\\' :: c :: s)
  | escape {c : Char} : c ≠ 'x' → isOctal c = false → Single ['\\', c]

/-- The preprocessing tokens that the compiler knows, with their types. -/
inductive Lexeme (std : Cstd) : TokenType → List Char → Prop where
  | keyword {t : TokenType} : t ∈ keywords std → Lexeme std t (spelling t)
  | identifier {s : List Char} : isIdentifier s = true → (∀ t ∈ keywords std, spelling t ≠ s) →
      Lexeme std .identifier s
  | number {s : List Char} : Number std s → Lexeme std .prepNumber s
  | character {s : List Char} : Single s → Lexeme std .prepChar ('\'' :: (s ++ ['\'']))
  | string {s : List Char} : Quoted '"' s → Lexeme std .prepString ('"' :: (s ++ ['"']))
  | punctuator {t : TokenType} : t ∈ punctuators → Lexeme std t (spelling t)

/-- The preprocessing tokens of C: besides, character constants of several
characters, wide constants and strings, and from C99 on the digraphs. -/
inductive CLexeme (std : Cstd) : TokenType → List Char → Prop where
  | plain {t : TokenType} {s : List Char} : Lexeme std t s → CLexeme std t s
  | character {s : List Char} : Quoted '\'' s → s ≠ [] →
      CLexeme std .prepChar ('\'' :: (s ++ ['\'']))
  | wideCharacter {s : List Char} : Quoted '\'' s → s ≠ [] →
      CLexeme std .prepChar ('L' :: '\'' :: (s ++ ['\'']))
  | wideString {s : List Char} : Quoted '"' s →
      CLexeme std .prepString ('L' :: '"' :: (s ++ ['"']))
  | digraph {t : TokenType} {s : List Char} : std.atLeastC99 = true →
      (t, s) ∈ [(TokenType.openBracket, ['<', ':']), (.closeBracket, [':', '>']),
        (.openCurly, ['<', '%']), (.closeCurly, ['%', '>']), (.hash, ['%', ':']),
        (.tokenPaste, ['%', ':', '%', ':'])] → CLexeme std t s

/-! ## Keywords -/

variable {l : List Char}

theorem E_iff : E l = true ↔ l.takeWhile isIdent = [] := by
  cases l with
  | nil => simp [E]
  | cons c l =>
    simp only [E, head?_cons, Option.any_some, takeWhile_cons]
    cases isIdent c <;> simp

variable {s : List Char}

theorem M_iff : M s l = true ↔ ∃ r, l = s ++ r := by
  rw [M, isPrefixOf_iff_prefix]
  constructor
  · rintro ⟨r, rfl⟩
    exact ⟨r, rfl⟩
  · rintro ⟨r, rfl⟩
    exact ⟨r, rfl⟩

theorem S_iff (hs : s.all isIdent = true) :
    S s l = true ↔ l.takeWhile isIdent = s := by
  induction s generalizing l with
  | nil => simp [S, M, E_iff]
  | cons c s ih =>
    simp only [all_cons, Bool.and_eq_true] at hs
    cases l with
    | nil => simp [S, M]
    | cons d l =>
      have ih := ih (l := l) hs.2
      by_cases hcd : c = d
      · subst hcd
        simp only [S, M] at ih ⊢
        simpa [List.isPrefixOf, hs.1] using ih
      · have hne : (c == d) = false := by simp [hcd]
        simp only [S, M, List.isPrefixOf, hne, Bool.false_and, takeWhile_cons]
        split
        · simp [Ne.symm hcd]
        · simp

variable {c : Char}

theorem takeWhile_isIdent_cons (hc : isIdent c = true)
    (h : l.takeWhile isIdent = s) : (c :: l).takeWhile isIdent = c :: s := by
  rw [takeWhile_cons_of_pos hc, h]

theorem eq_append_of_takeWhile (h : l.takeWhile isIdent = s) :
    ∃ r, l = s ++ r ∧ E r = true := by
  refine ⟨l.dropWhile isIdent, ?_, ?_⟩
  · rw [← h, takeWhile_append_dropWhile]
  · cases hr : l.dropWhile isIdent with
    | nil => rfl
    | cons c r =>
      have := head?_dropWhile_not isIdent l
      rw [hr] at this
      simpa [E] using this

variable {std : Cstd} {t : TokenType}

theorem mem_keywords_of_keyword
    (h : keyword std c l = some t) : t ∈ keywords std := by
  unfold keyword at h
  split at h
  all_goals repeat' split at h
  all_goals cases h
  all_goals simp_all [keywords]

/-- Apart from `_Static_assert`, a test compares the whole identifier. -/
theorem spelling_of_keyword
    (h : keyword std c l = some t) (ht : t ≠ .staticAssert) :
    spelling t = c :: l.takeWhile isIdent := by
  unfold keyword at h
  split at h
  all_goals repeat' split at h
  all_goals cases h
  all_goals simp (disch := decide) only [S_iff, E_iff, M_iff, Bool.and_eq_true] at *
  all_goals symm
  all_goals first
    | exact absurd rfl ht
    | exact congrArg _ ‹_›
    | exact congrArg _ (takeWhile_isIdent_cons (by decide) ‹_›)
    | exact congrArg _ (takeWhile_isIdent_cons (by decide) (And.right ‹_›))
    | (rcases ‹∃ r, l = ['o', 'n'] ++ r› with ⟨r, rfl⟩
       exact congrArg _ (takeWhile_isIdent_cons (by decide)
        (takeWhile_isIdent_cons (by decide) ‹_›)))

theorem staticAssert_of_keyword
    (h : keyword std c l = some .staticAssert) : ∃ r, c :: l = staticAssertText ++ r := by
  unfold keyword at h
  split at h
  all_goals repeat' split at h
  all_goals cases h
  rcases M_iff.mp ‹_› with ⟨r, rfl⟩
  exact ⟨r, rfl⟩

/-- The tests find every keyword. -/
theorem keyword_of_spelling
    (ht : t ∈ keywords std) (h : spelling t = c :: l.takeWhile isIdent) :
    keyword std c l = some t := by
  have hsplit : ∀ s : List Char, spelling t = s → ∃ r, c :: l = s ++ r ∧ E r = true := by
    rintro s rfl
    rcases eq_append_of_takeWhile (l := l) rfl with ⟨r, hl, hr⟩
    exact ⟨r, by rw [h, cons_append, ← hl], hr⟩
  have hM : ∀ {d : Char} {s r : List Char}, E r = true → isIdent d = true →
      M (d :: s) r = false := by
    intro d s r hr hd
    cases r with
    | nil => rfl
    | cons e r =>
      have hne : d ≠ e := by
        rintro rfl
        simp [E, hd] at hr
      simp [M, List.isPrefixOf, hne]
  cases t
  case do_ =>
    rcases hsplit _ rfl with ⟨r, hcl, hr⟩
    cases hcl
    have hno := hM (s := ['b', 'l', 'e']) hr (d := 'u') (by decide)
    simp [keyword, S, hno, hr]
    simp [M]
  case inline_ =>
    have hstd : std.atLeastC99 = true := by simpa [keywords] using ht
    rcases hsplit _ rfl with ⟨r, hcl, hr⟩
    cases hcl
    simp [keyword, S, M, hr, hstd]
  case restrict =>
    have hstd : std.atLeastC99 = true := by simpa [keywords] using ht
    rcases hsplit _ rfl with ⟨r, hcl, hr⟩
    cases hcl
    simp [keyword, S, M, hr, hstd]
  all_goals first
    | (rcases hsplit _ rfl with ⟨r, hcl, hr⟩
       cases hcl
       simp [keyword, S, M, hr]; done)
    | (simp only [keywords, mem_append] at ht
       rcases ht with ht | ht
       · exact absurd ht (by decide)
       · split at ht <;> exact absurd ht (by decide))

/-! ## Characters by their codes -/

theorem isDigit_iff : c.isDigit = true ↔ 48 ≤ c.toNat ∧ c.toNat ≤ 57 := by
  simp [Char.isDigit, UInt32.le_iff_toNat_le]

theorem isAlpha_iff : c.isAlpha = true ↔
    (65 ≤ c.toNat ∧ c.toNat ≤ 90) ∨ (97 ≤ c.toNat ∧ c.toNat ≤ 122) := by
  simp [Char.isAlpha, Char.isUpper, Char.isLower, UInt32.le_iff_toNat_le]

/-! ## Tokens by their first character -/

theorem isIdentifier_of_keyword (ht : t ∈ keywords std) :
    isIdentifier (spelling t) = true := by
  have hall : ∀ t ∈ keywords .c99, isIdentifier (spelling t) = true := by decide +kernel
  apply hall
  simp only [keywords, mem_append] at ht ⊢
  rcases ht with ht | ht
  · exact Or.inl ht
  · split at ht
    · exact Or.inr (by simpa [Cstd.atLeastC99] using ht)
    · exact absurd ht (not_mem_nil)

/-- What a punctuator does not start with. -/
def isOpStart (c : Char) : Bool :=
  !isIdentStart c && !c.isDigit && c ≠ '"' && c ≠ '\'' && !isSpace c

theorem isOpStart_of_punctuator
    (ht : t ∈ punctuators) (hs : spelling t = c :: s) : isOpStart c = true := by
  have hall : ∀ t ∈ punctuators, (spelling t).head?.all isOpStart = true := by decide +kernel
  have := hall t ht
  rw [hs] at this
  simpa using this

theorem Lexeme.cases_cons
    (h : Lexeme std t (c :: s)) :
    (isIdentStart c = true ∧ s.all isIdent = true) ∨
      (t = .prepNumber ∧ Number std (c :: s)) ∨
      (c = '\'' ∧ ∃ b, Single b ∧ s = b ++ ['\'']) ∨
      (c = '"' ∧ ∃ b, Quoted '"' b ∧ s = b ++ ['"']) ∨
      (t ∈ punctuators ∧ spelling t = c :: s) := by
  generalize hw : c :: s = w at h
  cases h with
  | keyword ht =>
    have := isIdentifier_of_keyword ht
    rw [← hw] at this
    exact Or.inl (by simpa [isIdentifier] using this)
  | identifier hident hno =>
    subst hw
    exact Or.inl (by simpa [isIdentifier] using hident)
  | number hnum =>
    subst hw
    exact Or.inr (Or.inl ⟨rfl, hnum⟩)
  | character hb =>
    rcases List.cons.inj hw with ⟨rfl, rfl⟩
    exact Or.inr (Or.inr (Or.inl ⟨rfl, _, hb, rfl⟩))
  | string hb =>
    rcases List.cons.inj hw with ⟨rfl, rfl⟩
    exact Or.inr (Or.inr (Or.inr (Or.inl ⟨rfl, _, hb, rfl⟩)))
  | punctuator ht =>
    exact Or.inr (Or.inr (Or.inr (Or.inr ⟨ht, rfl⟩)))

theorem Lexeme.ne_nil (h : Lexeme std t s) :
    s ≠ [] := by
  rintro rfl
  generalize hw : [] = w at h
  cases h with
  | keyword ht =>
    have := isIdentifier_of_keyword ht
    rw [← hw] at this
    simp [isIdentifier] at this
  | identifier hident hno =>
    subst hw
    simp [isIdentifier] at hident
  | number hnum =>
    subst hw
    cases hnum
  | character hb => simp at hw
  | string hb => simp at hw
  | punctuator ht =>
    have hall : ∀ t ∈ punctuators, spelling t ≠ [] := by decide +kernel
    exact hall _ ht hw.symm

/-! ## Identifiers -/

theorem isIdentStart_excludes (hc : isIdentStart c = true) :
    c.isDigit = false ∧ c ≠ '.' ∧ c ≠ '\'' ∧ c ≠ '"' ∧ isOpStart c = false := by
  refine ⟨?_, ?_, ?_, ?_, ?_⟩
  · simp only [isIdentStart, Bool.or_eq_true, decide_eq_true_eq, isAlpha_iff] at hc
    rw [Bool.eq_false_iff, ne_eq, isDigit_iff]
    rcases hc with hc | rfl
    · omega
    · decide
  · rintro rfl
    exact absurd hc (by decide)
  · rintro rfl
    exact absurd hc (by decide)
  · rintro rfl
    exact absurd hc (by decide)
  · simp [isOpStart, hc]

/-! ## Numbers -/

theorem numberLength_le (std : Cstd) (l : List Char) : numberLength std l ≤ l.length := by
  fun_induction numberLength std l with
  | case1 => simp
  | case2 c h => simp
  | case3 c h => simp
  | case4 c d l h ih => simp at ih ⊢; omega
  | case5 c d l h h' he ih => simp at ih ⊢; omega
  | case6 c d l h h' he ih => simp at ih ⊢; omega
  | case7 c d l h h' => simp

theorem numberTail_take (std : Cstd) (l : List Char) :
    NumberTail std (l.take (numberLength std l)) := by
  fun_induction numberLength std l with
  | case1 => exact NumberTail.nil
  | case2 c h => exact NumberTail.char (by simpa using h) NumberTail.nil
  | case3 c h => exact NumberTail.nil
  | case4 c d l h ih =>
    rw [Nat.add_comm, take_succ_cons]
    exact NumberTail.char (by simp at h ⊢; tauto) ih
  | case5 c d l h h' he ih =>
    simp only [Bool.and_eq_true] at he
    rw [Nat.add_comm, take_succ_cons, take_succ_cons]
    exact NumberTail.exponent he.1 he.2 ih
  | case6 c d l h h' he ih =>
    rw [Nat.add_comm, take_succ_cons]
    exact NumberTail.char (by simp [h']) ih
  | case7 c d l h h' => exact NumberTail.nil

theorem NumberTail.not_sign (hc : isSign c = true) :
    ¬ NumberTail std (c :: s) := by
  simp only [isSign, Bool.or_eq_true, decide_eq_true_eq] at hc
  intro h
  cases h with
  | char h _ => rcases hc with rfl | rfl <;> exact absurd h (by decide)
  | exponent h _ _ =>
    cases std <;> rcases hc with rfl | rfl <;> exact absurd h (by decide)

theorem isAlpha_of_isExponent (h : isExponent std c = true) :
    c.isAlpha = true ∧ c.isDigit = false ∧ c ≠ '.' ∧ c ≠ '_' := by
  have hc : c = 'e' ∨ c = 'E' ∨ c = 'p' ∨ c = 'P' := by
    simp only [isExponent, Bool.or_eq_true, Bool.and_eq_true, decide_eq_true_eq] at h
    tauto
  rcases hc with rfl | rfl | rfl | rfl <;> decide

/-- The loop consumes every number that stands in the line. -/
theorem NumberTail.length_le (h : NumberTail std s)
    (hsl : s <+: l) : s.length ≤ numberLength std l := by
  fun_induction numberLength std l generalizing s with
  | case1 => simp [prefix_nil.mp hsl]
  | case2 c hc => simpa using hsl.length_le
  | case3 c hc =>
    cases h with
    | nil => simp
    | char h' _ =>
      rcases cons_prefix_cons.mp hsl with ⟨rfl, _⟩
      simp [hc] at h'
    | exponent he _ _ => simpa using hsl.length_le
  | case4 c d l hc ih =>
    cases h with
    | nil => simp
    | char _ hs =>
      have := ih hs (cons_prefix_cons.mp hsl).2
      simp only [length_cons]
      omega
    | exponent he _ _ =>
      rcases cons_prefix_cons.mp hsl with ⟨rfl, _⟩
      simp [isAlpha_of_isExponent he] at hc
  | case5 c d l hc hc' he ih =>
    simp only [Bool.and_eq_true] at he
    cases h with
    | nil => simp
    | @char _ s _ hs =>
      have hsl := (cons_prefix_cons.mp hsl).2
      cases s with
      | nil => simp only [length_singleton]; omega
      | cons e s =>
        rcases cons_prefix_cons.mp hsl with ⟨rfl, _⟩
        exact absurd hs (NumberTail.not_sign he.2)
    | exponent _ _ hs =>
      have := ih hs (cons_prefix_cons.mp (cons_prefix_cons.mp hsl).2).2
      simp only [length_cons]
      omega
  | case6 c d l hc hc' he ih =>
    cases h with
    | nil => simp
    | char _ hs =>
      have := ih hs (cons_prefix_cons.mp hsl).2
      simp only [length_cons]
      omega
    | exponent he' hd _ =>
      rcases cons_prefix_cons.mp hsl with ⟨rfl, hsl'⟩
      have hd' := (cons_prefix_cons.mp hsl').1
      exact absurd (by rw [he', ← hd', hd]; rfl) he
  | case7 c d l hc hc' =>
    cases h with
    | nil => simp
    | char h' _ =>
      rcases cons_prefix_cons.mp hsl with ⟨rfl, _⟩
      simp only [Bool.or_eq_true] at hc h'
      tauto
    | exponent he _ _ =>
      rcases cons_prefix_cons.mp hsl with ⟨rfl, _⟩
      simp [isAlpha_of_isExponent he] at hc'

/-! ## Strings -/

variable {q : Char}

theorem takeWhile_append_quote {p : Char → Bool} (hq : p q = false)
    (s r : List Char) : (s ++ q :: r).takeWhile p = s.takeWhile p := by
  induction s with
  | nil => simp [hq]
  | cons c s ih =>
    rw [cons_append, takeWhile_cons, takeWhile_cons, ih]

theorem Quoted.of_append {u v : List Char} (h : Quoted q (u ++ v))
    (hu : ∀ c ∈ u, c ≠ '\\') : Quoted q v := by
  induction u with
  | nil => exact h
  | cons c u ih =>
    rw [cons_append] at h
    generalize hw : u ++ v = w at h
    cases h with
    | char _ _ hs => exact ih (hw ▸ hs) (fun d hd => hu d (mem_cons_of_mem c hd))
    | escape _ => exact absurd rfl (hu _ mem_cons_self)

variable {r : List Char}

theorem Quoted.escapeLength_eq (hx : isXdigit q = false)
    (ho : isOctal q = false) (h : Quoted q s) :
    ∃ u v, s = u ++ v ∧ escapeLength (c :: (s ++ q :: r)) = 1 + u.length ∧ Quoted q v := by
  have hno : ∀ {p : Char → Bool} (s : List Char), p '\\' = false → ∀ d ∈ s.takeWhile p,
      d ≠ '\\' := by
    rintro p s hp d hd rfl
    have := all_eq_true.mp (all_takeWhile (p := p) (l := s)) _ hd
    rw [hp] at this
    exact absurd this (by decide)
  simp only [escapeLength]
  split
  · refine ⟨s.takeWhile isXdigit, s.dropWhile isXdigit, takeWhile_append_dropWhile.symm, ?_, ?_⟩
    · rw [takeWhile_append_quote hx]
    · refine Quoted.of_append (u := s.takeWhile isXdigit) ?_ (hno s (by decide))
      rwa [takeWhile_append_dropWhile]
  · split
    · have hu : ((s ++ q :: r).take 2).takeWhile isOctal = (s.take 2).takeWhile isOctal := by
        rcases s with _ | ⟨a, _ | ⟨b, s⟩⟩
        · simp [ho]
        · simp [takeWhile_cons, ho]
        · simp
      have hpre : (s.take 2).takeWhile isOctal <+: s :=
        (List.takeWhile_prefix _).trans (List.take_prefix 2 s)
      rcases hpre with ⟨v, hv⟩
      refine ⟨_, v, hv.symm, by rw [hu], ?_⟩
      refine Quoted.of_append (u := (s.take 2).takeWhile isOctal) ?_ (hno _ (by decide))
      rwa [hv]
    · exact ⟨[], s, rfl, rfl, h⟩

theorem stringLength_eq {fuel : Nat} (h : Quoted '"' s)
    (hfuel : s.length < fuel) : stringLength fuel (s ++ '"' :: r) = .ok s.length := by
  induction fuel generalizing s with
  | zero => omega
  | succ fuel ih =>
    cases h with
    | nil => simp [stringLength]
    | @char c s hc hc' hs =>
      have := ih hs (by simp at hfuel; omega)
      simp [stringLength, hc, hc', this, Functor.map, Except.map, Nat.add_comm]
    | @escape c s hs =>
      rcases hs.escapeLength_eq (c := c) (r := r) (by decide) (by decide) with ⟨u, v, rfl, hu, hv⟩
      have hih := ih hv (by simp at hfuel; omega)
      have hlen : ¬ (c :: (u ++ v ++ '"' :: r)).length < 1 + u.length := by
        simp
        omega
      have hdrop : (c :: (u ++ v ++ '"' :: r)).drop (1 + u.length) = v ++ '"' :: r := by
        rw [Nat.add_comm, drop_succ_cons, append_assoc, drop_left]
      simp only [cons_append, stringLength, hu, if_neg hlen, hdrop, hih]
      simp [Functor.map, Except.map]
      omega

/-! ## Character constants -/

/-- Characters that `strtochar` takes for the text of the constant. -/
def charLength : List Char → Nat
  | [] => 1
  | c :: l => if c = '\\' then 1 + escapeLength l else 1

theorem strtochar_eq (hl : l.head? ≠ some '\'') :
    strtochar l =
      if l.length < charLength l then .error .undefined
      else if (l.drop (charLength l)).head? = some '\'' then
        .ok ({ token := .prepChar, d := .string (l.take (charLength l)) }, charLength l + 2)
      else .error (.error "Multi-character constants are not supported.") := by
  cases l with
  | nil => rfl
  | cons c l =>
    have hc : c ≠ '\'' := by simpa using hl
    by_cases hb : c = '\\'
    · simp [strtochar, charLength, hb]
    · simp [strtochar, charLength, hb, hc]

theorem takeWhile_digits {p : Char → Bool} (hs : s.all p = true)
    (hq : p '\'' = false) : (s ++ '\'' :: r).takeWhile p = s := by
  rw [takeWhile_append_of_pos (all_eq_true.mp hs), takeWhile_cons_of_neg (by simp [hq]), append_nil]

theorem Single.length_eq (h : Single s) :
    charLength (s ++ '\'' :: r) = s.length ∧ (s ++ '\'' :: r).head? ≠ some '\'' := by
  cases h with
  | char hq hb => simp [charLength, hb, hq]
  | hex hs => simp [charLength, escapeLength, takeWhile_digits hs (by decide), Nat.add_comm]
  | @octal c s hc hs hlen =>
    have hx : c ≠ 'x' := by
      rintro rfl
      exact absurd hc (by decide)
    have htake : ((s ++ '\'' :: r).take 2).takeWhile isOctal = s := by
      rcases s with _ | ⟨a, _ | ⟨b, _ | ⟨d, s⟩⟩⟩
      · cases r <;> rfl
      · have ha : isOctal a = true := by simpa using hs
        simp [takeWhile_cons, ha]
        decide
      · have hab : isOctal a = true ∧ isOctal b = true := by simpa using hs
        simp [hab]
      · simp at hlen
    simp [charLength, escapeLength, hx, hc, htake, Nat.add_comm]
  | escape hx ho => simp [charLength, escapeLength, hx, ho]

theorem single_take (hl : l.head? ≠ some '\'') (hb : l ≠ ['\\'])
    (hlen : charLength l ≤ l.length) : Single (l.take (charLength l)) := by
  cases l with
  | nil => simp [charLength] at hlen
  | cons c l =>
    have hc : c ≠ '\'' := by simpa using hl
    by_cases hbs : c = '\\'
    · subst hbs
      cases l with
      | nil => exact absurd rfl hb
      | cons d l =>
        simp only [charLength, if_pos, escapeLength]
        split
        · rename_i hd
          subst hd
          have htake : l.take (l.takeWhile isXdigit).length = l.takeWhile isXdigit :=
            prefix_iff_eq_take.mp (List.takeWhile_prefix _) |>.symm
          rw [show 1 + (1 + (l.takeWhile isXdigit).length) = (l.takeWhile isXdigit).length + 1 + 1
            by omega, take_succ_cons, take_succ_cons, htake]
          exact Single.hex all_takeWhile
        · split
          · rename_i hd ho
            have hpre : (l.take 2).takeWhile isOctal <+: l :=
              (List.takeWhile_prefix _).trans (List.take_prefix 2 l)
            have htake := (prefix_iff_eq_take.mp hpre).symm
            rw [show 1 + (1 + ((l.take 2).takeWhile isOctal).length) =
              ((l.take 2).takeWhile isOctal).length + 1 + 1 by omega, take_succ_cons,
              take_succ_cons, htake]
            have hle := (List.takeWhile_prefix (p := isOctal) (l := l.take 2)).length_le
            refine Single.octal ho all_takeWhile (hle.trans ?_)
            simp
          · rename_i hd ho
            exact Single.escape hd (by simpa using ho)
    · simp only [charLength, if_neg hbs, take_succ_cons, take_zero]
      exact Single.char hc hbs

/-- `strtochar` reads a constant where one stands, and reports an error
elsewhere. -/
theorem strtochar_spec (hnil : l ≠ []) (hb : l ≠ ['\\']) :
    (∃ s r, Single s ∧ l = s ++ '\'' :: r ∧
        strtochar l = .ok ({ token := .prepChar, d := .string s }, s.length + 2)) ∨
      (∃ m, strtochar l = .error (.error m)) ∧ ∀ s, Single s → ¬ s ++ ['\''] <+: l := by
  by_cases hq : l.head? = some '\''
  · right
    cases l with
    | nil => exact absurd rfl hnil
    | cons c l =>
      have hc : c = '\'' := by simpa using hq
      subst hc
      constructor
      · exact ⟨_, rfl⟩
      · rintro s hs ⟨r, hr⟩
        rw [append_assoc] at hr
        exact hs.length_eq (r := r).2 (by rw [cons_append, nil_append] at hr; rw [hr]; rfl)
  · rw [strtochar_eq hq]
    have hlen : charLength l ≤ l.length := by
      match l with
      | [] => exact absurd rfl hnil
      | [c] =>
        have hc : c ≠ '\\' := fun h => hb (by rw [h])
        simp [charLength, hc]
      | c :: d :: l =>
        simp only [charLength, escapeLength, length_cons]
        have hx := (List.takeWhile_prefix (p := isXdigit) (l := l)).length_le
        have ho := ((List.takeWhile_prefix (p := isOctal) (l := l.take 2)).trans
          (List.take_prefix 2 l)).length_le
        split
        · split
          · omega
          · split <;> omega
        · omega
    rw [if_neg (by omega)]
    by_cases hclose : (l.drop (charLength l)).head? = some '\''
    · left
      rw [if_pos hclose]
      rcases head?_eq_some_iff.mp hclose with ⟨r, hr⟩
      refine ⟨_, r, single_take hq hb hlen, ?_, ?_⟩
      · rw [← hr, take_append_drop]
      · rw [length_take, Nat.min_eq_left hlen]
    · right
      rw [if_neg hclose]
      constructor
      · exact ⟨_, rfl⟩
      · rintro s hs ⟨r, rfl⟩
        rw [append_assoc, cons_append, nil_append] at hclose
        rw [hs.length_eq.1, drop_left] at hclose
        exact hclose rfl

/-! ## Operators -/

theorem operator_spec (h : operator c l = some t) :
    t ∈ punctuators ∧ spelling t <+: c :: l := by
  unfold operator at h
  split at h
  all_goals cases h
  all_goals exact ⟨by decide, ⟨_, rfl⟩⟩

/-- Length of the operator that `strtoop` reads. -/
def operatorLength (c : Char) (l : List Char) : Nat :=
  match operator c l with
  | some t => (spelling t).length
  | none => 1

theorem length_le_operatorLength
    (ht : t ∈ punctuators) (h : spelling t <+: c :: l) :
    (spelling t).length ≤ operatorLength c l := by
  have hpos : 1 ≤ operatorLength c l := by
    have hall : ∀ t ∈ punctuators, 1 ≤ (spelling t).length := by decide +kernel
    unfold operatorLength
    split
    · exact hall _ (operator_spec ‹_›).1
    · exact le_refl 1
  rcases h with ⟨r, hr⟩
  cases t
  case lshift =>
    cases hr
    have hshift : operator '<' ('<' :: r) = some .lshift ∨
        operator '<' ('<' :: r) = some .lshiftAssign := by
      unfold operator
      split <;> simp_all
    unfold operatorLength
    rcases hshift with h | h <;> exact h ▸ by decide
  case rshift =>
    cases hr
    have hshift : operator '>' ('>' :: r) = some .rshift ∨
        operator '>' ('>' :: r) = some .rshiftAssign := by
      unfold operator
      split <;> simp_all
    unfold operatorLength
    rcases hshift with h | h <;> exact h ▸ by decide
  all_goals first
    | exact hpos
    | exact absurd ht (by decide)
    | (cases hr; exact le_refl _)

/-- A table entry that `strtoop` returns for a single character: the character
itself, which is a punctuator or starts none. -/
def EntryOf (c : Char) (t : Token) : Prop :=
  (t.token = .end_ ∧ ∀ p ∈ punctuators, (spelling p).head? ≠ some c) ∨
    (t.token ≠ .end_ ∧ t.token ≠ .prepChar ∧ t.token ≠ .prepString ∧ t.str = [c] ∧
      ((t.token ∈ punctuators ∧ spelling t.token = [c]) ∨
        ∀ p ∈ punctuators, (spelling p).head? ≠ some c))

instance (c : Char) (t : Token) : Decidable (EntryOf c t) :=
  inferInstanceAs (Decidable (_ ∨ _))

theorem basicTokens_char (hc : isOpStart c = true) (hlow : 32 ≤ c.toNat)
    (hhigh : c.toNat < 128) : ∃ t, basicTokens[c.toNat]? = some t ∧ EntryOf c t := by
  have hall : ∀ n : Fin 128, 32 ≤ n.val → isOpStart (Char.ofNat n) = true →
      (basicTokens[n.val]?).any (fun t => decide (EntryOf (Char.ofNat n) t)) = true := by
    decide +kernel
  have := hall ⟨c.toNat, hhigh⟩ hlow
  simp only [Char.ofNat_toNat] at this
  simpa [Option.any_eq_true] using this hc

end Kcs.Preprocessor
