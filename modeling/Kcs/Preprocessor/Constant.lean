import Kcs.Lib.CInteger
import Kcs.Preprocessor.Tokenize

/-!
# Numbers and characters

The functions of `tokenize.c` that give preprocessing numbers and character constants
their values, and the integer and character constants of C.

Main results:

- Theorem {lit}`convertPreprocessingNumber_integer_iff`: the texts that are read as integers are
  the integer constants below 2^64.
- Theorem {lit}`convertPreprocessingChar_iff`: on the texts that are not read in
  part, the characters that are converted are the character constants.
-/

namespace Kcs.Preprocessor

open List

/-! ## Integers -/

/-- The digits that a number of a base consists of. -/
def isDigitOf (base : Nat) (c : Char) : Bool :=
  if base = 16 then isXdigit c else if base = 8 then isOctal c else c.isDigit

/-- The value of a digit. -/
def digitValue (c : Char) : Nat :=
  if c.isDigit then c.toNat - 48 else if c.isLower then c.toNat - 87 else c.toNat - 55

/-- The value of a sequence of digits. -/
def digitsValue (base : Nat) (s : List Char) : Nat :=
  s.foldl (fun n c => n * base + digitValue c) 0

/-- The base that `strtoul` detects, and the text from the digits on. -/
def radix : List Char → Nat × List Char
  | '0' :: x :: c :: s =>
    if (x = 'x' ∨ x = 'X') ∧ isXdigit c then (16, c :: s) else (8, '0' :: x :: c :: s)
  | '0' :: s => (8, '0' :: s)
  | s => (10, s)

/-- `strtoul` with base 0, and `strtoull`, which has the same range: the value, where
it is not limited to 64 bits, and the rest of the text. -/
def strtoul (s : List Char) : Nat × List Char :=
  let digits := (radix s).2.takeWhile (isDigitOf (radix s).1)
  if digits = [] then (0, s)
  else (digitsValue (radix s).1 digits, (radix s).2.drop digits.length)

/-- `enum suffix`: a letter `u`, and the number of letters `l`. -/
structure Suffix where
  u : Bool
  l : Nat
deriving DecidableEq, Repr

/-- Reads a letter `u`. -/
def readU : List Char → Bool × List Char
  | c :: s => if c = 'u' ∨ c = 'U' then (true, s) else (false, c :: s)
  | [] => (false, [])

/-- `read_integer_suffix` -/
def readIntegerSuffix (s : List Char) : Suffix × List Char :=
  let u := (readU s).1
  match (readU s).2 with
  | [] => (⟨u, 0⟩, [])
  | c :: rest =>
    if c = 'l' ∨ c = 'L' then
      let l := if rest.head? = some c then 2 else 1
      let rest := rest.drop (l - 1)
      if u then (⟨true, l⟩, rest) else (⟨(readU rest).1, l⟩, (readU rest).2)
    else (⟨u, 0⟩, c :: rest)

/-- `constant_integer_type` -/
def constantIntegerType (value : Nat) (suffix : Suffix) (isDecimal : Bool) : CInteger :=
  if suffix.u then
    if suffix.l = 0 ∧ value < 2 ^ 32 then .uint else .ulong
  else if suffix.l = 0 ∧ value < 2 ^ 31 then .int
  else if suffix.l = 0 ∧ !isDecimal ∧ value < 2 ^ 32 then .uint
  else if value < 2 ^ 63 then .long
  else .ulong

/-- The floating types of a number. -/
inductive FloatType where
  | float | double | longDouble
deriving DecidableEq, Repr

/-- What a preprocessing number is converted to. -/
inductive Numeric where
  | integer (type : CInteger) (value : Nat)
  | floating (type : FloatType)
deriving DecidableEq, Repr

/-- Reads the suffix of a floating number. -/
def readFloatSuffix : List Char → FloatType × List Char
  | c :: s =>
    if c = 'f' ∨ c = 'F' then (.float, s)
    else if c = 'l' ∨ c = 'L' then (.longDouble, s)
    else (.double, c :: s)
  | [] => (.double, [])

/-- The part of `convert_preprocessing_number` for texts that are not integers.  The
library function says how many characters it consumes and whether the value is
out of range. -/
def convertFloating (strtod : List Char → Nat × Bool) (text : List Char) : Outcome Numeric :=
  let r := readFloatSuffix (text.drop (strtod text).1)
  if (strtod text).2 then .error (.error "Numeric literal '%s' is out of range.")
  else if r.2 ≠ [] then .error (.error "Invalid numeric literal '%s'.")
  else .ok (.floating r.1)

/-- `convert_preprocessing_number` -/
def convertPreprocessingNumber (strtod : List Char → Nat × Bool) (text : List Char) :
    Outcome Numeric :=
  let value := (strtoul text).1
  let r := readIntegerSuffix (strtoul text).2
  if value < 2 ^ 64 ∧ r.2 = [] then
    if text.head?.any Char.isDigit then
      .ok (.integer (constantIntegerType value r.1 (text.head? ≠ some '0')) value)
    else .error .assertion
  else convertFloating strtod text

/-- No text is a floating constant. -/
def noFloat : List Char → Nat × Bool := fun _ => (0, false)

/-! ## Characters -/

/-- The value of a byte in type `char`. -/
def toChar (n : Nat) : Int := (IntFormat.bits8 true).wrap n

/-- The letters of simple escape sequences, with the values they stand for. -/
def simpleEscapes : List (Char × Nat) :=
  [('a', 7), ('b', 8), ('t', 9), ('n', 10), ('v', 11), ('f', 12), ('r', 13), ('?', 63),
    ('\'', 39), ('"', 34), ('\\', 92)]

/-- `convert_escape_sequence`.  The text ends with a NUL. -/
def convertEscapeSequence (s : List Char) : Outcome (Int × List Char) :=
  match s with
  | [] => .error (.error "Invalid escape sequence '\\%c'.")
  | c :: s =>
    match simpleEscapes.find? (·.1 = c) with
    | some e => .ok (e.2, s)
    | none =>
      if c = 'x' then
        match s with
        | a :: b :: s =>
          if isXdigit a ∧ isXdigit b then .ok (toChar (digitsValue 16 [a, b]), s)
          else .error (.error "Empty hexadecimal escape sequence.")
        | _ => .error (.error "Empty hexadecimal escape sequence.")
      else if isOctal c then
        let digits := ((c :: s).take 3).takeWhile isOctal
        .ok (toChar (digitsValue 8 digits), (c :: s).drop digits.length)
      else .error (.error "Invalid escape sequence '\\%c'.")

/-- `convert_char` -/
def convertChar (s : List Char) : Outcome (Int × List Char) :=
  match s with
  | [] => .ok (0, [])
  | c :: s => if c = '\\' then convertEscapeSequence s else .ok (toChar c.toNat, s)

/-- `convert_preprocessing_char` -/
def convertPreprocessingChar (text : List Char) : Outcome Int := Prod.fst <$> convertChar text

/-- The byte that a character of a string is stored as. -/
def byteChar (v : Int) : Char := Char.ofNat (v % 256).toNat

/-- The loop of `convert_preprocessing_string`. -/
def convertChars : Nat → List Char → Outcome (List Char)
  | _, [] => .ok []
  | 0, _ :: _ => .error .fuel
  | n + 1, c :: s =>
    (convertChar (c :: s)).bind fun r => (byteChar r.1 :: ·) <$> convertChars n r.2

/-- `convert_preprocessing_string`.  Every round reads a character at least, so the length of
the text bounds the rounds. -/
def convertPreprocessingString (text : List Char) : Outcome (List Char) :=
  convertChars text.length text

/-! ## Integer constants of C -/

/-- The suffixes of integer constants. -/
inductive IntegerSuffix : List Char → Suffix → Prop where
  | none : IntegerSuffix [] ⟨false, 0⟩
  | unsigned {u : Char} (hu : u = 'u' ∨ u = 'U') : IntegerSuffix [u] ⟨true, 0⟩
  | long {l : Char} {n : Nat} (hl : l = 'l' ∨ l = 'L') (hn : n = 1 ∨ n = 2) :
    IntegerSuffix (List.replicate n l) ⟨false, n⟩
  | unsignedLong {u l : Char} {n : Nat} (hu : u = 'u' ∨ u = 'U') (hl : l = 'l' ∨ l = 'L')
    (hn : n = 1 ∨ n = 2) : IntegerSuffix (u :: List.replicate n l) ⟨true, n⟩
  | longUnsigned {u l : Char} {n : Nat} (hu : u = 'u' ∨ u = 'U') (hl : l = 'l' ∨ l = 'L')
    (hn : n = 1 ∨ n = 2) : IntegerSuffix (List.replicate n l ++ [u]) ⟨true, n⟩

/-- The integer constants, with their base, value and suffix. -/
inductive IntegerConstant : List Char → Nat → Nat → Suffix → Prop where
  | decimal {d : Char} {ds s : List Char} {suffix : Suffix} (hd : d.isDigit = true)
    (hzero : d ≠ '0') (hds : ∀ c ∈ ds, c.isDigit = true) (hs : IntegerSuffix s suffix) :
    IntegerConstant (d :: ds ++ s) 10 (digitsValue 10 (d :: ds)) suffix
  | octal {ds s : List Char} {suffix : Suffix} (hds : ∀ c ∈ ds, isOctal c = true)
    (hs : IntegerSuffix s suffix) :
    IntegerConstant ('0' :: ds ++ s) 8 (digitsValue 8 ds) suffix
  | hex {x d : Char} {ds s : List Char} {suffix : Suffix} (hx : x = 'x' ∨ x = 'X')
    (hd : isXdigit d = true) (hds : ∀ c ∈ ds, isXdigit c = true) (hs : IntegerSuffix s suffix) :
    IntegerConstant ('0' :: x :: d :: ds ++ s) 16 (digitsValue 16 (d :: ds)) suffix

/-- Whether a constant is one of the signed type of greatest width: a decimal constant
without the letter `u` is never unsigned. -/
def constantSigned (base value : Nat) (suffix : Suffix) : Option Bool :=
  if 2 ^ 64 ≤ value then none
  else if suffix.u then some false
  else if value < 2 ^ 63 then some true
  else if base = 10 then none
  else some false

/-! ## Character constants of C -/

/-- The character constants, with their values. -/
inductive CharConstant : List Char → Int → Prop where
  | char {c : Char} (hquote : c ≠ '\'') (hescape : c ≠ '\\') : CharConstant [c] (toChar c.toNat)
  | simple {c : Char} {n : Nat} (h : (c, n) ∈ simpleEscapes) : CharConstant ['\\', c] n
  | octal {ds : List Char} (hds : ∀ c ∈ ds, isOctal c = true) (hpos : 0 < ds.length)
    (hlen : ds.length ≤ 3) (hrange : digitsValue 8 ds < 256) :
    CharConstant ('\\' :: ds) (toChar (digitsValue 8 ds))
  | hex {ds : List Char} (hds : ∀ c ∈ ds, isXdigit c = true) (hpos : 0 < ds.length)
    (hrange : digitsValue 16 ds < 256) :
    CharConstant ('\\' :: 'x' :: ds) (toChar (digitsValue 16 ds))

/-! ## Suffixes -/

variable {suffix : Suffix} {s : List Char} {c : Char}

theorem IntegerSuffix.head (h : IntegerSuffix s suffix)
    {rest : List Char} (hs : s = c :: rest) :
    c = 'u' ∨ c = 'U' ∨ c = 'l' ∨ c = 'L' := by
  cases h with
  | none => cases hs
  | unsigned hu =>
    cases hs
    rcases hu with rfl | rfl <;> simp
  | long hl hn =>
    rcases hn with rfl | rfl <;> cases hs <;> rcases hl with rfl | rfl <;> simp
  | unsignedLong hu hl hn =>
    cases hs
    rcases hu with rfl | rfl <;> simp
  | longUnsigned hu hl hn =>
    rcases hn with rfl | rfl <;> cases hs <;> rcases hl with rfl | rfl <;> simp

theorem IntegerSuffix.takeWhile (h : IntegerSuffix s suffix)
    (base : Nat) : s.takeWhile (isDigitOf base) = [] := by
  cases s with
  | nil => rfl
  | cons c rest =>
    have hdigit : isDigitOf base c = false := by
      unfold isDigitOf
      rcases h.head rfl with rfl | rfl | rfl | rfl <;> split <;> first | rfl | (split <;> rfl)
    rw [takeWhile_cons, hdigit]
    rfl

theorem IntegerSuffix.read (h : IntegerSuffix s suffix) :
    readIntegerSuffix s = (suffix, []) := by
  cases h with
  | none => rfl
  | unsigned hu => rcases hu with rfl | rfl <;> rfl
  | long hl hn => rcases hl with rfl | rfl <;> rcases hn with rfl | rfl <;> rfl
  | unsignedLong hu hl hn | longUnsigned hu hl hn =>
    rcases hu with rfl | rfl <;> rcases hl with rfl | rfl <;> rcases hn with rfl | rfl <;> rfl

theorem readU_spec (s : List Char) :
    (∃ u, (u = 'u' ∨ u = 'U') ∧ s = u :: (readU s).2 ∧ (readU s).1 = true) ∨
      (readU s = (false, s)) := by
  cases s with
  | nil => exact Or.inr rfl
  | cons c rest =>
    by_cases hc : c = 'u' ∨ c = 'U'
    · exact Or.inl ⟨c, hc, by simp [readU, hc]⟩
    · exact Or.inr (by simp [readU, hc])

/-- What is read as a whole is a suffix. -/
theorem integerSuffix_of_read (h : (readIntegerSuffix s).2 = []) :
    IntegerSuffix s (readIntegerSuffix s).1 := by
  unfold readIntegerSuffix at h ⊢
  rcases readU_spec s with ⟨u, hu, hs, htrue⟩ | hs
  · rw [htrue] at h ⊢
    generalize (readU s).2 = rest at h hs ⊢
    subst hs
    cases rest with
    | nil => exact .unsigned hu
    | cons c rest =>
      by_cases hc : c = 'l' ∨ c = 'L'
      · simp only [if_pos hc, if_true] at h ⊢
        cases rest with
        | nil => exact .unsignedLong hu hc (Or.inl rfl)
        | cons d rest =>
          by_cases hd : d = c
          · subst hd
            simp only [head?_cons, if_true, Nat.add_one_sub_one, drop_succ_cons, drop_zero] at h ⊢
            subst h
            exact .unsignedLong hu hc (Or.inr rfl)
          · simp [hd] at h
      · simp [hc] at h
  · rw [hs] at h ⊢
    cases s with
    | nil => exact .none
    | cons c rest =>
      by_cases hc : c = 'l' ∨ c = 'L'
      · simp only [if_pos hc, Bool.false_eq_true, if_false] at h ⊢
        have hrest : ∃ n, (n = 1 ∨ n = 2) ∧ (if rest.head? = some c then 2 else 1) = n ∧
            c :: rest = List.replicate n c ++
              rest.drop ((if rest.head? = some c then 2 else 1) - 1) := by
          cases rest with
          | nil => exact ⟨1, by simp⟩
          | cons d rest =>
            by_cases hd : d = c
            · exact ⟨2, by simp [hd]⟩
            · exact ⟨1, by simp [hd]⟩
        rcases hrest with ⟨n, hn, hif, hrest⟩
        rw [hif] at h hrest ⊢
        generalize rest.drop (n - 1) = tail at h hrest ⊢
        rw [hrest]
        rcases readU_spec tail with ⟨u, hu, htail, htrue⟩ | htail
        · rw [h] at htail
          rw [htrue, htail]
          exact .longUnsigned hu hc hn
        · rw [htail] at h ⊢
          cases (show tail = [] from h)
          rw [append_nil]
          exact .long hc hn
      · simp [hc] at h

/-! ## Integer constants are what is read as integers -/

theorem radix_cases (text : List Char) :
    (∃ x c r, text = '0' :: x :: c :: r ∧ (x = 'x' ∨ x = 'X') ∧ isXdigit c = true ∧
        radix text = (16, c :: r)) ∨
      (∃ r, text = '0' :: r ∧ radix text = (8, text)) ∨
      (text.head? ≠ some '0' ∧ radix text = (10, text)) := by
  unfold radix
  split
  · rename_i x c r
    by_cases h : (x = 'x' ∨ x = 'X') ∧ isXdigit c = true
    · exact Or.inl ⟨x, c, r, rfl, h.1, h.2, if_pos h⟩
    · exact Or.inr (Or.inl ⟨x :: c :: r, rfl, if_neg h⟩)
  · exact Or.inr (Or.inl ⟨_, rfl, rfl⟩)
  · rename_i hne
    refine Or.inr (Or.inr ⟨?_, rfl⟩)
    intro h
    rcases head?_eq_some_iff.mp h with ⟨r, rfl⟩
    exact hne r rfl

variable {text : List Char} {base : Nat}

theorem strtoul_of_radix {text ds s : List Char}
    (hradix : radix text = (base, ds ++ s)) (hds : ∀ c ∈ ds, isDigitOf base c = true)
    (hne : ds ≠ []) (hs : IntegerSuffix s suffix) :
    strtoul text = (digitsValue base ds, s) := by
  unfold strtoul
  rw [hradix]
  simp only [takeWhile_append_of_pos hds, hs.takeWhile, append_nil, if_neg hne, drop_left]

theorem digitsValue_zero (base : Nat) (ds : List Char) :
    digitsValue base ('0' :: ds) = digitsValue base ds := by
  have hzero : digitValue '0' = 0 := by decide
  simp [digitsValue, hzero]

variable {value : Nat}

theorem IntegerConstant.strtoul_eq
    (h : IntegerConstant text base value suffix) :
    ∃ s, strtoul text = (value, s) ∧ IntegerSuffix s suffix := by
  cases h with
  | @decimal d ds s _ hd hzero hds hs =>
    refine ⟨s, strtoul_of_radix ?_ ?_ (cons_ne_nil d ds) hs, hs⟩
    · rcases radix_cases (d :: ds ++ s) with ⟨x, c, r, heq, -⟩ | ⟨r, heq, -⟩ | ⟨-, hradix⟩
      · exact absurd (List.cons.inj heq).1 hzero
      · exact absurd (List.cons.inj heq).1 hzero
      · exact hradix
    · intro c hc
      rcases mem_cons.mp hc with rfl | hc
      · exact hd
      · exact hds c hc
  | @octal ds s _ hds hs =>
    rw [← digitsValue_zero]
    refine ⟨s, strtoul_of_radix ?_ ?_ (cons_ne_nil '0' ds) hs, hs⟩
    · rcases radix_cases ('0' :: ds ++ s) with ⟨x, c, r, heq, hx, -⟩ | ⟨r, -, hradix⟩ | ⟨h, -⟩
      · -- The second character is a digit or starts the suffix.
        exfalso
        cases ds with
        | nil =>
          have hhead := hs.head (List.cons.inj heq).2
          rcases hx with rfl | rfl <;> simp at hhead
        | cons d ds =>
          have hd := hds d mem_cons_self
          rw [(List.cons.inj (List.cons.inj heq).2).1] at hd
          rcases hx with rfl | rfl <;> exact absurd hd (by decide)
      · exact hradix
      · exact absurd rfl h
    · intro c hc
      rcases mem_cons.mp hc with rfl | hc
      · decide
      · exact hds c hc
  | @hex x d ds s _ hx hd hds hs =>
    refine ⟨s, strtoul_of_radix ?_ ?_ (cons_ne_nil d ds) hs, hs⟩
    · exact if_pos ⟨hx, hd⟩
    · intro c hc
      rcases mem_cons.mp hc with rfl | hc
      · exact hd
      · exact hds c hc

theorem IntegerConstant.head
    (h : IntegerConstant text base value suffix) :
    text.head?.any Char.isDigit = true ∧ (text.head? ≠ some '0' ↔ base = 10) := by
  cases h with
  | decimal hd hzero hds hs => exact ⟨hd, by simp [hzero]⟩
  | octal hds hs => exact ⟨rfl, by simp⟩
  | hex hx hd hds hs => exact ⟨rfl, by simp⟩

/-- A number that is read up to a suffix is an integer constant. -/
theorem integerConstant_of_strtoul
    (hs : IntegerSuffix (strtoul text).2 suffix) (hhead : text.head?.any Char.isDigit = true) :
    ∃ base, IntegerConstant text base (strtoul text).1 suffix := by
  unfold strtoul at hs ⊢
  generalize hdigits : (radix text).2.takeWhile (isDigitOf (radix text).1) = digits at hs ⊢
  have hall : ∀ c ∈ digits, isDigitOf (radix text).1 c = true := by
    intro c hc
    rw [← hdigits] at hc
    exact (all_eq_true.mp all_takeWhile) c hc
  have hsplit : (radix text).2 = digits ++ (radix text).2.drop digits.length := by
    have hprefix : digits <+: (radix text).2 := hdigits ▸ takeWhile_prefix _
    rcases hprefix with ⟨t, ht⟩
    rw [← ht, drop_left]
  by_cases hne : digits = []
  · -- The whole text would be a suffix, but it starts with a digit.
    exfalso
    rw [if_pos hne] at hs
    cases text with
    | nil => simp at hhead
    | cons c rest =>
      have hdigit : c.isDigit = true := hhead
      rcases hs.head rfl with rfl | rfl | rfl | rfl <;> exact absurd hdigit (by decide)
  · simp only [if_neg hne] at hs ⊢
    generalize (radix text).2.drop digits.length = rest at hs hsplit
    rcases radix_cases text with ⟨x, c, r, rfl, hx, hc, hradix⟩ | ⟨r, rfl, hradix⟩ | ⟨h0, hradix⟩
    · rw [hradix] at hall hsplit ⊢
      refine ⟨16, ?_⟩
      cases digits with
      | nil => exact absurd rfl hne
      | cons d ds =>
        have heq : '0' :: x :: c :: r = '0' :: x :: d :: ds ++ rest := by
          rw [show c :: r = d :: ds ++ rest from hsplit]
          rfl
        rw [heq]
        exact .hex hx (hall d mem_cons_self)
          (fun c hc => hall c (mem_cons_of_mem d hc)) hs
    · rw [hradix] at hall hsplit ⊢
      refine ⟨8, ?_⟩
      cases digits with
      | nil => exact absurd rfl hne
      | cons d ds =>
        have heq : '0' :: r = d :: ds ++ rest := hsplit
        have hd : '0' = d := (List.cons.inj heq).1
        subst hd
        rw [heq, digitsValue_zero]
        exact .octal (fun c hc => hall c (mem_cons_of_mem _ hc)) hs
    · rw [hradix] at hall hsplit ⊢
      refine ⟨10, ?_⟩
      cases digits with
      | nil => exact absurd rfl hne
      | cons d ds =>
        have heq : text = d :: ds ++ rest := hsplit
        rw [heq] at h0 ⊢
        refine .decimal (hall d mem_cons_self) ?_
          (fun c hc => hall c (mem_cons_of_mem _ hc)) hs
        rintro rfl
        exact h0 rfl

theorem convertFloating_cases (strtod : List Char → Nat × Bool) (text : List Char) :
    (∃ message, convertFloating strtod text = .error (.error message)) ∨
      ∃ type, convertFloating strtod text = .ok (.floating type) := by
  unfold convertFloating
  simp only
  split
  · exact Or.inl ⟨_, rfl⟩
  · split
    · exact Or.inl ⟨_, rfl⟩
    · exact Or.inr ⟨_, rfl⟩

/-- The texts that are read as integers are the integer constants below 2^64. -/
theorem convertPreprocessingNumber_integer_iff {strtod : List Char → Nat × Bool}
    {type : CInteger} :
    convertPreprocessingNumber strtod text = .ok (.integer type value) ↔
      ∃ base suffix, IntegerConstant text base value suffix ∧ value < 2 ^ 64 ∧
        type = constantIntegerType value suffix (base = 10) := by
  unfold convertPreprocessingNumber
  constructor
  · intro h
    simp only at h
    split at h
    · rename_i hread
      split at h
      · rename_i hhead
        cases h
        rcases integerConstant_of_strtoul (integerSuffix_of_read hread.2) hhead with ⟨base, hconst⟩
        refine ⟨base, _, hconst, hread.1, ?_⟩
        simp only [hconst.head.2]
      · exact absurd h (by simp)
    · rcases convertFloating_cases strtod text with ⟨message, hf⟩ | ⟨_, hf⟩
      · rw [hf] at h
        exact absurd h (by simp)
      · rw [hf] at h
        exact absurd h (by simp)
  · rintro ⟨base, suffix, hconst, hlt, rfl⟩
    rcases hconst.strtoul_eq with ⟨s, hs, hsuffix⟩
    rw [hs, hsuffix.read]
    simp only [hlt, and_self, if_true, hconst.head.1]
    simp only [hconst.head.2]

/-- The texts of integer constants that get the type they have in a directive: a decimal
constant without the letter `u` has a value of the signed type, and a constant of
another base without a suffix has no value from 2^31 up to 2^32. -/
def PlainNumber (text : List Char) : Prop :=
  ∀ base value suffix, IntegerConstant text base value suffix → value < 2 ^ 64 →
    suffix.u = true ∨
      if base = 10 then value < 2 ^ 63
      else suffix.l ≠ 0 ∨ value < 2 ^ 31 ∨ 2 ^ 32 ≤ value

theorem PlainNumber.signed (h : PlainNumber text)
    (hconst : IntegerConstant text base value suffix) (hlt : value < 2 ^ 64) :
    constantSigned base value suffix =
      some (constantIntegerType value suffix (base = 10)).signed := by
  have hplain := h base value suffix hconst hlt
  have hbig : ¬ 2 ^ 64 ≤ value := by omega
  unfold constantSigned constantIntegerType
  rw [if_neg hbig]
  by_cases hu : suffix.u = true
  · rw [if_pos hu, if_pos hu]
    split <;> rfl
  · rw [if_neg hu, if_neg hu]
    have hplain := hplain.resolve_left hu
    by_cases hbase : base = 10
    · rw [if_pos hbase] at hplain
      rw [if_pos hplain]
      simp only [hbase, decide_true, Bool.not_true, Bool.false_eq_true, false_and, and_false,
        if_false, if_pos hplain]
      split <;> rfl
    · rw [if_neg hbase] at hplain
      have huint : ¬ (suffix.l = 0 ∧ ¬ (suffix.l = 0 ∧ value < 2 ^ 31) ∧ value < 2 ^ 32) := by
        omega
      by_cases hint : suffix.l = 0 ∧ value < 2 ^ 31
      · have hlong : value < 2 ^ 63 := by omega
        rw [if_pos hint, if_pos hlong]
        rfl
      · rw [if_neg hint]
        have hnot : ¬ (suffix.l = 0 ∧ (!decide (base = 10)) = true ∧ value < 2 ^ 32) := by
          intro hc
          exact huint ⟨hc.1, hint, hc.2.2⟩
        rw [if_neg hnot]
        by_cases hlong : value < 2 ^ 63
        · rw [if_pos hlong, if_pos hlong]
          rfl
        · rw [if_neg hlong, if_neg hlong, if_neg hbase]
          rfl

/-! ## Character constants are what is read as characters -/

/-- The texts of character constants that are read to their end as one character: a
hexadecimal escape sequence has two digits, an octal one stays below 256. -/
inductive PlainChar : List Char → Prop where
  | char {c : Char} (hquote : c ≠ '\'') (hescape : c ≠ '\\') : PlainChar [c]
  | escape (c : Char) : PlainChar ['\\', c]
  | octal {ds : List Char} (hds : ∀ c ∈ ds, isOctal c = true) (hmin : 2 ≤ ds.length)
    (hlen : ds.length ≤ 3) (hrange : digitsValue 8 ds < 256) : PlainChar ('\\' :: ds)
  | hex {a b : Char} (ha : isXdigit a = true) (hb : isXdigit b = true) :
    PlainChar ['\\', 'x', a, b]

theorem find_simpleEscapes {n : Nat} :
    simpleEscapes.find? (·.1 = c) = some (c, n) ↔ (c, n) ∈ simpleEscapes := by
  constructor
  · exact mem_of_find?_eq_some
  · intro h
    simp only [simpleEscapes, mem_cons, Prod.mk.injEq, not_mem_nil, or_false] at h
    rcases h with h | h | h | h | h | h | h | h | h | h | h <;> rcases h with ⟨rfl, rfl⟩ <;> rfl

theorem find_simpleEscapes_eq_none (h : isOctal c = true ∨ c = 'x') :
    simpleEscapes.find? (·.1 = c) = none := by
  rw [find?_eq_none]
  intro e he
  simp only [decide_eq_true_eq]
  rintro rfl
  revert he
  simp only [simpleEscapes, mem_cons, not_mem_nil, or_false]
  intro he
  rcases he with rfl | rfl | rfl | rfl | rfl | rfl | rfl | rfl | rfl | rfl | rfl <;>
    revert h <;> decide

theorem convertEscapeSequence_octal {ds : List Char} (hds : ∀ c ∈ ds, isOctal c = true)
    (hpos : 0 < ds.length) (hlen : ds.length ≤ 3) :
    convertEscapeSequence ds = .ok (toChar (digitsValue 8 ds), []) := by
  cases ds with
  | nil => exact absurd hpos (by simp)
  | cons c ds =>
    have hc := hds c mem_cons_self
    have hx : c ≠ 'x' := by
      rintro rfl
      exact absurd hc (by decide)
    have htake : ((c :: ds).take 3).takeWhile isOctal = c :: ds := by
      rw [take_of_length_le hlen]
      have happend : (c :: ds ++ []).takeWhile isOctal = c :: ds ++ [].takeWhile isOctal :=
        takeWhile_append_of_pos hds
      simpa using happend
    unfold convertEscapeSequence
    simp only [find_simpleEscapes_eq_none (Or.inl hc), if_neg hx, hc, if_true, htake, drop_length]

theorem digitValue_lt (h : isXdigit c = true) : digitValue c < 16 := by
  simp only [isXdigit, Char.isDigit, Bool.or_eq_true, Bool.and_eq_true, decide_eq_true_eq,
    Char.le_def, UInt32.le_iff_toNat_le, ge_iff_le, Char.toNat_val] at h
  simp only [digitValue, Char.isDigit, Char.isLower, Bool.and_eq_true, decide_eq_true_eq,
    UInt32.le_iff_toNat_le, ge_iff_le, Char.toNat_val] at h ⊢
  simp only [Char.reduceToNat] at h ⊢
  split
  · omega
  · split <;> omega

theorem convertPreprocessingChar_escape (s : List Char) :
    convertPreprocessingChar ('\\' :: s) = Prod.fst <$> convertEscapeSequence s := rfl

theorem convertPreprocessingChar_pair {v : Int} :
    convertPreprocessingChar ['\\', c] = .ok v ↔ CharConstant ['\\', c] v := by
  rw [convertPreprocessingChar_escape]
  constructor
  · intro h
    by_cases hoctal : isOctal c = true
    · rw [convertEscapeSequence_octal (by simpa using hoctal) (by simp) (by simp)] at h
      cases h
      refine .octal (by simpa using hoctal) (by simp) (by simp) ?_
      have := digitValue_lt (c := c) (by
        simp only [isOctal, isXdigit, Char.isDigit, Bool.and_eq_true, decide_eq_true_eq,
          Char.le_def, Char.lt_def, UInt32.le_iff_toNat_le, UInt32.lt_iff_toNat_lt, ge_iff_le,
          Bool.or_eq_true, Char.toNat_val, Char.reduceToNat] at hoctal ⊢
        omega)
      simp only [digitsValue, foldl_cons, foldl_nil]
      omega
    · unfold convertEscapeSequence at h
      simp only at h
      cases hfind : simpleEscapes.find? (·.1 = c) with
      | some e =>
        rw [hfind] at h
        cases h
        have hname : e.1 = c := by simpa using find?_some hfind
        refine .simple ?_
        rw [← hname]
        exact mem_of_find?_eq_some hfind
      | none =>
        rw [hfind] at h
        by_cases hx : c = 'x'
        · subst hx
          exact absurd h (by simp)
        · simp only [if_neg hx, hoctal, Bool.false_eq_true, if_false] at h
          exact absurd h (by simp)
  · intro h
    cases h with
    | simple hmem =>
      unfold convertEscapeSequence
      simp only [find_simpleEscapes.mpr hmem]
      rfl
    | octal hds hpos hlen =>
      rw [convertEscapeSequence_octal hds hpos hlen]
      rfl
    | hex hds hpos => exact absurd hpos (by simp)

/-- On the texts that are not read in part, the characters that are converted are the
character constants. -/
theorem convertPreprocessingChar_iff (h : PlainChar text) {v : Int} :
    convertPreprocessingChar text = .ok v ↔ CharConstant text v := by
  cases h with
  | @char c hquote hescape =>
    rw [convertPreprocessingChar, convertChar]
    simp only [if_neg hescape]
    constructor
    · intro h
      cases h
      exact .char hquote hescape
    · intro h
      cases h with
      | char => rfl
      | octal => exact absurd rfl hescape
  | octal hds hmin hlen hrange =>
    rw [convertPreprocessingChar_escape, convertEscapeSequence_octal hds (by omega) hlen]
    constructor
    · intro h
      cases h
      exact .octal hds (by omega) hlen hrange
    · intro h
      cases h with
      | char hq he => exact absurd rfl he
      | simple => exact absurd hmin (by simp)
      | octal => rfl
      | hex => exact absurd (hds 'x' mem_cons_self) (by decide)
  | @hex a b ha hb =>
    have hread : convertEscapeSequence ['x', a, b] = .ok (toChar (digitsValue 16 [a, b]), []) := by
      unfold convertEscapeSequence
      simp only [find_simpleEscapes_eq_none (Or.inr rfl), ha, hb, and_self, if_true]
    rw [convertPreprocessingChar_escape, hread]
    have hrange : digitsValue 16 [a, b] < 256 := by
      have h1 := digitValue_lt ha
      have h2 := digitValue_lt hb
      simp only [digitsValue, foldl_cons, foldl_nil]
      omega
    constructor
    · intro h
      cases h
      exact .hex (by simp [ha, hb]) (by simp) hrange
    · intro h
      cases h with
      | octal hds => exact absurd (hds 'x' mem_cons_self) (by decide)
      | hex => rfl
  | escape c => exact convertPreprocessingChar_pair

end Kcs.Preprocessor
