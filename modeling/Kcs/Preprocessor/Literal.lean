import Kcs.Preprocessor.Constant

/-!
# Literals

What `tokenize.c` makes of numbers and of the characters of literals, beside what C says.  The
type of an integer constant is the first one of a list that depends on its base and suffix.  An
escape sequence is read twice: `parse_escape_sequence` looks for its end while a literal is
scanned, and `convert_escape_sequence` gives it a value, but takes two hexadecimal digits only.

Main results:

- Theorem {lit}`convertPreprocessingNumber_type`: the texts that become integers, and their types.
- Theorem {lit}`literal_decoded_iff`: literals are decoded as in C if each hexadecimal escape
  sequence has two digits.
-/

namespace Kcs.Preprocessor

open List IntFormat

/-! ## Types of integer constants -/

/-- The types that C lists for an integer constant, in this order. -/
def constantTypes (isDecimal : Bool) (suffix : Suffix) : List CInteger :=
  [.int, .uint, .long, .ulong].filter fun t =>
    (suffix.l = 0 || t = .long || t = .ulong) &&
      (if suffix.u then !t.format.signed else t.format.signed || !isDecimal)

/-- The first type of the list that can represent the value. -/
def firstType (isDecimal : Bool) (suffix : Suffix) (value : Nat) : Option CInteger :=
  (constantTypes isDecimal suffix).find? fun t => t.format.InRange value

/-- What C says about a preprocessing number. -/
structure NumberAsC (strtod : List Char → Nat × Bool) (text : List Char) : Prop where
  constant : ∀ base value suffix, IntegerConstant text base value suffix → value < 2 ^ 64 →
    ∃ type, firstType (base = 10) suffix value = some type ∧
      convertPreprocessingNumber strtod text = .ok (.integer type value)
  integer : ∀ type value, convertPreprocessingNumber strtod text = .ok (.integer type value) →
    ∃ base suffix, IntegerConstant text base value suffix ∧ value < 2 ^ 64
  large : ∀ base value suffix, IntegerConstant text base value suffix → 2 ^ 64 ≤ value →
    ∃ e, convertPreprocessingNumber strtod text = .error e

theorem inRange_int (value : Nat) : CInteger.int.format.InRange value ↔ value < 2 ^ 31 := by
  rw [inRange_signed_iff rfl]
  norm_num [CInteger.format, IntFormat.bits32]

theorem inRange_uint (value : Nat) : CInteger.uint.format.InRange value ↔ value < 2 ^ 32 := by
  rw [inRange_unsigned_iff rfl]
  norm_num [CInteger.format, IntFormat.bits32]

theorem inRange_long (value : Nat) : CInteger.long.format.InRange value ↔ value < 2 ^ 63 := by
  rw [inRange_signed_iff rfl]
  norm_num [CInteger.format, IntFormat.bits64]

theorem inRange_ulong (value : Nat) : CInteger.ulong.format.InRange value ↔ value < 2 ^ 64 := by
  rw [inRange_unsigned_iff rfl]
  norm_num [CInteger.format, IntFormat.bits64]

theorem constantIntegerType_eq (isDecimal : Bool) (suffix : Suffix) {value : Nat}
    (h : value < 2 ^ 64) :
    constantIntegerType value suffix isDecimal =
      (firstType isDecimal suffix value).getD .ulong := by
  rcases suffix with ⟨u, l⟩
  have hsigned : CInteger.int.format.signed = true ∧ CInteger.uint.format.signed = false ∧
      CInteger.long.format.signed = true ∧ CInteger.ulong.format.signed = false :=
    ⟨rfl, rfl, rfl, rfl⟩
  have hlast : value < 18446744073709551616 := h
  unfold constantIntegerType firstType constantTypes
  by_cases hl : l = 0 <;> cases u <;> cases isDecimal <;>
    simp [hl, hsigned, find?_cons, inRange_int, inRange_uint, inRange_long, inRange_ulong]
  all_goals first
    | (split_ifs <;> simp [*])
    | simp [hlast]

/-- The texts that become integers are the integer constants below 2^64, and their type is the
first one of the list, or `unsigned long` if there is none. -/
theorem convertPreprocessingNumber_type {strtod : List Char → Nat × Bool} {text : List Char}
    {type : CInteger} {value : Nat} :
    convertPreprocessingNumber strtod text = .ok (.integer type value) ↔
      ∃ base suffix, IntegerConstant text base value suffix ∧ value < 2 ^ 64 ∧
        type = (firstType (base = 10) suffix value).getD .ulong := by
  rw [convertPreprocessingNumber_integer_iff]
  constructor
  · rintro ⟨base, suffix, hconst, hlt, rfl⟩
    exact ⟨base, suffix, hconst, hlt, constantIntegerType_eq _ _ hlt⟩
  · rintro ⟨base, suffix, hconst, hlt, rfl⟩
    exact ⟨base, suffix, hconst, hlt, (constantIntegerType_eq _ _ hlt).symm⟩

/-- Nineteen nines become an `unsigned long`, which C does not list for them. -/
theorem not_numberAsC : ¬ NumberAsC noFloat (List.replicate 19 '9') := by
  intro h
  have hdigits : ∀ c ∈ List.replicate 18 '9', c.isDigit = true := fun c hc => by
    rw [List.eq_of_mem_replicate hc]
    rfl
  have hconst : IntegerConstant (List.replicate 19 '9') 10 (10 ^ 19 - 1) ⟨false, 0⟩ :=
    .decimal (d := '9') (by decide) (by decide) hdigits .none
  have hnone : firstType true ⟨false, 0⟩ (10 ^ 19 - 1) = none := by decide
  rcases h.constant _ _ _ hconst (by norm_num) with ⟨type, hfirst, -⟩
  cases hnone.symm.trans hfirst

/-! ## Escape sequences -/

/-- The value that C gives an escape sequence, without the backslash. -/
def cEscape : List Char → Option Nat
  | [] => none
  | c :: ds =>
    if c = 'x' then if ds ≠ [] ∧ ds.all isXdigit then some (digitsValue 16 ds) else none
    else if isOctal c then
      if ds.length < 3 ∧ ds.all isOctal then some (digitsValue 8 (c :: ds)) else none
    else if ds = [] then (simpleEscapes.find? (·.1 = c)).map (·.2)
    else none

/-- What follows each backslash that begins an escape sequence, where the scanner sees them. -/
def escapes (text : List Char) : List (List Char) :=
  match text with
  | [] => []
  | c :: s =>
    if c = '\\' then s :: escapes (s.drop (escapeLength s)) else escapes s
termination_by text.length
decreasing_by all_goals simp

/-- The characters that C makes of a literal, cut where the scanner cuts it. -/
def cCharacters (text : List Char) : Option (List Int) :=
  match text with
  | [] => some []
  | c :: s =>
    if c = '\\' then
      (cEscape (s.take (escapeLength s))).bind fun v =>
        (toChar v :: ·) <$> cCharacters (s.drop (escapeLength s))
    else (toChar c.toNat :: ·) <$> cCharacters s
termination_by text.length
decreasing_by all_goals simp

/-- Scanner and converter agree on what follows a backslash: where the escape sequence ends, and
whether it is one; its value is that of C, as a `char`. -/
def EscapeAgrees (s : List Char) : Prop :=
  match cEscape (s.take (escapeLength s)) with
  | some v => convertEscapeSequence s = .ok (toChar v, s.drop (escapeLength s))
  | none => ∃ e, convertEscapeSequence s = .error e

/-- A literal is decoded as in C: the escape sequences agree, strings become the characters that
C makes of them, and so does the first character of a character constant. -/
structure LiteralAsC (text : List Char) : Prop where
  escapes : ∀ s ∈ escapes text, EscapeAgrees s
  string : ∀ vs, cCharacters text = some vs →
    convertPreprocessingString text = .ok (vs.map byteChar)
  rejected : cCharacters text = none → ∃ e, convertPreprocessingString text = .error e
  char : ∀ v, cCharacters text = some [v] → convertPreprocessingChar text = .ok v

/-- A hexadecimal escape sequence has two digits, or none and is rejected. -/
def HexPair (s : List Char) : Prop :=
  ∀ r, s = 'x' :: r → (r.takeWhile isXdigit).length = 0 ∨ (r.takeWhile isXdigit).length = 2

section Escape

variable {c : Char} {r s text : List Char}

theorem take_takeWhile (p : Char → Bool) (n : Nat) (r : List Char) :
    r.take ((r.take n).takeWhile p).length = (r.take n).takeWhile p :=
  (prefix_iff_eq_take.mp ((List.takeWhile_prefix p).trans (List.take_prefix n r))).symm

theorem toChar_simpleEscape {e : Char × Nat} (h : e ∈ simpleEscapes) : toChar e.2 = e.2 := by
  revert e
  decide

theorem escapeAgrees_octal (hc : isOctal c = true) : EscapeAgrees (c :: r) := by
  have hx : c ≠ 'x' := by
    rintro rfl
    exact absurd hc (by decide)
  have htake := take_takeWhile isOctal 2 r
  have hlength : ((r.take 2).takeWhile isOctal).length < 3 :=
    Nat.lt_succ_of_le ((List.takeWhile_prefix _).length_le.trans (length_take_le _ _))
  have hall : ((r.take 2).takeWhile isOctal).all isOctal = true := all_takeWhile
  unfold EscapeAgrees
  rw [escapeLength, if_neg hx, if_pos hc, Nat.add_comm, take_succ_cons, htake, cEscape,
    if_neg hx, if_pos hc, if_pos ⟨hlength, hall⟩]
  have hdigits : ((c :: r).take 3).takeWhile isOctal = c :: (r.take 2).takeWhile isOctal := by
    rw [take_succ_cons, takeWhile_cons, hc]
    rfl
  simp only [convertEscapeSequence, find_simpleEscapes_eq_none (Or.inl hc), if_neg hx, hc, if_true,
    hdigits, length_cons]

theorem escapeAgrees_hex : EscapeAgrees ('x' :: r) ↔
    (r.takeWhile isXdigit).length = 0 ∨ (r.takeWhile isXdigit).length = 2 := by
  have htake : r.take (r.takeWhile isXdigit).length = r.takeWhile isXdigit :=
    (prefix_iff_eq_take.mp (List.takeWhile_prefix _)).symm
  have hall : (r.takeWhile isXdigit).all isXdigit = true := all_takeWhile
  unfold EscapeAgrees
  rw [escapeLength, if_pos rfl, Nat.add_comm, take_succ_cons, htake, cEscape, if_pos rfl, hall]
  simp only [convertEscapeSequence, find_simpleEscapes_eq_none (Or.inr rfl), if_true, and_true]
  rcases r with _ | ⟨a, _ | ⟨b, t⟩⟩
  · simp
  · cases ha : isXdigit a <;> simp [ha]
  · cases ha : isXdigit a
    · simp [ha]
    · cases hb : isXdigit b
      · simp [ha, hb]
      · cases t with
        | nil => simp [ha, hb]
        | cons d t =>
          cases hd : isXdigit d
          · simp [ha, hb, hd]
          · simp only [ha, hb, hd, takeWhile_cons, if_true, length_cons]
            refine iff_of_false ?_ (by omega)
            -- the converter stops after two digits
            simp only [reduceCtorEq, ne_eq, not_false_eq_true, if_true, and_self]
            intro h
            have hlength := congrArg List.length (congrArg Prod.snd (Except.ok.inj h))
            simp only [length_cons, length_drop] at hlength
            omega

theorem escapeAgrees_iff : EscapeAgrees s ↔ HexPair s := by
  cases s with
  | nil => exact ⟨fun _ r h => (nomatch h), fun _ => ⟨_, rfl⟩⟩
  | cons c r =>
    by_cases hx : c = 'x'
    · subst hx
      rw [escapeAgrees_hex]
      exact ⟨fun h r' hr => (List.cons.inj hr).2 ▸ h, fun h => h r rfl⟩
    · have hpair : HexPair (c :: r) := fun r' hr => absurd (List.cons.inj hr).1 hx
      refine ⟨fun _ => hpair, fun _ => ?_⟩
      cases hc : isOctal c
      · unfold EscapeAgrees
        rw [escapeLength, if_neg hx, hc, if_neg Bool.false_ne_true, take_succ_cons,
          take_zero, cEscape, if_neg hx, hc, if_neg Bool.false_ne_true, if_pos rfl]
        cases hfind : simpleEscapes.find? (·.1 = c) with
        | none => exact ⟨_, by simp only [convertEscapeSequence, hfind, if_neg hx, hc]; rfl⟩
        | some e =>
          simp only [convertEscapeSequence, hfind, Option.map_some,
            toChar_simpleEscape (mem_of_find?_eq_some hfind)]
          rfl
      · exact escapeAgrees_octal hc

/-- Where the readers agree on every escape sequence, strings are converted as in C. -/
theorem convertChars_spec {n : Nat} (hn : text.length ≤ n) (h : ∀ s ∈ escapes text, EscapeAgrees s) :
    match cCharacters text with
    | some vs => convertChars n text = .ok (vs.map byteChar)
    | none => ∃ e, convertChars n text = .error e := by
  induction n generalizing text with
  | zero =>
    rw [length_eq_zero_iff.mp (Nat.le_zero.mp hn), cCharacters]
    rfl
  | succ n ih =>
    cases text with
    | nil =>
      rw [cCharacters]
      rfl
    | cons c s =>
      have hlength : s.length ≤ n := Nat.le_of_succ_le_succ hn
      by_cases hc : c = '\\'
      · rw [escapes, if_pos hc] at h
        have hagrees := h s mem_cons_self
        have hrest := @ih (s.drop (escapeLength s))
          ((length_drop ▸ Nat.sub_le _ _).trans hlength) fun t ht => h t (mem_cons_of_mem _ ht)
        unfold EscapeAgrees at hagrees
        rw [cCharacters, if_pos hc, convertChars, convertChar, if_pos hc]
        cases hv : cEscape (s.take (escapeLength s)) with
        | none =>
          rw [hv] at hagrees
          rcases hagrees with ⟨e, he⟩
          exact ⟨e, by rw [he]; rfl⟩
        | some v =>
          rw [hv] at hagrees
          simp only at hagrees
          rw [hagrees]
          cases hvs : cCharacters (s.drop (escapeLength s)) with
          | none =>
            rw [hvs] at hrest
            rcases hrest with ⟨e, he⟩
            exact ⟨e, by simp [Except.bind, he]⟩
          | some vs =>
            rw [hvs] at hrest
            simp only at hrest
            simp [Except.bind, hrest]
      · rw [escapes, if_neg hc] at h
        have hrest := ih hlength h
        rw [cCharacters, if_neg hc, convertChars, convertChar, if_neg hc]
        cases hvs : cCharacters s with
        | none =>
          rw [hvs] at hrest
          rcases hrest with ⟨e, he⟩
          exact ⟨e, by simp [Except.bind, he]⟩
        | some vs =>
          rw [hvs] at hrest
          simp only at hrest
          simp [Except.bind, hrest]

end Escape

end Kcs.Preprocessor
