import Kcs.Lib.Fuel
import Kcs.Preprocessor.Condition

/-!
# The readers of the evaluator

The levels of precedence by number, and the number of steps that the readers need:
each reader consumes a token, so a bound on the length of the list is a bound
on the calls.

Main results:

- Theorem {lit}`readerAt_bounded`: every reader consumes a token and has steps enough.
-/

namespace Kcs.Preprocessor

open IntMax List

/-! ## Levels of precedence -/

/-- The operators of a level, from the multiplicative ones to the logical or. -/
def levelOperator : Nat → TokenType → Option BinaryOp
  | 1 => multiplicativeOperator
  | 2 => additiveOperator
  | 3 => shiftOperator
  | 4 => relationalOperator
  | 5 => equalityOperator
  | 6 => oneOperator .and .and
  | 7 => oneOperator .xor .xor
  | 8 => oneOperator .or .or
  | 9 => oneOperator .logicalAnd .land
  | 10 => oneOperator .logicalOr .lor
  | _ => fun _ => none

/-- How a level goes on after an operator. -/
def levelShape : Nat → Shape
  | 1 | 2 | 3 | 4 => .loop
  | 8 => .once
  | _ => .recursion

/-- The level that an operator token belongs to. -/
def precedence : TokenType → Option Nat
  | .star | .slash | .modulo => some 1
  | .plus | .minus => some 2
  | .lshift | .rshift => some 3
  | .lt | .gt | .leq | .geq => some 4
  | .eq | .neq => some 5
  | .and => some 6
  | .xor => some 7
  | .or => some 8
  | .logicalAnd => some 9
  | .logicalOr => some 10
  | .question => some 11
  | .comma => some 12
  | _ => none

/-- The level of an operator. -/
def opLevel : BinaryOp → Nat
  | .mul | .div | .mod => 1
  | .add | .sub => 2
  | .shl | .shr => 3
  | .lt | .gt | .le | .ge => 4
  | .eq | .ne => 5
  | .and => 6
  | .xor => 7
  | .or => 8
  | .land => 9
  | .lor => 10

variable {k : Nat} {op : BinaryOp}

theorem levelOperator_spec {t : TokenType}
    (h : levelOperator k t = some op) : precedence t = some k ∧ opLevel op = k := by
  unfold levelOperator at h
  split at h
  · unfold multiplicativeOperator at h
    split at h <;> cases h <;> exact ⟨rfl, rfl⟩
  · unfold additiveOperator at h
    split at h <;> cases h <;> exact ⟨rfl, rfl⟩
  · unfold shiftOperator at h
    split at h <;> cases h <;> exact ⟨rfl, rfl⟩
  · unfold relationalOperator at h
    split at h <;> cases h <;> exact ⟨rfl, rfl⟩
  · unfold equalityOperator at h
    split at h <;> cases h <;> exact ⟨rfl, rfl⟩
  all_goals first
    | (unfold oneOperator at h
       split at h
       · rename_i ht
         cases h
         rw [ht]
         exact ⟨rfl, rfl⟩
       · cases h)
    | cases h

theorem levelOperator_of_precedence {t : TokenType} (h : precedence t = some k)
    (hk : k ≤ 10) : ∃ op, levelOperator k t = some op := by
  unfold precedence at h
  split at h <;> cases h <;> first | exact ⟨_, rfl⟩ | omega

/-! ## Readers that consume tokens -/

/-- A reader that consumes at least one token, and that does not run out of steps on
lists that are shorter than a bound. -/
structure Bounded (p : Reader) (n : Nat) : Prop where
  shrinks : ∀ {list r}, p list = .ok r → r.2.length < list.length
  enough : ∀ {list}, list.length < n → p list ≠ .error .fuel

theorem host_ne_fuel {α : Type} (x : Except Fault α) : host x ≠ .error .fuel := by
  cases x with
  | ok a => simp [host]
  | error e => cases e <;> simp [host, stopOf]

theorem applyBinary_ne_fuel (op : BinaryOp) (l r : IntMax.Number) :
    applyBinary op l r ≠ .error .fuel :=
  host_ne_fuel _

theorem applyUnary_ne_fuel (op : UnaryOp) (n : IntMax.Number) : applyUnary op n ≠ .error .fuel := by
  cases op with
  | minus => exact host_ne_fuel _
  | plus | compl | not => simp [applyUnary]

section Levels

variable {operators : TokenType → Option BinaryOp} {operand expression : Reader} {m n : Nat}

variable {list : List Token} {l : IntMax.Number}

theorem readLoop_length (h : Bounded operand n)
    {r : IntMax.Number × List Token} (hr : readLoop operators operand m l list = .ok r) :
    r.2.length ≤ list.length := by
  induction m generalizing l list with
  | zero => exact absurd hr (by simp [readLoop])
  | succ m ih =>
    cases list with
    | nil => exact absurd hr (by simp [readLoop])
    | cons t list =>
      unfold readLoop at hr
      split at hr
      · cases hr
        exact le_refl _
      · rcases Except.bind_eq_ok_iff.mp hr with ⟨q, hq, hr⟩
        rcases Except.bind_eq_ok_iff.mp hr with ⟨v, -, hr⟩
        have := ih hr
        have := h.shrinks hq
        simp only [length_cons]
        omega

theorem readLoop_ne_fuel (h : Bounded operand n)
    (hlist : list.length < m) (hn : list.length ≤ n) :
    readLoop operators operand m l list ≠ .error .fuel := by
  induction m generalizing l list with
  | zero => exact absurd hlist (by simp)
  | succ m ih =>
    cases list with
    | nil => simp [readLoop]
    | cons t list =>
      rw [length_cons] at hlist hn
      unfold readLoop
      split
      · simp
      · refine Fuel.bind_ne_out_of_ok (h.enough (by omega)) ?_
        intro q hq
        have := h.shrinks hq
        refine Fuel.bind_ne_out (applyBinary_ne_fuel _ _ _) ?_
        intro v
        exact ih (by omega) (by omega)

theorem readLoop_congr (h : Bounded operand n)
    (hm : list.length < m) (hk : list.length < k) :
    readLoop operators operand m l list = readLoop operators operand k l list := by
  induction m generalizing k l list with
  | zero => exact absurd hm (by simp)
  | succ m ih =>
    cases k with
    | zero => exact absurd hk (by simp)
    | succ k =>
      cases list with
      | nil => rfl
      | cons t list =>
        rw [length_cons] at hm hk
        unfold readLoop
        split
        · rfl
        · cases hq : operand list with
          | error e => rfl
          | ok q =>
            have := h.shrinks hq
            simp only [Except.bind]
            cases applyBinary _ l q.1 with
            | error e => rfl
            | ok v => exact ih (by omega) (by omega)

theorem readRight_length {next : Reader}
    {r : IntMax.Number × List Token}
    (hnext : ∀ {list r}, next list = .ok r → r.2.length < list.length)
    (hr : readRight operators next l list = .ok r) : r.2.length ≤ list.length := by
  cases list with
  | nil => exact absurd hr (by simp [readRight])
  | cons t list =>
    simp only [readRight] at hr
    split at hr
    · cases hr
      exact le_refl _
    · rcases Except.bind_eq_ok_iff.mp hr with ⟨q, hq, hr⟩
      rcases Except.bind_eq_ok_iff.mp hr with ⟨v, -, hr⟩
      cases hr
      have := hnext hq
      simp only [length_cons]
      omega

theorem readRight_ne_fuel {next : Reader}
    (hnext : ∀ {t rest}, list = t :: rest → next rest ≠ .error .fuel) :
    readRight operators next l list ≠ .error .fuel := by
  cases list with
  | nil => simp [readRight]
  | cons t list =>
    simp only [readRight]
    split
    · simp
    · refine Fuel.bind_ne_out (hnext rfl) ?_
      intro q
      exact Fuel.bind_ne_out (applyBinary_ne_fuel _ _ _) fun v => by simp

theorem readRecursive_bounded (h : Bounded operand n) (hm : m ≤ n) :
    Bounded (readRecursive operators operand m) m := by
  induction m with
  | zero =>
    exact ⟨fun hr => absurd hr (by simp [readRecursive]), fun hlist => absurd hlist (by simp)⟩
  | succ m ih =>
    have ih := ih (by omega)
    constructor
    · intro list r hr
      rcases Except.bind_eq_ok_iff.mp hr with ⟨q, hq, hr⟩
      have := h.shrinks hq
      have := readRight_length ih.shrinks hr
      omega
    · intro list hlist
      refine Fuel.bind_ne_out_of_ok (h.enough (by omega)) ?_
      intro q hq
      have := h.shrinks hq
      refine readRight_ne_fuel ?_
      intro t rest hrest
      rw [hrest, length_cons] at this
      exact ih.enough (by omega)

theorem readRecursive_congr (h : Bounded operand n)
    (hm : list.length < m) (hk : list.length < k) :
    readRecursive operators operand m list = readRecursive operators operand k list := by
  induction m generalizing k list with
  | zero => exact absurd hm (by simp)
  | succ m ih =>
    cases k with
    | zero => exact absurd hk (by simp)
    | succ k =>
      unfold readRecursive
      cases hq : operand list with
      | error e => rfl
      | ok q =>
        have := h.shrinks hq
        simp only [Except.bind]
        cases hrest : q.2 with
        | nil => rfl
        | cons t rest =>
          rw [hrest, length_cons] at this
          simp only [readRight]
          rw [ih (k := k) (by omega) (by omega)]

theorem readLevel_bounded (shape : Shape) (h : Bounded operand n) :
    Bounded (readLevel shape operators operand n) n := by
  cases shape with
  | loop =>
    constructor
    · intro list r hr
      rcases Except.bind_eq_ok_iff.mp hr with ⟨q, hq, hr⟩
      have := h.shrinks hq
      have := readLoop_length h hr
      omega
    · intro list hlist
      refine Fuel.bind_ne_out_of_ok (h.enough hlist) ?_
      intro q hq
      have := h.shrinks hq
      exact readLoop_ne_fuel h (by omega) (by omega)
  | recursion => exact readRecursive_bounded h (le_refl n)
  | once =>
    constructor
    · intro list r hr
      rcases Except.bind_eq_ok_iff.mp hr with ⟨q, hq, hr⟩
      have := h.shrinks hq
      have := readRight_length h.shrinks hr
      omega
    · intro list hlist
      refine Fuel.bind_ne_out_of_ok (h.enough hlist) ?_
      intro q hq
      have := h.shrinks hq
      refine readRight_ne_fuel ?_
      intro t rest hrest
      rw [hrest, length_cons] at this
      exact h.enough (by omega)

variable {rest : List Token}

theorem expect_length {token : TokenType}
    (h : expect token list = .ok rest) : rest.length < list.length := by
  cases list with
  | nil => exact absurd h (by simp [expect])
  | cons t list =>
    simp only [expect] at h
    split at h
    · exact absurd h (by simp)
    · cases h
      simp

theorem expect_ne_fuel (token : TokenType) (list : List Token) :
    expect token list ≠ .error .fuel := by
  cases list with
  | nil => simp [expect]
  | cons t list =>
    simp only [expect]
    split <;> simp

theorem readConditional_bounded (h : Bounded operand n) (he : Bounded expression (n - 1))
    (hm : m ≤ n) : Bounded (readConditional expression operand m) m := by
  induction m with
  | zero =>
    exact ⟨fun hr => absurd hr (by simp [readConditional]), fun hlist => absurd hlist (by simp)⟩
  | succ m ih =>
    have ih := ih (by omega)
    constructor
    · intro list r hr
      rcases Except.bind_eq_ok_iff.mp hr with ⟨a, ha, hr⟩
      have := h.shrinks ha
      split at hr
      · exact absurd hr (by simp)
      · rename_i t rest hrest
        rw [hrest, length_cons] at this
        split at hr
        · rcases Except.bind_eq_ok_iff.mp hr with ⟨b, hb, hr⟩
          rcases Except.bind_eq_ok_iff.mp hr with ⟨list', hlist', hr⟩
          rcases Except.bind_eq_ok_iff.mp hr with ⟨c, hc, hr⟩
          cases hr
          have := he.shrinks hb
          have := expect_length hlist'
          have := ih.shrinks hc
          simp only
          omega
        · cases hr
          simp only [length_cons]
          omega
    · intro list hlist
      refine Fuel.bind_ne_out_of_ok (h.enough (by omega)) ?_
      intro a ha
      have := h.shrinks ha
      split
      · simp
      · rename_i t rest hrest
        rw [hrest, length_cons] at this
        refine Fuel.ite_ne_out ?_ (by simp)
        refine Fuel.bind_ne_out_of_ok (he.enough (by omega)) ?_
        intro b hb
        have := he.shrinks hb
        refine Fuel.bind_ne_out_of_ok (expect_ne_fuel _ _) ?_
        intro list' hlist'
        have := expect_length hlist'
        exact Fuel.bind_ne_out (ih.enough (by omega)) fun c => by simp

theorem readConditional_congr (h : Bounded operand n) (he : Bounded expression (n - 1))
    (hm : list.length < m) (hk : list.length < k) :
    readConditional expression operand m list = readConditional expression operand k list := by
  induction m generalizing k list with
  | zero => exact absurd hm (by simp)
  | succ m ih =>
    cases k with
    | zero => exact absurd hk (by simp)
    | succ k =>
      unfold readConditional
      cases ha : operand list with
      | error e => rfl
      | ok a =>
        have := h.shrinks ha
        simp only [Except.bind]
        split
        · rfl
        · rename_i t rest hrest
          rw [hrest, length_cons] at this
          split
          · cases hb : expression rest with
            | error e => rfl
            | ok b =>
              have := he.shrinks hb
              simp only
              cases hlist' : expect .colon b.2 with
              | error e => rfl
              | ok list' =>
                have := expect_length hlist'
                simp only
                rw [ih (k := k) (by omega) (by omega)]
          · rfl

theorem readCommas_bounded (h : Bounded operand n) (hm : m ≤ n) :
    Bounded (readCommas operand m) m := by
  induction m with
  | zero =>
    exact ⟨fun hr => absurd hr (by simp [readCommas]), fun hlist => absurd hlist (by simp)⟩
  | succ m ih =>
    have ih := ih (by omega)
    constructor
    · intro list r hr
      rcases Except.bind_eq_ok_iff.mp hr with ⟨q, hq, hr⟩
      have := h.shrinks hq
      split at hr
      · exact absurd hr (by simp)
      · rename_i t rest hrest
        rw [hrest, length_cons] at this
        split at hr
        · have := ih.shrinks hr
          omega
        · cases hr
          simp only [length_cons]
          omega
    · intro list hlist
      refine Fuel.bind_ne_out_of_ok (h.enough (by omega)) ?_
      intro q hq
      have := h.shrinks hq
      split
      · simp
      · rename_i t rest hrest
        rw [hrest, length_cons] at this
        exact Fuel.ite_ne_out (ih.enough (by omega)) (by simp)

theorem readCommas_congr (h : Bounded operand n)
    (hm : list.length < m) (hk : list.length < k) :
    readCommas operand m list = readCommas operand k list := by
  induction m generalizing k list with
  | zero => exact absurd hm (by simp)
  | succ m ih =>
    cases k with
    | zero => exact absurd hk (by simp)
    | succ k =>
      unfold readCommas
      cases hq : operand list with
      | error e => rfl
      | ok q =>
        have := h.shrinks hq
        simp only [Except.bind]
        split
        · rfl
        · rename_i t rest hrest
          rw [hrest, length_cons] at this
          split
          · exact ih (by omega) (by omega)
          · rfl

/-- What a level does after its first operand. -/
def resume (shape : Shape) (operators : TokenType → Option BinaryOp) (operand : Reader)
    (l : IntMax.Number) (list : List Token) : Outcome (IntMax.Number × List Token) :=
  match shape with
  | .loop => readLoop operators operand (list.length + 1) l list
  | .recursion =>
    readRight operators (fun rest => readRecursive operators operand (rest.length + 1) rest) l list
  | .once => readRight operators operand l list

theorem readRecursive_eq (h : Bounded operand n) (hlist : list.length < m) :
    readRecursive operators operand m list =
      (operand list).bind fun l => resume .recursion operators operand l.1 l.2 := by
  cases m with
  | zero => exact absurd hlist (by simp)
  | succ m =>
    rw [readRecursive]
    cases hl : operand list with
    | error e => rfl
    | ok l =>
      have := h.shrinks hl
      simp only [Except.bind, resume]
      cases hrest : l.2 with
      | nil => rfl
      | cons t rest =>
        rw [hrest, length_cons] at this
        have hcongr : readRecursive operators operand m rest =
            readRecursive operators operand (rest.length + 1) rest :=
          readRecursive_congr h (by omega) (by omega)
        simp only [readRight, hcongr]

theorem readLevel_eq (shape : Shape) (h : Bounded operand n)
    (hlist : list.length < n) :
    readLevel shape operators operand n list =
      (operand list).bind fun l => resume shape operators operand l.1 l.2 := by
  cases shape with
  | loop =>
    simp only [readLevel, resume]
    cases hl : operand list with
    | error e => rfl
    | ok l =>
      have := h.shrinks hl
      exact readLoop_congr h (by omega) (by omega)
  | recursion => exact readRecursive_eq h hlist
  | once => rfl

variable {t : Token}

theorem resume_of_none (shape : Shape)
    (h : operators t.token = none) :
    resume shape operators operand l (t :: rest) = .ok (l, t :: rest) := by
  cases shape with
  | loop => simp only [resume, readLoop, h]
  | recursion | once => simp only [resume, readRight, h]

theorem resume_loop (hb : Bounded operand n)
    (h : operators t.token = some op) :
    resume .loop operators operand l (t :: rest) =
      (operand rest).bind fun r =>
        (applyBinary op l r.1).bind fun v => resume .loop operators operand v r.2 := by
  simp only [resume, length_cons, readLoop, h]
  cases hr : operand rest with
  | error e => rfl
  | ok r =>
    have := hb.shrinks hr
    simp only [Except.bind]
    cases applyBinary op l r.1 with
    | error e => rfl
    | ok v => exact readLoop_congr hb (by omega) (by omega)

theorem resume_recursion (hb : Bounded operand n)
    (h : operators t.token = some op) :
    resume .recursion operators operand l (t :: rest) =
      ((operand rest).bind fun q => resume .recursion operators operand q.1 q.2).bind fun r =>
        (applyBinary op l r.1).bind fun v => .ok (v, r.2) := by
  rw [← readRecursive_eq hb (Nat.lt_succ_self rest.length)]
  simp only [resume, readRight, h]

theorem resume_once
    (h : operators t.token = some op) :
    resume .once operators operand l (t :: rest) =
      (operand rest).bind fun r => (applyBinary op l r.1).bind fun v => .ok (v, r.2) := by
  simp only [resume, readRight, h]

end Levels

/-! ## The readers by level -/

section Readers

variable (ctx : MacroContext) (strtod : List Char → Nat × Bool)

/-- The levels of unary and binary operators. -/
def levelReader (expression : Reader) (n : Nat) : Nat → Reader
  | 0 => preprocessUnary ctx strtod expression
  | k + 1 =>
    readLevel (levelShape (k + 1)) (levelOperator (k + 1)) (levelReader expression n k) n

/-- The reader of a level for lists of up to `n` tokens: 11 are the conditional and 12
the comma expressions. -/
def readerAt (n k : Nat) : Reader :=
  if k = 12 then preprocessExpression ctx strtod (n + 1)
  else if k = 11 then
    preprocessConditional ctx strtod (preprocessExpression ctx strtod n) (n + 1)
  else levelReader ctx strtod (preprocessExpression ctx strtod n) (n + 1) k

theorem convertPreprocessingNumber_ne_fuel (text : List Char) :
    convertPreprocessingNumber strtod text ≠ .error .fuel := by
  unfold convertPreprocessingNumber
  simp only
  refine Fuel.ite_ne_out (Fuel.ite_ne_out (by simp) (by simp)) ?_
  rcases convertFloating_cases strtod text with ⟨message, h⟩ | ⟨type, h⟩
  · simp [h]
  · simp [h]

theorem convertPreprocessingChar_ne_fuel (text : List Char) :
    convertPreprocessingChar text ≠ .error .fuel := by
  refine Fuel.map_ne_out _ ?_
  unfold convertChar
  split
  · simp
  · refine Fuel.ite_ne_out ?_ (by simp)
    unfold convertEscapeSequence
    split
    · simp
    · split
      · simp
      · refine Fuel.ite_ne_out ?_ (Fuel.ite_ne_out (by simp) (by simp))
        split
        · exact Fuel.ite_ne_out (by simp) (by simp)
        · simp

variable {expression : Reader} {n : Nat}

/-- A primary expression consumes a token. -/
theorem preprocessPrimary_bounded (h : Bounded expression n) :
    Bounded (preprocessPrimary ctx strtod expression) (n + 1) := by
  constructor
  · intro list r hr
    cases list with
    | nil => exact absurd hr (by simp [preprocessPrimary])
    | cons t list =>
      simp only [preprocessPrimary] at hr
      split at hr
      · rcases Except.bind_eq_ok_iff.mp hr with ⟨q, -, hr⟩
        split at hr
        · cases hr
          simp
        · exact absurd hr (by simp)
      · rcases Except.bind_eq_ok_iff.mp hr with ⟨q, -, hr⟩
        cases hr
        simp
      · rcases Except.bind_eq_ok_iff.mp hr with ⟨q, hq, hr⟩
        rcases Except.bind_eq_ok_iff.mp hr with ⟨rest, hrest, hr⟩
        cases hr
        have := h.shrinks hq
        have := expect_length hrest
        simp only [length_cons]
        omega
      · split at hr
        · exact absurd hr (by simp)
        · split at hr
          · exact absurd hr (by simp)
          · cases hr
            simp
  · intro list hlist
    cases list with
    | nil => simp [preprocessPrimary]
    | cons t list =>
      rw [length_cons] at hlist
      simp only [preprocessPrimary]
      split
      · refine Fuel.bind_ne_out (convertPreprocessingNumber_ne_fuel strtod _) ?_
        intro q
        cases q <;> simp
      · exact Fuel.bind_ne_out (convertPreprocessingChar_ne_fuel _) fun q => by simp
      · refine Fuel.bind_ne_out (h.enough (by omega)) ?_
        intro q
        exact Fuel.bind_ne_out (expect_ne_fuel _ _) fun rest => by simp
      · exact Fuel.ite_ne_out (by simp) (Fuel.ite_ne_out (by simp) (by simp))

theorem preprocessUnary_bounded (h : Bounded expression n) :
    Bounded (preprocessUnary ctx strtod expression) (n + 1) := by
  have hprimary := preprocessPrimary_bounded ctx strtod h
  have hunary : ∀ list,
      (∀ r, preprocessUnary ctx strtod expression list = .ok r → r.2.length < list.length) ∧
        (list.length < n + 1 → preprocessUnary ctx strtod expression list ≠ .error .fuel) := by
    intro list
    induction list with
    | nil => simp [preprocessUnary]
    | cons t list ih =>
      simp only [preprocessUnary]
      split
      · constructor
        · intro r hr
          rcases Except.bind_eq_ok_iff.mp hr with ⟨q, hq, hr⟩
          rcases Except.bind_eq_ok_iff.mp hr with ⟨v, -, hr⟩
          cases hr
          have := ih.1 q hq
          simp only [length_cons]
          omega
        · intro hlist
          rw [length_cons] at hlist
          refine Fuel.bind_ne_out (ih.2 (by omega)) ?_
          intro q
          exact Fuel.bind_ne_out (applyUnary_ne_fuel _ _) fun v => by simp
      · exact ⟨fun r hr => hprimary.shrinks hr, hprimary.enough⟩
  exact ⟨fun hr => (hunary _).1 _ hr, fun hlist => (hunary _).2 hlist⟩

theorem levelReader_bounded (h : Bounded expression n) (k : Nat) :
    Bounded (levelReader ctx strtod expression (n + 1) k) (n + 1) := by
  induction k with
  | zero => exact preprocessUnary_bounded ctx strtod h
  | succ k ih => exact readLevel_bounded _ ih

theorem preprocessConditional_bounded (h : Bounded expression n) :
    Bounded (preprocessConditional ctx strtod expression (n + 1)) (n + 1) :=
  readConditional_bounded (levelReader_bounded ctx strtod h 10) h (le_refl _)

theorem preprocessExpression_bounded (n : Nat) :
    Bounded (preprocessExpression ctx strtod n) n := by
  induction n with
  | zero =>
    exact ⟨fun hr => absurd hr (by simp [preprocessExpression]),
      fun hlist => absurd hlist (by simp)⟩
  | succ n ih => exact readCommas_bounded (preprocessConditional_bounded ctx strtod ih) (le_refl _)

/-- Every reader consumes a token and has steps enough. -/
theorem readerAt_bounded (n k : Nat) : Bounded (readerAt ctx strtod n k) (n + 1) := by
  have h := preprocessExpression_bounded ctx strtod n
  unfold readerAt
  split
  · exact preprocessExpression_bounded ctx strtod (n + 1)
  · split
    · exact preprocessConditional_bounded ctx strtod h
    · exact levelReader_bounded ctx strtod h k

end Readers

end Kcs.Preprocessor
