import Kcs.Preprocessor.ConditionReader

/-!
# Constant expressions in a directive

The constant expressions of C over the tokens of an `#if` or `#elif` directive, after
macro expansion, and what the evaluator makes of them.

Main results:

- Theorem {lit}`readerAt_eq`: on an expression without the forms that the evaluator
  groups or types in its own way, a reader computes the strict value and goes on
  with the rest.
-/

namespace Kcs.Preprocessor

open IntMax List

/-! ## Expressions -/

/-- The token types of identifiers and keywords. -/
def isName (t : TokenType) : Bool :=
  t = .identifier || (basicToken t).isExpandable || t = .bool || t = .alignof || t = .noreturn

/-- The integer constants, with the numbers that they stand for in a directive. -/
def NumberConstant (text : List Char) (n : IntMax.Number) : Prop :=
  ∃ base value suffix signed, IntegerConstant text base value suffix ∧
    constantSigned base value suffix = some signed ∧ n = .ofInt signed value

/-- The expressions of C by level of precedence: 0 are the unary expressions, 1 to 10 the
levels of binary operators, which group from the left, 11 are the conditional and
12 the comma expressions.  Identifiers that are left stand for zero. -/
inductive IsExpression : Nat → List Token → Expr → Prop where
  | number {t : Token} {n : IntMax.Number} (ht : t.token = .prepNumber)
    (h : NumberConstant t.str n) :
    IsExpression 0 [t] (.literal n)
  | char {t : Token} {v : Int} (ht : t.token = .prepChar) (h : CharConstant t.str v) :
    IsExpression 0 [t] (.literal (.ofInt true v))
  | name {t : Token} (ht : isName t.token = true) : IsExpression 0 [t] (.literal ⟨true, 0⟩)
  | paren {l r : Token} {toks : List Token} {e : Expr} (hl : l.token = .openParen)
    (hr : r.token = .closeParen) (h : IsExpression 12 toks e) :
    IsExpression 0 (l :: (toks ++ [r])) (.paren e)
  | unary {t : Token} {op : UnaryOp} {toks : List Token} {e : Expr}
    (ht : unaryOperator t.token = some op) (h : IsExpression 0 toks e) :
    IsExpression 0 (t :: toks) (.unary op e)
  | lift {k : Nat} {toks : List Token} {e : Expr} (hk : k < 12) (h : IsExpression k toks e) :
    IsExpression (k + 1) toks e
  | binary {k : Nat} {t : Token} {op : BinaryOp} {left right : List Token} {a b : Expr}
    (ht : levelOperator (k + 1) t.token = some op) (hl : IsExpression (k + 1) left a)
    (hr : IsExpression k right b) : IsExpression (k + 1) (left ++ t :: right) (.binary op a b)
  | cond {q s : Token} {first second third : List Token} {c a b : Expr}
    (hq : q.token = .question) (hs : s.token = .colon) (hc : IsExpression 10 first c)
    (ha : IsExpression 12 second a) (hb : IsExpression 11 third b) :
    IsExpression 11 (first ++ q :: (second ++ s :: third)) (.cond c a b)
  | comma {t : Token} {left right : List Token} {a b : Expr} (ht : t.token = .comma)
    (hl : IsExpression 12 left a) (hr : IsExpression 11 right b) :
    IsExpression 12 (left ++ t :: right) (.comma a b)

variable {toks : List Token} {e : Expr}

theorem IsExpression.lift_to {k j : Nat}
    (h : IsExpression k toks e) (hkj : k ≤ j) (hj : j ≤ 12) : IsExpression j toks e := by
  induction j, hkj using Nat.le_induction with
  | base => exact h
  | succ j _ ih => exact .lift (by omega) (ih (by omega))

theorem IsExpression.ne_nil {k : Nat}
    (h : IsExpression k toks e) : toks ≠ [] := by
  induction h with
  | lift _ _ ih => exact ih
  | number | char | name | paren | unary => exact cons_ne_nil _ _
  | binary | cond | comma => simp

/-- The level of the outermost operator. -/
def exprLevel : Expr → Nat
  | .binary op _ _ => opLevel op
  | .cond .. => 11
  | .comma .. => 12
  | _ => 0

/-- The levels at which the evaluator does not group from the left. -/
def groupsOtherwise (k : Nat) : Bool := k = 5 || k = 8

/-- The expressions without a chain of equality operators or of inclusive ors, without a
shift of a signed number by an unsigned one, and without the negation of an
unsigned number. -/
def regular : Expr → Bool
  | .literal _ => true
  | .unary op a => (op ≠ .not || a.signed) && regular a
  | .binary op a b =>
    (!op.isShift || !a.signed || b.signed) &&
      (!groupsOtherwise (opLevel op) || exprLevel a ≠ opLevel op) && regular a && regular b
  | .cond c a b => regular c && regular a && regular b
  | .comma a b => regular a && regular b
  | .paren a => regular a

/-- A token whose constant is read as C reads it, or a name that is no macro and that
may stand in a directive. -/
structure PlainToken (ctx : MacroContext) (t : Token) : Prop where
  number : t.token = .prepNumber → PlainNumber t.str
  char : t.token = .prepChar → PlainChar t.str
  name : isName t.token = true →
    (t.token = .identifier ∨ t.isExpandable = true) ∧ macroDefinition ctx t.str = none

/-! ## Operations -/

@[simp]
theorem host_ok {α : Type} (a : α) : host (.ok a : Except Fault α) = .ok a := rfl

@[simp]
theorem host_error {α : Type} (f : Fault) : host (.error f : Except Fault α) = .error (stopOf f) :=
  rfl

theorem host_bind {α β : Type} (x : Except Fault α) (f : α → Except Fault β) :
    host (x.bind f) = (host x).bind fun a => host (f a) := by
  cases x <;> rfl

theorem val_convert_false (n : IntMax.Number) : (n.convert false).val = n.bits.toNat := rfl

theorem shift_count (n : IntMax.Number) :
    (n.val < 0 ∨ 64 ≤ n.val ↔ (n.convert false).val < 0 ∨ 64 ≤ (n.convert false).val) ∧
      (¬(n.val < 0 ∨ 64 ≤ n.val) → (n.convert false).val = n.val) := by
  rw [val_convert_false]
  unfold IntMax.Number.val
  split
  · have hlt := n.bits.isLt
    have := BitVec.toInt_eq_toNat_cond n.bits
    split at this <;> omega
  · simp

theorem applyBinary_eq {op : BinaryOp} {l r : IntMax.Number}
    (h : op.isShift = true → l.signed = true → r.signed = true) :
    applyBinary op l r = host (op.apply l r) := by
  unfold applyBinary BinaryOp.apply bothSigned
  by_cases hshift : op.isShift = true
  · rw [if_pos hshift]
    simp only
    by_cases hl : l.signed = true
    · have hr := h hshift hl
      have hlr : (l.signed && r.signed) = true := by simp [hl, hr]
      rw [hlr, hl]
      have hcl : l.convert true = l := by rw [← hl]; rfl
      have hcr : r.convert true = r := by rw [← hr]; rfl
      rw [hcl, hcr]
    · have hl : l.signed = false := by simpa using hl
      rw [hl, Bool.false_and]
      have hcl : l.convert false = l := by rw [← hl]; rfl
      rw [hcl]
      have hcount := shift_count r
      cases op with
      | shl =>
        simp only [BinaryOp.compute]
        by_cases hneg : l.val < 0
        · simp [hneg]
        · by_cases hrange : r.val < 0 ∨ 64 ≤ r.val
          · rw [if_pos (by tauto), if_pos (by tauto)]
          · rw [if_neg (by tauto), if_neg (by tauto), hcount.2 hrange]
      | shr =>
        simp only [BinaryOp.compute]
        by_cases hrange : r.val < 0 ∨ 64 ≤ r.val
        · rw [if_pos (by tauto), if_pos (by tauto)]
        · rw [if_neg (by tauto), if_neg (by tauto), hcount.2 hrange]
      | _ => exact absurd hshift (by decide)
  · rw [if_neg hshift]

theorem applyUnary_eq {op : UnaryOp} {n : IntMax.Number} (h : op = .not → n.signed = true) :
    applyUnary op n = host (op.apply n) := by
  cases op with
  | not =>
    have hn := h rfl
    simp only [applyUnary, UnaryOp.apply, host, IntMax.Number.ofBool]
    rw [hn]
  | plus | minus | compl => rfl

/-! ## Primary expressions -/

section Readers

variable {ctx : MacroContext} {strtod : List Char → Nat × Bool} {expression : Reader}

variable {rest : List Token} {t : Token}

theorem preprocessPrimary_number {n : IntMax.Number}
    (ht : t.token = .prepNumber) (hplain : PlainNumber t.str) (h : NumberConstant t.str n) :
    preprocessPrimary ctx strtod expression (t :: rest) = .ok (n, rest) := by
  rcases h with ⟨base, value, suffix, signed, hconst, hsigned, rfl⟩
  have hlt : value < 2 ^ 64 := by
    by_contra hge
    rw [constantSigned, if_pos (by omega)] at hsigned
    cases hsigned
  have htype := hplain.signed hconst hlt
  rw [hsigned] at htype
  have hread : convertPreprocessingNumber strtod t.str =
      .ok (.integer (constantIntegerType value suffix (base = 10)) value) :=
    convertPreprocessingNumber_integer_iff.mpr ⟨base, suffix, hconst, hlt, rfl⟩
  simp only [preprocessPrimary, ht, hread, Except.bind, widen, Option.some.inj htype]

theorem preprocessPrimary_char {v : Int}
    (ht : t.token = .prepChar) (hplain : PlainChar t.str) (h : CharConstant t.str v) :
    preprocessPrimary ctx strtod expression (t :: rest) = .ok (.ofInt true v, rest) := by
  have hread := (convertPreprocessingChar_iff hplain).mpr h
  simp only [preprocessPrimary, ht, hread, Except.bind]
  rfl

theorem preprocessPrimary_other (hn : t.token ≠ .prepNumber)
    (hc : t.token ≠ .prepChar) (hp : t.token ≠ .openParen) :
    preprocessPrimary ctx strtod expression (t :: rest) =
      if t.token ≠ .identifier ∧ !t.isExpandable then
        .error (.error "Invalid primary expression '%s' in directive.")
      else if (macroDefinition ctx t.str).isSome then .error .assertion
      else .ok (⟨true, 0⟩, rest) := by
  unfold preprocessPrimary
  simp only

theorem isName_spec {t : TokenType} (h : isName t = true) :
    t ≠ .prepNumber ∧ t ≠ .prepChar ∧ t ≠ .openParen ∧ unaryOperator t = none := by
  refine ⟨?_, ?_, ?_, ?_⟩
  · rintro rfl
    exact absurd h (by decide)
  · rintro rfl
    exact absurd h (by decide)
  · rintro rfl
    exact absurd h (by decide)
  · unfold unaryOperator
    split
    all_goals first
      | exact absurd h (by decide)
      | rfl

theorem preprocessPrimary_name (ht : isName t.token = true)
    (hplain : PlainToken ctx t) :
    preprocessPrimary ctx strtod expression (t :: rest) = .ok (⟨true, 0⟩, rest) := by
  rcases isName_spec ht with ⟨hn, hc, hp, -⟩
  rcases hplain.name ht with ⟨hname, hmacro⟩
  rw [preprocessPrimary_other hn hc hp, if_neg, hmacro]
  · rfl
  · rcases hname with hname | hname
    · simp [hname]
    · simp [hname]

/-! ## What a reader does after an expression -/

variable (ctx strtod)

/-- What a reader goes on with after an expression. -/
def resumeAt (n k : Nat) (v : IntMax.Number) (rest : List Token) :
    Outcome (IntMax.Number × List Token) :=
  if k = 12 then
    match rest with
    | [] => .error .undefined
    | t :: list =>
      if t.token = .comma then readerAt ctx strtod n 12 list else .ok (v, t :: list)
  else if k = 0 ∨ k = 11 then .ok (v, rest)
  else resume (levelShape k) (levelOperator k) (readerAt ctx strtod n (k - 1)) v rest

@[simp]
theorem resumeAt_zero (n : Nat) (v : IntMax.Number) (rest : List Token) :
    resumeAt ctx strtod n 0 v rest = .ok (v, rest) := by
  simp [resumeAt]

@[simp]
theorem resumeAt_conditional (n : Nat) (v : IntMax.Number) (rest : List Token) :
    resumeAt ctx strtod n 11 v rest = .ok (v, rest) := by
  simp [resumeAt]

@[simp]
theorem resumeAt_expression (n : Nat) (v : IntMax.Number) (t : Token) (rest : List Token) :
    resumeAt ctx strtod n 12 v (t :: rest) =
      if t.token = .comma then readerAt ctx strtod n 12 rest else .ok (v, t :: rest) :=
  rfl

theorem resumeAt_succ {k : Nat} (hk : k < 10) (n : Nat) (v : IntMax.Number) (rest : List Token) :
    resumeAt ctx strtod n (k + 1) v rest =
      resume (levelShape (k + 1)) (levelOperator (k + 1)) (readerAt ctx strtod n k) v rest := by
  unfold resumeAt
  rw [if_neg (by omega), if_neg (by omega)]
  rfl

/-- The first token of a list is no operator of a level below a bound. -/
def Clear (k : Nat) (rest : List Token) : Prop :=
  ∀ t ∈ rest.head?, ∀ j, precedence t.token = some j → k ≤ j

variable {ctx strtod} {n k : Nat}

theorem Clear.mono {j : Nat} (h : Clear k rest) (hjk : j ≤ k) :
    Clear j rest :=
  fun t ht i hi => hjk.trans (h t ht i hi)

variable {list : List Token}

theorem readerAt_succ (hk : k < 10) (hlist : list.length ≤ n) :
    readerAt ctx strtod n (k + 1) list =
      (readerAt ctx strtod n k list).bind fun l => resumeAt ctx strtod n (k + 1) l.1 l.2 := by
  have h12 : ¬ k + 1 = 12 := by omega
  have h11 : ¬ k + 1 = 11 := by omega
  have h12' : ¬ k = 12 := by omega
  have h11' : ¬ k = 11 := by omega
  have hbound := levelReader_bounded ctx strtod (preprocessExpression_bounded ctx strtod n) k
  have hlevel : readerAt ctx strtod n k =
      levelReader ctx strtod (preprocessExpression ctx strtod n) (n + 1) k := by
    simp only [readerAt, if_neg h12', if_neg h11']
  simp only [resumeAt, if_neg h12, h11, or_false, Nat.add_one_ne_zero, if_false,
    Nat.add_sub_cancel, hlevel]
  simp only [readerAt, if_neg h12, if_neg h11, levelReader]
  exact readLevel_eq _ hbound (by omega)

/-- A conditional reads an expression of the last binary level and goes on. -/
theorem readerAt_conditional (hlist : list.length ≤ n) :
    readerAt ctx strtod n 11 list =
      (readerAt ctx strtod n 10 list).bind fun a =>
        match a.2 with
        | [] => .error .undefined
        | t :: rest =>
          if t.token = .question then
            (preprocessExpression ctx strtod n rest).bind fun b =>
              (expect .colon b.2).bind fun list =>
                (readerAt ctx strtod n 11 list).bind fun c =>
                  .ok (Expr.select a.1 b.1 c.1, c.2)
          else .ok (a.1, t :: rest) := by
  have hexpr := preprocessExpression_bounded ctx strtod n
  have hbound : Bounded (preprocessLogicalOr ctx strtod (preprocessExpression ctx strtod n)
      (n + 1)) (n + 1) := levelReader_bounded ctx strtod hexpr 10
  have hread : ∀ list, readerAt ctx strtod n 11 list =
      readConditional (preprocessExpression ctx strtod n)
        (preprocessLogicalOr ctx strtod (preprocessExpression ctx strtod n) (n + 1))
        (n + 1) list := fun list => rfl
  have hten : readerAt ctx strtod n 10 =
      preprocessLogicalOr ctx strtod (preprocessExpression ctx strtod n) (n + 1) := rfl
  rw [hten, hread, readConditional]
  cases ha : preprocessLogicalOr ctx strtod (preprocessExpression ctx strtod n) (n + 1) list with
  | error e => rfl
  | ok a =>
    have hlena := hbound.shrinks ha
    simp only [Except.bind]
    cases hrest : a.2 with
    | nil => rfl
    | cons t rest =>
      rw [hrest, length_cons] at hlena
      simp only
      by_cases hq : t.token = .question
      · rw [if_pos hq, if_pos hq]
        cases hb : preprocessExpression ctx strtod n rest with
        | error e => rfl
        | ok b =>
          have hlenb := hexpr.shrinks hb
          simp only
          cases hlist' : expect .colon b.2 with
          | error e => rfl
          | ok list' =>
            have hlenc := expect_length hlist'
            simp only
            rw [hread, readConditional_congr (n := n + 1) hbound hexpr (k := n + 1)
              (by omega) (by omega)]
      · rw [if_neg hq, if_neg hq]

theorem readerAt_expression (hlist : list.length ≤ n) :
    readerAt ctx strtod n 12 list =
      (readerAt ctx strtod n 11 list).bind fun r => resumeAt ctx strtod n 12 r.1 r.2 := by
  have hbound :=
    preprocessConditional_bounded ctx strtod (preprocessExpression_bounded ctx strtod n)
  have hread : ∀ list, readerAt ctx strtod n 12 list =
      readCommas (preprocessConditional ctx strtod (preprocessExpression ctx strtod n) (n + 1))
        (n + 1) list := fun list => rfl
  have heleven : readerAt ctx strtod n 11 =
      preprocessConditional ctx strtod (preprocessExpression ctx strtod n) (n + 1) := rfl
  rw [heleven, hread, readCommas]
  cases hr : preprocessConditional ctx strtod (preprocessExpression ctx strtod n) (n + 1) list with
  | error e => rfl
  | ok r =>
    have hlen := hbound.shrinks hr
    simp only [Except.bind, resumeAt, if_true]
    cases hrest : r.2 with
    | nil => rfl
    | cons t rest =>
      rw [hrest, length_cons] at hlen
      simp only
      by_cases hcomma : t.token = .comma
      · rw [if_pos hcomma, if_pos hcomma, hread]
        exact readCommas_congr hbound (by omega) (by omega)
      · rw [if_neg hcomma, if_neg hcomma]

theorem resumeAt_of_clear (hk : k ≤ 10) {v : IntMax.Number}
    (h : Clear (k + 1) (t :: rest)) :
    resumeAt ctx strtod n k v (t :: rest) = .ok (v, t :: rest) := by
  have h12 : ¬ k = 12 := by omega
  have h11 : ¬ k = 11 := by omega
  unfold resumeAt
  rw [if_neg h12]
  by_cases hzero : k = 0
  · rw [if_pos (Or.inl hzero)]
  · rw [if_neg (by simp [hzero, h11])]
    refine resume_of_none _ ?_
    cases hop : levelOperator k t.token with
    | none => rfl
    | some op =>
      have := h t rfl k (levelOperator_spec hop).1
      omega

/-! ## The value of an expression -/

/-- The list after an expression does not go on with an operator that the evaluator would
take on the right of the last one. -/
def Unchained (k : Nat) (e : Expr) (rest : List Token) : Prop :=
  groupsOtherwise k = true → exprLevel e = k → ∀ t ∈ rest.head?, precedence t.token ≠ some k

/-- The levels whose operators do not follow an expression: a conditional is not followed
by a question mark either. -/
def clearLevel (k : Nat) : Nat := if k = 11 then 12 else k

variable (ctx strtod) in
/-- A level with one associative operator may take its own kind of expression on the
right. -/
theorem resume_recursion_assoc (hk : k < 10) (hshape : levelShape (k + 1) = .recursion)
    {t : TokenType} {op : BinaryOp} (ht : levelOperator (k + 1) t = some op) (x y : IntMax.Number)
    {u : Token} (rest : List Token)
    (hchain : groupsOtherwise (k + 1) = true → precedence u.token ≠ some (k + 1)) :
    ((resumeAt ctx strtod n (k + 1) y (u :: rest)).bind fun r =>
        (applyBinary op x r.1).bind fun v => .ok (v, r.2)) =
      (applyBinary op x y).bind fun v => resumeAt ctx strtod n (k + 1) v (u :: rest) := by
  simp only [resumeAt_succ ctx strtod hk, hshape]
  cases hu : levelOperator (k + 1) u.token with
  | none =>
    simp only [resume_of_none .recursion hu, Except.bind]
  | some op' =>
    -- The level has one operator, which is associative.
    have hone : op' = op ∧ op.isAssociative = true ∧ op.isShift = false := by
      by_cases hgroup : groupsOtherwise (k + 1) = true
      · exact absurd (levelOperator_spec hu).1 (hchain hgroup)
      · have hlevel : k + 1 = 6 ∨ k + 1 = 7 ∨ k + 1 = 9 ∨ k + 1 = 10 := by
          have : k + 1 ≠ 5 ∧ k + 1 ≠ 8 := by simpa [groupsOtherwise] using hgroup
          have hshapes : ∀ j : Fin 10, levelShape (j + 1) = .recursion →
              j.val + 1 = 5 ∨ j.val + 1 = 6 ∨ j.val + 1 = 7 ∨ j.val + 1 = 9 ∨ j.val + 1 = 10 := by
            decide
          have := hshapes ⟨k, hk⟩ hshape
          simp only at this
          omega
        rcases hlevel with h | h | h | h
        all_goals
          rw [h] at ht hu
          simp only [levelOperator, oneOperator, Option.ite_none_right_eq_some,
            Option.some.injEq] at ht hu
          rw [← ht.2, ← hu.2]
          decide
    rcases hone with ⟨rfl, hassoc, hshift⟩
    have happly : ∀ a b, applyBinary op' a b = host (op'.apply a b) :=
      fun a b => applyBinary_eq fun h => absurd h (by simp [hshift])
    have hb := readerAt_bounded ctx strtod n k
    rcases BinaryOp.apply_eq_ok hassoc x y with ⟨v, hv⟩
    rw [happly x y, hv]
    show _ = resume .recursion (levelOperator (k + 1)) (readerAt ctx strtod n k) v (u :: rest)
    rw [resume_recursion hb hu, resume_recursion hb hu]
    cases (readerAt ctx strtod n k rest).bind fun q =>
        resume .recursion (levelOperator (k + 1)) (readerAt ctx strtod n k) q.1 q.2 with
    | error e => rfl
    | ok q =>
      have hassoc' := BinaryOp.apply_assoc hassoc x y q.1
      rcases BinaryOp.apply_eq_ok hassoc y q.1 with ⟨w, hw⟩
      rw [hv, hw] at hassoc'
      simp only [Except.bind] at hassoc' ⊢
      simp only [happly, hw, host, hassoc']

/-- On a regular expression of plain tokens a reader computes the strict value and goes on
with the rest. -/
theorem readerAt_eq (h : IsExpression k toks e)
    (hregular : regular e = true) (hplain : ∀ t ∈ toks, PlainToken ctx t) (u : Token)
    (rest : List Token) (hlen : (toks ++ u :: rest).length ≤ n)
    (hclear : Clear (clearLevel k) (u :: rest)) (hchain : Unchained k e (u :: rest)) :
    readerAt ctx strtod n k (toks ++ u :: rest) =
      (host e.strict).bind fun v => resumeAt ctx strtod n k v (u :: rest) := by
  induction h generalizing n u rest with
  | @number t m ht h =>
    have hun : unaryOperator t.token = none := by rw [ht]; rfl
    have hp := (hplain t mem_cons_self).number ht
    show preprocessUnary ctx strtod _ (t :: u :: rest) = _
    rw [preprocessUnary, hun]
    exact preprocessPrimary_number ht hp h
  | @char t v ht h =>
    have hun : unaryOperator t.token = none := by rw [ht]; rfl
    have hp := (hplain t mem_cons_self).char ht
    show preprocessUnary ctx strtod _ (t :: u :: rest) = _
    rw [preprocessUnary, hun]
    exact preprocessPrimary_char ht hp h
  | @name t ht =>
    show preprocessUnary ctx strtod _ (t :: u :: rest) = _
    rw [preprocessUnary, (isName_spec ht).2.2.2]
    exact preprocessPrimary_name ht (hplain t mem_cons_self)
  | @paren l r toks e hl hr h ih =>
    have hun : unaryOperator l.token = none := by rw [hl]; rfl
    cases n with
    | zero => simp at hlen
    | succ n =>
      have hread := ih (n := n) hregular
        (fun t ht => hplain t (by simp [ht])) r (u :: rest) (by simp at hlen ⊢; omega)
        (by
          intro t ht j hj
          cases ht
          rw [hr] at hj
          cases hj)
        (fun hgroup => absurd hgroup (by decide))
      have hexpr : preprocessExpression ctx strtod (n + 1) = readerAt ctx strtod n 12 := rfl
      show preprocessUnary ctx strtod (preprocessExpression ctx strtod (n + 1))
        (l :: ((toks ++ [r]) ++ u :: rest)) = _
      rw [preprocessUnary, hun, append_assoc]
      simp only [preprocessPrimary, hl, hexpr, singleton_append, hread]
      cases he : e.strict with
      | error f => simp only [Expr.strict, he, host_error, Except.bind]
      | ok v =>
        have hcomma : r.token ≠ .comma := by rw [hr]; decide
        have hexpect : expect .closeParen (r :: u :: rest) = .ok (u :: rest) := by
          simp [expect, hr]
        simp only [Expr.strict, he, host_ok, Except.bind, resumeAt_expression, resumeAt_zero,
          if_neg hcomma, hexpect]
  | @unary t op toks e ht h ih =>
    simp only [regular, Bool.and_eq_true] at hregular
    have hread := ih (n := n) hregular.2
      (fun t ht => hplain t (mem_cons_of_mem _ ht)) u rest (by simp at hlen ⊢; omega) hclear
      (fun hgroup => absurd hgroup (by decide))
    have hunary : ∀ list, readerAt ctx strtod n 0 list =
        preprocessUnary ctx strtod (preprocessExpression ctx strtod n) list := fun list => rfl
    rw [hunary] at hread ⊢
    rw [cons_append, preprocessUnary, ht]
    simp only [hread, Expr.strict, host_bind]
    cases he : e.strict with
    | error f => rfl
    | ok v =>
      have hnot : op = .not → v.signed = true := by
        intro hop
        rw [Expr.signed_of_strict he]
        simpa [hop] using hregular.1
      simp only [host_ok, Except.bind, resumeAt_zero]
      rw [applyUnary_eq hnot]
  | @lift j toks e hj h ih =>
    by_cases hten : j < 10
    · -- Another level of binary operators, none of which follows.
      have hj11 : ¬ j = 11 := by omega
      have hj12 : ¬ j + 1 = 11 := by omega
      rw [clearLevel, if_neg hj12] at hclear
      have hread := ih hregular hplain u rest hlen (by
        rw [clearLevel, if_neg hj11]
        exact hclear.mono (by omega)) (by
        intro _ _ t ht hprec
        have := hclear t ht j hprec
        omega)
      rw [readerAt_succ hten hlen, hread]
      cases e.strict with
      | error f => rfl
      | ok v =>
        simp only [host_ok, Except.bind]
        rw [resumeAt_of_clear (by omega) hclear]
    · rcases (by omega : j = 10 ∨ j = 11) with rfl | rfl
      · have hread := ih hregular hplain u rest hlen (hclear.mono (by decide))
          (fun hgroup => absurd hgroup (by decide))
        rw [readerAt_conditional hlen, hread]
        cases e.strict with
        | error f => rfl
        | ok v =>
          have hquestion : u.token ≠ .question := by
            intro hq
            have := hclear u rfl 11 (by rw [hq]; rfl)
            exact absurd this (by decide)
          simp only [host_ok, Except.bind]
          rw [resumeAt_of_clear (by omega) (hclear.mono (by decide))]
          simp only [if_neg hquestion]
          rfl
      · have hread :=
          ih hregular hplain u rest hlen hclear (fun hgroup => absurd hgroup (by decide))
        rw [readerAt_expression hlen, hread]
        cases e.strict with
        | error f => rfl
        | ok v => rfl
  | @binary j t op left right a b ht hl hr ihl ihr =>
    rcases levelOperator_spec ht with ⟨hprec, hlevel⟩
    have hj : j < 10 := by
      have hmax : opLevel op ≤ 10 := by cases op <;> decide
      omega
    have hj12 : ¬ j + 1 = 11 := by omega
    have hj11 : ¬ j = 11 := by omega
    simp only [regular, Bool.and_eq_true] at hregular
    rcases hregular with ⟨⟨⟨hshift, hgroup⟩, hrega⟩, hregb⟩
    rw [clearLevel, if_neg hj12] at hclear
    have happend : left ++ t :: right ++ u :: rest = left ++ t :: (right ++ u :: rest) := by simp
    have hleft := ihl (n := n) hrega
      (fun t ht => hplain t (by simp [ht])) t (right ++ u :: rest) (by simpa using hlen)
      (by
        rw [clearLevel, if_neg hj12]
        intro s hs i hi
        cases hs
        rw [hprec] at hi
        cases hi
        exact le_refl _)
      (by
        intro hg hlev
        rw [hlevel, hg, hlev] at hgroup
        exact absurd hgroup (by simp))
    have hright := ihr (n := n) hregb
      (fun t ht => hplain t (by simp [ht])) u rest (by simp at hlen ⊢; omega)
      (by
        rw [clearLevel, if_neg hj11]
        exact hclear.mono (by omega))
      (by
        intro _ _ s hs hp
        have := hclear s hs j hp
        omega)
    rw [happend, hleft]
    simp only [Expr.strict, host_bind]
    cases ha : a.strict with
    | error f => rfl
    | ok x =>
      simp only [host_ok, Except.bind]
      rw [resumeAt_succ ctx strtod hj]
      have hbound := readerAt_bounded ctx strtod n j
      have hoperand : readerAt ctx strtod n j (right ++ u :: rest) =
          (host b.strict).bind fun y => .ok (y, u :: rest) := by
        rw [hright]
        congr 1
        ext y
        rw [resumeAt_of_clear (by omega) hclear]
      have happly : ∀ y, b.strict = .ok y → applyBinary op x y = host (op.apply x y) := by
        intro y hb
        refine applyBinary_eq ?_
        intro hsh
        rw [Expr.signed_of_strict ha, Expr.signed_of_strict hb]
        intro hsa
        simpa [hsh, hsa] using hshift
      cases hshape : levelShape (j + 1) with
      | loop =>
        rw [resume_loop hbound ht, hoperand]
        cases hb : b.strict with
        | error f => rfl
        | ok y =>
          simp only [host_ok, Except.bind, happly y hb, resumeAt_succ ctx strtod hj, hshape]
      | recursion =>
        rw [resume_recursion hbound ht, hoperand]
        cases hb : b.strict with
        | error f => rfl
        | ok y =>
          have hassoc := resume_recursion_assoc ctx strtod (n := n) hj hshape ht x y rest
            (fun hg => hchain hg hlevel u rfl)
          rw [happly y hb] at hassoc
          simp only [resumeAt_succ ctx strtod hj, hshape] at hassoc ⊢
          exact hassoc
      | once =>
        rw [resume_once ht, hoperand]
        have hnone : levelOperator (j + 1) u.token = none := by
          cases hu : levelOperator (j + 1) u.token with
          | none => rfl
          | some op' =>
            have hgroups : groupsOtherwise (j + 1) = true := by
              have honce : ∀ i : Fin 10, levelShape (i + 1) = .once →
                  groupsOtherwise (i.val + 1) = true := by
                decide
              exact honce ⟨j, hj⟩ hshape
            exact absurd (levelOperator_spec hu).1 (hchain hgroups hlevel u rfl)
        cases hb : b.strict with
        | error f => rfl
        | ok y =>
          simp only [host_ok, Except.bind, happly y hb, resumeAt_succ ctx strtod hj, hshape,
            resume_of_none .once hnone]
  | @cond q s first second third c a b hq hs hc ha hb ihc iha ihb =>
    simp only [regular, Bool.and_eq_true] at hregular
    have happend : first ++ q :: (second ++ s :: third) ++ u :: rest =
        first ++ q :: (second ++ s :: (third ++ u :: rest)) := by simp
    have hlen' := hlen
    simp only [length_append, length_cons] at hlen'
    have hfirst := ihc (n := n) hregular.1.1
      (fun t ht => hplain t (by simp [ht])) q (second ++ s :: (third ++ u :: rest))
      (by simp only [length_append, length_cons]; omega)
      (by
        intro t ht i hi
        cases ht
        rw [hq] at hi
        cases hi
        decide)
      (fun hgroup => absurd hgroup (by decide))
    have hthird := ihb (n := n) hregular.2
      (fun t ht => hplain t (by simp [ht])) u rest
      (by simp only [length_append, length_cons]; omega) hclear
      (fun hgroup => absurd hgroup (by decide))
    rw [happend, readerAt_conditional (by rw [← happend]; exact hlen), hfirst]
    simp only [Expr.strict, host_bind]
    cases hcv : c.strict with
    | error f => rfl
    | ok x =>
      have hclearq : Clear 11 (q :: (second ++ s :: (third ++ u :: rest))) := by
        intro t ht i hi
        cases ht
        rw [hq] at hi
        cases hi
        exact le_refl _
      simp only [host_ok, Except.bind]
      rw [resumeAt_of_clear (le_refl 10) hclearq]
      simp only [if_pos hq]
      cases n with
      | zero => omega
      | succ n =>
        have hexpr : preprocessExpression ctx strtod (n + 1) = readerAt ctx strtod n 12 := rfl
        have hsecond := iha (n := n) hregular.1.2
          (fun t ht => hplain t (by simp [ht])) s (third ++ u :: rest)
          (by simp only [length_append, length_cons]; omega)
          (by
            intro t ht i hi
            cases ht
            rw [hs] at hi
            cases hi)
          (fun hgroup => absurd hgroup (by decide))
        rw [hexpr, hsecond]
        cases hav : a.strict with
        | error f => rfl
        | ok y =>
          have hcomma : s.token ≠ .comma := by rw [hs]; decide
          have hexpect : expect .colon (s :: (third ++ u :: rest)) = .ok (third ++ u :: rest) := by
            simp [expect, hs]
          simp only [host_ok, Except.bind, resumeAt_expression, if_neg hcomma, hexpect, hthird]
          cases hbv : b.strict with
          | error f => rfl
          | ok z => simp only [host_ok, resumeAt_conditional]
  | @comma t left right a b ht hl hr ihl ihr =>
    simp only [regular, Bool.and_eq_true] at hregular
    have happend : left ++ t :: right ++ u :: rest = left ++ t :: (right ++ u :: rest) := by simp
    have hlen' := hlen
    simp only [length_append, length_cons] at hlen'
    have hleft := ihl (n := n) hregular.1
      (fun t ht => hplain t (by simp [ht])) t (right ++ u :: rest)
      (by simp only [length_append, length_cons]; omega)
      (by
        intro s hs i hi
        cases hs
        rw [ht] at hi
        cases hi
        exact le_refl _)
      (fun hgroup => absurd hgroup (by decide))
    have hright := ihr (n := n) hregular.2
      (fun t ht => hplain t (by simp [ht])) u rest
      (by simp only [length_append, length_cons]; omega) hclear
      (fun hgroup => absurd hgroup (by decide))
    rw [happend, hleft]
    simp only [Expr.strict, host_bind]
    cases hav : a.strict with
    | error f => rfl
    | ok x =>
      simp only [host_ok, Except.bind, resumeAt_expression, if_pos ht]
      rw [readerAt_expression (by simp only [length_append, length_cons]; omega), hright]
      cases hbv : b.strict with
      | error f => rfl
      | ok y => simp only [host_ok, Except.bind, resumeAt_conditional, resumeAt_expression]

end Readers

end Kcs.Preprocessor
