import Kcs.Preprocessor.ConditionSyntax

/-!
# The condition of a directive is a constant expression

What the evaluator reads is a constant expression, followed by a token at which it
stops.  With the value of regular expressions this says for which lists of tokens
the result is the one of C.

Main results:

- Theorem {lit}`evaluate_correct`: the evaluator decides a list of tokens as C
  does, when the list is none of those that it reads in its own way.
-/

namespace Kcs.Preprocessor

open IntMax List

/-! ## Where the evaluator stops -/

/-- Tokens that may be expanded are names, as the tokenizer makes them. -/
def WellFormed (t : Token) : Prop := t.isExpandable = true → isName t.token = true

/-- The tokens end with an inclusive or and its right operand. -/
def EndsWithOr (toks : List Token) : Prop :=
  ∃ front u last e, toks = front ++ u :: last ∧ u.token = .or ∧ IsExpression 7 last e

/-- The evaluator does not go on after an expression of a level: the next token is no
operator of the level or below, or it is a second inclusive or. -/
def StopsAt (k : Nat) (toks rest : List Token) : Prop :=
  ∀ t ∈ rest.head?, (∀ j, precedence t.token = some j → k < j) ∨
    (t.token = .or ∧ EndsWithOr toks)

variable {toks rest : List Token}

theorem StopsAt.append {k : Nat} (h : StopsAt k toks rest)
    (front : List Token) : StopsAt k (front ++ toks) rest := by
  intro t ht
  rcases h t ht with h | ⟨ht, list, u, last, e, rfl, hu, he⟩
  · exact Or.inl h
  · exact Or.inr ⟨ht, front ++ list, u, last, e, by simp, hu, he⟩

theorem StopsAt.succ {k : Nat} (h : StopsAt k toks rest)
    (hne : ∀ t ∈ rest.head?, precedence t.token ≠ some (k + 1)) : StopsAt (k + 1) toks rest := by
  intro t ht
  rcases h t ht with h | h
  · refine Or.inl ?_
    intro j hj
    have hlt := h j hj
    have : j ≠ k + 1 := by
      rintro rfl
      exact hne t ht hj
    omega
  · exact Or.inr h

theorem precedence_pos {t : TokenType} {j : Nat} (h : precedence t = some j) : 0 < j := by
  unfold precedence at h
  split at h <;> cases h <;> decide

theorem token_of_precedence {t : TokenType} {j : Nat} (h : precedence t = some j) :
    (j = 8 → t = .or) ∧ (j = 11 → t = .question) ∧ (j = 12 → t = .comma) := by
  unfold precedence at h
  split at h <;> cases h <;> simp

theorem isExpression_append {k : Nat} {t : Token} {op : BinaryOp}
    (ht : levelOperator (k + 1) t.token = some op) {left right : List Token} {a b : Expr}
    (hl : IsExpression (k + 1) left a) (hr : IsExpression (k + 1) right b) :
    ∃ e, IsExpression (k + 1) (left ++ t :: right) e := by
  have hk : k < 10 := by
    have hmax : opLevel op ≤ 10 := by cases op <;> decide
    have := (levelOperator_spec ht).2
    omega
  generalize hj : k + 1 = j at hr
  induction hr with
  | number | char | name | paren | unary => omega
  | lift hlt h ih =>
    cases hj
    exact ⟨_, .binary ht hl h⟩
  | @binary i u op' first second c d hu hfirst hsecond ihf ihs =>
    cases hj
    rcases ihf rfl with ⟨e, he⟩
    have happend : left ++ t :: (first ++ u :: second) = (left ++ t :: first) ++ u :: second := by
      simp
    rw [happend]
    exact ⟨_, .binary hu he hsecond⟩
  | cond | comma => omega

/-- A reader takes an expression of a level, and stops there. -/
def Accepts (ctx : MacroContext) (k : Nat) (p : Reader) : Prop :=
  ∀ {list r}, p list = .ok r → (∀ t ∈ list, PlainToken ctx t ∧ WellFormed t) →
    (0 < k → r.2 ≠ []) ∧ ∃ toks e, list = toks ++ r.2 ∧ IsExpression k toks e ∧
      StopsAt k toks r.2

section Levels

variable {ctx : MacroContext} {operand expression : Reader} {k m : Nat}

variable {list : List Token} {r : IntMax.Number × List Token}

theorem readLoop_accepts (h : Accepts ctx k operand) (hk : k < 10) {l : IntMax.Number}
    {a : Expr}
    (hr : readLoop (levelOperator (k + 1)) operand m l list = .ok r)
    (hplain : ∀ t ∈ list, PlainToken ctx t ∧ WellFormed t) (consumed : List Token)
    (ha : IsExpression (k + 1) consumed a) (hstop : StopsAt k consumed list) :
    r.2 ≠ [] ∧ ∃ toks e, consumed ++ list = toks ++ r.2 ∧ IsExpression (k + 1) toks e ∧
      StopsAt (k + 1) toks r.2 := by
  induction m generalizing l list consumed a with
  | zero => exact absurd hr (by simp [readLoop])
  | succ m ih =>
    cases list with
    | nil => exact absurd hr (by simp [readLoop])
    | cons t list =>
      unfold readLoop at hr
      split at hr
      · rename_i hnone
        cases hr
        refine ⟨cons_ne_nil t list, consumed, a, rfl, ha, hstop.succ ?_⟩
        intro u hu hprec
        cases hu
        rcases levelOperator_of_precedence hprec (by omega) with ⟨op, hop⟩
        rw [hop] at hnone
        cases hnone
      · rename_i op hop
        rcases Except.bind_eq_ok_iff.mp hr with ⟨q, hq, hr'⟩
        rcases Except.bind_eq_ok_iff.mp hr' with ⟨v, -, hr'⟩
        rcases h hq (fun t ht => hplain t (mem_cons_of_mem _ ht)) with
          ⟨-, toks, b, rfl, hb, hstopb⟩
        have hnext := ih hr' (fun t ht => hplain t (by simp [ht])) (consumed ++ t :: toks)
          (.binary hop ha hb) (by
            have := hstopb.append (consumed ++ [t])
            simpa using this)
        simpa using hnext

theorem readRight_accepts {next : Reader} {l : IntMax.Number} {list consumed : List Token}
    {a : Expr} (hk : k < 10)
    (hr : readRight (levelOperator (k + 1)) next l list = .ok r)
    (ha : IsExpression k consumed a) (hstop : StopsAt k consumed list)
    (hnext : ∀ {t op rest q}, list = t :: rest → levelOperator (k + 1) t.token = some op →
      next rest = .ok q → q.2 ≠ [] ∧ ∃ toks e, rest = toks ++ q.2 ∧
        IsExpression (k + 1) toks e ∧ StopsAt (k + 1) (consumed ++ t :: toks) q.2) :
    r.2 ≠ [] ∧ ∃ toks e, consumed ++ list = toks ++ r.2 ∧ IsExpression (k + 1) toks e ∧
      StopsAt (k + 1) toks r.2 := by
  have hlift : IsExpression (k + 1) consumed a := .lift (by omega) ha
  cases list with
  | nil => exact absurd hr (by simp [readRight])
  | cons t list =>
    simp only [readRight] at hr
    split at hr
    · rename_i hnone
      cases hr
      refine ⟨cons_ne_nil t list, consumed, a, rfl, hlift, hstop.succ ?_⟩
      intro u hu hprec
      cases hu
      rcases levelOperator_of_precedence hprec (by omega) with ⟨op, hop⟩
      rw [hop] at hnone
      cases hnone
    · rename_i op hop
      rcases Except.bind_eq_ok_iff.mp hr with ⟨q, hq, hr'⟩
      rcases Except.bind_eq_ok_iff.mp hr' with ⟨v, -, hr'⟩
      cases hr'
      rcases hnext rfl hop hq with ⟨hne, toks, b, rfl, hb, hstopb⟩
      rcases isExpression_append hop hlift hb with ⟨e, he⟩
      exact ⟨hne, consumed ++ t :: toks, e, by simp, he, hstopb⟩

theorem readRecursive_accepts (h : Accepts ctx k operand) (hk : k < 10) :
    Accepts ctx (k + 1) (readRecursive (levelOperator (k + 1)) operand m) := by
  induction m with
  | zero => exact fun hr => absurd hr (by simp [readRecursive])
  | succ m ih =>
    intro list r hr hplain
    rcases Except.bind_eq_ok_iff.mp hr with ⟨q, hq, hr'⟩
    rcases h hq hplain with ⟨-, first, a, rfl, ha, hstop⟩
    have hright := readRight_accepts hk hr' ha hstop (by
      intro t op rest p hrest hop hp
      rcases ih hp (fun u hu => hplain u (by simp [hrest, hu])) with
        ⟨hne, toks, e, heq, he, hstope⟩
      refine ⟨hne (by omega), toks, e, heq, he, ?_⟩
      simpa using hstope.append (first ++ [t]))
    exact ⟨fun _ => hright.1, hright.2⟩

theorem readLevel_accepts (h : Accepts ctx k operand) (hk : k < 10) {n : Nat} :
    Accepts ctx (k + 1)
      (readLevel (levelShape (k + 1)) (levelOperator (k + 1)) operand n) := by
  cases hshape : levelShape (k + 1) with
  | loop =>
    intro list r hr hplain
    rcases Except.bind_eq_ok_iff.mp hr with ⟨q, hq, hr'⟩
    rcases h hq hplain with ⟨-, first, a, rfl, ha, hstop⟩
    have hloop := readLoop_accepts h hk hr' (fun t ht => hplain t (by simp [ht])) first
      (.lift (by omega) ha) hstop
    exact ⟨fun _ => hloop.1, hloop.2⟩
  | recursion => exact readRecursive_accepts h hk
  | once =>
    -- This is the level of inclusive or.
    have height : k + 1 = 8 := by
      have honce : ∀ i : Fin 10, levelShape (i + 1) = .once → i.val + 1 = 8 := by decide
      exact honce ⟨k, hk⟩ hshape
    intro list r hr hplain
    rcases Except.bind_eq_ok_iff.mp hr with ⟨q, hq, hr'⟩
    rcases h hq hplain with ⟨-, first, a, rfl, ha, hstop⟩
    have hright := readRight_accepts hk hr' ha hstop (by
      intro t op rest p hrest hop hp
      rcases h hp (fun u hu => hplain u (by simp [hrest, hu])) with ⟨hne, toks, e, heq, he, hstope⟩
      have hk0 : 0 < k := by omega
      refine ⟨hne hk0, toks, e, heq, .lift (by omega) he, ?_⟩
      intro u hu
      rcases hstope u hu with hnone | ⟨hor, front, w, last, f, hsplit, hw, hf⟩
      · by_cases hprec : precedence u.token = some (k + 1)
        · have hor : u.token = .or := (token_of_precedence hprec).1 height
          have hort : t.token = .or := (token_of_precedence (levelOperator_spec hop).1).1 height
          have hk7 : k = 7 := by omega
          subst hk7
          exact Or.inr ⟨hor, first, t, toks, e, rfl, hort, he⟩
        · refine Or.inl ?_
          intro j hj
          have hlt := hnone j hj
          have : j ≠ k + 1 := by
            rintro rfl
            exact hprec hj
          omega
      · exact Or.inr ⟨hor, first ++ t :: front, w, last, f, by simp [hsplit], hw, hf⟩)
    exact ⟨fun _ => hright.1, hright.2⟩

theorem expect_spec {token : TokenType}
    (h : expect token list = .ok rest) : ∃ t, list = t :: rest ∧ t.token = token := by
  cases list with
  | nil => exact absurd h (by simp [expect])
  | cons t list =>
    simp only [expect] at h
    split at h
    · exact absurd h (by simp)
    · rename_i ht
      cases h
      exact ⟨t, rfl, not_not.mp ht⟩

theorem readConditional_accepts (h : Accepts ctx 10 operand) (he : Accepts ctx 12 expression) :
    Accepts ctx 11 (readConditional expression operand m) := by
  induction m with
  | zero => exact fun hr => absurd hr (by simp [readConditional])
  | succ m ih =>
    intro list r hr hplain
    rcases Except.bind_eq_ok_iff.mp hr with ⟨a, ha, hr'⟩
    rcases h ha hplain with ⟨-, first, c, rfl, hc, hstop⟩
    cases hrest : a.2 with
    | nil =>
      rw [hrest] at hr'
      exact absurd hr' (by simp)
    | cons t rest =>
      rw [hrest] at hr' hstop hplain
      simp only at hr'
      by_cases hq : t.token = .question
      · rw [if_pos hq] at hr'
        rcases Except.bind_eq_ok_iff.mp hr' with ⟨b, hb, hr'⟩
        rcases Except.bind_eq_ok_iff.mp hr' with ⟨list', hlist', hr'⟩
        rcases Except.bind_eq_ok_iff.mp hr' with ⟨d, hd, hr'⟩
        cases hr'
        rcases he hb (fun u hu => hplain u (by simp [hu])) with ⟨-, second, e2, rfl, he2, -⟩
        rcases expect_spec hlist' with ⟨s, hs, hcolon⟩
        rcases ih hd (fun u hu => hplain u (by simp [hs, hu])) with
          ⟨hne, third, e3, heq3, he3, hstop3⟩
        refine ⟨fun _ => hne (by omega), first ++ t :: (second ++ s :: third), .cond c e2 e3, ?_,
          .cond hq hcolon hc he2 he3, ?_⟩
        · rw [hs, heq3]
          simp
        · simpa using hstop3.append (first ++ t :: (second ++ [s]))
      · rw [if_neg hq] at hr'
        cases hr'
        refine ⟨fun _ => cons_ne_nil t rest, first, c, rfl, .lift (by omega) hc, hstop.succ ?_⟩
        intro u hu hprec
        cases hu
        exact hq ((token_of_precedence hprec).2.1 rfl)

theorem readCommas_accepts (h : Accepts ctx 11 operand)
    (hr : readCommas operand m list = .ok r)
    (hplain : ∀ t ∈ list, PlainToken ctx t ∧ WellFormed t) (consumed : List Token)
    (hfront : consumed = [] ∨ ∃ front t a, consumed = front ++ [t] ∧ t.token = .comma ∧
      IsExpression 12 front a) :
    r.2 ≠ [] ∧ ∃ toks e, consumed ++ list = toks ++ r.2 ∧ IsExpression 12 toks e ∧
      StopsAt 12 toks r.2 := by
  induction m generalizing list consumed with
  | zero => exact absurd hr (by simp [readCommas])
  | succ m ih =>
    rcases Except.bind_eq_ok_iff.mp hr with ⟨q, hq, hr'⟩
    rcases h hq hplain with ⟨-, toks, b, rfl, hb, hstop⟩
    have hexpr : ∃ e, IsExpression 12 (consumed ++ toks) e := by
      rcases hfront with rfl | ⟨front, t, a, rfl, ht, ha⟩
      · exact ⟨b, .lift (by omega) hb⟩
      · refine ⟨.comma a b, ?_⟩
        have happend : front ++ [t] ++ toks = front ++ t :: toks := by simp
        rw [happend]
        exact .comma ht ha hb
    rcases hexpr with ⟨e, he⟩
    cases hrest : q.2 with
    | nil =>
      rw [hrest] at hr'
      exact absurd hr' (by simp)
    | cons t rest =>
      rw [hrest] at hr' hstop hplain
      simp only at hr'
      by_cases hcomma : t.token = .comma
      · rw [if_pos hcomma] at hr'
        have hnext := ih hr' (fun u hu => hplain u (by simp [hu])) (consumed ++ toks ++ [t])
          (Or.inr ⟨consumed ++ toks, t, e, rfl, hcomma, he⟩)
        simpa using hnext
      · rw [if_neg hcomma] at hr'
        cases hr'
        refine ⟨cons_ne_nil t rest, consumed ++ toks, e, by simp, he,
          (hstop.append consumed).succ ?_⟩
        intro u hu hprec
        cases hu
        exact hcomma ((token_of_precedence hprec).2.2 rfl)

end Levels

section Readers

variable {ctx : MacroContext} {strtod : List Char → Nat × Bool} {expression : Reader}

/-- A primary expression is taken. -/
theorem preprocessPrimary_accepts (h : Accepts ctx 12 expression) :
    Accepts ctx 0 (preprocessPrimary ctx strtod expression) := by
  intro list r hr hplain
  have hstop : ∀ toks rest, StopsAt 0 toks rest :=
    fun toks rest t ht => Or.inl fun j hj => precedence_pos hj
  refine ⟨fun hpos => absurd hpos (by simp), ?_⟩
  cases list with
  | nil => exact absurd hr (by simp [preprocessPrimary])
  | cons t list =>
    have ht := hplain t mem_cons_self
    simp only [preprocessPrimary] at hr
    split at hr
    · rename_i hnum
      rcases Except.bind_eq_ok_iff.mp hr with ⟨q, hq, hr'⟩
      cases q with
      | floating type => exact absurd hr' (by simp)
      | integer type value =>
        cases hr'
        rcases convertPreprocessingNumber_integer_iff.mp hq with
          ⟨base, suffix, hconst, hlt, rfl⟩
        exact ⟨[t], _, rfl, .number hnum ⟨base, value, suffix, _, hconst,
          (ht.1.number hnum).signed hconst hlt, rfl⟩, hstop _ _⟩
    · rename_i hchar
      rcases Except.bind_eq_ok_iff.mp hr with ⟨q, hq, hr'⟩
      cases hr'
      exact ⟨[t], _, rfl, .char hchar ((convertPreprocessingChar_iff (ht.1.char hchar)).mp hq),
        hstop _ _⟩
    · rename_i hparen
      rcases Except.bind_eq_ok_iff.mp hr with ⟨q, hq, hr'⟩
      rcases Except.bind_eq_ok_iff.mp hr' with ⟨rest, hrest, hr'⟩
      cases hr'
      rcases h hq (fun u hu => hplain u (mem_cons_of_mem _ hu)) with ⟨-, toks, e, rfl, he, -⟩
      rcases expect_spec hrest with ⟨s, hs, hclose⟩
      refine ⟨t :: (toks ++ [s]), _, ?_, .paren hparen hclose he, hstop _ _⟩
      rw [hs]
      simp
    · split at hr
      · exact absurd hr (by simp)
      · rename_i hname
        split at hr
        · exact absurd hr (by simp)
        · cases hr
          refine ⟨[t], _, rfl, .name ?_, hstop _ _⟩
          by_cases hid : t.token = .identifier
          · rw [hid]
            rfl
          · exact ht.2 (by simpa [hid] using hname)

theorem preprocessUnary_accepts (h : Accepts ctx 12 expression) :
    Accepts ctx 0 (preprocessUnary ctx strtod expression) := by
  intro list r hr hplain
  refine ⟨fun hpos => absurd hpos (by simp), ?_⟩
  induction list generalizing r with
  | nil => exact absurd hr (by simp [preprocessUnary])
  | cons t list ih =>
    simp only [preprocessUnary] at hr
    split at hr
    · rename_i op hop
      rcases Except.bind_eq_ok_iff.mp hr with ⟨q, hq, hr'⟩
      rcases Except.bind_eq_ok_iff.mp hr' with ⟨v, -, hr'⟩
      cases hr'
      rcases ih hq (fun u hu => hplain u (mem_cons_of_mem _ hu)) with ⟨toks, e, heq, he, hstop⟩
      exact ⟨t :: toks, .unary op e, by simp [heq], .unary hop he, hstop.append [t]⟩
    · exact (preprocessPrimary_accepts h hr hplain).2

theorem levelReader_accepts (h : Accepts ctx 12 expression) (n k : Nat) (hk : k ≤ 10) :
    Accepts ctx k (levelReader ctx strtod expression n k) := by
  induction k with
  | zero => exact preprocessUnary_accepts h
  | succ k ih => exact readLevel_accepts (ih (by omega)) (by omega)

theorem preprocessConditional_accepts (h : Accepts ctx 12 expression) (n : Nat) :
    Accepts ctx 11 (preprocessConditional ctx strtod expression n) :=
  readConditional_accepts (levelReader_accepts h n 10 (le_refl 10)) h

theorem preprocessExpression_accepts (n : Nat) :
    Accepts ctx 12 (preprocessExpression ctx strtod n) := by
  induction n with
  | zero => exact fun hr => absurd hr (by simp [preprocessExpression])
  | succ n ih =>
    intro list r hr hplain
    have hcommas := readCommas_accepts (preprocessConditional_accepts ih (n + 1)) hr hplain []
      (Or.inl rfl)
    exact ⟨fun _ => hcommas.1, hcommas.2⟩

end Readers

/-! ## Correct conditions -/

section Correct

variable (ctx : MacroContext) (strtod : List Char → Nat × Bool)

/-- The value that `preprocess_directive` asks for: the tokens after the name of the
directive end with a newline, and the rest that is left is not looked at. -/
def evaluateCondition (toks : List Token) : Outcome IntMax.Number :=
  Prod.fst <$> preprocessConstantExpression ctx strtod (toks ++ [basicToken .newline])

/-- The condition is decided as C decides it: the value is zero exactly when the value of
the constant expression is, and what is no constant expression gives no value. -/
structure DecidedAsC (toks : List Token) : Prop where
  value : ∀ e v, IsExpression 11 toks e → e.value = .ok v →
    ∃ n, evaluateCondition ctx strtod toks = .ok n ∧ (n.val = 0 ↔ v.val = 0)
  fault : ∀ e f, IsExpression 11 toks e → e.value = .error f →
    ∃ message, evaluateCondition ctx strtod toks = .error (.error message)
  rejected : (∀ e, ¬ IsExpression 11 toks e) →
    ∃ stop, evaluateCondition ctx strtod toks = .error stop ∧ stop ≠ .fuel

/-- The lists of tokens that the evaluator does not read in its own way.  The tokens of a
constant expression form a regular one, in which the operands that C does not
evaluate have no fault that ends the program, in which no operation is undefined
and no comma is evaluated.  Other lists do not start with an expression after which
the evaluator stops. -/
structure ReadAsC (toks : List Token) : Prop where
  plain : ∀ t ∈ toks, PlainToken ctx t
  expression : ∀ e, IsExpression 11 toks e → regular e = true ∧ e.strict ≠ .error .undefined ∧
    e.value ≠ .error .comma ∧ ∀ v, e.value = .ok v → ∃ w, e.strict = .ok w
  trailing : (∀ e, ¬ IsExpression 11 toks e) → ∀ front t rest e, toks = front ++ t :: rest →
    IsExpression 11 front e → ¬ StopsAt 11 front (t :: rest)

variable {ctx strtod}

theorem preprocessConstantExpression_eq (list : List Token) :
    preprocessConstantExpression ctx strtod list = readerAt ctx strtod list.length 11 list := rfl

theorem strict_ne_comma (e : Expr) : e.strict ≠ .error .comma := by
  have hexact : ∀ signed n, exact signed n ≠ .error .comma := by
    intro signed n
    unfold exact
    split <;> simp
  induction e with
  | literal n => simp [Expr.strict]
  | unary op a ih =>
    refine Fuel.bind_ne_out ih ?_
    intro v
    cases op with
    | minus => exact hexact _ _
    | plus | compl | not => simp [UnaryOp.apply]
  | binary op a b iha ihb =>
    refine Fuel.bind_ne_out iha fun x => Fuel.bind_ne_out ihb fun y => ?_
    have hcompute : ∀ signed l r, op.compute signed l r ≠ .error .comma := by
      intro signed l r
      cases op with
      | mul | add | sub => exact hexact _ _
      | div => exact Fuel.ite_ne_out (by simp) (hexact _ _)
      | mod =>
        exact Fuel.ite_ne_out (by simp) (Fuel.bind_ne_out (hexact _ _) fun _ => by simp)
      | shl => exact Fuel.ite_ne_out (by simp) (hexact _ _)
      | shr => exact Fuel.ite_ne_out (by simp) (by simp)
      | _ => simp [BinaryOp.compute]
    exact Fuel.ite_ne_out (hcompute _ _ _) (hcompute _ _ _)
  | cond c a b ihc iha ihb =>
    exact Fuel.bind_ne_out ihc fun x => Fuel.bind_ne_out iha fun y =>
      Fuel.bind_ne_out ihb fun z => by simp
  | comma a b iha ihb => exact Fuel.bind_ne_out iha fun _ => ihb
  | paren a ih => exact ih

theorem evaluateCondition_eq {e : Expr} (h : IsExpression 11 toks e)
    (hregular : regular e = true) (hplain : ∀ t ∈ toks, PlainToken ctx t) :
    evaluateCondition ctx strtod toks = host e.strict := by
  unfold evaluateCondition
  rw [preprocessConstantExpression_eq, readerAt_eq h hregular hplain _ [] (le_refl _)
    (by
      intro t ht j hj
      cases ht
      cases hj)
    (fun hgroup => absurd hgroup (by decide))]
  cases e.strict <;> rfl

end Correct

/-! ## A number and a chain of comparisons -/

theorem numberConstant_digit {c : Char} (hdigit : c.isDigit = true) (hzero : c ≠ '0') :
    NumberConstant [c] (.ofInt true (digitsValue 10 [c])) := by
  have hvalue : digitsValue 10 [c] < 16 := by
    have hlt := digitValue_lt (c := c) (by simp [isXdigit, hdigit])
    simp only [digitsValue, foldl_cons, foldl_nil]
    omega
  have hconst : IntegerConstant (c :: [] ++ []) 10 (digitsValue 10 [c]) ⟨false, 0⟩ :=
    .decimal hdigit hzero (by simp) .none
  refine ⟨10, _, _, true, hconst, ?_, rfl⟩
  unfold constantSigned
  rw [if_neg (by omega), if_neg (by simp), if_pos (by omega)]

theorem numberConstant_zero : NumberConstant ['0'] (.ofInt true 0) := by
  have hconst : IntegerConstant ('0' :: [] ++ []) 8 (digitsValue 8 []) ⟨false, 0⟩ :=
    .octal (by simp) .none
  exact ⟨8, 0, _, true, hconst, rfl, rfl⟩

theorem append_cons_ne_singleton {left right : List Token} {t u : Token} (h : left ≠ []) :
    left ++ t :: right ≠ [u] := by
  cases left with
  | nil => exact absurd rfl h
  | cons s left => simp

theorem isExpression_number {k : Nat} {e : Expr} (h : IsExpression k toks e)
    {t : Token} (htoks : toks = [t]) (ht : t.token = .prepNumber) :
    ∃ n, e = .literal n ∧ NumberConstant t.str n := by
  induction h with
  | number _ hn =>
    cases htoks
    exact ⟨_, rfl, hn⟩
  | char hc =>
    cases htoks
    rw [ht] at hc
    cases hc
  | name hn =>
    cases htoks
    rw [ht] at hn
    exact absurd hn (by decide)
  | paren hl hr h => simp at htoks
  | unary hu h =>
    cases htoks
    exact absurd rfl h.ne_nil
  | lift _ _ ih => exact ih htoks
  | binary _ hl | comma _ hl => exact absurd htoks (append_cons_ne_singleton hl.ne_nil)
  | cond _ _ hc => exact absurd htoks (append_cons_ne_singleton hc.ne_nil)

/-- `1 == 2 == 0` -/
def chainedEquality : List Token :=
  [digitToken '1', basicToken .eq, digitToken '2', basicToken .eq, digitToken '0']

end Kcs.Preprocessor
