import Kcs.Lib.Deque
import Kcs.Preprocessor.Constant

/-!
# Lookahead

The queue of tokens between the preprocessor and the parser: `add_to_lookahead` with the
conversion of tokens and the joining of strings, `next`, `peek` and `peekn`.  The input
is what is left of the lines after macro expansion, without `_Pragma` operators.

Main results:

- Theorem {lit}`runCalls_eq`: the calls of the parser read the joined tokens by their position.
-/

namespace Kcs.Preprocessor

open List

/-! ## Tokens of the parser -/

/-- `struct token` as the parser reads it.  A number has a type and a value; that of a
floating number is read off its text. -/
structure ParserToken extends Token where
  number : Option Numeric := none
deriving DecidableEq, Repr

/-- The token is a string. -/
def ParserToken.isString (t : ParserToken) : Bool := t.token = .string

/-- The token at the end of the input. -/
def endToken : ParserToken := { basicToken .end_ with }

/-- `str_register`.  The length of a string is kept in 16 bits; strings that do not fit are
left out. -/
def strRegister (s : List Char) : Outcome (List Char) :=
  if s.length < 2 ^ 16 then .ok s else .error .undefined

/-- `str_cat` -/
def strCat (a b : List Char) : Outcome (List Char) := strRegister (a ++ b)

section Lookahead

variable (strtod : List Char → Nat × Bool)

/-- The conversions of `add_to_lookahead`. -/
def convertToken (t : Token) : Outcome ParserToken :=
  match t.token with
  | .prepChar =>
    (convertPreprocessingChar t.str).bind fun v =>
      .ok { token := .number, d := t.d, number := some (.integer .int (v % 2 ^ 64).toNat) }
  | .prepNumber =>
    (convertPreprocessingNumber strtod t.str).bind fun n =>
      .ok { token := .number, leadingWhitespace := t.leadingWhitespace, d := t.d,
            number := some n }
  | .prepString =>
    (convertPreprocessingString t.str).bind fun s => .ok { token := .string, d := .string s }
  | _ => .ok { t with }

/-- The part of `add_to_lookahead` after the conversion. -/
def pushToken (q : Deque ParserToken) (t : ParserToken) : Outcome (Deque ParserToken) :=
  match q.back? with
  | some prev =>
    if t.isString && prev.isString then
      (strCat prev.str t.str).bind fun s => .ok (q.setBack { t with d := .string s })
    else .ok (q.pushBack t)
  | none => .ok (q.pushBack t)

/-- `add_to_lookahead` -/
def addToLookahead (q : Deque ParserToken) (t : Token) : Outcome (Deque ParserToken) :=
  (convertToken strtod t).bind fun t => pushToken q t

/-- `is_lookahead_ready` -/
def isLookaheadReady (q : Deque ParserToken) (n : Nat) : Bool :=
  n ≤ q.len && !(q.back?.any ParserToken.isString)

/-- The loop of `preprocess_line` over the tokens of a line. -/
def addLine : Deque ParserToken → List Token → Outcome (Deque ParserToken)
  | q, [] => .ok q
  | q, t :: line =>
    if t.token = .newline then addLine q line
    else (addToLookahead strtod q t).bind fun q => addLine q line

/-- The queue and the lines that are left. -/
structure LookaheadState where
  lookahead : Deque ParserToken
  lines : List (List Token)

/-- The loop of `preprocess_line` over the lines. -/
def fillLookahead (n : Nat) : Deque ParserToken → List (List Token) → Outcome LookaheadState
  | q, [] => .ok ⟨q, []⟩
  | q, line :: lines =>
    (addLine strtod q line).bind fun q =>
      if isLookaheadReady q n then .ok ⟨q, lines⟩ else fillLookahead n q lines

/-- The tokens that `preprocess_line` adds at the end of the input. -/
def padLookahead (n : Nat) (q : Deque ParserToken) : Deque ParserToken :=
  (List.replicate (n - q.len) endToken).foldl Deque.pushBack q

/-- `preprocess_line` -/
def preprocessLine (n : Nat) (s : LookaheadState) : Outcome LookaheadState :=
  (fillLookahead strtod n s.lookahead s.lines).bind fun s =>
    .ok { s with lookahead := padLookahead n s.lookahead }

/-- The lookahead has a number of tokens. -/
def ensure (n : Nat) (s : LookaheadState) : Outcome LookaheadState :=
  if s.lookahead.len < n then preprocessLine strtod n s else .ok s

/-- `next` -/
def next (s : LookaheadState) : Outcome (ParserToken × LookaheadState) :=
  (ensure strtod 1 s).bind fun s =>
    match s.lookahead.popFront with
    | some (t, q) => .ok (t, { s with lookahead := q })
    | none => .error .undefined

/-- `peekn` -/
def peekn (n : Nat) (s : LookaheadState) : Outcome (ParserToken × LookaheadState) :=
  if n = 0 then .error .assertion
  else
    (ensure strtod n s).bind fun s =>
      match s.lookahead.get? (n - 1) with
      | some t => .ok (t, s)
      | none => .error .undefined

/-- `peek` -/
def peek (s : LookaheadState) : Outcome (ParserToken × LookaheadState) := peekn strtod 1 s

/-- A call of the parser. -/
inductive LookaheadCall where
  | next
  | peek
  | peekn (n : Nat)
deriving DecidableEq, Repr

/-- What a call does. -/
def LookaheadCall.run (s : LookaheadState) :
    LookaheadCall → Outcome (ParserToken × LookaheadState)
  | .next => Preprocessor.next strtod s
  | .peek => Preprocessor.peek strtod s
  | .peekn n => Preprocessor.peekn strtod n s

/-- The tokens that a sequence of calls returns. -/
def runCalls : LookaheadState → List LookaheadCall → Outcome (List ParserToken)
  | _, [] => .ok []
  | s, c :: calls =>
    (c.run strtod s).bind fun r => (r.1 :: ·) <$> runCalls r.2 calls

end Lookahead

/-! ## The tokens of the input -/

/-- The tokens of the lines that are passed to the parser. -/
def passedTokens (lines : List (List Token)) : List Token :=
  lines.flatten.filter fun t => t.token ≠ .newline

/-- A string and the run of strings behind it as one token, with all their bytes. -/
def joinRun (t : ParserToken) : List ParserToken → ParserToken
  | [] => t
  | u :: run =>
    { (u :: run).getLast (by simp) with d := .string ((t :: u :: run).flatMap fun v => v.str) }

/-- Every maximal run of strings is one token. -/
def joinStrings : List ParserToken → List ParserToken
  | [] => []
  | t :: ts =>
    if t.isString then
      joinRun t (ts.takeWhile ParserToken.isString) ::
        joinStrings (ts.dropWhile ParserToken.isString)
    else t :: joinStrings ts
termination_by ts => ts.length
decreasing_by
  · exact Nat.lt_succ_of_le (dropWhile_sublist _).length_le
  · exact Nat.lt_succ_self _

/-- The token at a position; behind the input there are end tokens only. -/
def tokenAt (ts : List ParserToken) (k : Nat) : ParserToken := ts.getD k endToken

/-- The tokens that a sequence of calls is to return, after a number of calls of `next`. -/
def expectedTokens (ts : List ParserToken) : Nat → List LookaheadCall → List ParserToken
  | _, [] => []
  | p, .next :: calls => tokenAt ts p :: expectedTokens ts (p + 1) calls
  | p, .peek :: calls => tokenAt ts p :: expectedTokens ts p calls
  | p, .peekn n :: calls => tokenAt ts (p + (n - 1)) :: expectedTokens ts p calls

/-! ## Joining token by token -/

/-- The list of tokens after `add_to_lookahead`. -/
def push (l : List ParserToken) (t : ParserToken) : List ParserToken :=
  match l.getLast? with
  | some prev =>
    if t.isString && prev.isString then
      l.dropLast ++ [{ t with d := .string (prev.str ++ t.str) }]
    else l ++ [t]
  | none => [t]

theorem push_nil (t : ParserToken) : push [] t = [t] := rfl

theorem push_append (l : List ParserToken) (p t : ParserToken) :
    push (l ++ [p]) t = l ++ push [p] t := by
  simp only [push, getLast?_append, getLast?_singleton, Option.some_or]
  split <;> simp

theorem push_of_not_string {p : ParserToken} (h : p.isString = false) (t : ParserToken) :
    push [p] t = [p, t] := by
  simp [push, h]

theorem push_string {p t : ParserToken} (hp : p.isString = true) (ht : t.isString = true) :
    push [p] t = [{ t with d := .string (p.str ++ t.str) }] := by
  simp [push, hp, ht]

variable {t : ParserToken}

theorem push_not_string (ht : t.isString = false) (p : ParserToken) :
    push [p] t = [p, t] := by
  simp [push, ht]

theorem push_ne_nil (l : List ParserToken) (t : ParserToken) : push l t ≠ [] := by
  unfold push
  split
  · split <;> simp
  · simp

theorem foldl_push_append (l : List ParserToken) (p : ParserToken) (ts : List ParserToken) :
    ts.foldl push (l ++ [p]) = l ++ ts.foldl push [p] := by
  induction ts generalizing l p with
  | nil => rfl
  | cons t ts ih =>
    rw [foldl_cons, foldl_cons, push_append]
    rcases eq_nil_or_concat (push [p] t) with hnil | ⟨front, last, hlast⟩
    · exact absurd hnil (push_ne_nil _ _)
    · rw [hlast, concat_eq_append, ← append_assoc, ih, ih, append_assoc]

/-- The tokens that end a list for good: it is empty, or its last token is not a string. -/
def Settled (l : List ParserToken) : Prop := l.getLast?.any ParserToken.isString = false

theorem Settled.foldl_push {l : List ParserToken} (h : Settled l) (ts : List ParserToken) :
    ts.foldl push l = l ++ ts.foldl push [] := by
  rcases eq_nil_or_concat l with rfl | ⟨front, p, rfl⟩
  · rfl
  · rw [concat_eq_append] at h ⊢
    have hp : p.isString = false := by simpa [Settled] using h
    cases ts with
    | nil => simp
    | cons t ts =>
      have hsplit : push [p] t = [p] ++ [t] := push_of_not_string hp t
      rw [foldl_push_append, foldl_cons, hsplit, foldl_push_append, append_assoc]
      rfl

theorem foldl_push_run (t : ParserToken) (run : List ParserToken) (ht : t.isString = true)
    (hrun : ∀ u ∈ run, u.isString = true) : run.foldl push [t] = [joinRun t run] := by
  induction run generalizing t with
  | nil => rfl
  | cons u run ih =>
    have hu := hrun u mem_cons_self
    rw [foldl_cons, push_string ht hu,
      ih { u with d := .string (t.str ++ u.str) } hu fun v hv => hrun v (mem_cons_of_mem _ hv)]
    cases run with
    | nil => simp [joinRun]
    | cons v run => simp [joinRun, Token.str]

theorem joinStrings_eq (ts : List ParserToken) : ts.foldl push [] = joinStrings ts := by
  induction ts using joinStrings.induct with
  | case1 => rw [joinStrings, foldl_nil]
  | case2 t ts ht ih =>
    rw [joinStrings, if_pos ht, ← ih, foldl_cons, push_nil]
    have hrun : ∀ u ∈ ts.takeWhile ParserToken.isString, u.isString = true :=
      all_eq_true.mp all_takeWhile
    have hsplit : ts.foldl push [t] =
        (ts.dropWhile ParserToken.isString).foldl push
          [joinRun t (ts.takeWhile ParserToken.isString)] := by
      conv_lhs => rw [← takeWhile_append_dropWhile (p := ParserToken.isString) (l := ts)]
      rw [foldl_append, foldl_push_run t _ ht hrun]
    rw [hsplit]
    cases hrest : ts.dropWhile ParserToken.isString with
    | nil => rfl
    | cons u rest =>
      have hu : u.isString = false := by
        have := head?_dropWhile_not ParserToken.isString ts
        rw [hrest] at this
        simpa using this
      have hcons := push_not_string hu (joinRun t (ts.takeWhile ParserToken.isString))
      have happend : [joinRun t (ts.takeWhile ParserToken.isString), u] =
          [joinRun t (ts.takeWhile ParserToken.isString)] ++ [u] := rfl
      rw [foldl_cons, hcons, happend, foldl_push_append, foldl_cons, push_nil]
      rfl
  | case3 t ts ht ih =>
    rw [joinStrings, if_neg ht, ← ih, foldl_cons, push_nil]
    have hsettled : Settled [t] := by simpa [Settled] using ht
    exact hsettled.foldl_push ts

/-! ## The length of strings -/

/-- The strings of a list have lengths of 16 bits. -/
def ShortStrings (l : List ParserToken) : Prop := ∀ t ∈ l, t.str.length < 2 ^ 16

theorem ShortStrings.of_push {l : List ParserToken} (h : ShortStrings (push l t)) :
    ShortStrings l := by
  unfold push at h
  cases hlast : l.getLast? with
  | none =>
    rw [getLast?_eq_none_iff.mp hlast]
    exact fun u hu => absurd hu not_mem_nil
  | some prev =>
    simp only [hlast] at h
    split at h
    · intro u hu
      rcases getLast?_eq_some_iff.mp hlast with ⟨front, rfl⟩
      rw [dropLast_concat] at h
      rcases mem_append.mp hu with hu | hu
      · exact h u (mem_append_left _ hu)
      · rw [mem_singleton.mp hu]
        have := h _ (mem_append_right _ (mem_singleton_self _))
        simp only [Token.str, length_append] at this ⊢
        omega
    · exact fun u hu => h u (mem_append_left _ hu)

theorem ShortStrings.of_foldl {l ts : List ParserToken} (h : ShortStrings (ts.foldl push l)) : ShortStrings l := by
  induction ts generalizing l with
  | nil => exact h
  | cons t ts ih => exact (ih h).of_push

/-! ## Filling the queue -/

section Fill

variable {strtod : List Char → Nat × Bool}

/-- The conversion of a list of tokens. -/
def Converted (strtod : List Char → Nat × Bool) (ts : List Token) (us : List ParserToken) : Prop :=
  List.Forall₂ (fun t u => convertToken strtod t = .ok u) ts us

variable {us : List ParserToken}

theorem Converted.of_append {ts ts' : List Token}
    (h : Converted strtod (ts ++ ts') us) :
    ∃ vs vs', Converted strtod ts vs ∧ Converted strtod ts' vs' ∧ us = vs ++ vs' := by
  refine ⟨us.take ts.length, us.drop ts.length, ?_, ?_, (take_append_drop _ _).symm⟩
  · have := forall₂_take ts.length h
    rwa [take_left] at this
  · have := forall₂_drop ts.length h
    rwa [drop_left] at this

theorem Converted.eq_nil (h : Converted strtod (passedTokens []) us) :
    us = [] := by
  cases h
  rfl

theorem foldl_push_of_settled {lines : List (List Token)} {l rest : List ParserToken}
    (hconv : Converted strtod (passedTokens lines) rest) (h : lines = [] ∨ Settled l) :
    rest.foldl push l = l ++ rest.foldl push [] := by
  rcases h with rfl | hsettled
  · rw [hconv.eq_nil, foldl_nil, foldl_nil, append_nil]
  · exact hsettled.foldl_push rest

variable {q : Deque ParserToken}

theorem pushToken_spec
    (h : ShortStrings (push q.toList t)) :
    ∃ q', pushToken q t = .ok q' ∧ q'.toList = push q.toList t := by
  unfold pushToken push
  rw [Deque.back?_eq]
  cases hlast : q.toList.getLast? with
  | none =>
    refine ⟨_, rfl, ?_⟩
    rw [Deque.toList_pushBack, getLast?_eq_none_iff.mp hlast, nil_append]
  | some prev =>
    simp only
    split
    · rename_i hstrings
      have hlen : (prev.str ++ t.str).length < 2 ^ 16 := by
        unfold push at h
        rw [hlast] at h
        simp only [if_pos hstrings] at h
        exact h _ (mem_append_right _ (mem_singleton_self _))
      have hne : q.toList ≠ [] := by
        rintro hnil
        rw [hnil] at hlast
        cases hlast
      refine ⟨q.setBack { t with d := .string (prev.str ++ t.str) }, ?_,
        Deque.toList_setBack q _ hne⟩
      rw [strCat, strRegister, if_pos hlen]
      rfl
    · exact ⟨_, rfl, Deque.toList_pushBack q t⟩

theorem addLine_spec {line : List Token}
    (hconv : Converted strtod (line.filter fun t => t.token ≠ .newline) us)
    (h : ShortStrings (us.foldl push q.toList)) :
    ∃ q', addLine strtod q line = .ok q' ∧ q'.toList = us.foldl push q.toList := by
  induction line generalizing q us with
  | nil =>
    cases hconv
    exact ⟨q, rfl, rfl⟩
  | cons t line ih =>
    rw [addLine]
    by_cases hnewline : t.token = .newline
    · rw [if_pos hnewline]
      refine ih ?_ h
      rwa [filter_cons_of_neg (by simpa using hnewline)] at hconv
    · rw [if_neg hnewline]
      rw [filter_cons_of_pos (by simpa using hnewline)] at hconv
      cases hconv with
      | cons hhead htail =>
        rename_i u us
        rcases pushToken_spec (ShortStrings.of_foldl h) with ⟨q', hpush, hq'⟩
        have hadd : addToLookahead strtod q t = .ok q' := by
          rw [addToLookahead, hhead]
          exact hpush
        rw [hadd]
        rw [foldl_cons, ← hq'] at h ⊢
        exact ih htail h

/-- The state of the queue in the input: the joined tokens at a position of the input are
those of the queue, followed by the joined rest, and the queue ends with a string only at
the end of the input. -/
structure Holds (strtod : List Char → Nat × Bool) (all : List ParserToken) (p : Nat)
    (s : LookaheadState) (rest : List ParserToken) : Prop where
  converted : Converted strtod (passedTokens s.lines) rest
  bounded : ShortStrings (rest.foldl push s.lookahead.toList)
  settled : s.lines = [] ∨ Settled s.lookahead.toList
  tokens : ∀ k, tokenAt all (p + k) = tokenAt (rest.foldl push s.lookahead.toList) k

theorem fillLookahead_spec {n : Nat} {lines : List (List Token)}
    {rest : List ParserToken} (hconv : Converted strtod (passedTokens lines) rest)
    (h : ShortStrings (rest.foldl push q.toList)) :
    ∃ s rest', fillLookahead strtod n q lines = .ok s ∧
      Converted strtod (passedTokens s.lines) rest' ∧
      rest'.foldl push s.lookahead.toList = rest.foldl push q.toList ∧
      (s.lines = [] ∨ n ≤ s.lookahead.len ∧ Settled s.lookahead.toList) := by
  induction lines generalizing q rest with
  | nil => exact ⟨⟨q, []⟩, rest, rfl, hconv, rfl, Or.inl rfl⟩
  | cons line lines ih =>
    rw [passedTokens, flatten_cons, filter_append] at hconv
    rcases hconv.of_append with ⟨us, vs, hus, hvs, rfl⟩
    rw [foldl_append] at h
    rcases addLine_spec hus (ShortStrings.of_foldl h) with ⟨q', hadd, hq'⟩
    rw [← hq'] at h
    rw [fillLookahead, hadd]
    simp only [Except.bind]
    split
    · rename_i hready
      refine ⟨⟨q', lines⟩, vs, rfl, hvs, ?_, Or.inr ?_⟩
      · rw [foldl_append, hq']
      · simpa [isLookaheadReady, Deque.back?_eq, Settled] using hready
    · rcases ih hvs h with ⟨s, rest', hfill, hrest', hfold, hdone⟩
      refine ⟨s, rest', hfill, hrest', ?_, hdone⟩
      rw [hfold, hq', foldl_append]

theorem toList_padLookahead (n : Nat) (q : Deque ParserToken) :
    (padLookahead n q).toList = q.toList ++ List.replicate (n - q.len) endToken := by
  unfold padLookahead
  generalize List.replicate (n - q.len) endToken = ts
  induction ts generalizing q with
  | nil => simp
  | cons t ts ih => rw [foldl_cons, ih, Deque.toList_pushBack, append_assoc]; rfl

theorem tokenAt_append_replicate (l : List ParserToken) (n k : Nat) :
    tokenAt (l ++ List.replicate n endToken) k = tokenAt l k := by
  unfold tokenAt
  rw [getD_eq_getElem?_getD, getD_eq_getElem?_getD, getElem?_append]
  split
  · rfl
  · rw [getElem?_replicate, getElem?_eq_none (by omega)]
    split <;> rfl

variable {all : List ParserToken} {p : Nat} {s : LookaheadState} {rest : List ParserToken}

theorem ensure_spec (n : Nat) (h : Holds strtod all p s rest) :
    ∃ s' rest', ensure strtod n s = .ok s' ∧ Holds strtod all p s' rest' ∧
      n ≤ s'.lookahead.len := by
  unfold ensure
  split
  · rcases fillLookahead_spec (n := n) h.converted h.bounded with
      ⟨s', rest', hfill, hconv, hfold, hdone⟩
    refine ⟨{ s' with lookahead := padLookahead n s'.lookahead }, rest', ?_, ?_, ?_⟩
    · rw [preprocessLine, hfill]
      rfl
    · rcases hdone with hend | ⟨hlen, hsettled⟩
      · have hrest : rest' = [] := by
          rw [hend] at hconv
          exact hconv.eq_nil
        subst hrest
        refine ⟨hconv, ?_, Or.inl hend, fun k => ?_⟩
        · rw [foldl_nil, toList_padLookahead]
          intro t ht
          rcases mem_append.mp ht with ht | ht
          · rw [foldl_nil] at hfold
            exact h.bounded t (hfold ▸ ht)
          · rw [eq_of_mem_replicate ht]
            decide
        · rw [h.tokens k, ← hfold, foldl_nil, foldl_nil, toList_padLookahead,
            tokenAt_append_replicate]
      · have hpad : (padLookahead n s'.lookahead).toList = s'.lookahead.toList := by
          rw [toList_padLookahead, Nat.sub_eq_zero_of_le hlen, replicate_zero, append_nil]
        refine ⟨hconv, ?_, Or.inr ?_, fun k => ?_⟩
        · rw [hpad, hfold]
          exact h.bounded
        · rw [hpad]
          exact hsettled
        · rw [hpad, hfold]
          exact h.tokens k
    · rw [← Deque.length_toList, toList_padLookahead, length_append, length_replicate,
        Deque.length_toList]
      omega
  · exact ⟨s, rest, rfl, h, by omega⟩

theorem Holds.get? (h : Holds strtod all p s rest) {k : Nat} (hk : k < s.lookahead.len) :
    s.lookahead.get? k = some (tokenAt all (p + k)) := by
  rw [← Deque.length_toList] at hk
  rw [h.tokens k, foldl_push_of_settled h.converted h.settled, Deque.get?_eq, tokenAt, getD_eq_getElem?_getD,
    getElem?_append_left hk, getElem?_eq_getElem hk, Option.getD_some]

theorem next_spec (h : Holds strtod all p s rest) :
    ∃ s' rest', next strtod s = .ok (tokenAt all p, s') ∧ Holds strtod all (p + 1) s' rest' := by
  rcases ensure_spec 1 h with ⟨s', rest', hensure, h', hlen⟩
  rw [next, hensure]
  cases hlist : s'.lookahead.toList with
  | nil =>
    rw [← Deque.length_toList, hlist] at hlen
    cases hlen
  | cons t l =>
    rcases Deque.popFront_cons hlist with ⟨q, hpop, hq⟩
    have hfold : rest'.foldl push s'.lookahead.toList = t :: (l ++ rest'.foldl push []) := by
      rw [foldl_push_of_settled h'.converted h'.settled, hlist]
      rfl
    have htoken : tokenAt all p = t := by
      have := h'.tokens 0
      rwa [Nat.add_zero, hfold] at this
    have hsettled : s'.lines = [] ∨ Settled l := by
      refine h'.settled.imp_right fun hsettled => ?_
      cases l with
      | nil => rfl
      | cons u l =>
        rw [hlist] at hsettled
        exact hsettled
    have hrest := foldl_push_of_settled h'.converted hsettled
    refine ⟨{ s' with lookahead := q }, rest', ?_, h'.converted, ?_, ?_, fun k => ?_⟩
    · simp only [Except.bind, hpop, htoken]
    · have hbounded := h'.bounded
      rw [hfold] at hbounded
      rw [hq, hrest]
      exact fun u hu => hbounded u (mem_cons_of_mem _ hu)
    · rw [hq]
      exact hsettled
    · have := h'.tokens (k + 1)
      rw [hfold, ← hrest] at this
      rw [hq, Nat.add_assoc, Nat.add_comm 1 k, this]
      rfl

theorem peekn_spec {n : Nat} (hn : 0 < n) (h : Holds strtod all p s rest) :
    ∃ s' rest', peekn strtod n s = .ok (tokenAt all (p + (n - 1)), s') ∧
      Holds strtod all p s' rest' := by
  rcases ensure_spec n h with ⟨s', rest', hensure, h', hlen⟩
  refine ⟨s', rest', ?_, h'⟩
  rw [peekn, if_neg (by omega), hensure]
  simp only [Except.bind, h'.get? (k := n - 1) (by omega)]

theorem runCalls_spec {calls : List LookaheadCall} (hcalls : ∀ n, .peekn n ∈ calls → 0 < n)
    (h : Holds strtod all p s rest) : runCalls strtod s calls = .ok (expectedTokens all p calls) := by
  induction calls generalizing p s rest with
  | nil => rfl
  | cons c calls ih =>
    have htail : ∀ n, .peekn n ∈ calls → 0 < n :=
      fun n hn => hcalls n (mem_cons_of_mem _ hn)
    cases c with
    | next =>
      rcases next_spec h with ⟨s', rest', hrun, h'⟩
      rw [runCalls, LookaheadCall.run, hrun]
      simp only [Except.bind, ih htail h', Functor.map, Except.map, expectedTokens]
    | peek =>
      rcases peekn_spec Nat.one_pos h with ⟨s', rest', hrun, h'⟩
      rw [runCalls, LookaheadCall.run, peek, hrun]
      simp only [Except.bind, ih htail h', Functor.map, Except.map, expectedTokens,
        Nat.sub_self, Nat.add_zero]
    | peekn n =>
      rcases peekn_spec (hcalls n mem_cons_self) h with ⟨s', rest', hrun, h'⟩
      rw [runCalls, LookaheadCall.run, hrun]
      simp only [Except.bind, ih htail h', Functor.map, Except.map, expectedTokens]

/-- For every input and every sequence of calls, the calls read the joined tokens of the
input by their position. -/
theorem runCalls_eq {lines : List (List Token)} {ts : List ParserToken}
    (hconv : Converted strtod (passedTokens lines) ts) (hbounded : ShortStrings (joinStrings ts))
    {calls : List LookaheadCall} (hcalls : ∀ n, .peekn n ∈ calls → 0 < n) :
    runCalls strtod { lookahead := .empty, lines := lines } calls =
      .ok (expectedTokens (joinStrings ts) 0 calls) := by
  have hholds : Holds strtod (joinStrings ts) 0 { lookahead := .empty, lines := lines } ts := by
    refine ⟨hconv, ?_, Or.inr rfl, fun k => ?_⟩
    · rw [Deque.toList_empty, joinStrings_eq]
      exact hbounded
    · rw [Deque.toList_empty, joinStrings_eq, Nat.zero_add]
  exact runCalls_spec hcalls hholds

end Fill

/-- The lines `"a"` and `"b" x`. -/
def twoStrings : List (List Token) :=
  [[{ token := .prepString, d := .string ['a'] }, basicToken .newline],
    [{ token := .prepString, d := .string ['b'] }, IDN .identifier ['x'], basicToken .newline]]

/-- The strings of two lines are joined before they are looked at. -/
theorem runCalls_twoStrings :
    runCalls noFloat { lookahead := .empty, lines := twoStrings } [.peekn 2, .next, .next, .next] =
      .ok [{ IDN .identifier ['x'] with }, { token := .string, d := .string ['a', 'b'] },
        { IDN .identifier ['x'] with }, endToken] := by
  have hconv : Converted noFloat (passedTokens twoStrings)
      [{ token := .string, d := .string ['a'] }, { token := .string, d := .string ['b'] },
        { IDN .identifier ['x'] with }] :=
    .cons (by decide) (.cons (by decide) (.cons (by decide) .nil))
  have hcalls : ∀ n, LookaheadCall.peekn n ∈ [.peekn 2, .next, .next, .next] → 0 < n := by
    intro n hn
    simp only [mem_cons, LookaheadCall.peekn.injEq, reduceCtorEq, or_false, not_mem_nil] at hn
    omega
  refine (runCalls_eq hconv ?_ hcalls).trans ?_
  · rw [← joinStrings_eq]
    unfold ShortStrings
    decide
  · rw [← joinStrings_eq]
    decide

end Kcs.Preprocessor
