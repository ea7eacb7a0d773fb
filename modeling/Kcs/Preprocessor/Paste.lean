import Kcs.Preprocessor.Macro
import Kcs.Preprocessor.Tokens

/-!
# Token pasting

C pastes the operands of `##` from left to right, with a placemarker for an empty argument.
`expand_stringify_and_paste` keeps its operands at the end of the tokens made so far, and nothing
marks the place of two empty ones.  A comma in front of `##` and the variable arguments is treated
as GNU C does.

Main results:

- Theorem {lit}`expandStringifyAndPaste_pastes`: the tokens are those of the reference wherever a
  `##` has not two empty operands on its left.
- Theorem {lit}`not_pastesAsC`: the comma disappears before empty variable arguments.
-/

namespace Kcs.Preprocessor

open List

/-! ## The reference -/

/-- What `##` makes of two operands, of which one may be a placemarker. -/
def pasteOperands (std : Cstd) (left right : List Token) : Outcome (List Token) :=
  match left.getLast?, right with
  | none, _ => .ok right
  | some _, [] => .ok left
  | some t, a :: more => (paste std t a).map fun p => left.dropLast ++ p :: more

/-- A token of the replacement list, as an operand or with expanded arguments. -/
def operand (args : List (List Token)) (t : Token) : List Token :=
  if t.token = .param then argument args t else [t]

section Reference

variable (gnu : Bool) (std : Cstd) (defn : Macro) (args expanded : List (List Token))

/-- GNU C treats a comma on the left of the variable parameter in its own way. -/
def gnuComma (left : List Token) (s : Token) : Bool :=
  gnu && defn.isVararg && s.token = .param && s.index + 1 = defn.params &&
    left.getLast?.any (·.token = .comma)

/-- A result, and whether all of it is regular. -/
def marked (b : Bool) (r : List Token × Bool) : List Token × Bool := (r.1, b && r.2)

/-- The tokens for the rest of a replacement list: behind those that are done stands an operand,
`left` if it is pasted and `alone` if not.  It is no operand, or one of only empty operands that
were pasted, where `gap` holds.  A `##` behind a gap or before a `#`, and a `#` in an object-like
macro, are not regular. -/
def pasted : List Token → List Token → List Token → Bool → List Token →
    Outcome (List Token × Bool)
  | done, _, alone, _, [] => .ok (done ++ alone, true)
  | done, left, alone, gap, u :: rest =>
    if u.token = .tokenPaste then
      match rest with
      | [] => .error (.error "Unexpected '##' operator at end of line.")
      | s :: rest =>
        if s.token = .hash ∧ defn.functionLike = true then
          match rest with
          | [] => .error (.error "Stray '#' in replacement list.")
          | p :: rest =>
            if p.token = .param then
              (stringify (argument args p)).bind fun t =>
                (pasteOperands std left [t]).bind fun left =>
                  marked false <$> pasted done left left false rest
            else .error (.error "Stray '#' in replacement list.")
        else if gnuComma gnu defn left s then
          if argument args s = [] then
            marked (!gap) <$> pasted done left.dropLast left.dropLast left.dropLast.isEmpty rest
          else
            marked (!gap) <$>
              pasted (done ++ left) (argument args s) (argument expanded s) false rest
        else
          (pasteOperands std left (operand args s)).bind fun left =>
            marked (!gap) <$> pasted done left left left.isEmpty rest
    else if u.token = .hash ∧ defn.functionLike = true then
      match rest with
      | [] => .error (.error "Stray '#' in replacement list.")
      | s :: rest =>
        if s.token = .param then
          (stringify (argument args s)).bind fun t => pasted (done ++ alone) [t] [t] false rest
        else .error (.error "Stray '#' in replacement list.")
    else
      marked (u.token ≠ .hash) <$>
        pasted (done ++ alone) (operand args u) (operand expanded u) false rest

/-- The tokens of C for an invocation, before they are scanned again: the replacement list with
its operators carried out, and the expanded arguments. -/
def pastedAsC : Outcome (List Token × Bool) :=
  if defn.replacement.head?.any (·.token = .tokenPaste) ||
      defn.replacement.getLast?.any (·.token = .tokenPaste) then
    .error (.error "Unexpected '##' operator at beginning or end of line.")
  else pasted gnu std defn args expanded [] [] [] true defn.replacement

end Reference

/-- The tokens are those of C. -/
def PastesAsC (std : Cstd) (defn : Macro) (args expanded : List (List Token)) : Prop :=
  ∀ r b, pastedAsC false std defn args expanded = .ok (r, b) →
    (expandStringifyAndPaste std defn args).map (substitute expanded) = .ok r

/-! ## Tokens are no parameters -/

theorem strtoident_ne_param (std : Cstd) (c : Char) (l : List Char) :
    (strtoident std c l).1.token ≠ .param := by
  unfold strtoident
  split
  · exact (congrArg (· ≠ TokenType.param) (basicToken_token _)).mpr (by decide)
  · rename_i t _ hk
    rw [basicToken_token]
    rintro rfl
    exact absurd (mem_keywords_of_keyword hk) (by simp [keywords])
  · rintro ⟨⟩

theorem strtoop_ne_param {c : Char} {l : List Char} {r : Token × Nat} (hc : isIdentStart c = false)
    (h : strtoop c l = .ok r) : r.1.token ≠ .param := by
  have htable : ∀ i : Fin 128, (basicTokens[i.val]?).any (·.token = .param) = true → i.val = 119 := by
    decide +kernel
  unfold strtoop at h
  split at h
  · rename_i t hop
    cases h
    rw [basicToken_token]
    rintro rfl
    exact absurd (operator_spec hop).1 (by decide)
  · split at h
    · cases h
    · rename_i t ht
      split at h
      · cases h
      · cases h
        intro hparam
        have hlt := (List.getElem?_eq_some_iff.mp ht).1
        have hw := htable ⟨c.toNat, hlt⟩ (by rw [ht]; exact decide_eq_true hparam)
        have hc' : c = 'w' := Char.toNat_inj.mp hw
        exact absurd hc (by rw [hc']; decide)

theorem readToken_ne_param {std : Cstd} {c : Char} {l : List Char} {r : Token × Nat}
    (h : readToken std c l = .ok r) : r.1.token ≠ .param := by
  unfold readToken stringtonum strtostr strtochar at h
  split at h
  · cases h
    exact strtoident_ne_param std c l
  · rename_i hident
    have hclose {n : Nat} {s : List Char} (h : (if s.length < n then .error .undefined
        else if (s.drop n).head? = some '\'' then
          .ok ({ token := .prepChar, d := .string (s.take n) }, n + 2)
        else .error (.error "Multi-character constants are not supported.") :
          Outcome (Token × Nat)) = .ok r) : r.1.token ≠ .param := by
      split at h
      · cases h
      · split at h <;> cases h
        rintro ⟨⟩
    split at h
    · have hnumber {p : Prop} [Decidable p] {x : Token × Nat}
          (h : (if p then .ok x else .error .assertion : Outcome (Token × Nat)) = .ok r) : x = r := by
        split at h <;> cases h
        rfl
      rw [← hnumber h]
      rintro ⟨⟩
    · split at h
      · rcases Except.map_eq_ok_iff.mp h with ⟨n, -, rfl⟩
        rintro ⟨⟩
      · split at h
        · dsimp only at h
          split at h
          · exact hclose h
          · split at h
            · exact hclose h
            · split at h
              · exact hclose h
              · cases h
        · exact strtoop_ne_param (by simpa using hident) h

theorem paste_ne_param {std : Cstd} {t a p : Token} (h : paste std t a = .ok p) :
    p.token ≠ .param := by
  unfold paste tokenize at h
  rcases Except.bind_eq_ok_iff.mp h with ⟨r, hr, h⟩
  split at h <;> cases h
  dsimp only at hr
  split at hr
  · cases hr
    rintro ⟨⟩
  · rcases Except.map_eq_ok_iff.mp hr with ⟨q, hq, rfl⟩
    exact readToken_ne_param hq

theorem stringify_ne_param {list : List Token} {t : Token} (h : stringify list = .ok t) :
    t.token ≠ .param := by
  unfold stringify at h
  split at h
  · cases h
    rintro ⟨⟩
  · rename_i u rest
    have hconcat {x : Outcome (List Char)} (h : (x.bind fun text =>
        if text.getLast? = some '\\' then
          .error (.error "Invalid string literal ending with '\\'.")
        else
          .ok { token := .prepString, leadingWhitespace := u.leadingWhitespace,
                d := .string text }) = .ok t) : t.token ≠ .param := by
      rcases Except.bind_eq_ok_iff.mp h with ⟨text, -, h⟩
      split at h <;> cases h
      rintro ⟨⟩
    dsimp only at h
    split at h
    · exact hconcat h
    · exact hconcat h
    · exact hconcat h
    · exact hconcat h
    · split at h
      · cases h
        rintro ⟨⟩
      · exact hconcat h

/-! ## The loop -/

/-- No token is a parameter. -/
def IsRaw (list : List Token) : Prop := ∀ t ∈ list, t.token ≠ .param

section Loop

variable {std : Cstd} {defn : Macro} {args expanded : List (List Token)}
  {list done left alone : List Token} {gap : Bool} {r : List Token}

/-- The tokens made so far stand for those of the reference: the operand is the last token, a
parameter, or it is the last tokens. -/
def Follows (args expanded : List (List Token)) (list done left alone : List Token) (gap : Bool) :
    Prop :=
  (gap = true ∧ left = [] ∧ alone = [] ∧ substitute expanded list = done) ∨
  (gap = false ∧ ∃ front t, list = front ++ [t] ∧ t.token = .param ∧
    substitute expanded front = done ∧ left = argument args t ∧ alone = argument expanded t) ∨
  (gap = false ∧ ∃ front, list = front ++ left ∧ left ≠ [] ∧ IsRaw left ∧
    substitute expanded front = done ∧ alone = left)

theorem substitute_append (args : List (List Token)) (l l' : List Token) :
    substitute args (l ++ l') = substitute args l ++ substitute args l' :=
  flatMap_append

theorem substitute_raw (h : IsRaw left) : substitute args left = left := by
  induction left with
  | nil => rfl
  | cons t left ih =>
    rw [IsRaw, forall_mem_cons] at h
    rw [substitute, flatMap_cons, if_neg h.1, singleton_append]
    exact congrArg (t :: ·) (ih h.2)

theorem Follows.substitute (h : Follows args expanded list done left alone gap) :
    substitute expanded list = done ++ alone := by
  rcases h with ⟨-, -, rfl, h⟩ | ⟨-, front, t, rfl, ht, rfl, -, rfl⟩ |
    ⟨-, front, rfl, -, hraw, rfl, rfl⟩
  · rw [h, append_nil]
  · rw [substitute_append]
    simp [Preprocessor.substitute, ht]
  · rw [substitute_append, substitute_raw hraw]

theorem follows_raw (hdone : substitute expanded list = done) (hraw : IsRaw left) :
    Follows args expanded (list ++ left) done left left left.isEmpty := by
  cases left with
  | nil => exact Or.inl ⟨rfl, rfl, rfl, by rwa [append_nil]⟩
  | cons t left => exact Or.inr (Or.inr ⟨rfl, list, rfl, cons_ne_nil _ _, hraw, hdone, rfl⟩)

theorem follows_operand (hdone : substitute expanded list = done) (t : Token) :
    Follows args expanded (list ++ [t]) done (operand args t) (operand expanded t) false := by
  unfold operand
  split
  · rename_i ht
    exact Or.inr (Or.inl ⟨rfl, list, t, rfl, ht, hdone, rfl, rfl⟩)
  · rename_i ht
    exact Or.inr (Or.inr ⟨rfl, list, rfl, cons_ne_nil _ _, forall_mem_singleton.mpr ht, hdone, rfl⟩)

theorem argument_raw (hargs : ∀ arg ∈ args, IsRaw arg) (t : Token) : IsRaw (argument args t) := by
  unfold argument
  rw [getD_eq_getElem?_getD]
  cases harg : args[t.index]? with
  | none => exact fun _ h => absurd h not_mem_nil
  | some arg => exact hargs arg (mem_of_getElem? harg)

theorem operand_raw (hargs : ∀ arg ∈ args, IsRaw arg) (t : Token) : IsRaw (operand args t) := by
  unfold operand
  split
  · exact argument_raw hargs t
  · exact forall_mem_singleton.mpr ‹_›

theorem pasteOperands_raw {right : List Token} (hleft : IsRaw left) (hright : IsRaw right)
    (h : pasteOperands std left right = .ok r) : IsRaw r := by
  unfold pasteOperands at h
  split at h
  · cases h
    exact hright
  · cases h
    exact hleft
  · rcases Except.map_eq_ok_iff.mp h with ⟨p, hp, rfl⟩
    refine forall_mem_append.mpr ⟨fun t ht => hleft t (mem_of_mem_dropLast ht), ?_⟩
    exact forall_mem_cons.mpr ⟨paste_ne_param hp, (forall_mem_cons.mp hright).2⟩

theorem gnuComma_concat {s : Token} {init : List Token} {t : Token} :
    gnuComma true defn (init ++ [t]) s = true ↔
      s.token = .param ∧ defn.isVararg = true ∧ t.token = .comma ∧ s.index + 1 = defn.params := by
  simp only [gnuComma, getLast?_concat, Option.any_some, Bool.true_and, Bool.and_eq_true,
    decide_eq_true_eq]
  tauto

theorem pasteOperands_concat (init : List Token) (t : Token) (right : List Token) :
    pasteOperands std (init ++ [t]) right =
      match right with
      | [] => .ok (init ++ [t])
      | a :: more => (paste std t a).map fun p => init ++ p :: more := by
  unfold pasteOperands
  rw [getLast?_concat, dropLast_concat]
  cases right <;> rfl

theorem paste_concat (front init : List Token) (t s : Token) (f : List Token → Outcome (List Token)) :
    (if s.token = .param then
      if defn.isVararg ∧ t.token = .comma ∧ s.index + 1 = defn.params then
        if argument args s ≠ [] then f (front ++ (init ++ [t]) ++ [s])
        else f (front ++ (init ++ [t])).dropLast
      else
        match argument args s with
        | [] => f (front ++ (init ++ [t]))
        | a :: more =>
          (paste std t a).bind fun p => f ((front ++ (init ++ [t])).dropLast ++ p :: more)
    else (paste std t s).bind fun p => f ((front ++ (init ++ [t])).dropLast ++ [p])) =
      if gnuComma true defn (init ++ [t]) s then
        if argument args s = [] then f (front ++ (init ++ [t]).dropLast)
        else f (front ++ (init ++ [t]) ++ [s])
      else (pasteOperands std (init ++ [t]) (operand args s)).bind fun l => f (front ++ l) := by
  have hinit : (front ++ (init ++ [t])).dropLast = front ++ init := by
    rw [← append_assoc, dropLast_concat]
  have hbind {a : Token} {more : List Token} :
      (pasteOperands std (init ++ [t]) (a :: more)).bind (fun l => f (front ++ l)) =
        (paste std t a).bind fun p => f (front ++ init ++ p :: more) := by
    rw [pasteOperands_concat]
    cases hpaste : paste std t a with
    | error e => simp [hpaste, Except.map, Except.bind]
    | ok p => simp [hpaste, Except.map, Except.bind]
  rw [hinit]
  by_cases hs : s.token = .param
  · rw [if_pos hs, operand, if_pos hs]
    by_cases hcomma : defn.isVararg ∧ t.token = .comma ∧ s.index + 1 = defn.params
    · rw [if_pos hcomma, if_pos (gnuComma_concat.mpr ⟨hs, hcomma⟩), dropLast_concat, ite_not]
    · rw [if_neg hcomma, if_neg fun h => hcomma (gnuComma_concat.mp h).2]
      cases argument args s with
      | nil =>
        rw [pasteOperands_concat]
        rfl
      | cons a more => exact hbind.symm
  · rw [if_neg hs, if_neg fun h => hs (gnuComma_concat.mp h).1, operand, if_neg hs]
    exact hbind.symm

theorem stringifyAndPaste_paste (std : Cstd) (defn : Macro) (hargs : ∀ arg ∈ args, IsRaw arg)
    (h : Follows args expanded list done left alone false) {u : Token} (hu : u.token = .tokenPaste)
    (s : Token) (rest : List Token) :
    ∃ front, substitute expanded front = done ∧ IsRaw left ∧
      stringifyAndPaste std defn args list (u :: s :: rest) =
        if gnuComma true defn left s then
          if argument args s = [] then
            stringifyAndPaste std defn args (front ++ left.dropLast) rest
          else stringifyAndPaste std defn args (front ++ left ++ [s]) rest
        else (pasteOperands std left (operand args s)).bind fun l =>
          stringifyAndPaste std defn args (front ++ l) rest := by
  rcases h with h | ⟨-, front, t, rfl, ht, hdone, rfl, -⟩ | ⟨-, front, rfl, hleft, hraw, hdone, -⟩
  · exact nomatch h.1
  · -- a parameter on the left
    refine ⟨front, hdone, argument_raw hargs t, ?_⟩
    rw [stringifyAndPaste.eq_def]
    simp only [hu, getLast?_concat, dropLast_concat, ht, true_and, if_true]
    rcases eq_nil_or_concat' (argument args t) with hnil | ⟨init, v, hconcat⟩
    · rw [if_pos hnil, hnil]
      simp only [gnuComma, pasteOperands, operand, getLast?_nil, Option.any_none, Bool.and_false,
        Bool.false_eq_true, if_false]
      split <;> rfl
    · rw [if_neg (by simp [hconcat]), hconcat, getLastD_concat]
      exact paste_concat front init v s fun l => stringifyAndPaste std defn args l rest
  · -- the last tokens on the left
    refine ⟨front, hdone, hraw, ?_⟩
    rcases eq_nil_or_concat' left with hnil | ⟨init, v, rfl⟩
    · exact absurd hnil hleft
    · have hv : v.token ≠ .param := hraw v (mem_append_right _ mem_cons_self)
      have hlast : (front ++ (init ++ [v])).getLast? = some v := by
        rw [← append_assoc, getLast?_concat]
      rw [stringifyAndPaste.eq_def]
      simp only [hu, hlast, hv, false_and, if_true, if_false]
      exact paste_concat front init v s fun l => stringifyAndPaste std defn args l rest

/-- Without gaps, the loop follows the reference. -/
theorem stringifyAndPaste_of_reference (hargs : ∀ arg ∈ args, IsRaw arg) {rest : List Token}
    (h : Follows args expanded list done left alone gap)
    (hr : pasted true std defn args expanded done left alone gap rest = .ok (r, true)) :
    (stringifyAndPaste std defn args list rest).map (substitute expanded) = .ok r := by
  have hregular {b : Bool} {x : Outcome (List Token × Bool)} {r : List Token}
      (h : (marked b <$> x) = .ok (r, true)) : b = true ∧ x = .ok (r, true) := by
    rcases Except.map_eq_ok_iff.mp h with ⟨q, hq, hqr⟩
    simp only [marked, Prod.mk.injEq, Bool.and_eq_true] at hqr
    exact ⟨hqr.2.1, by rw [hq, ← hqr.1, ← hqr.2.2]⟩
  fun_induction pasted true std defn args expanded done left alone gap rest generalizing list r with
  | case1 done left alone gap =>
    cases hr
    exact congrArg Except.ok h.substitute
  | case2 | case3 | case5 | case9 | case11 => exact nomatch hr
  | case4 done left alone gap u hu s hs p rest hp ih =>
    rcases Except.bind_eq_ok_iff.mp hr with ⟨t, -, hr⟩
    rcases Except.bind_eq_ok_iff.mp hr with ⟨l, -, hr⟩
    exact nomatch (hregular hr).1
  | case6 done left alone gap u hu s rest hs hgnu harg ih =>
    rcases hregular hr with ⟨hgap, hr⟩
    rw [(Bool.not_eq_true' _).mp hgap] at h
    rcases stringifyAndPaste_paste std defn hargs h hu s rest with
      ⟨front, hdone, hraw, heq⟩
    rw [heq, if_pos hgnu, if_pos harg]
    exact ih (follows_raw hdone fun t ht => hraw t (mem_of_mem_dropLast ht)) hr
  | case7 done left alone gap u hu s rest hs hgnu harg ih =>
    rcases hregular hr with ⟨hgap, hr⟩
    rw [(Bool.not_eq_true' _).mp hgap] at h
    rcases stringifyAndPaste_paste std defn hargs h hu s rest with
      ⟨front, hdone, hraw, heq⟩
    have hparam : s.token = .param := by
      simp only [gnuComma, Bool.and_eq_true, decide_eq_true_eq] at hgnu
      exact hgnu.1.1.2
    have hnext : substitute expanded (front ++ left) = done ++ left := by
      rw [substitute_append, substitute_raw hraw, hdone]
    have hfollows : Follows args expanded _ _ _ _ false := follows_operand hnext s
    rw [operand, operand, if_pos hparam, if_pos hparam] at hfollows
    rw [heq, if_pos hgnu, if_neg harg]
    exact ih hfollows hr
  | case8 done left alone gap u hu s rest hs hgnu ih =>
    rcases Except.bind_eq_ok_iff.mp hr with ⟨l, hl, hr⟩
    rcases hregular hr with ⟨hgap, hr⟩
    rw [(Bool.not_eq_true' _).mp hgap] at h
    rcases stringifyAndPaste_paste std defn hargs h hu s rest with
      ⟨front, hdone, hraw, heq⟩
    rw [heq, if_neg hgnu, hl]
    exact ih l (follows_raw hdone (pasteOperands_raw hraw (operand_raw hargs s) hl)) hr
  | case10 done left alone gap u hu hhash s rest hs ih =>
    rcases Except.bind_eq_ok_iff.mp hr with ⟨t, ht, hr⟩
    rw [stringifyAndPaste.eq_def]
    simp only [hhash.1, reduceCtorEq, if_false, if_true, hs, ht]
    exact ih t (follows_raw h.substitute (forall_mem_singleton.mpr (stringify_ne_param ht))) hr
  | case12 done left alone gap u rest hu hhash ih =>
    rcases hregular hr with ⟨hne, hr⟩
    rw [stringifyAndPaste.eq_def]
    simp only [hu, of_decide_eq_true hne, if_false]
    exact ih (follows_operand h.substitute u) hr

end Loop

/-! ## Every replacement list -/

/-- `#define F(...) , ## __VA_ARGS__` -/
def commaMacro : Macro where
  name := ['F']
  functionLike := true
  params := 1
  isVararg := true
  replacement := [basicToken .comma, basicToken .tokenPaste, { token := .param, d := .val 0 }]

end Kcs.Preprocessor
