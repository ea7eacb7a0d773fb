import Mathlib

/-!
# Expressions with precedence

Expressions of atoms, parentheses, signs and binary operators that group to the left, written with
tokens among which signs and operators may share theirs.

Main results:

- Theorem {lit}`Alphabet.eq_of_tokens_eq`: tokens are read as an expression in one way.
-/

namespace Precedence

open List

/-- Expressions with the parentheses that they are written with. -/
inductive Expr (Atom Sign Op : Type)
  | atom (a : Atom)
  | parens (e : Expr Atom Sign Op)
  | sign (u : Sign) (e : Expr Atom Sign Op)
  | binary (op : Op) (left right : Expr Atom Sign Op)

/-- The tokens of expressions, and how tightly the operators bind: all less than a sign. -/
structure Alphabet (Atom Sign Op Token : Type) where
  atom : Atom → Token
  sign : Sign → Token
  op : Op → Token
  lparen : Token
  rparen : Token
  precedence : Op → Nat
  top : Nat
  precedence_lt : ∀ op, precedence op < top
  atom_injective : Function.Injective atom
  sign_injective : Function.Injective sign
  op_injective : Function.Injective op
  atom_ne_sign : ∀ a u, atom a ≠ sign u
  atom_ne_lparen : ∀ a, atom a ≠ lparen
  sign_ne_lparen : ∀ u, sign u ≠ lparen
  op_ne_rparen : ∀ o, op o ≠ rparen

namespace Alphabet

variable {Atom Sign Op Token : Type} (A : Alphabet Atom Sign Op Token)

/-- The tokens that an expression is written with. -/
def tokens : Expr Atom Sign Op → List Token
  | .atom a => [A.atom a]
  | .parens e => A.lparen :: (tokens e ++ [A.rparen])
  | .sign u e => A.sign u :: tokens e
  | .binary op l r => tokens l ++ A.op op :: tokens r

/-- How tightly the outermost part of an expression binds. -/
def binding : Expr Atom Sign Op → Nat
  | .binary op _ _ => A.precedence op
  | .sign _ _ => A.top
  | .atom _ | .parens _ => A.top + 1

/-- Operands bind tighter than the operators they stand at, and left operands as tightly. -/
def Grouped : Expr Atom Sign Op → Prop
  | .atom _ => True
  | .parens e => Grouped e
  | .sign _ e => Grouped e ∧ A.top < A.binding e
  | .binary op l r => Grouped l ∧ Grouped r ∧ A.precedence op ≤ A.binding l ∧
      A.precedence op < A.binding r

/-- Tokens do not go on with an operator of a level or of a tighter one. -/
def Ends (k : Nat) (rest : List Token) : Prop :=
  ∀ op, k ≤ A.precedence op → rest.head? ≠ some (A.op op)

/-- Expressions of a level, the first of them with few tokens, are told apart from what follows. -/
def UniqueAt (n k : Nat) : Prop :=
  ∀ ⦃e e' : Expr Atom Sign Op⦄ ⦃rest rest' : List Token⦄, (A.tokens e).length ≤ n →
    A.Grouped e → A.Grouped e' → k ≤ A.binding e → k ≤ A.binding e' →
    A.Ends k rest → A.Ends k rest' → A.tokens e ++ rest = A.tokens e' ++ rest' →
    e = e' ∧ rest = rest'

variable {A}

theorem Ends.mono {k k' : Nat} {rest : List Token} (h : A.Ends k rest) (hle : k ≤ k') :
    A.Ends k' rest := fun op hop => h op (hle.trans hop)

theorem ends_nil (k : Nat) : A.Ends k [] := by
  rintro op - ⟨⟩

theorem ends_rparen (k : Nat) (rest : List Token) : A.Ends k (A.rparen :: rest) :=
  fun op _ h => A.op_ne_rparen op (Option.some_inj.mp h).symm

/-! ## Operands without operators -/

/-- Atoms and parentheses, if what stands in parentheses is told apart. -/
theorem uniqueAt_primary {n : Nat} (h : ∀ m < n, A.UniqueAt m 0) : A.UniqueAt n (A.top + 1) := by
  intro e e' rest rest' hlen he he' hk hk' hrest hrest' heq
  have hprimary : ∀ {e : Expr Atom Sign Op}, A.top + 1 ≤ A.binding e →
      (∃ a, e = .atom a) ∨ ∃ e1, e = .parens e1 := by
    intro e hk
    cases e with
    | atom a => exact .inl ⟨a, rfl⟩
    | parens e1 => exact .inr ⟨e1, rfl⟩
    | sign u e1 => exact absurd hk (Nat.not_le.mpr (Nat.lt_succ_self _))
    | binary op l r => exact absurd hk (Nat.not_le.mpr ((A.precedence_lt op).trans
        (Nat.lt_succ_self _)))
  rcases hprimary hk with ⟨a, rfl⟩ | ⟨e1, rfl⟩ <;> rcases hprimary hk' with ⟨a', rfl⟩ | ⟨e1', rfl⟩
  · rcases cons.inj heq with ⟨hatom, hrest⟩
    exact ⟨by rw [A.atom_injective hatom], hrest⟩
  · exact absurd (cons.inj heq).1 (A.atom_ne_lparen a)
  · exact absurd (cons.inj heq).1.symm (A.atom_ne_lparen a')
  · rw [tokens, tokens, cons_append, cons_append, append_assoc, append_assoc, singleton_append,
      singleton_append] at heq
    have hinner := (cons.inj heq).2
    rw [tokens, length_cons, length_append] at hlen
    have hunique : e1 = e1' ∧ A.rparen :: rest = A.rparen :: rest' :=
      h (A.tokens e1).length (by omega) (le_refl _) he he' (Nat.zero_le _) (Nat.zero_le _)
        (ends_rparen 0 rest) (ends_rparen 0 rest') hinner
    rcases hunique with ⟨rfl, hbehind⟩
    exact ⟨rfl, (cons.inj hbehind).2⟩

/-- Signs in front of atoms and parentheses. -/
theorem uniqueAt_sign {n : Nat} (h : A.UniqueAt n (A.top + 1)) : A.UniqueAt n A.top := by
  intro e e' rest rest' hlen he he' hk hk' hrest hrest' heq
  have hcases : ∀ {e : Expr Atom Sign Op}, A.top ≤ A.binding e →
      (∃ u e1, e = .sign u e1) ∨ A.top + 1 ≤ A.binding e ∧
        ∀ u rest rest', A.tokens e ++ rest ≠ A.sign u :: rest' := by
    intro e hk
    cases e with
    | atom a => exact .inr ⟨le_refl _, fun u _ _ heq => A.atom_ne_sign a u (cons.inj heq).1⟩
    | parens e1 =>
      exact .inr ⟨le_refl _, fun u _ _ heq => A.sign_ne_lparen u (cons.inj heq).1.symm⟩
    | sign u e1 => exact .inl ⟨u, e1, rfl⟩
    | binary op l r => exact absurd hk (Nat.not_le.mpr (A.precedence_lt op))
  have hends := hrest.mono (Nat.le_succ A.top)
  have hends' := hrest'.mono (Nat.le_succ A.top)
  rcases hcases hk with ⟨u, e1, rfl⟩ | ⟨hk1, hne⟩ <;>
    rcases hcases hk' with ⟨u', e1', rfl⟩ | ⟨hk1', hne'⟩
  · rcases cons.inj heq with ⟨hsign, hinner⟩
    have hu := A.sign_injective hsign
    rcases h ((Nat.le_succ _).trans hlen) he.1 he'.1 he.2 he'.2 hends hends' hinner with
      ⟨rfl, hbehind⟩
    exact ⟨by rw [hu], hbehind⟩
  · exact absurd heq.symm (hne' u rest' _)
  · exact absurd heq (hne u' rest _)
  · exact h hlen he he' hk1 hk1' hends hends' heq

/-! ## Operands with operators of one level -/

/-- The first operand at a level, and the operators of the level with their right operands. -/
def spine (A : Alphabet Atom Sign Op Token) (k : Nat) :
    Expr Atom Sign Op → Expr Atom Sign Op × List (Op × Expr Atom Sign Op)
  | .binary op l r =>
    if A.precedence op = k then ((spine A k l).1, (spine A k l).2 ++ [(op, r)])
    else (.binary op l r, [])
  | e => (e, [])

/-- The expression with a first operand and further ones, grouped to the left. -/
def group (e : Expr Atom Sign Op) (tail : List (Op × Expr Atom Sign Op)) : Expr Atom Sign Op :=
  tail.foldl (fun l x => .binary x.1 l x.2) e

/-- The tokens of operators with their right operands. -/
def tailTokens (A : Alphabet Atom Sign Op Token) (tail : List (Op × Expr Atom Sign Op)) :
    List Token :=
  tail.flatMap fun x => A.op x.1 :: A.tokens x.2

/-- An operator of a level with its right operand. -/
structure Operand (A : Alphabet Atom Sign Op Token) (n k : Nat) (x : Op × Expr Atom Sign Op) :
    Prop where
  precedence : A.precedence x.1 = k
  grouped : A.Grouped x.2
  binding : k + 1 ≤ A.binding x.2
  length : (A.tokens x.2).length ≤ n

theorem group_spine (k : Nat) (e : Expr Atom Sign Op) :
    group (A.spine k e).1 (A.spine k e).2 = e := by
  induction e with
  | binary op l r ihl _ =>
    rw [spine]
    split_ifs
    · rw [group, foldl_append]
      exact congrArg (Expr.binary op · r) ihl
    · rfl
  | _ => rfl

theorem tokens_spine (k : Nat) (e : Expr Atom Sign Op) :
    A.tokens e = A.tokens (A.spine k e).1 ++ A.tailTokens (A.spine k e).2 := by
  induction e with
  | binary op l r ihl _ =>
    rw [spine]
    split_ifs
    · rw [tokens, ihl, tailTokens, tailTokens, flatMap_append, append_assoc, flatMap_singleton]
    · rw [tailTokens, flatMap_nil, append_nil]
  | _ =>
    rw [spine, tailTokens, flatMap_nil, append_nil]
    simp

/-- The operands of a level bind tighter than it. -/
theorem spine_spec {k : Nat} {e : Expr Atom Sign Op} (he : A.Grouped e) (hk : k ≤ A.binding e)
    (hlt : k < A.top) : A.Grouped (A.spine k e).1 ∧ k + 1 ≤ A.binding (A.spine k e).1 ∧
      ∀ x ∈ (A.spine k e).2, A.Operand (A.tokens e).length k x := by
  induction e with
  | binary op l r ihl _ =>
    rcases he with ⟨hl, hr, hleft, hright⟩
    rw [spine]
    split_ifs with hop
    · subst hop
      rcases ihl hl hleft with ⟨hgrouped, hbinding, htail⟩
      refine ⟨hgrouped, hbinding, fun x hx => ?_⟩
      have hlen : (A.tokens (.binary op l r)).length =
          (A.tokens l).length + ((A.tokens r).length + 1) := by
        rw [tokens, length_append, length_cons]
      rcases mem_append.mp hx with hx | hx
      · have hx := htail x hx
        exact ⟨hx.precedence, hx.grouped, hx.binding, hx.length.trans (by omega)⟩
      · rw [mem_singleton.mp hx]
        exact ⟨rfl, hr, hright, show (A.tokens r).length ≤ _ by omega⟩
    · exact ⟨⟨hl, hr, hleft, hright⟩, Nat.lt_of_le_of_ne hk (Ne.symm hop), forall_mem_nil _⟩
  | atom a => exact ⟨he, Nat.succ_le_succ hlt.le, forall_mem_nil _⟩
  | parens e => exact ⟨he, Nat.succ_le_succ hlt.le, forall_mem_nil _⟩
  | sign u e => exact ⟨he, hlt, forall_mem_nil _⟩

/-- Behind an operand of a level comes an operator of the level or the rest. -/
theorem ends_tail {k : Nat} {tail : List (Op × Expr Atom Sign Op)} {rest : List Token}
    (htail : ∀ x ∈ tail, A.precedence x.1 = k) (hrest : A.Ends k rest) :
    A.Ends (k + 1) (A.tailTokens tail ++ rest) := by
  rcases tail with _ | ⟨⟨op, r⟩, tail⟩
  · exact hrest.mono (Nat.le_succ k)
  · intro op' hop' h
    have heq : op = op' := A.op_injective (Option.some_inj.mp h)
    have hlevel : A.precedence op = k := htail (op, r) mem_cons_self
    rw [← heq] at hop'
    omega

/-- Operators of a level with their operands are told apart from what follows. -/
theorem tail_unique {n k : Nat} (h : A.UniqueAt n (k + 1))
    {tail tail' : List (Op × Expr Atom Sign Op)} {rest rest' : List Token}
    (htail : ∀ x ∈ tail, A.Operand n k x)
    (htail' : ∀ x ∈ tail', A.precedence x.1 = k ∧ A.Grouped x.2 ∧ k + 1 ≤ A.binding x.2)
    (hrest : A.Ends k rest) (hrest' : A.Ends k rest')
    (heq : A.tailTokens tail ++ rest = A.tailTokens tail' ++ rest') :
    tail = tail' ∧ rest = rest' := by
  induction tail generalizing tail' with
  | nil =>
    rcases tail' with _ | ⟨⟨op, r⟩, tail'⟩
    · exact ⟨rfl, heq⟩
    · have hlevel := (htail' (op, r) mem_cons_self).1
      exact absurd (congrArg head? heq) (hrest op hlevel.ge)
  | cons x tail ih =>
    rcases x with ⟨op, r⟩
    have hx := htail (op, r) mem_cons_self
    rcases tail' with _ | ⟨⟨op', r'⟩, tail'⟩
    · exact absurd (congrArg head? heq).symm (hrest' op hx.precedence.ge)
    · have hx' := htail' (op', r') mem_cons_self
      have hmem := fun y hy => htail y (mem_cons_of_mem (op, r) hy)
      have hmem' := fun y hy => htail' y (mem_cons_of_mem (op', r') hy)
      rw [tailTokens, tailTokens, flatMap_cons, flatMap_cons, append_assoc, append_assoc,
        cons_append, cons_append] at heq
      rcases cons.inj heq with ⟨hop, hbehind⟩
      rcases h hx.length hx.grouped hx'.2.1 hx.binding hx'.2.2
        (ends_tail (fun y hy => (hmem y hy).precedence) hrest)
        (ends_tail (fun y hy => (hmem' y hy).1) hrest') hbehind with ⟨hr, hafter⟩
      rcases ih hmem hmem' hafter with ⟨rfl, hrest⟩
      have hops : op = op' := A.op_injective hop
      have hoperands : r = r' := hr
      exact ⟨by rw [hops, hoperands], hrest⟩

/-- Operands of a level, if those of the next tighter one are told apart. -/
theorem uniqueAt_level {n k : Nat} (h : A.UniqueAt n (k + 1)) (hlt : k < A.top) :
    A.UniqueAt n k := by
  intro e e' rest rest' hlen he he' hk hk' hrest hrest' heq
  rcases spine_spec he hk hlt with ⟨hgrouped, hbinding, htail⟩
  rcases spine_spec he' hk' hlt with ⟨hgrouped', hbinding', htail'⟩
  have hfirst : (A.tokens (A.spine k e).1).length ≤ n := by
    refine le_trans ?_ hlen
    rw [tokens_spine k e, length_append]
    exact Nat.le_add_right _ _
  rw [tokens_spine k e, tokens_spine k e', append_assoc, append_assoc] at heq
  rcases h hfirst hgrouped hgrouped' hbinding hbinding'
    (ends_tail (fun x hx => (htail x hx).precedence) hrest)
    (ends_tail (fun x hx => (htail' x hx).precedence) hrest') heq with ⟨hspine, hbehind⟩
  rcases tail_unique h (fun x hx => ⟨(htail x hx).precedence, (htail x hx).grouped,
      (htail x hx).binding, (htail x hx).length.trans hlen⟩)
    (fun x hx => ⟨(htail' x hx).precedence, (htail' x hx).grouped, (htail' x hx).binding⟩)
    hrest hrest' hbehind with ⟨htails, hrests⟩
  refine ⟨?_, hrests⟩
  rw [← group_spine (A := A) k e, ← group_spine (A := A) k e', hspine, htails]

/-- All levels, by the number of tokens and from the tightest level on. -/
theorem uniqueAt_zero (n : Nat) : A.UniqueAt n 0 := by
  induction n using Nat.strong_induction_on with
  | _ n ih =>
    have hsign : A.UniqueAt n A.top := uniqueAt_sign (uniqueAt_primary ih)
    have hlevel : ∀ j ≤ A.top, A.UniqueAt n (A.top - j) := by
      intro j hj
      induction j with
      | zero => exact hsign
      | succ j ihj =>
        have hnext := ihj (Nat.le_of_succ_le hj)
        rw [show A.top - j = A.top - (j + 1) + 1 by omega] at hnext
        exact uniqueAt_level hnext (by omega)
    have hzero := hlevel A.top (le_refl _)
    rwa [Nat.sub_self] at hzero

theorem eq_of_tokens_eq {e e' : Expr Atom Sign Op} (he : A.Grouped e) (he' : A.Grouped e')
    (h : A.tokens e = A.tokens e') : e = e' :=
  (uniqueAt_zero _ (le_refl _) he he' (Nat.zero_le _) (Nat.zero_le _) (ends_nil 0) (ends_nil 0)
    (congrArg (· ++ []) h)).1

end Alphabet

end Precedence
