import Mathlib

/-!
# Fallible computations

Peeling lemmas for computations in {lit}`Except`: a successful sequence is a
successful first part followed by a successful rest.  Two computations in
{lit}`Option` are related when both fail or both succeed with related results.
-/

namespace Except

variable {ε α β : Type}

theorem bind_eq_ok_iff {x : Except ε α} {f : α → Except ε β} {b : β} :
    (x >>= f) = .ok b ↔ ∃ a, x = .ok a ∧ f a = .ok b := by
  cases x with
  | error e => simp [bind, Except.bind]
  | ok a => simp [bind, Except.bind]

theorem map_eq_ok_iff {x : Except ε α} {f : α → β} {b : β} :
    (f <$> x) = .ok b ↔ ∃ a, x = .ok a ∧ f a = b := by
  cases x with
  | error e => simp [Functor.map, Except.map]
  | ok a => simp [Functor.map, Except.map]

@[simp]
theorem ok_bind (a : α) (f : α → Except ε β) : ((Except.ok a : Except ε α) >>= f) = f a :=
  rfl

@[simp]
theorem error_bind (e : ε) (f : α → Except ε β) :
    ((Except.error e : Except ε α) >>= f) = .error e :=
  rfl

end Except

namespace Option

variable {α β : Type} {R S : α → β → Prop}

theorem Rel.cases {x : Option α} {y : Option β} (h : Option.Rel R x y) :
    (x = .none ∧ y = .none) ∨ ∃ a b, x = .some a ∧ y = .some b ∧ R a b := by
  cases h with
  | none => exact Or.inl ⟨rfl, rfl⟩
  | some hR => exact Or.inr ⟨_, _, rfl, rfl, hR⟩

theorem Rel.mono {x : Option α} {y : Option β} (h : Option.Rel R x y)
    (hRS : ∀ a b, R a b → S a b) : Option.Rel S x y := by
  cases h with
  | none => exact Option.Rel.none
  | some hR => exact Option.Rel.some (hRS _ _ hR)

theorem Rel.refl_of {R : α → α → Prop} (hR : ∀ a, R a a) (x : Option α) : Option.Rel R x x := by
  cases x with
  | none => exact Option.Rel.none
  | some a => exact Option.Rel.some (hR a)

end Option
