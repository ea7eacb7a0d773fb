import Mathlib

/-!
# Iteration in place

A state gives a value to every place.  A sweep updates the places of a list one after the other,
each from the state that the earlier updates have left.  Repeated sweeps need not come to rest, even
when all updates are monotone: values can go round.

Main results:

- Theorem {lit}`exists_stable_of_le`: sweeps come to rest when they begin below their updates.
- Theorem {lit}`exists_stable_of_sup`: sweeps come to rest when the state is a supremum of one that
  descends and one that ascends.
-/

namespace Kcs

open Function

variable {ι α : Type} [DecidableEq ι]

/-- The places of a list are updated in order. -/
def sweep (f : ι → (ι → α) → α) : List ι → (ι → α) → ι → α
  | [], x => x
  | b :: l, x => sweep f l (Function.update x b (f b x))

section Sweep

variable {f g h : ι → (ι → α) → α} {l l' : List ι} {x y : ι → α} {b : ι}

theorem sweep_of_not_mem (hb : b ∉ l) : sweep f l x b = x b := by
  induction l generalizing x with
  | nil => rfl
  | cons c l ih =>
    rw [List.mem_cons, not_or] at hb
    rw [sweep, ih hb.2, update_of_ne hb.1]

theorem iterate_sweep_of_not_mem (hb : b ∉ l) (n : Nat) : (sweep f l)^[n] x b = x b := by
  induction n with
  | zero => rfl
  | succ n ih => rw [iterate_succ_apply', sweep_of_not_mem hb, ih]

section Order

variable [PartialOrder α]

theorem le_sweep (hf : ∀ b, Monotone (f b)) (hsub : l' ⊆ l) (hle : ∀ b ∈ l, x b ≤ f b x) :
    x ≤ sweep f l' x ∧ ∀ b ∈ l, sweep f l' x b ≤ f b (sweep f l' x) := by
  induction l' generalizing x with
  | nil => exact ⟨le_refl x, hle⟩
  | cons c l' ih =>
    have hc : c ∈ l := hsub List.mem_cons_self
    have hup : x ≤ Function.update x c (f c x) := by
      intro b
      by_cases hbc : b = c
      · rw [hbc, update_self]
        exact hle c hc
      · rw [update_of_ne hbc]
    have hle' : ∀ b ∈ l, Function.update x c (f c x) b ≤ f b (Function.update x c (f c x)) := by
      intro b hb
      by_cases hbc : b = c
      · rw [hbc, update_self]
        exact hf c hup
      · rw [update_of_ne hbc]
        exact (hle b hb).trans (hf b hup)
    rcases ih (List.cons_subset.mp hsub).2 hle' with ⟨hrest, hend⟩
    exact ⟨hup.trans hrest, hend⟩

/-- Sweeps that go up come to rest. -/
theorem exists_stable_of_le [Finite α] (hf : ∀ b, Monotone (f b)) (hle : ∀ b ∈ l, x b ≤ f b x) :
    ∃ n, ∀ m, n ≤ m → (sweep f l)^[m] x = (sweep f l)^[n] x := by
  have hinv : ∀ n, ∀ b ∈ l, (sweep f l)^[n] x b ≤ f b ((sweep f l)^[n] x) := by
    intro n
    induction n with
    | zero => exact hle
    | succ n ih =>
      rw [iterate_succ_apply']
      exact (le_sweep hf (List.Subset.refl l) ih).2
  have hmono : Monotone fun n => (sweep f l)^[n] x := monotone_nat_of_le_succ fun n => by
    rw [iterate_succ_apply']
    exact (le_sweep hf (List.Subset.refl l) (hinv n)).1
  -- The places of the list have finitely many states.
  let chain : ℕ →o ({b // b ∈ l} → α) := ⟨fun n b => (sweep f l)^[n] x b.1, fun m n hmn b =>
    hmono hmn b.1⟩
  have hfinite : Finite ({b // b ∈ l} → α) := inferInstance
  rcases WellFoundedGT.monotone_chain_condition chain with ⟨n, hn⟩
  refine ⟨n, fun m hm => ?_⟩
  funext b
  by_cases hb : b ∈ l
  · exact (congrFun (hn m hm) ⟨b, hb⟩).symm
  · rw [iterate_sweep_of_not_mem hb, iterate_sweep_of_not_mem hb]

theorem exists_stable_of_ge [Finite α] (hf : ∀ b, Monotone (f b)) (hle : ∀ b ∈ l, f b x ≤ x b) :
    ∃ n, ∀ m, n ≤ m → (sweep f l)^[m] x = (sweep f l)^[n] x := by
  have hfinite : Finite αᵒᵈ := ‹Finite α›
  have hdual : ∀ b, Monotone (α := ι → αᵒᵈ) (β := αᵒᵈ) (f b) := fun b _ _ hxy => hf b hxy
  exact exists_stable_of_le (α := αᵒᵈ) hdual hle

end Order

section Sup

variable [Lattice α]

theorem update_sup (x y : ι → α) (b : ι) (u v : α) :
    Function.update (x ⊔ y) b (u ⊔ v) = Function.update x b u ⊔ Function.update y b v := by
  funext c
  by_cases hc : c = b
  · simp [hc]
  · simp [hc]

theorem sweep_sup (hsplit : ∀ b x y, h b (x ⊔ y) = f b x ⊔ g b y) (l : List ι) (x y : ι → α) :
    sweep h l (x ⊔ y) = sweep f l x ⊔ sweep g l y := by
  induction l generalizing x y with
  | nil => rfl
  | cons b l ih => rw [sweep, sweep, sweep, hsplit, update_sup, ih]

theorem iterate_sweep_sup (hsplit : ∀ b x y, h b (x ⊔ y) = f b x ⊔ g b y) (l : List ι)
    (x y : ι → α) (n : Nat) :
    (sweep h l)^[n] (x ⊔ y) = (sweep f l)^[n] x ⊔ (sweep g l)^[n] y := by
  induction n with
  | zero => rfl
  | succ n ih =>
    rw [iterate_succ_apply', ih, sweep_sup hsplit, iterate_succ_apply', iterate_succ_apply']

/-- Sweeps of a supremum come to rest when one part descends and the other ascends. -/
theorem exists_stable_of_sup [Finite α] (hsplit : ∀ b x y, h b (x ⊔ y) = f b x ⊔ g b y)
    (hf : ∀ b, Monotone (f b)) (hg : ∀ b, Monotone (g b)) (hx : ∀ b ∈ l, f b x ≤ x b)
    (hy : ∀ b ∈ l, y b ≤ g b y) :
    ∃ n, sweep h l ((sweep h l)^[n] (x ⊔ y)) = (sweep h l)^[n] (x ⊔ y) := by
  rcases exists_stable_of_ge hf hx with ⟨n1, h1⟩
  rcases exists_stable_of_le hg hy with ⟨n2, h2⟩
  refine ⟨max n1 n2, ?_⟩
  rw [← iterate_succ_apply' (sweep h l), iterate_sweep_sup hsplit,
    iterate_sweep_sup hsplit, h1 _ (Nat.le_succ_of_le (le_max_left n1 n2)),
    h1 _ (le_max_left n1 n2), h2 _ (Nat.le_succ_of_le (le_max_right n1 n2)),
    h2 _ (le_max_right n1 n2)]

end Sup

end Sweep

end Kcs
