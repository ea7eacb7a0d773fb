import Mathlib

/-!
# Recursive calls

The body of a recursive function is a computation that asks for the results of calls: it has a
result, or it makes a call and goes on with the answer.  The function is the body with calls of
itself, to a bounded depth.

Main results:

- Theorem {lit}`answers_iff_acc`: a call has an answer exactly when there is no infinite chain of
  calls from it.
-/

namespace Kcs

/-- A computation that makes calls. -/
inductive Calling (κ ρ α : Type) : Type
  | done (a : α)
  | call (c : κ) (next : ρ → Calling κ ρ α)

namespace Calling

variable {κ ρ α : Type}

/-- The result, for the answers to calls. -/
def eval (answer : κ → Option ρ) : Calling κ ρ α → Option α
  | done a => some a
  | call c next => (answer c).bind fun r => (next r).eval answer

/-- The calls that are made, for the answers to calls. -/
inductive Makes (answer : κ → ρ → Prop) : Calling κ ρ α → κ → Prop
  | here (c : κ) (next : ρ → Calling κ ρ α) : Makes answer (call c next) c
  | later {c : κ} {r : ρ} {next : ρ → Calling κ ρ α} {d : κ} (hanswer : answer c r)
      (hrest : Makes answer (next r) d) : Makes answer (call c next) d

@[simp]
theorem not_makes_done (answer : κ → ρ → Prop) (a : α) (d : κ) :
    ¬ Makes answer (done a : Calling κ ρ α) d := by
  intro h
  cases h

theorem makes_call_iff {answer : κ → ρ → Prop} {c d : κ} {next : ρ → Calling κ ρ α} :
    Makes answer (call c next) d ↔ d = c ∨ ∃ r, answer c r ∧ Makes answer (next r) d := by
  constructor
  · intro h
    cases h with
    | here => exact Or.inl rfl
    | later hanswer hrest => exact Or.inr ⟨_, hanswer, hrest⟩
  · rintro (rfl | ⟨r, hanswer, hrest⟩)
    · exact .here _ _
    · exact .later hanswer hrest

theorem eval_mono {answer answer' : κ → Option ρ}
    (h : ∀ c r, answer c = some r → answer' c = some r) {t : Calling κ ρ α} {a : α}
    (ht : t.eval answer = some a) : t.eval answer' = some a := by
  induction t with
  | done b => exact ht
  | call c next ih =>
    rcases Option.bind_eq_some_iff.mp ht with ⟨r, hr, hrest⟩
    rw [eval, h c r hr]
    exact ih r hrest

end Calling

open Calling

section Runs

variable {κ ρ : Type} {body : κ → Calling κ ρ ρ}

/-- The function with the given body, to a bounded depth of calls. -/
def runCalls (body : κ → Calling κ ρ ρ) : Nat → κ → Option ρ
  | 0, _ => none
  | n + 1, c => (body c).eval (runCalls body n)

/-- The function returns. -/
def Answers (body : κ → Calling κ ρ ρ) (c : κ) (r : ρ) : Prop := ∃ n, runCalls body n c = some r

theorem runCalls_succ {n : Nat} {c : κ} {r : ρ} (h : runCalls body n c = some r) :
    runCalls body (n + 1) c = some r := by
  induction n generalizing c r with
  | zero => cases h
  | succ n ih => exact eval_mono (fun _ _ hr => ih hr) h

theorem runCalls_mono {n m : Nat} (hle : n ≤ m) {c : κ} {r : ρ}
    (h : runCalls body n c = some r) : runCalls body m c = some r := by
  induction hle with
  | refl => exact h
  | step _ ih => exact runCalls_succ ih

theorem Answers.unique {c : κ} {r r' : ρ} (h : Answers body c r) (h' : Answers body c r') :
    r = r' := by
  rcases h with ⟨n, hn⟩
  rcases h' with ⟨m, hm⟩
  have hr := runCalls_mono (Nat.le_max_left n m) hn
  rw [runCalls_mono (Nat.le_max_right n m) hm, Option.some.injEq] at hr
  exact hr.symm

theorem Calling.Makes.answer {α : Type} {t : Calling κ ρ α} {n : Nat} {a : α} {d : κ}
    (h : t.Makes (Answers body) d) (ht : t.eval (runCalls body n) = some a) :
    ∃ r, runCalls body n d = some r := by
  induction h with
  | here c next =>
    rcases Option.bind_eq_some_iff.mp ht with ⟨r, hr, -⟩
    exact ⟨r, hr⟩
  | later hanswer _ ih =>
    rcases Option.bind_eq_some_iff.mp ht with ⟨r', hr', hrest⟩
    rw [Answers.unique ⟨n, hr'⟩ hanswer] at hrest
    exact ih hrest

theorem Calling.eval_of_makes {α : Type} (t : Calling κ ρ α)
    (h : ∀ d, t.Makes (Answers body) d → ∃ r, Answers body d r) :
    ∃ n a, t.eval (runCalls body n) = some a := by
  induction t with
  | done a => exact ⟨0, a, rfl⟩
  | call c next ih =>
    rcases h c (.here c next) with ⟨r, n, hn⟩
    rcases ih r fun d hd => h d (.later ⟨n, hn⟩ hd) with ⟨m, a, ha⟩
    refine ⟨max n m, a, ?_⟩
    rw [eval, runCalls_mono (Nat.le_max_left n m) hn]
    exact eval_mono (fun _ _ hr => runCalls_mono (Nat.le_max_right n m) hr) ha

/-- A call has an answer exactly when there is no infinite chain of calls from it. -/
theorem answers_iff_acc (body : κ → Calling κ ρ ρ) (c : κ) :
    (∃ r, Answers body c r) ↔ Acc (fun d c => (body c).Makes (Answers body) d) c := by
  constructor
  · rintro ⟨r, n, hn⟩
    induction n generalizing c r with
    | zero => cases hn
    | succ n ih =>
      refine Acc.intro c fun d hd => ?_
      rcases hd.answer hn with ⟨r', hr'⟩
      exact ih d r' hr'
  · intro hacc
    induction hacc with
    | intro c _ ih =>
      rcases (body c).eval_of_makes ih with ⟨n, r, hr⟩
      exact ⟨r, n + 1, hr⟩

end Runs

end Kcs
