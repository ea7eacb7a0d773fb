import Mathlib

/-!
# Computations with a bound on their steps

A computation that may run out of fuel is a family of results, one for each amount
of fuel.  More fuel never changes a result other than running out; the
computation ends when some amount is enough.

Main results:

- Theorem {lit}`Ends.bind`: a sequence of computations ends if its parts do.
- Theorem {lit}`Ends.mapM`: a computation over a list ends if it ends at every
  element.
-/

namespace Kcs.Fuel

variable {ε α β : Type}

/-! ## Approximation -/

/-- A result that is out of fuel, or the other one. -/
def Approx (out : ε) (x y : Except ε α) : Prop := x = .error out ∨ x = y

/-- More fuel keeps the results of the family. -/
def Steady (out : ε) (f : Nat → Except ε α) : Prop := ∀ n, Approx out (f n) (f (n + 1))

/-- Some amount of fuel is enough. -/
def Ends (out : ε) (f : Nat → Except ε α) : Prop := ∃ n, f n ≠ .error out

variable {out : ε}

theorem Approx.refl (x : Except ε α) : Approx out x x := Or.inr rfl

variable {x y : Except ε α}

theorem Approx.trans {x y z : Except ε α} (h : Approx out x y) (h' : Approx out y z) :
    Approx out x z := by
  rcases h with h | rfl
  · exact Or.inl h
  · exact h'

theorem Approx.eq (h : Approx out x y) (hx : x ≠ .error out) : x = y :=
  h.resolve_left hx

theorem Approx.bind {f g : α → Except ε β} (h : Approx out x y)
    (hf : ∀ a, Approx out (f a) (g a)) : Approx out (x.bind f) (y.bind g) := by
  rcases h with rfl | rfl
  · exact Or.inl rfl
  · cases x with
    | error e => exact Or.inr rfl
    | ok a => exact hf a

theorem Approx.map (f : α → β) (h : Approx out x y) :
    Approx out (f <$> x) (f <$> y) := by
  rcases h with rfl | rfl
  · exact Or.inl rfl
  · exact Or.inr rfl

theorem mapM_cons_eq (f : α → Except ε β) (a : α) (l : List α) :
    (a :: l).mapM f = (f a).bind fun b => (l.mapM f).bind fun bs => .ok (b :: bs) := by
  rw [List.mapM_cons]
  rfl

theorem Approx.mapM {f g : α → Except ε β} (h : ∀ a, Approx out (f a) (g a)) (l : List α) :
    Approx out (l.mapM f) (l.mapM g) := by
  induction l with
  | nil => exact Approx.refl _
  | cons a l ih =>
    rw [mapM_cons_eq, mapM_cons_eq]
    exact (h a).bind fun b => ih.bind fun bs => Approx.refl _

variable {f : Nat → Except ε α} {m n : Nat}

theorem Approx.of_le (h : Steady out f) (hmn : m ≤ n) :
    Approx out (f m) (f n) := by
  induction hmn with
  | refl => exact Approx.refl _
  | step _ ih => exact ih.trans (h _)

theorem Steady.eq_of_le (h : Steady out f)
    (hm : f m = x) (hx : x ≠ .error out) (hmn : m ≤ n) : f n = x := by
  subst hm
  exact ((Approx.of_le h hmn).eq hx).symm

theorem Steady.unique (h : Steady out f)
    (hm : f m ≠ .error out) (hn : f n ≠ .error out) : f m = f n := by
  rcases le_total m n with hmn | hnm
  · exact (Approx.of_le h hmn).eq hm
  · exact ((Approx.of_le h hnm).eq hn).symm

/-! ## Computations without fuel -/

theorem bind_ne_out_of_ok {f : α → Except ε β} (hx : x ≠ .error out)
    (hf : ∀ a, x = .ok a → f a ≠ .error out) : x.bind f ≠ .error out := by
  cases x with
  | error e => simpa [Except.bind] using hx
  | ok a => exact hf a rfl

theorem bind_ne_out {f : α → Except ε β} (hx : x ≠ .error out)
    (hf : ∀ a, f a ≠ .error out) : x.bind f ≠ .error out :=
  bind_ne_out_of_ok hx fun a _ => hf a

theorem map_ne_out (f : α → β) (hx : x ≠ .error out) :
    f <$> x ≠ .error out := by
  cases x with
  | error e => simpa [Functor.map, Except.map] using hx
  | ok a => simp [Functor.map, Except.map]

theorem ite_ne_out {p : Prop} [Decidable p] (hx : x ≠ .error out)
    (hy : y ≠ .error out) : (if p then x else y) ≠ .error out := by
  split
  · exact hx
  · exact hy

/-! ## Ending -/

theorem Ends.const (hx : x ≠ .error out) : Ends out fun _ => x := ⟨0, hx⟩

theorem Ends.succ (h : Ends out fun n => f (n + 1)) : Ends out f := by
  rcases h with ⟨n, hn⟩
  exact ⟨n + 1, hn⟩

theorem Ends.map (g : α → β) (h : Ends out f) :
    Ends out fun n => g <$> f n := by
  rcases h with ⟨n, hn⟩
  exact ⟨n, map_ne_out g hn⟩

theorem Steady.bind {g : α → Nat → Except ε β} (hf : Steady out f)
    (hg : ∀ a, Steady out (g a)) : Steady out fun n => (f n).bind fun a => g a n :=
  fun n => (hf n).bind fun a => hg a n

/-- A sequence ends if its first part does, and its second part after every result
of the first one. -/
theorem Ends.bind {g : α → Nat → Except ε β} (hf : Steady out f)
    (hg : ∀ a, Steady out (g a)) (h : Ends out f)
    (h' : ∀ a n, f n = .ok a → Ends out (g a)) :
    Ends out fun n => (f n).bind fun a => g a n := by
  rcases h with ⟨m, hm⟩
  cases hx : f m with
  | error e =>
    refine ⟨m, ?_⟩
    rw [hx] at hm
    simpa [hx, Except.bind] using hm
  | ok a =>
    rcases h' a m hx with ⟨n, hn⟩
    refine ⟨max m n, ?_⟩
    have hfm := hf.eq_of_le hx (by simp) (Nat.le_max_left m n)
    have hgn := (hg a).eq_of_le rfl hn (Nat.le_max_right m n)
    simp only [hfm, Except.bind, hgn]
    exact hn

/-- A computation over a list ends if it ends at every element. -/
theorem Ends.mapM {f : Nat → α → Except ε β} {l : List α}
    (hf : ∀ a, Steady out fun n => f n a) (h : ∀ a ∈ l, Ends out fun n => f n a) :
    Ends out fun n => l.mapM (f n) := by
  have hsteady : ∀ l : List α, Steady out fun n => l.mapM (f n) :=
    fun l n => Approx.mapM (fun a => hf a n) l
  induction l with
  | nil => exact ⟨0, by simp [List.mapM_nil, pure, Except.pure]⟩
  | cons a l ih =>
    simp only [mapM_cons_eq]
    have ih := ih fun b hb => h b (List.mem_cons_of_mem a hb)
    have hrest : ∀ b, Steady out fun n => (l.mapM (f n)).bind fun bs => .ok (b :: bs) :=
      fun b => (hsteady l).bind fun bs _ => Approx.refl _
    refine Ends.bind (hf a) hrest (h a List.mem_cons_self) ?_
    intro b n hb
    exact Ends.bind (hsteady l) (fun bs _ => Approx.refl _) ih
      (fun bs n hbs => Ends.const (by simp))

end Kcs.Fuel
