import Mathlib

/-!
# Chains of a partial function

A partial function takes each place to at most one next place.  Another partial
function shortcuts it when each of its steps goes at least as far along the same
chain.

Main results:

- Theorem {lit}`meets_of_leads`: where all chains end, a place still meets what it led
  to after shortcuts.
- Theorem {lit}`settles_of_relation`: a chain ends when its places carry a relation
  that has no infinite chain.
- Theorem {lit}`settles_of_acyclic`: a chain through finitely many places ends when none
  comes back.
- Theorem {lit}`endsAt_update_iff`: skipping one place keeps the ends.
-/

namespace Kcs

open Option

variable {α β : Type} {next short : α → Option α} {a b c : α}

/-- One place leads to another in any number of steps. -/
def Leads (next : α → Option α) : α → α → Prop := Relation.ReflTransGen fun a b => next a = some b

/-- Two places lead to a common place. -/
def Meets (next : α → Option α) (a b : α) : Prop := ∃ c, Leads next a c ∧ Leads next b c

/-- The chain from a place ends. -/
def Settles (next : α → Option α) : α → Prop := Acc fun b a => next a = some b

/-- Every step of one function is a step of the other and more steps behind it. -/
def Shortcuts (short next : α → Option α) : Prop :=
  ∀ a b, next a = some b → ∃ c, short a = some c ∧ Leads next b c

theorem Leads.refl (a : α) : Leads next a a :=
  Relation.ReflTransGen.refl

theorem Leads.head (h : next a = some b) (hbc : Leads next b c) : Leads next a c :=
  Relation.ReflTransGen.head h hbc

theorem Leads.trans (hab : Leads next a b) (hbc : Leads next b c) : Leads next a c :=
  Relation.ReflTransGen.trans hab hbc

theorem Leads.cases_head (h : Leads next a c) :
    a = c ∨ ∃ b, next a = some b ∧ Leads next b c :=
  Relation.ReflTransGen.cases_head h

theorem Leads.total (hab : Leads next a b) (hac : Leads next a c) :
    Leads next b c ∨ Leads next c b := by
  apply Relation.ReflTransGen.total_of_right_unique _ hab hac
  intro x y z hxy hxz
  rw [hxy, some.injEq] at hxz
  exact hxz

theorem Meets.refl (a : α) : Meets next a a :=
  ⟨a, Leads.refl a, Leads.refl a⟩

theorem Meets.symm (h : Meets next a b) : Meets next b a := by
  rcases h with ⟨c, hac, hbc⟩
  exact ⟨c, hbc, hac⟩

theorem Meets.head (h : next a = some b) (hbc : Meets next b c) : Meets next a c := by
  rcases hbc with ⟨d, hbd, hcd⟩
  exact ⟨d, Leads.head h hbd, hcd⟩

/-- Where a chain ends, the places on it meet after shortcuts. -/
theorem meets_of_leads (hshort : Shortcuts short next) (hsettles : Settles next a)
    (hab : Leads next a b) : Meets short a b := by
  -- The induction is for all pairs of places on the chain.
  have hpairs : ∀ x, Leads next a x → ∀ y, Leads next x y → Meets short x y := by
    clear hab
    induction hsettles with
    | intro a hacc ih =>
      intro x hx y hxy
      rcases hx.cases_head with hax | ⟨a', ha', hx'⟩
      · subst hax
        rcases hxy.cases_head with rfl | ⟨a', ha', hy⟩
        · exact Meets.refl a
        · rcases hshort a a' ha' with ⟨c, hc, hleads⟩
          rcases hleads.total hy with hcy | hyc
          · exact Meets.head hc (ih a' ha' c hleads y hcy)
          · exact Meets.head hc (ih a' ha' y hy c hyc).symm
      · exact ih a' ha' x hx' y hxy
  exact hpairs a (Leads.refl a) b hab

/-- A chain ends when each of its steps is a step of a well-founded relation on what
its places stand for. -/
theorem settles_of_relation {r : β → β → Prop} (place : β → α → Prop) (hr : WellFounded r)
    (hstep : ∀ x a b, place x a → next a = some b → ∃ y, r y x ∧ place y b) {x : β}
    (hx : place x a) : Settles next a := by
  induction x using hr.induction generalizing a with
  | h x ih =>
    constructor
    intro b hb
    rcases hstep x a b hx hb with ⟨y, hyx, hy⟩
    exact ih y hyx hy

/-! ## Ends of chains -/

/-- The chain from a place ends at the other one. -/
def EndsAt (next : α → Option α) (a c : α) : Prop := Leads next a c ∧ next c = none

theorem EndsAt.refl (h : next a = none) : EndsAt next a a := ⟨Leads.refl a, h⟩

theorem EndsAt.head (h : next a = some b) (hbc : EndsAt next b c) : EndsAt next a c :=
  ⟨Leads.head h hbc.1, hbc.2⟩

theorem endsAt_iff_of_next (h : next a = some b) : EndsAt next a c ↔ EndsAt next b c := by
  constructor
  · rintro ⟨hac, hc⟩
    rcases hac.cases_head with rfl | ⟨b', hb', hleads⟩
    · rw [h] at hc
      cases hc
    · rw [h, some.injEq] at hb'
      subst hb'
      exact ⟨hleads, hc⟩
  · exact EndsAt.head h

theorem endsAt_iff_of_leads (h : Leads next a b) : EndsAt next a c ↔ EndsAt next b c := by
  induction h using Relation.ReflTransGen.head_induction_on with
  | refl => exact Iff.rfl
  | head hstep _ ih => rw [endsAt_iff_of_next hstep, ih]

theorem EndsAt.unique (h : EndsAt next a b) (h' : EndsAt next a c) : b = c := by
  rcases ((endsAt_iff_of_leads h.1).mp h').1.cases_head with hbc | ⟨d, hd, -⟩
  · exact hbc
  · rw [h.2] at hd
    cases hd

theorem EndsAt.settles (h : EndsAt next a c) : Settles next a := by
  rcases h with ⟨hac, hc⟩
  induction hac using Relation.ReflTransGen.head_induction_on with
  | refl =>
    constructor
    intro b hb
    rw [hc] at hb
    cases hb
  | head hstep _ ih =>
    constructor
    intro b hb
    rw [hstep, some.injEq] at hb
    exact hb ▸ ih

theorem Settles.exists_endsAt (h : Settles next a) : ∃ c, EndsAt next a c := by
  induction h with
  | intro a _ ih =>
    cases hnext : next a with
    | none => exact ⟨a, EndsAt.refl hnext⟩
    | some b =>
      rcases ih b hnext with ⟨c, hc⟩
      exact ⟨c, hc.head hnext⟩

theorem settles_iff_exists_endsAt : Settles next a ↔ ∃ c, EndsAt next a c :=
  ⟨Settles.exists_endsAt, fun ⟨_, h⟩ => h.settles⟩

theorem Settles.not_leads (h : Settles next a) (hb : next b = some a) : ¬ Leads next a b := by
  induction h generalizing b with
  | intro a _ ih =>
    intro hab
    rcases hab.cases_head with rfl | ⟨c, hc, hcb⟩
    · exact ih a hb hb (Leads.refl a)
    · exact ih c hc hc (hcb.trans (Leads.head hb (Leads.refl a)))

/-- A chain through finitely many places, none of which comes back to itself, settles. -/
theorem settles_of_acyclic {s : Set α} [Finite s] (hclosed : ∀ a ∈ s, ∀ b, next a = some b → b ∈ s)
    (hacyclic : ∀ a ∈ s, ∀ b, next a = some b → ¬ Leads next b a) (ha : a ∈ s) :
    Settles next a := by
  -- Being further on the chain is a strict order on the places.
  let r : s → s → Prop := fun b a => ∃ c, next a.1 = some c ∧ Leads next c b.1
  have htrans : ∀ a b c, r a b → r b c → r a c := by
    rintro a b c ⟨x, hx, hxa⟩ ⟨y, hy, hyb⟩
    exact ⟨y, hy, hyb.trans (Leads.head hx hxa)⟩
  have hirrefl : ∀ a, ¬ r a a := by
    rintro a ⟨c, hc, hca⟩
    exact hacyclic a.1 a.2 c hc hca
  have hwf : WellFounded r :=
    @Finite.wellFounded_of_trans_of_irrefl s _ r ⟨htrans⟩ ⟨hirrefl⟩
  refine settles_of_relation (r := r) (fun x a => x.1 = a) hwf ?_ (x := ⟨a, ha⟩) rfl
  rintro ⟨x, hx⟩ a b rfl hb
  exact ⟨⟨b, hclosed x hx b hb⟩, ⟨b, hb, Leads.refl b⟩, rfl⟩

theorem Settles.leads (h : Settles next a) (hab : Leads next a b) : Settles next b := by
  induction hab with
  | refl => exact h
  | tail _ hstep ih => exact ih.inv hstep

theorem not_settles_of_next (ha : ¬ Settles next a) (hab : next a = some b) : ¬ Settles next b := by
  intro hsettles
  refine ha ⟨_, fun b' hb' => ?_⟩
  rw [hab, some.injEq] at hb'
  exact hb' ▸ hsettles

theorem Leads.not_settles (h : Leads next a b) (ha : ¬ Settles next a) : ¬ Settles next b := by
  induction h with
  | refl => exact ha
  | tail _ hstep ih => exact not_settles_of_next ih hstep

/-- Where a chain arrives: at its end, or at the places of a cycle. -/
def Arrives (next : α → Option α) (a c : α) : Prop :=
  EndsAt next a c ∨ (Leads next a c ∧ ∃ b, next c = some b ∧ Leads next b c)

theorem Settles.arrives_iff (h : Settles next a) : Arrives next a c ↔ EndsAt next a c := by
  refine ⟨fun harrives => harrives.resolve_right ?_, Or.inl⟩
  rintro ⟨hleads, b, hb, hbc⟩
  exact Settles.not_leads ((h.leads hleads).inv hb) hb hbc

theorem settles_iff_exists_arrives : Settles next a ↔ ∃ c, Arrives next a c ∧ next c = none := by
  constructor
  · intro h
    rcases h.exists_endsAt with ⟨c, hc⟩
    exact ⟨c, Or.inl hc, hc.2⟩
  · rintro ⟨c, hends | ⟨-, b, hb, -⟩, hc⟩
    · exact hends.settles
    · rw [hc] at hb
      cases hb

theorem arrives_iff_of_next (h : next a = some b) : Arrives next a c ↔ Arrives next b c := by
  rw [Arrives, Arrives, endsAt_iff_of_next h]
  refine or_congr_right ⟨?_, ?_⟩
  · rintro ⟨hleads, d, hd, hdc⟩
    rcases hleads.cases_head with rfl | ⟨b', hb', hbc⟩
    · rw [h, some.injEq] at hd
      subst hd
      exact ⟨hdc, b, h, hdc⟩
    · rw [h, some.injEq] at hb'
      subst hb'
      exact ⟨hbc, d, hd, hdc⟩
  · rintro ⟨hbc, d, hd, hdc⟩
    exact ⟨Leads.head h hbc, d, hd, hdc⟩

/-! ## One shorter step -/

section Update

variable [DecidableEq α] {d x : α}

/-- A place that skips the next one has the same end, as have all the others. -/
theorem endsAt_update_iff (hb : next b = some c) (hc : next c = some d) :
    EndsAt (Function.update next b (some d)) x a ↔ EndsAt next x a := by
  have hupdate : ∀ y, y ≠ b → Function.update next b (some d) y = next y := fun y hy =>
    Function.update_of_ne hy _ _
  have hself : Function.update next b (some d) b = some d := Function.update_self _ _ _
  constructor
  · rintro ⟨hleads, hend⟩
    have ha : next a = none := by
      by_cases hab : a = b
      · rw [hab, hself] at hend
        cases hend
      · rwa [hupdate a hab] at hend
    induction hleads using Relation.ReflTransGen.head_induction_on with
    | refl => exact EndsAt.refl ha
    | @head y z hstep _ ih =>
      by_cases hy : y = b
      · rw [hy, hself, some.injEq] at hstep
        subst hy hstep
        exact EndsAt.head hb (EndsAt.head hc ih)
      · rw [hupdate y hy] at hstep
        exact EndsAt.head hstep ih
  · rintro ⟨hleads, hend⟩
    have ha : Function.update next b (some d) a = none := by
      by_cases hab : a = b
      · rw [hab, hb] at hend
        cases hend
      · rwa [hupdate a hab]
    induction hleads using Relation.ReflTransGen.head_induction_on with
    | refl => exact EndsAt.refl ha
    | @head y z hstep _ ih =>
      by_cases hy : y = b
      · rw [hy, hb, some.injEq] at hstep
        subst hy hstep
        by_cases hcb : c = y
        · exact hcb ▸ ih
        · have hc' : Function.update next y (some d) c = some d := by rw [hupdate c hcb, hc]
          exact EndsAt.head hself ((endsAt_iff_of_next hc').mp ih)
      · exact EndsAt.head ((hupdate y hy).trans hstep) ih

theorem update_of_not_settles {o : Option α} (hb : Settles next b)
    (hx : ¬ Settles next x) : Function.update next b o x = next x := by
  refine Function.update_of_ne (fun hxb => ?_) _ _
  exact hx (hxb ▸ hb)

theorem leads_update_iff_of_not_settles {o : Option α} (hb : Settles next b)
    (hx : ¬ Settles next x) : Leads (Function.update next b o) x a ↔ Leads next x a := by
  constructor
  · intro hleads
    induction hleads using Relation.ReflTransGen.head_induction_on with
    | refl => exact Leads.refl a
    | head hyz _ ih =>
      rw [update_of_not_settles hb hx] at hyz
      exact Leads.head hyz (ih (not_settles_of_next hx hyz))
  · intro hleads
    induction hleads using Relation.ReflTransGen.head_induction_on with
    | refl => exact Leads.refl a
    | head hyz _ ih =>
      exact Leads.head ((update_of_not_settles hb hx).trans hyz) (ih (not_settles_of_next hx hyz))

theorem arrives_update_iff (hb : next b = some c) (hc : next c = some d) (hsettles : Settles next b) :
    Arrives (Function.update next b (some d)) x a ↔ Arrives next x a := by
  by_cases hx : Settles next x
  · have hx' : Settles (Function.update next b (some d)) x := by
      rw [settles_iff_exists_endsAt] at hx ⊢
      exact hx.imp fun _ h => (endsAt_update_iff hb hc).mpr h
    rw [hx.arrives_iff, hx'.arrives_iff, endsAt_update_iff hb hc]
  · have hends : ¬ EndsAt next x a := fun h => hx h.settles
    rw [Arrives, Arrives, endsAt_update_iff hb hc, or_iff_right hends, or_iff_right hends,
      leads_update_iff_of_not_settles hsettles hx]
    refine and_congr_right fun hleads => ?_
    have ha := hleads.not_settles hx
    refine exists_congr fun u => ?_
    rw [update_of_not_settles hsettles ha]
    refine and_congr_right fun hu => ?_
    exact leads_update_iff_of_not_settles hsettles (not_settles_of_next ha hu)

end Update

end Kcs
