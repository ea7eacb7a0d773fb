import Kcs.Types.Layout
import Kcs.Ir.Semantics

/-!
# Bounds of bit-fields

What every layout promises of a bit-field: an integer type that is wide enough, and an end
within eight bytes.  Unions and fields of width zero are included.

Main results:

- Lemma {lit}`typeAddFieldAux_bounded`: adding a field keeps the bounds.
- Lemma {lit}`sealed_layout_bounded`: the fields of every layout are bounded.
-/

namespace Kcs

open List

/-- The bounds of a bit-field that code for it relies on. -/
def Member.FieldBounded (m : Member) : Prop :=
  m.fieldWidth ≠ 0 → m.type.isInteger = true ∧ m.fieldWidth ≤ 8 * m.type.scalarSize ∧
    m.fieldOffset + m.fieldWidth ≤ 64 ∧ m.fieldBacking ≤ 64

/-- An entry of the type table whose bit-fields are bounded. -/
def Typetree.FieldsBounded (t : Typetree) : Prop := ∀ m ∈ t.members, m.FieldBounded

variable {types : TypeTable} {t t' : Typetree} {m : Member}

theorem sizeOf_integer_le {type : CType} {n : Nat} (hint : type.isInteger = true)
    (hn : sizeOf types type = some n) : n = type.scalarSize ∧ n ≤ 8 := by
  unfold sizeOf sizeOfAux at hn
  unfold CType.isInteger at hint
  unfold CType.scalarSize
  cases hkind : type.typeOf <;> simp [hkind, TypeKind.code] at hint hn <;> subst hn <;> simp

theorem addMember_members (h : addMember types t m = .ok t') :
    ∀ m' ∈ t'.members, m' ∈ t.members ∨ m' = m := by
  have hmembers : t'.members = t.members ∨ t'.members = t.members ++ [m] := by
    simp only [addMember] at h
    split at h
    · split at h <;> cases h
      exact Or.inl rfl
    · split at h
      · cases h
      · right
        split at h
        · simp only [growAggregate, Except.bind_eq_ok_iff, orAbort_eq_ok_iff] at h
          rcases h with ⟨n, -, t₁, h₁, flexible, -, t₂, h₂, h⟩
          have hcommit : t'.members = t₂.members := by
            unfold commitSize at h
            split at h
            · cases h
            · split at h <;> cases h <;> rfl
          rw [hcommit, (checkFlexible_spec h₂).2.1, (checkComplete_spec h₁).2.1]
        · cases h
          rfl
  intro m' hm'
  rcases hmembers with hmembers | hmembers <;> rw [hmembers] at hm'
  · exact Or.inl hm'
  · simpa using hm'

theorem addMember_bounded (h : addMember types t m = .ok t') (ht : t.FieldsBounded)
    (hm : m.FieldBounded) : t'.FieldsBounded := by
  intro m' hm'
  rcases addMember_members h m' hm' with hold | rfl
  · exact ht m' hold
  · exact hm

theorem enlargeBacking_bounded {offset backing : Nat} (hbacking : backing ≤ 64)
    {members : List Member} (h : ∀ m ∈ members, m.FieldBounded) :
    ∀ m ∈ enlargeBacking offset backing members, m.FieldBounded := by
  induction members with
  | nil => simp [enlargeBacking]
  | cons m ms ih =>
    have hm := h m mem_cons_self
    have hms : ∀ m ∈ ms, m.FieldBounded := fun m hm => h m (mem_cons_of_mem _ hm)
    rw [enlargeBacking]
    split
    · intro m' hm'
      rcases mem_cons.mp hm' with rfl | hm'
      · intro hfield
        rcases hm hfield with ⟨hint, hwidth, hfits, -⟩
        exact ⟨hint, hwidth, hfits, hbacking⟩
      · exact ih hms m' hm'
    · exact h

theorem adjustMemberAlignment_members {type : CType} {offset : Nat}
    (h : adjustMemberAlignment types t type = .ok (t', offset)) : t'.members = t.members := by
  unfold adjustMemberAlignment at h
  split at h
  · simp only [Except.bind_eq_ok_iff] at h
    rcases h with ⟨a, -, h⟩
    split at h
    · cases h
    · split at h <;> cases h
      rfl
  · cases h
    rfl

/-- The place of a field is within bounds. -/
theorem placeField_bounded {name : String} {type : CType} {width : Nat}
    (h : placeField types t name type width = .ok (some (t', m))) (ht : t.FieldsBounded) :
    t'.FieldsBounded ∧ m.FieldBounded := by
  unfold placeField at h
  split at h
  · cases h
  rename_i hkind
  have hint : type.isInteger = true := by
    by_contra hne
    simp [hne] at hkind
  simp only [Except.bind_eq_ok_iff, orAbort_eq_ok_iff] at h
  rcases h with ⟨n, hn, h⟩
  rcases sizeOf_integer_le hint hn with ⟨hsize, hle⟩
  split at h
  · cases h
  rename_i hwidth
  have hwide : width ≤ 8 * type.scalarSize := by omega
  split at h
  · cases h
  split at h
  · cases h
  have hown : ∀ offset, Member.FieldBounded
      { name, type, offset, fieldWidth := width, fieldBacking := n * 8 } := fun offset _ =>
    ⟨hint, hwide, show 0 + width ≤ 64 by omega, show n * 8 ≤ 64 by omega⟩
  split at h
  · split at h
    · -- the field is packed behind the last one
      rename_i placed hpack
      simp only [Except.ok.injEq, Option.some.injEq] at h
      rw [h] at hpack
      rcases packFieldMember_spec hpack with
        ⟨-, htype, hfw, last, hlast, hfield, -, hstart, hin, hcase⟩
      have hlast64 := (ht last (mem_of_getLast? hlast) hfield).2.2.2
      rcases hcase with ⟨hsame, rfl⟩ | ⟨-, hbacking, rfl⟩
      · refine ⟨ht, fun _ => ?_⟩
        rw [htype, hfw]
        exact ⟨hint, hwide, by omega, by omega⟩
      · have h64 : m.fieldBacking ≤ 64 := by
          rw [hbacking]
          show n * 8 ≤ 64
          omega
        constructor
        · intro m' hm'
          exact enlargeBacking_bounded h64 (fun m hm => ht m (mem_reverse.mp hm)) m'
            (mem_reverse.mp hm')
        · intro _
          rw [htype, hfw]
          exact ⟨hint, hwide, by omega, h64⟩
    · simp only [Except.bind_eq_ok_iff] at h
      rcases h with ⟨⟨t₁, offset⟩, hadjust, h⟩
      simp only [Except.ok.injEq, Option.some.injEq, Prod.mk.injEq] at h
      rcases h with ⟨rfl, rfl⟩
      refine ⟨?_, hown offset⟩
      unfold Typetree.FieldsBounded
      rw [adjustMemberAlignment_members hadjust]
      exact ht
  · simp only [Except.ok.injEq, Option.some.injEq, Prod.mk.injEq] at h
    rcases h with ⟨rfl, rfl⟩
    exact ⟨ht, hown 0⟩

/-- Adding a field keeps the bounds; one of width zero may add a field for padding. -/
theorem typeAddFieldAux_bounded {fuel : Nat} {name : String} {type : CType} {width : Nat}
    (h : typeAddFieldAux types fuel t name type width = .ok t') (ht : t.FieldsBounded) :
    t'.FieldsBounded := by
  induction fuel generalizing t t' name type width with
  | zero => cases h
  | succ fuel ih =>
    unfold typeAddFieldAux at h
    simp only [Except.bind_eq_ok_iff] at h
    rcases h with ⟨placed, hplace, h⟩
    cases placed with
    | none =>
      cases h
      exact ht
    | some placed =>
      rcases placed with ⟨t₁, m⟩
      rcases placeField_bounded hplace ht with ⟨ht₁, hm⟩
      simp only at h
      split at h
      · unfold resetFieldAlignment at h
        split at h
        · cases h
          exact ht₁
        · simp only [Except.bind_eq_ok_iff, Except.ok.injEq] at h
          rcases h with ⟨clearSize, -, t₂, hpad, rfl⟩
          have hmembers : (padSize t₂ clearSize).members = t₂.members := by
            unfold padSize
            split
            · rfl
            · split <;> rfl
          unfold Typetree.FieldsBounded
          rw [hmembers]
          unfold padLastField at hpad
          split at hpad
          · cases hpad
            exact ht₁
          · simp only [Except.bind_eq_ok_iff] at hpad
            rcases hpad with ⟨backing, -, hpad⟩
            repeat' split at hpad
            all_goals first | exact ih hpad ht₁ | (cases hpad; exact ht₁) | cases hpad
      · exact addMember_bounded h ht₁ hm

theorem layoutStep_bounded {op : LayoutOp} (h : layoutStep types t op = .ok t')
    (ht : t.FieldsBounded) : t'.FieldsBounded := by
  cases op with
  | member name type =>
    simp only [layoutStep, typeAddMember] at h
    split at h
    · exact addMember_bounded h ht fun hfield => absurd rfl hfield
    · simp only [Except.bind_eq_ok_iff] at h
      rcases h with ⟨⟨t₁, offset⟩, hadjust, h⟩
      refine addMember_bounded h ?_ fun hfield => absurd rfl hfield
      unfold Typetree.FieldsBounded
      rw [adjustMemberAlignment_members hadjust]
      exact ht
  | field name type width => exact typeAddFieldAux_bounded h ht

theorem layoutRun_bounded {ops : List LayoutOp} (h : layoutRun types t ops = .ok t')
    (ht : t.FieldsBounded) : t'.FieldsBounded := by
  induction ops generalizing t with
  | nil =>
    cases h
    exact ht
  | cons op ops ih =>
    simp only [layoutRun, Except.bind_eq_ok_iff] at h
    rcases h with ⟨t₁, hstep, hrun⟩
    exact ih hrun (layoutStep_bounded hstep ht)

/-- The fields of every layout are bounded. -/
theorem sealed_layout_bounded {kind : TypeKind} {ops : List LayoutOp}
    (hrun : layoutRun types { type := kind } ops = .ok t) (hseal : typeSeal types t = .ok t') :
    t'.FieldsBounded := by
  have ht : t.FieldsBounded := layoutRun_bounded hrun (by simp [Typetree.FieldsBounded])
  unfold typeSeal at hseal
  split at hseal
  · cases hseal
    exact ht
  · simp only [removeAnonymousFields, Except.bind_eq_ok_iff, orAbort_eq_ok_iff,
      Except.ok.injEq] at hseal
    rcases hseal with ⟨⟨t₁, align⟩, ⟨a, -, heq⟩, hseal⟩
    simp only [Prod.mk.injEq] at heq
    rcases heq with ⟨rfl, rfl⟩
    split at hseal
    · cases hseal
    · cases hseal
      exact fun m hm => ht m (mem_of_mem_filter hm)

end Kcs
