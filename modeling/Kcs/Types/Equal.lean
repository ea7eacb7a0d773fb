import Kcs.Lib.Result
import Kcs.Types.Table

/-!
# Type comparison

`type_equal` decides everywhere in the compiler whether a conversion is needed.
It compares the stored kind and signedness of two handles and, for handles with
a reference, most fields of the two entries and their member lists.  It looks
neither at the pointer flag of a handle, nor at the type an entry points to,
contains or returns, nor at the position of bit-fields.

Types refer to each other in cycles through pointers, so identity of types is
the largest relation whose pairs agree in one step.

Main results:

- Theorem {lit}`typeEqual_sound_iff`: an accepted pair is a pair of identical
  types exactly when the two types agree in what the comparison overlooks.
-/

namespace Kcs

open Option hiding or_self

/-! ## The comparison of the source -/

/-- The member loop of `typetree_equal`, given the comparison of types.  Members
of equal type at different offsets violate the assertion of the source. -/
def membersEqual (equal : CType → CType → Option Bool) (isFunction : Bool) :
    List Member → List Member → Option Bool
  | ma :: as, mb :: bs =>
    (equal ma.type mb.type).bind fun same =>
      if !same then some false
      else if isFunction then membersEqual equal isFunction as bs
      else if ma.offset ≠ mb.offset then none
      else if ma.name ≠ mb.name then some false
      else membersEqual equal isFunction as bs
  | _, _ => some true

/-- The fields that `typetree_equal` compares before it looks at members. -/
def sameHeader (a b : Typetree) : Bool :=
  a.type = b.type && a.size = b.size && a.isUnsigned = b.isUnsigned &&
    a.isVararg = b.isVararg && a.isFlexible = b.isFlexible && a.isVla = b.isVla &&
    a.isIncomplete = b.isIncomplete && a.members.length = b.members.length

/-- `typetree_equal` -/
def typetreeEqual (equal : CType → CType → Option Bool) (a b : Typetree) : Option Bool :=
  if sameHeader a b then membersEqual equal (a.type = .function) a.members b.members
  else some false

/-- `type_equal`, with a bound on the depth of the recursion. -/
def typeEqualAux (types : TypeTable) : Nat → CType → CType → Option Bool
  | 0, _, _ => none
  | fuel + 1, a, b =>
    if a = b then some true
    else if a.type ≠ b.type ∨ a.isUnsigned ≠ b.isUnsigned then some false
    else if (a.ref = 0) ≠ (b.ref = 0) then some false
    else if a.ref ≠ 0 ∧ b.ref ≠ 0 then
      (getTypetreeHandle types a.ref).bind fun ta =>
        (getTypetreeHandle types b.ref).bind fun tb =>
          typetreeEqual (typeEqualAux types fuel) ta tb
    else some true

/-- `type_equal`, {lit}`none` when it aborts or does not return.  Nested calls
compare pairs of entries, and a repeated pair repeats forever, so the number of
pairs bounds the depth of a call that returns. -/
def typeEqual (types : TypeTable) (a b : CType) : Option Bool :=
  typeEqualAux types (types.length * types.length + 1) a b

/-! ## Equivalence -/

section Equivalence

variable {types : TypeTable}

theorem typeEqual_self (types : TypeTable) (a : CType) : typeEqual types a a = some true := by
  simp [typeEqual, typeEqualAux]

variable {equal : CType → CType → Option Bool}

theorem membersEqual_comm
    (h : ∀ a b, equal a b = equal b a) (isFunction : Bool) (as bs : List Member) :
    membersEqual equal isFunction as bs = membersEqual equal isFunction bs as := by
  induction as generalizing bs with
  | nil => cases bs <;> rfl
  | cons ma as ih =>
    cases bs with
    | nil => rfl
    | cons mb bs =>
      simp only [membersEqual]
      rw [h ma.type mb.type, ih bs]
      simp only [ne_comm]

theorem sameHeader_comm (a b : Typetree) : sameHeader a b = sameHeader b a := by
  simp only [sameHeader, eq_comm]

theorem typeEqualAux_comm (fuel : Nat) (a b : CType) :
    typeEqualAux types fuel a b = typeEqualAux types fuel b a := by
  induction fuel generalizing a b with
  | zero => rfl
  | succ fuel ih =>
    unfold typeEqualAux
    have htree : ∀ ta tb : Typetree, typetreeEqual (typeEqualAux types fuel) ta tb =
        typetreeEqual (typeEqualAux types fuel) tb ta := by
      intro ta tb
      unfold typetreeEqual
      rw [sameHeader_comm ta tb]
      split
      · rename_i hheader
        have htype : ta.type = tb.type := by
          simp only [sameHeader, Bool.and_eq_true, decide_eq_true_eq] at hheader
          exact hheader.1.1.1.1.1.1.1.symm
        rw [htype]
        exact membersEqual_comm ih _ _ _
      · rfl
    have hbind : ((getTypetreeHandle types a.ref).bind fun ta =>
          (getTypetreeHandle types b.ref).bind fun tb =>
            typetreeEqual (typeEqualAux types fuel) ta tb) =
        ((getTypetreeHandle types b.ref).bind fun tb =>
          (getTypetreeHandle types a.ref).bind fun ta =>
            typetreeEqual (typeEqualAux types fuel) tb ta) := by
      cases getTypetreeHandle types a.ref with
      | none => cases getTypetreeHandle types b.ref <;> rfl
      | some ta =>
        cases getTypetreeHandle types b.ref with
        | none => rfl
        | some tb => exact htree ta tb
    rw [hbind]
    simp only [eq_comm, ne_comm, and_comm]

theorem typeEqual_comm (types : TypeTable) (a b : CType) :
    typeEqual types a b = typeEqual types b a :=
  typeEqualAux_comm _ a b

/-- Members that the loop accepts: equal types and, outside parameter lists, the
same offset and name. -/
def MembersAccepted (equal : CType → CType → Option Bool) (isFunction : Bool)
    (ma mb : Member) : Prop :=
  equal ma.type mb.type = some true ∧
    (isFunction = false → ma.offset = mb.offset ∧ ma.name = mb.name)

theorem membersEqual_eq_true_iff {isFunction : Bool}
    {as bs : List Member} (hlen : as.length = bs.length) :
    membersEqual equal isFunction as bs = some true ↔
      List.Forall₂ (MembersAccepted equal isFunction) as bs := by
  induction as generalizing bs with
  | nil =>
    cases bs with
    | nil => simp [membersEqual]
    | cons mb bs => simp at hlen
  | cons ma as ih =>
    cases bs with
    | nil => simp at hlen
    | cons mb bs =>
      have hrest := ih (Nat.succ.inj hlen)
      rw [List.forall₂_cons, ← hrest]
      simp only [membersEqual, MembersAccepted]
      cases hequal : equal ma.type mb.type with
      | none => simp
      | some same =>
        cases same with
        | false => simp
        | true =>
          cases isFunction with
          | true => simp
          | false =>
            by_cases hoffset : ma.offset = mb.offset
            · by_cases hname : ma.name = mb.name <;> simp [hoffset, hname]
            · simp [hoffset]

theorem typetreeEqual_eq_true_iff {ta tb : Typetree} :
    typetreeEqual equal ta tb = some true ↔
      sameHeader ta tb = true ∧
        List.Forall₂ (MembersAccepted equal (ta.type = .function)) ta.members tb.members := by
  unfold typetreeEqual
  cases hheader : sameHeader ta tb with
  | false => simp
  | true =>
    have hlen : ta.members.length = tb.members.length := by
      simp only [sameHeader, Bool.and_eq_true, decide_eq_true_eq] at hheader
      exact hheader.2
    simp [membersEqual_eq_true_iff hlen]

/-- What one level of the comparison has seen when it accepts two handles. -/
structure HandlesAccepted (types : TypeTable) (equal : CType → CType → Option Bool)
    (a b : CType) : Prop where
  type_eq : a.type = b.type
  isUnsigned_eq : a.isUnsigned = b.isUnsigned
  ref_eq_zero_iff : a.ref = 0 ↔ b.ref = 0
  entries : a.ref ≠ 0 → ∃ ta tb, getTypetreeHandle types a.ref = some ta ∧
    getTypetreeHandle types b.ref = some tb ∧ typetreeEqual equal ta tb = some true

theorem typeEqualAux_succ_eq_true_iff {fuel : Nat} {a b : CType} :
    typeEqualAux types (fuel + 1) a b = some true ↔
      a = b ∨ HandlesAccepted types (typeEqualAux types fuel) a b := by
  unfold typeEqualAux
  constructor
  · intro h
    split at h
    · rename_i hab
      exact Or.inl hab
    · right
      split at h
      · cases h
      · rename_i hkind
        rw [not_or, not_ne_iff, not_ne_iff] at hkind
        split at h
        · cases h
        · rename_i hzero
          have hiff : a.ref = 0 ↔ b.ref = 0 := by simpa using hzero
          split at h
          · simp only [bind_eq_some_iff] at h
            rcases h with ⟨ta, hta, tb, htb, htree⟩
            exact ⟨hkind.1, hkind.2, hiff, fun _ => ⟨ta, tb, hta, htb, htree⟩⟩
          · rename_i hrefs
            refine ⟨hkind.1, hkind.2, hiff, ?_⟩
            intro ha
            exact absurd ⟨ha, fun hb => ha (hiff.mpr hb)⟩ hrefs
  · intro h
    rcases h with rfl | h
    · simp
    · split
      · rfl
      · have hzero : ((a.ref = 0) ≠ (b.ref = 0)) = False := by
          simp [h.ref_eq_zero_iff]
        simp only [h.type_eq, h.isUnsigned_eq, ne_eq, not_true_eq_false, or_self, if_false]
        by_cases ha : a.ref = 0
        · simp [ha, h.ref_eq_zero_iff.mp ha]
        · rcases h.entries ha with ⟨ta, tb, hta, htb, htree⟩
          have hb : b.ref ≠ 0 := fun hb => ha (h.ref_eq_zero_iff.mpr hb)
          simp [ha, hb, hta, htb, htree]

theorem sameHeader_trans {ta tb tc : Typetree} (hab : sameHeader ta tb = true)
    (hbc : sameHeader tb tc = true) : sameHeader ta tc = true := by
  simp only [sameHeader, Bool.and_eq_true, decide_eq_true_eq] at hab hbc ⊢
  simp_all

theorem membersAccepted_trans {isFunction : Bool}
    (h : ∀ a b c, equal a b = some true → equal b c = some true → equal a c = some true)
    {as bs cs : List Member} (hab : List.Forall₂ (MembersAccepted equal isFunction) as bs)
    (hbc : List.Forall₂ (MembersAccepted equal isFunction) bs cs) :
    List.Forall₂ (MembersAccepted equal isFunction) as cs := by
  induction hab generalizing cs with
  | nil => exact hbc
  | cons hhead _ ih =>
    cases hbc with
    | cons hhead' htail' =>
      refine List.Forall₂.cons ⟨h _ _ _ hhead.1 hhead'.1, ?_⟩ (ih htail')
      intro hfun
      rcases hhead.2 hfun with ⟨hoffset, hname⟩
      rcases hhead'.2 hfun with ⟨hoffset', hname'⟩
      exact ⟨hoffset.trans hoffset', hname.trans hname'⟩

theorem typeEqualAux_trans {fuel : Nat} {a b c : CType}
    (hab : typeEqualAux types fuel a b = some true)
    (hbc : typeEqualAux types fuel b c = some true) :
    typeEqualAux types fuel a c = some true := by
  induction fuel generalizing a b c with
  | zero => cases hab
  | succ fuel ih =>
    rw [typeEqualAux_succ_eq_true_iff] at hab hbc ⊢
    rcases hab with rfl | hab
    · exact hbc
    · rcases hbc with rfl | hbc
      · exact Or.inr hab
      · right
        refine ⟨hab.type_eq.trans hbc.type_eq, hab.isUnsigned_eq.trans hbc.isUnsigned_eq,
          hab.ref_eq_zero_iff.trans hbc.ref_eq_zero_iff, ?_⟩
        intro ha
        rcases hab.entries ha with ⟨ta, tb, hta, htb, habTree⟩
        rcases hbc.entries (fun hb => ha (hab.ref_eq_zero_iff.mpr hb)) with
          ⟨tb', tc, htb', htc, hbcTree⟩
        have htb'' : tb' = tb := by
          rw [htb] at htb'
          exact (some.inj htb').symm
        subst htb''
        rw [typetreeEqual_eq_true_iff] at habTree hbcTree
        have htype : ta.type = tb'.type := by
          have hheader := habTree.1
          simp only [sameHeader, Bool.and_eq_true, decide_eq_true_eq] at hheader
          exact hheader.1.1.1.1.1.1.1
        refine ⟨ta, tc, hta, htc, typetreeEqual_eq_true_iff.mpr
          ⟨sameHeader_trans habTree.1 hbcTree.1, ?_⟩⟩
        have hbcMembers := hbcTree.2
        rw [← htype] at hbcMembers
        refine membersAccepted_trans ?_ habTree.2 hbcMembers
        intro x y z hxy hyz
        exact ih hxy hyz

theorem typeEqual_trans {a b c : CType} (hab : typeEqual types a b = some true)
    (hbc : typeEqual types b c = some true) : typeEqual types a c = some true :=
  typeEqualAux_trans hab hbc

end Equivalence

/-! ## Identity of types -/

/-- Members are identical relative to a relation of types.  Parameters have no
offset or name of interest; bit-fields also agree in width and position. -/
def MembersIdentical (R : CType → CType → Prop) (isFunction : Bool) (ma mb : Member) : Prop :=
  R ma.type mb.type ∧
    (isFunction = false → ma.name = mb.name ∧ ma.offset = mb.offset ∧
      ma.fieldWidth = mb.fieldWidth ∧ ma.fieldOffset = mb.fieldOffset)

/-- Entries are identical relative to a relation of types. -/
def EntriesIdentical (R : CType → CType → Prop) (ta tb : Typetree) : Prop :=
  sameHeader ta tb = true ∧
    List.Forall₂ (MembersIdentical R (ta.type = .function)) ta.members tb.members

/-- Is the type described by an entry of its own, rather than by the handle? -/
def CType.isComposite (t : CType) : Bool :=
  t.isFunction || t.isArray || t.isStructOrUnion

/-- Two types agree in one step: the same kind, the same signedness, related
target, element or return types, and for composite types identical entries. -/
structure IdenticalStep (types : TypeTable) (R : CType → CType → Prop) (a b : CType) : Prop where
  kind : a.typeOf = b.typeOf
  signedness : a.isInteger = true → a.isUnsignedType = b.isUnsignedType
  next : Option.Rel R (typeNext types a) (typeNext types b)
  entry : a.isComposite = true → Option.Rel (EntriesIdentical R)
    (getTypetreeHandle types a.ref) (getTypetreeHandle types b.ref)

/-- Identity of types up to qualifiers: the largest relation that agrees in one
step. -/
def TypeIdentity (types : TypeTable) (a b : CType) : Prop :=
  ∃ R : CType → CType → Prop, R a b ∧ ∀ a b, R a b → IdenticalStep types R a b

/-- What `type_equal` does not look at: the kind that the pointer flag gives, the
target, element or return type, and the width and position of bit-fields, in
the two types and in their members. -/
structure OverlookedStep (types : TypeTable) (R : CType → CType → Prop) (a b : CType) : Prop where
  kind : a.typeOf = b.typeOf
  next : Option.Rel (TypeIdentity types) (typeNext types a) (typeNext types b)
  members : a.isComposite = true → ∀ ta tb, getTypetreeHandle types a.ref = some ta →
    getTypetreeHandle types b.ref = some tb →
    List.Forall₂ (fun ma mb => R ma.type mb.type ∧
      (ta.type ≠ .function → ma.fieldWidth = mb.fieldWidth ∧ ma.fieldOffset = mb.fieldOffset))
      ta.members tb.members

/-- The two types agree in everything that `type_equal` overlooks. -/
def OverlookedAgree (types : TypeTable) (a b : CType) : Prop :=
  ∃ R : CType → CType → Prop, R a b ∧ ∀ a b, R a b → OverlookedStep types R a b

theorem IdenticalStep.mono {types : TypeTable} {R S : CType → CType → Prop} {a b : CType}
    (h : IdenticalStep types R a b) (hRS : ∀ a b, R a b → S a b) : IdenticalStep types S a b where
  kind := h.kind
  signedness := h.signedness
  next := h.next.mono hRS
  entry := by
    intro hcomposite
    refine (h.entry hcomposite).mono ?_
    intro ta tb hentries
    refine ⟨hentries.1, hentries.2.imp ?_⟩
    intro ma mb hm
    exact ⟨hRS _ _ hm.1, hm.2⟩

namespace TypeIdentity

variable {types : TypeTable} {a b : CType}

theorem step (h : TypeIdentity types a b) : IdenticalStep types (TypeIdentity types) a b := by
  rcases h with ⟨R, hab, hR⟩
  exact (hR a b hab).mono fun a b h => ⟨R, h, hR⟩

theorem coinduct {R : CType → CType → Prop} (hab : R a b)
    (hstep : ∀ a b, R a b →
      IdenticalStep types (fun a b => R a b ∨ TypeIdentity types a b) a b) :
    TypeIdentity types a b := by
  refine ⟨fun a b => R a b ∨ TypeIdentity types a b, Or.inl hab, ?_⟩
  intro a b h
  rcases h with h | h
  · exact hstep a b h
  · exact h.step.mono fun a b h => Or.inr h

theorem refl (a : CType) : TypeIdentity types a a := by
  refine ⟨Eq, rfl, ?_⟩
  rintro a _ rfl
  refine ⟨rfl, fun _ => rfl, Option.Rel.refl_of (fun _ => rfl) _, fun _ => ?_⟩
  refine Option.Rel.refl_of ?_ _
  intro t
  refine ⟨by simp [sameHeader], List.forall₂_same.mpr ?_⟩
  intro m _
  exact ⟨rfl, fun _ => ⟨rfl, rfl, rfl, rfl⟩⟩

theorem entry_size_eq (h : TypeIdentity types a b) (hcomposite : a.isComposite = true) :
    (getTypetreeHandle types a.ref).map (·.size) =
      (getTypetreeHandle types b.ref).map (·.size) := by
  rcases (h.step.entry hcomposite).cases with ⟨ha, hb⟩ | ⟨ta, tb, ha, hb, hentries⟩
  · rw [ha, hb]
  · have hheader := hentries.1
    simp only [sameHeader, Bool.and_eq_true, decide_eq_true_eq] at hheader
    simp [ha, hb, hheader.1.1.1.1.1.1.2]

theorem array_next (h : TypeIdentity types a b) (harray : a.typeOf = .array) :
    Option.Rel (TypeIdentity types) ((getTypetreeHandle types a.ref).map (·.next))
      ((getTypetreeHandle types b.ref).map (·.next)) := by
  have hnext := h.step.next
  have hb : b.typeOf = .array := by rw [← h.step.kind, harray]
  simpa [typeNext, CType.isPointerType, CType.isArray, harray, hb] using hnext

theorem sizeOfAux_eq (h : TypeIdentity types a b) (fuel : Nat) :
    sizeOfAux types fuel a = sizeOfAux types fuel b := by
  induction fuel generalizing a b with
  | zero =>
    unfold sizeOfAux
    rw [← h.step.kind]
    split <;> try rfl
    all_goals
      rename_i hkind
      exact h.entry_size_eq (by simp [CType.isComposite, CType.isStructOrUnion, CType.isStruct,
        CType.isUnion, hkind])
  | succ fuel ih =>
    unfold sizeOfAux
    rw [← h.step.kind]
    split <;> try rfl
    · rename_i hkind
      exact h.entry_size_eq (by simp [CType.isComposite, CType.isStructOrUnion, CType.isStruct,
        CType.isUnion, hkind])
    · rename_i hkind
      exact h.entry_size_eq (by simp [CType.isComposite, CType.isStructOrUnion, CType.isStruct,
        CType.isUnion, hkind])
    · rename_i hkind
      have hsize := h.entry_size_eq (by simp [CType.isComposite, CType.isArray, hkind])
      rcases (h.array_next hkind).cases with ⟨ha, hb⟩ | ⟨na, nb, ha, hb, hnext⟩
      · simp only [map_eq_none_iff] at ha hb
        rw [ha, hb]
      · simp only [map_eq_some_iff] at ha hb
        rcases ha with ⟨ta, ha, rfl⟩
        rcases hb with ⟨tb, hb, rfl⟩
        simp only [ha, hb, map_some, some.injEq] at hsize
        simp only [ha, hb, bind_some, hsize, ih hnext]

theorem sizeOf_eq (h : TypeIdentity types a b) : sizeOf types a = sizeOf types b :=
  h.sizeOfAux_eq _

theorem foldlM_alignment_eq {alignment : CType → Option Nat} {isFunction : Bool}
    (halign : ∀ a b, TypeIdentity types a b → alignment a = alignment b)
    {as bs : List Member}
    (h : List.Forall₂ (MembersIdentical (TypeIdentity types) isFunction) as bs) (m : Nat) :
    as.foldlM (fun m member => (alignment member.type).map (max m)) m =
      bs.foldlM (fun m member => (alignment member.type).map (max m)) m := by
  induction h generalizing m with
  | nil => rfl
  | cons hhead _ ih =>
    simp only [List.foldlM_cons, halign _ _ hhead.1]
    congr 1
    funext k
    exact ih k

theorem typeAlignmentAux_eq (h : TypeIdentity types a b) (fuel : Nat) :
    typeAlignmentAux types fuel a = typeAlignmentAux types fuel b := by
  induction fuel generalizing a b with
  | zero =>
    unfold typeAlignmentAux
    rw [← h.step.kind]
    split <;> first | rfl | exact h.sizeOf_eq
  | succ fuel ih =>
    have haggregate : a.isStructOrUnion = true →
        ((getTypetreeHandle types a.ref).bind fun t =>
          (membersAlignment (fun m => typeAlignmentAux types fuel m) t.members).bind fun m =>
            if m = 0 then none else some m) =
        ((getTypetreeHandle types b.ref).bind fun t =>
          (membersAlignment (fun m => typeAlignmentAux types fuel m) t.members).bind fun m =>
            if m = 0 then none else some m) := by
      intro hkind
      rcases (h.step.entry (by simp [CType.isComposite, hkind])).cases with
        ⟨ha, hb⟩ | ⟨ta, tb, ha, hb, hentries⟩
      · rw [ha, hb]
      · have hmembers : membersAlignment (fun m => typeAlignmentAux types fuel m) ta.members =
            membersAlignment (fun m => typeAlignmentAux types fuel m) tb.members :=
          foldlM_alignment_eq (fun a b hab => ih hab) hentries.2 0
        simp only [ha, hb, bind_some, hmembers]
    unfold typeAlignmentAux
    rw [← h.step.kind]
    split
    · rfl
    · rcases h.step.next.cases with ⟨ha, hb⟩ | ⟨na, nb, ha, hb, hnext⟩
      · rw [ha, hb]
      · rw [ha, hb]
        exact ih hnext
    · rename_i hkind
      exact haggregate (by simp [CType.isStructOrUnion, CType.isStruct, hkind])
    · rename_i hkind
      exact haggregate (by simp [CType.isStructOrUnion, CType.isUnion, hkind])
    · exact h.sizeOf_eq

theorem typeAlignment_eq (h : TypeIdentity types a b) :
    typeAlignment types a = typeAlignment types b :=
  h.typeAlignmentAux_eq _

end TypeIdentity

/-- What it means for the compiler that two types are the same: identical, and
so of the same size and alignment. -/
structure SameType (types : TypeTable) (a b : CType) : Prop where
  identity : TypeIdentity types a b
  size : sizeOf types a = sizeOf types b
  alignment : typeAlignment types a = typeAlignment types b

theorem sameType_iff {types : TypeTable} {a b : CType} :
    SameType types a b ↔ TypeIdentity types a b := by
  constructor
  · intro h
    exact h.identity
  · intro h
    exact ⟨h, h.sizeOf_eq, h.typeAlignment_eq⟩

/-! ## What the comparison overlooks -/

section Overlooked

variable {types : TypeTable} {a b : CType}

theorem OverlookedAgree.step (h : OverlookedAgree types a b) :
    OverlookedStep types (OverlookedAgree types) a b := by
  rcases h with ⟨R, hab, hR⟩
  have hstep := hR a b hab
  refine ⟨hstep.kind, hstep.next, ?_⟩
  intro hcomposite ta tb hta htb
  refine (hstep.members hcomposite ta tb hta htb).imp ?_
  intro ma mb hm
  exact ⟨⟨R, hm.1, hR⟩, hm.2⟩

theorem TypeIdentity.overlookedAgree (h : TypeIdentity types a b) :
    OverlookedAgree types a b := by
  refine ⟨TypeIdentity types, h, ?_⟩
  intro a b h
  have hstep := h.step
  refine ⟨hstep.kind, hstep.next, ?_⟩
  intro hcomposite ta tb hta htb
  rcases (hstep.entry hcomposite).cases with ⟨hnone, -⟩ | ⟨ta', tb', hta', htb', hentries⟩
  · rw [hta] at hnone
    cases hnone
  · rw [hta, some.injEq] at hta'
    rw [htb, some.injEq] at htb'
    subst hta' htb'
    refine hentries.2.imp ?_
    intro ma mb hm
    refine ⟨hm.1, ?_⟩
    intro hkind
    have hfields := hm.2 (by simpa using hkind)
    exact ⟨hfields.2.2.1, hfields.2.2.2⟩

theorem membersIdentical_of_accepted {equal : CType → CType → Option Bool} {kind : TypeKind}
    {S : CType → CType → Prop} {as bs : List Member}
    (haccepted : List.Forall₂ (MembersAccepted equal (kind = .function)) as bs)
    (hoverlooked : List.Forall₂ (fun ma mb => S ma.type mb.type ∧
      (kind ≠ .function → ma.fieldWidth = mb.fieldWidth ∧ ma.fieldOffset = mb.fieldOffset))
      as bs) :
    List.Forall₂ (MembersIdentical (fun a b => equal a b = some true ∧ S a b)
      (kind = .function)) as bs := by
  induction haccepted with
  | nil => exact List.Forall₂.nil
  | cons hhead _ ih =>
    cases hoverlooked with
    | cons hhead' htail' =>
      refine List.Forall₂.cons ⟨⟨hhead.1, hhead'.1⟩, ?_⟩ (ih htail')
      intro hkind
      rcases hhead.2 hkind with ⟨hoffset, hname⟩
      rcases hhead'.2 (by simpa using hkind) with ⟨hwidth, hposition⟩
      exact ⟨hname, hoffset, hwidth, hposition⟩

theorem getTypetreeHandle_zero (types : TypeTable) : getTypetreeHandle types 0 = none := by
  simp [getTypetreeHandle, typetreeIndex]

theorem HandlesAccepted.identicalStep {equal : CType → CType → Option Bool}
    (h : HandlesAccepted types equal a b) (hoverlooked : OverlookedAgree types a b) :
    IdenticalStep types (fun a b => (equal a b = some true ∧ OverlookedAgree types a b) ∨
      TypeIdentity types a b) a b := by
  have hstep := hoverlooked.step
  refine ⟨hstep.kind, ?_, hstep.next.mono fun _ _ hnext => Or.inr hnext, ?_⟩
  · intro hinteger
    have hpointer := CType.isPointer_of_isInteger hinteger
    have hpointer' : b.isPointer = false := by
      rw [CType.isInteger, hstep.kind] at hinteger
      exact CType.isPointer_of_isInteger hinteger
    simp [CType.isUnsignedType, CType.isBool, hpointer, hpointer', h.isUnsigned_eq, h.type_eq]
  · intro hcomposite
    by_cases ha : a.ref = 0
    · rw [ha, h.ref_eq_zero_iff.mp ha, getTypetreeHandle_zero]
      exact Option.Rel.none
    · rcases h.entries ha with ⟨ta, tb, hta, htb, htree⟩
      rw [typetreeEqual_eq_true_iff] at htree
      rw [hta, htb]
      refine Option.Rel.some ⟨htree.1, ?_⟩
      refine (membersIdentical_of_accepted htree.2
        (hstep.members hcomposite ta tb hta htb)).imp ?_
      intro ma mb hm
      exact ⟨Or.inl hm.1, hm.2⟩

theorem typeIdentity_of_accepted (h : typeEqual types a b = some true)
    (hoverlooked : OverlookedAgree types a b) : TypeIdentity types a b := by
  refine TypeIdentity.coinduct
    (R := fun a b => ∃ fuel, typeEqualAux types fuel a b = some true ∧
      OverlookedAgree types a b) ⟨_, h, hoverlooked⟩ ?_
  rintro a b ⟨fuel, hequal, hoverlooked⟩
  cases fuel with
  | zero => cases hequal
  | succ fuel =>
    rcases typeEqualAux_succ_eq_true_iff.mp hequal with rfl | haccepted
    · exact (TypeIdentity.refl a).step.mono fun _ _ hab => Or.inr hab
    · refine (haccepted.identicalStep hoverlooked).mono ?_
      intro x y hxy
      rcases hxy with hxy | hxy
      · exact Or.inl ⟨fuel, hxy⟩
      · exact Or.inr hxy

end Overlooked

/-- `type_equal` is an equivalence, and what it accepts are two spellings of the
same type exactly when the two types agree in what it does not look at. -/
theorem typeEqual_sound_iff (types : TypeTable) :
    (∀ a, typeEqual types a a = some true) ∧
    (∀ a b, typeEqual types a b = typeEqual types b a) ∧
    (∀ a b c, typeEqual types a b = some true → typeEqual types b c = some true →
      typeEqual types a c = some true) ∧
    (∀ a b, typeEqual types a b = some true →
      (SameType types a b ↔ OverlookedAgree types a b)) := by
  refine ⟨typeEqual_self types, typeEqual_comm types, fun a b c => typeEqual_trans, ?_⟩
  intro a b hequal
  rw [sameType_iff]
  constructor
  · intro h
    exact h.overlookedAgree
  · intro h
    exact typeIdentity_of_accepted hequal h

/-- `int` and `const int` are accepted, and they are the same type. -/
theorem typeEqual_sound_const_int :
    typeEqual [] basicTypeInt { basicTypeInt with isConst := true } = some true ∧
      SameType [] basicTypeInt { basicTypeInt with isConst := true } := by
  have hequal : typeEqual [] basicTypeInt { basicTypeInt with isConst := true } = some true := by
    decide
  refine ⟨hequal, ((typeEqual_sound_iff []).2.2.2 _ _ hequal).mpr ?_⟩
  refine ⟨fun a b => a = basicTypeInt ∧ b = { basicTypeInt with isConst := true }, ⟨rfl, rfl⟩, ?_⟩
  rintro a b ⟨rfl, rfl⟩
  refine ⟨by decide, Option.Rel.none, ?_⟩
  intro hcomposite
  exact absurd hcomposite (by decide)

/-- `int` is taken for `int *`: kind and size differ, and the pointer flag that
tells them apart is overlooked. -/
theorem typeEqual_int_pointer :
    typeCreatePointer [] basicTypeInt = some ({ basicTypeInt with isPointer := true }, []) ∧
      typeEqual [] basicTypeInt { basicTypeInt with isPointer := true } = some true ∧
      ¬ SameType [] basicTypeInt { basicTypeInt with isPointer := true } := by
  refine ⟨by decide, by decide, ?_⟩
  intro h
  have hkind := h.identity.step.kind
  revert hkind
  decide

end Kcs
