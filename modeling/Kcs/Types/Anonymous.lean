import Kcs.Lib.RoundUp
import Kcs.Types.Layout

/-!
# Anonymous struct and union members

`type_add_anonymous_member` copies the members of an unnamed struct or union into its parent.  A
union in a struct is moved behind the members that are there, and a struct in a union keeps its
offsets.  The members of a struct in a struct, and of a union in a union, are added anew, one by one,
as ordinary members.

Main results:

- Theorem {lit}`anonymous_keepsLayout_iff`: when the members end up at one base offset, and the parent
  covers the type.
-/

namespace Kcs

open Option List

/-! ## The source -/

/-- `type_add_anonymous_member` -/
def typeAddAnonymousMember (types : TypeTable) (t : Typetree) (type : CType) :
    Except LayoutError Typetree :=
  if !(t.type = .struct || t.type = .union) || !type.isStructOrUnion then .error .aborted
  else do
    let e ← orAbort (getTypetreeHandle types type.ref)
    if t.type = .struct && type.isUnion then do
      let (t, offset) ← adjustMemberAlignment types t type
      e.members.foldlM
        (fun t m => addMember types t { m with offset := (m.offset + offset) % sizeModulus }) t
    else if t.type = .union && type.isStruct then e.members.foldlM (addMember types) t
    else e.members.foldlM (fun t m => typeAddMember types t m.name m.type) t

/-! ## Alignments -/

section Alignments

variable {types : TypeTable} {type : CType} {a : Nat}

variable {members : List Member}

theorem foldlM_alignment_spec {alignment : CType → Option Nat} {m₀ m : Nat}
    (h : members.foldlM (fun m member => (alignment member.type).map (max m)) m₀ = some m) :
    m₀ ≤ m ∧ (∀ member ∈ members, ∃ a, alignment member.type = some a ∧ a ≤ m) ∧
      (m = m₀ ∨ ∃ member ∈ members, alignment member.type = some m) := by
  induction members generalizing m₀ with
  | nil =>
    simp only [foldlM_nil, pure, some.injEq] at h
    exact ⟨h.le, by simp, Or.inl h.symm⟩
  | cons member members ih =>
    simp only [foldlM_cons, bind, bind_eq_some_iff, map_eq_some_iff] at h
    rcases h with ⟨_, ⟨n, hn, rfl⟩, hrest⟩
    rcases ih hrest with ⟨hle, hall, hreached⟩
    refine ⟨(le_max_left _ _).trans hle, ?_, ?_⟩
    · intro member' hmem
      rcases mem_cons.mp hmem with rfl | hmem
      · exact ⟨n, hn, (le_max_right _ _).trans hle⟩
      · exact hall member' hmem
    · rcases hreached with rfl | ⟨member', hmem, heq⟩
      · rcases le_total n m₀ with hmax | hmax
        · exact Or.inl (max_eq_left hmax)
        · rw [max_eq_right hmax]
          exact Or.inr ⟨member, mem_cons_self, hn⟩
      · exact Or.inr ⟨member', mem_cons_of_mem _ hmem, heq⟩

theorem sizeOf_scalar_pow (h : sizeOf types type = some a)
    (hscalar : type.typeOf ≠ .struct ∧ type.typeOf ≠ .union ∧ type.typeOf ≠ .array) :
    a = 0 ∨ ∃ k, a = 2 ^ k := by
  unfold sizeOf sizeOfAux at h
  cases hkind : type.typeOf <;> rw [hkind] at h hscalar <;> first
    | exact absurd rfl hscalar.1
    | exact absurd rfl hscalar.2.1
    | exact absurd rfl hscalar.2.2
    | cases h
  all_goals first
    | exact Or.inl rfl
    | exact Or.inr ⟨0, rfl⟩
    | exact Or.inr ⟨1, rfl⟩
    | exact Or.inr ⟨2, rfl⟩
    | exact Or.inr ⟨3, rfl⟩
    | exact Or.inr ⟨4, rfl⟩

theorem typeAlignmentAux_pow {fuel : Nat} (h : typeAlignmentAux types fuel type = some a) :
    a = 0 ∨ ∃ k, a = 2 ^ k := by
  induction fuel generalizing type a with
  | zero =>
    unfold typeAlignmentAux at h
    split at h <;> try cases h
    exact sizeOf_scalar_pow h (by simp_all)
  | succ fuel ih =>
    unfold typeAlignmentAux at h
    split at h
    · cases h
    · simp only [bind_eq_some_iff] at h
      rcases h with ⟨next, -, hnext⟩
      exact ih hnext
    all_goals try exact sizeOf_scalar_pow h (by simp_all)
    all_goals
      simp only [bind_eq_some_iff] at h
      rcases h with ⟨t, -, m, hm, h⟩
      split at h
      · cases h
      · simp only [some.injEq] at h
        subst h
        rcases (foldlM_alignment_spec hm).2.2 with rfl | ⟨member, -, heq⟩
        · exact Or.inl rfl
        · exact ih heq

theorem foldlM_alignment_mono {f g : CType → Option Nat}
    (hfg : ∀ type a, f type = some a → g type = some a) {m₀ m : Nat}
    (h : members.foldlM (fun m member => (f member.type).map (max m)) m₀ = some m) :
    members.foldlM (fun m member => (g member.type).map (max m)) m₀ = some m := by
  induction members generalizing m₀ with
  | nil => exact h
  | cons member members ih =>
    simp only [foldlM_cons, bind, bind_eq_some_iff, map_eq_some_iff] at h ⊢
    rcases h with ⟨k, ⟨n, hn, hk⟩, hrest⟩
    exact ⟨k, ⟨n, hfg _ _ hn, hk⟩, ih hrest⟩

theorem membersAlignment_mono {f g : CType → Option Nat}
    (hfg : ∀ type a, f type = some a → g type = some a) {m : Nat}
    (h : membersAlignment f members = some m) : membersAlignment g members = some m :=
  foldlM_alignment_mono hfg h

theorem typeAlignmentAux_succ {fuel : Nat} (h : typeAlignmentAux types fuel type = some a) :
    typeAlignmentAux types (fuel + 1) type = some a := by
  induction fuel generalizing type a with
  | zero =>
    unfold typeAlignmentAux at h ⊢
    split at h <;> first | cases h | simp_all
  | succ fuel ih =>
    rw [typeAlignmentAux] at h ⊢
    split at h
    · cases h
    · simp only [bind_eq_some_iff] at h ⊢
      rcases h with ⟨next, hnext, h⟩
      exact ⟨next, hnext, ih h⟩
    · simp only [bind_eq_some_iff] at h ⊢
      rcases h with ⟨t, ht, m, hm, h⟩
      exact ⟨t, ht, m, membersAlignment_mono (fun _ _ => ih) hm, h⟩
    · simp only [bind_eq_some_iff] at h ⊢
      rcases h with ⟨t, ht, m, hm, h⟩
      exact ⟨t, ht, m, membersAlignment_mono (fun _ _ => ih) hm, h⟩
    · exact h

theorem typeAlignment_aggregate {e : Typetree} (h : typeAlignment types type = some a)
    (hkind : type.isStructOrUnion = true) (he : getTypetreeHandle types type.ref = some e) :
    a ≠ 0 ∧ e.members ≠ [] ∧ ∀ m ∈ e.members, ∃ b, typeAlignment types m.type = some b ∧
      (b ≠ 0 → b ∣ a) := by
  have hpow := typeAlignmentAux_pow h
  unfold typeAlignment at h
  cases hlength : types.length with
  | zero =>
    rw [hlength] at h
    unfold typeAlignmentAux at h
    unfold CType.isStructOrUnion CType.isStruct CType.isUnion at hkind
    split at h <;> simp_all
  | succ fuel =>
    rw [hlength] at h
    have hentry : (membersAlignment (fun m => typeAlignmentAux types fuel m) e.members).bind
        (fun m => if m = 0 then none else some m) = some a := by
      rw [typeAlignmentAux, he] at h
      unfold CType.isStructOrUnion CType.isStruct CType.isUnion at hkind
      split at h <;> simp_all
    rcases bind_eq_some_iff.mp hentry with ⟨m, hm, hne⟩
    split at hne
    · cases hne
    · rename_i hpos
      cases hne
      rcases foldlM_alignment_spec hm with ⟨-, hall, hreached⟩
      refine ⟨hpos, ?_, ?_⟩
      · rintro hnil
        rw [hnil] at hreached
        simp [hpos] at hreached
      · intro member hmem
        rcases hall member hmem with ⟨b, hb, hle⟩
        refine ⟨b, ?_, fun hne => ?_⟩
        · rw [typeAlignment, hlength]
          exact typeAlignmentAux_succ hb
        · rcases typeAlignmentAux_pow hb with rfl | ⟨i, rfl⟩
          · exact absurd rfl hne
          · rcases hpow with rfl | ⟨j, rfl⟩
            · exact absurd rfl hpos
            · exact pow_dvd_pow 2 ((Nat.pow_le_pow_iff_right (by decide)).mp hle)

end Alignments

/-! ## Adding members -/

section Additions

variable {types : TypeTable} {t t' : Typetree} {m : Member}

/-- A member is appended under a name of its own, and the size covers its end. -/
structure Added (types : TypeTable) (t : Typetree) (m : Member) (t' : Typetree) : Prop where
  kind : t'.type = t.type
  members : t'.members = t.members ++ [m]
  fresh : m.name ≠ "" → ∀ m' ∈ t.members, m'.name ≠ m.name
  size : ∃ n, sizeOf types m.type = some n ∧ t'.size = max t.size ((m.offset + n) % sizeModulus)

theorem addMember_added (h : addMember types t m = .ok t')
    (hkind : t.type = .struct ∨ t.type = .union) : Added types t m t' := by
  have haggregate : (decide (t.type = .struct) || decide (t.type = .union)) = true := by
    simpa using hkind
  have hfunction : t.type ≠ .function := by
    rcases hkind with hkind | hkind <;> rw [hkind] <;> decide
  unfold addMember at h
  split at h
  · simp [hfunction] at h
  · split at h
    · cases h
    · rename_i hfresh
      simp only [haggregate, if_true] at h
      simp only [growAggregate, Except.bind_eq_ok_iff, orAbort_eq_ok_iff] at h
      rcases h with ⟨n, hn, t₁, ht₁, flexible, -, t₂, ht₂, h⟩
      rcases checkComplete_spec ht₁ with ⟨htype₁, hmembers₁, hsize₁⟩
      rcases checkFlexible_spec ht₂ with ⟨htype₂, hmembers₂, hsize₂⟩
      have hcommit : t'.type = t₂.type ∧ t'.members = t₂.members ∧
          t'.size = max t₂.size ((m.offset + n) % sizeModulus) := by
        unfold commitSize at h
        split at h
        · cases h
        · split at h
          · rename_i hlt
            cases h
            exact ⟨rfl, rfl, (max_eq_right hlt.le).symm⟩
          · rename_i hle
            cases h
            exact ⟨rfl, rfl, (max_eq_left (not_lt.mp hle)).symm⟩
      rcases hcommit with ⟨htype, hmembers, hsize⟩
      refine ⟨?_, ?_, ?_, n, hn, ?_⟩
      · rw [htype, htype₂, htype₁]
      · rw [hmembers, hmembers₂, hmembers₁]
      · intro hname m' hm' heq
        refine hfresh ?_
        simp only [Bool.and_eq_true, decide_eq_true_eq, List.any_eq_true]
        exact ⟨hname, m', hm', heq⟩
      · rw [hsize, hsize₂, hsize₁]

/-- Members are appended one after the other. -/
inductive AppendsAll (R : Typetree → Member → Typetree → Prop) :
    Typetree → List Member → Typetree → Prop
  | nil (t : Typetree) : AppendsAll R t [] t
  | cons {t t₁ t' : Typetree} {a : Member} {as : List Member} (hhead : R t a t₁)
      (hrest : AppendsAll R t₁ as t') : AppendsAll R t (a :: as) t'

variable {R : Typetree → Member → Typetree → Prop}

theorem appendsAll_of_foldlM
    {Q : Member → Member → Prop} {I : Typetree → Prop}
    {f : Typetree → Member → Except LayoutError Typetree}
    (hf : ∀ t m t', I t → f t m = .ok t' → I t' ∧ ∃ a, R t a t' ∧ Q m a) {ms : List Member}
    (ht : I t) (h : ms.foldlM f t = .ok t') :
    ∃ added, List.Forall₂ Q ms added ∧ AppendsAll R t added t' := by
  induction ms generalizing t with
  | nil =>
    cases h
    exact ⟨[], .nil, .nil _⟩
  | cons m ms ih =>
    rw [foldlM_cons, Except.bind_eq_ok_iff] at h
    rcases h with ⟨t₁, hm, hrest⟩
    rcases hf t m t₁ ht hm with ⟨ht₁, a, hR, hQ⟩
    rcases ih ht₁ hrest with ⟨added, hall, happends⟩
    exact ⟨a :: added, .cons hQ hall, .cons hR happends⟩

/-- A member is appended under a name of its own. -/
def AppendsNamed (t : Typetree) (a : Member) (t' : Typetree) : Prop :=
  t'.members = t.members ++ [a] ∧ (a.name ≠ "" → ∀ m ∈ t.members, m.name ≠ a.name)

section

variable (hR : ∀ t a t', R t a t' → AppendsNamed t a t')
include hR

theorem AppendsAll.members {added : List Member}
    (h : AppendsAll R t added t') : t'.members = t.members ++ added := by
  induction h with
  | nil t => simp
  | cons hhead _ ih =>
    rw [ih, (hR _ _ _ hhead).1, append_assoc]
    rfl

theorem AppendsAll.fresh {added : List Member}
    (h : AppendsAll R t added t') :
    ∀ a ∈ added, a.name ≠ "" → ∀ m ∈ t.members, m.name ≠ a.name := by
  induction h with
  | nil t => simp
  | cons hhead _ ih =>
    rcases hR _ _ _ hhead with ⟨hmembers, hfresh⟩
    intro a ha hname m hm
    rcases mem_cons.mp ha with rfl | ha
    · exact hfresh hname m hm
    · refine ih a ha hname m ?_
      rw [hmembers]
      exact mem_append_left _ hm

theorem AppendsAll.forall₂ {P : Member → Member → Prop}
    (hP : ∀ m a, P m a → a.name = m.name) {ms added : List Member}
    (h : AppendsAll R t added t') (hnames : List.Forall₂ (fun m a => a.name = m.name) ms added)
    (hnamed : ∀ m ∈ ms, m.name ≠ "") (hall : ∀ m ∈ ms, ∃ a ∈ t'.members, P m a) :
    List.Forall₂ P ms added := by
  induction hnames generalizing t with
  | nil => exact .nil
  | @cons m a ms added hname _ ih =>
    cases h with
    | cons hhead hrest =>
      rename_i t₁
      rcases hR _ _ _ hhead with ⟨hmembers, hfresh⟩
      have haname : a.name ≠ "" := by
        rw [hname]
        exact hnamed m mem_cons_self
      refine .cons ?_ (ih hrest (fun m' hm' => hnamed m' (mem_cons_of_mem _ hm'))
        fun m' hm' => hall m' (mem_cons_of_mem _ hm'))
      rcases hall m mem_cons_self with ⟨x, hx, hPx⟩
      have hxname : x.name = a.name := (hP m x hPx).trans hname.symm
      rw [hrest.members hR, hmembers, append_assoc] at hx
      rcases mem_append.mp hx with hx | hx
      · exact absurd hxname (hfresh haname x hx)
      · rcases mem_cons.mp hx with rfl | hx
        · exact hPx
        · refine absurd hxname.symm (hrest.fresh hR x hx (by rwa [hxname]) a ?_)
          rw [hmembers]
          simp

end

end Additions

/-! ## The layout of the members -/

section Placement

variable {types : TypeTable} {t t' : Typetree} {type : CType} {e : Typetree}

/-- The member is at its own place behind the base. -/
structure Member.MovedTo (base : Nat) (m m' : Member) : Prop where
  name : m'.name = m.name
  type : m'.type = m.type
  offset : m'.offset = base + m.offset
  fieldWidth : m'.fieldWidth = m.fieldWidth
  fieldOffset : m'.fieldOffset = m.fieldOffset

/-- The members of the added type are at their places behind a base, which is aligned and behind the
members that were there, and the parent covers the type. -/
structure KeepsLayout (types : TypeTable) (t : Typetree) (type : CType) (e t' : Typetree)
    (base : Nat) : Prop where
  aligned : ∃ a, typeAlignment types type = some a ∧ a ∣ base
  behind : t.type = .struct → ∀ m ∈ t.members, m.bitEnd types ≤ 8 * base
  atStart : t.type = .union → base = 0
  placed : ∀ m ∈ e.members, ∃ m' ∈ t'.members, m.MovedTo base m'
  covered : ∀ n, sizeOf types type = some n → base + n ≤ t'.size

/-- A struct or union under construction, within the limit that `add_member` enforces. -/
structure UnderConstruction (types : TypeTable) (t : Typetree) : Prop where
  kind : t.type = .struct ∨ t.type = .union
  enclosed : ∀ m ∈ t.members, m.bitEnd types ≤ 8 * t.size
  bounded : t.size ≤ longlongMax

/-- A sealed struct or union. -/
structure SealedType (types : TypeTable) (type : CType) (e : Typetree) : Prop where
  kind : type.isStructOrUnion = true
  entry : getTypetreeHandle types type.ref = some e
  aligned : ∃ a, typeAlignment types type = some a
  named : ∀ m ∈ e.members, m.name ≠ ""
  enclosed : ∀ m ∈ e.members, ∀ n, sizeOf types m.type = some n → m.offset + n ≤ e.size
  bounded : e.size ≤ 2 ^ 63

/-- Some member reaches to the end of the type. -/
def LastByteUsed (types : TypeTable) (e : Typetree) : Prop :=
  ∃ m ∈ e.members, ∃ n, sizeOf types m.type = some n ∧ e.size ≤ m.offset + n

/-- The member is not a bit-field. -/
def Member.IsPlain (m : Member) : Prop := m.fieldWidth = 0 ∧ m.fieldOffset = 0

/-- From the given end on, the members are where `type_add_member` puts them. -/
inductive PlainAfter (types : TypeTable) : Nat → List Member → Prop
  | nil (s : Nat) : PlainAfter types s []
  | cons {s a n : Nat} {m : Member} {ms : List Member} (hplain : m.IsPlain)
      (halign : typeAlignment types m.type = some a) (hsize : sizeOf types m.type = some n)
      (hoffset : m.offset = roundUp s a) (hrest : PlainAfter types (m.offset + n) ms) :
      PlainAfter types s (m :: ms)

/-- The struct has no bit-fields and nothing but padding between its members, and its first member
lands where the whole struct would. -/
def FitsBehind (types : TypeTable) (t : Typetree) (type : CType) (e : Typetree) : Prop :=
  ∃ m ms a n base, e.members = m :: ms ∧ m.IsPlain ∧ typeAlignment types m.type = some a ∧
    sizeOf types m.type = some n ∧ PlainAfter types (m.offset + n) ms ∧
    roundUp t.size a = base + m.offset ∧ (∃ b, typeAlignment types type = some b ∧ b ∣ base) ∧
    (∀ m ∈ t.members, m.bitEnd types ≤ 8 * base) ∧ base + e.size < sizeModulus

/-- When flattening keeps the layout of the added type. -/
def FlattensExactly (types : TypeTable) (t : Typetree) (type : CType) (e : Typetree) : Prop :=
  if t.type = .struct then
    LastByteUsed types e ∧
      if type.isUnion then
        ∃ a, typeAlignment types type = some a ∧ roundUp t.size a + e.size < sizeModulus
      else FitsBehind types t type e
  else
    (e.size ≤ t.size ∨ LastByteUsed types e) ∧
      (type.isUnion → ∀ m ∈ e.members, m.offset = 0 ∧ m.IsPlain)

theorem SealedType.sizeOf_eq (he : SealedType types type e) : sizeOf types type = some e.size := by
  have hkind := he.kind
  unfold CType.isStructOrUnion CType.isStruct CType.isUnion at hkind
  unfold sizeOf sizeOfAux
  split <;> simp_all [he.entry]

theorem added_size {added : List Member} (h : AppendsAll (Added types) t added t') :
    t.size ≤ t'.size ∧
      (∀ a ∈ added, ∃ n, sizeOf types a.type = some n ∧
        (a.offset + n) % sizeModulus ≤ t'.size) ∧
      (t'.size = t.size ∨ ∃ a ∈ added, ∃ n, sizeOf types a.type = some n ∧
        t'.size = (a.offset + n) % sizeModulus) := by
  induction h with
  | nil t => exact ⟨le_refl _, by simp, Or.inl rfl⟩
  | @cons t t₁ t' a as hhead _ ih =>
    rcases hhead.size with ⟨n, hn, hsize⟩
    rcases ih with ⟨hle, hall, hreached⟩
    have hhead₁ : t.size ≤ t₁.size := by rw [hsize]; exact le_max_left _ _
    have hhead₂ : (a.offset + n) % sizeModulus ≤ t₁.size := by rw [hsize]; exact le_max_right _ _
    refine ⟨hhead₁.trans hle, ?_, ?_⟩
    · intro x hx
      rcases mem_cons.mp hx with rfl | hx
      · exact ⟨n, hn, hhead₂.trans hle⟩
      · exact hall x hx
    · rcases hreached with heq | ⟨x, hx, k, hk, heq⟩
      · rcases le_total ((a.offset + n) % sizeModulus) t.size with hmax | hmax
        · rw [max_eq_left hmax] at hsize
          exact Or.inl (heq.trans hsize)
        · rw [max_eq_right hmax] at hsize
          exact Or.inr ⟨a, mem_cons_self, n, hn, heq.trans hsize⟩
      · exact Or.inr ⟨x, mem_cons_of_mem _ hx, k, hk, heq⟩

theorem Added.appendsNamed (t : Typetree) (a : Member) (t' : Typetree) (h : Added types t a t') :
    AppendsNamed t a t' :=
  ⟨h.members, h.fresh⟩

/-! ### Members that keep their offsets -/

section Shifted

variable {b : Nat} {added : List Member}

/-- The member, moved in the arithmetic of `size_t`. -/
def Member.shifted (b : Nat) (m : Member) : Member :=
  { m with offset := (m.offset + b) % sizeModulus }

/-- What the loops that copy members do. -/
structure Copied (types : TypeTable) (t e : Typetree) (b : Nat) (t' : Typetree) : Prop where
  appends : AppendsAll (Added types) t (e.members.map (Member.shifted b)) t'
  base_le : b ≤ 2 ^ 63

theorem appendsAll_map_of_foldlM (types : TypeTable) (hkind : t.type = .struct ∨ t.type = .union)
    {f : Typetree → Member → Except LayoutError Typetree} {g : Member → Member}
    (hf : ∀ t' m, t'.type = t.type → f t' m = addMember types t' (g m))
    (h : e.members.foldlM f t = .ok t') :
    AppendsAll (Added types) t (e.members.map g) t' := by
  rcases appendsAll_of_foldlM (R := Added types) (Q := fun m a => g m = a)
    (I := fun t' => t'.type = t.type) (fun t₁ m t₂ ht hm => by
      rw [hf t₁ m ht] at hm
      have hadded := addMember_added hm (by rwa [ht])
      exact ⟨hadded.kind.trans ht, _, hadded, rfl⟩) rfl h with ⟨added, hall, happends⟩
  have hmap : e.members.map g = added := by
    rw [← forall₂_eq_eq_eq, forall₂_map_left_iff]
    exact hall
  rwa [hmap]

namespace Copied

section

variable (h : Copied types t e b t')
include h

theorem enclosed (he : SealedType types type e) {m : Member}
    (hm : m ∈ e.members) :
    ∃ n, sizeOf types m.type = some n ∧ m.offset + n ≤ e.size ∧
      ((m.offset + b) % sizeModulus + n) % sizeModulus ≤ t'.size := by
  rcases (added_size h.appends).2.1 _ (List.mem_map_of_mem hm) with ⟨n, hn, hle⟩
  exact ⟨n, hn, he.enclosed m hm n hn, hle⟩

theorem mem {m : Member} (hm : m ∈ e.members) :
    m.shifted b ∈ t'.members := by
  rw [h.appends.members Added.appendsNamed]
  exact mem_append_right _ (List.mem_map_of_mem hm)

theorem base_eq (he : SealedType types type e)
    {base : Nat} (hplaced : ∀ m ∈ e.members, ∃ m' ∈ t'.members, m.MovedTo base m') :
    base = b := by
  rcases he.aligned with ⟨a, ha⟩
  rcases typeAlignment_aggregate ha he.kind he.entry with ⟨-, hne, -⟩
  rcases exists_mem_of_ne_nil _ hne with ⟨m, hm⟩
  have hall := h.appends.forall₂ Added.appendsNamed (P := Member.MovedTo base)
    (fun _ _ hmoved => hmoved.name)
    (forall₂_map_right_iff.mpr (forall₂_same.mpr fun _ _ => rfl)) he.named hplaced
  have hmoved := forall₂_same.mp (forall₂_map_right_iff.mp hall) m hm
  rcases h.enclosed he hm with ⟨n, -, hend, -⟩
  have hoffset : (m.offset + b) % sizeModulus = base + m.offset := hmoved.offset
  have hb := h.base_le
  have hsize := he.bounded
  unfold sizeModulus at hoffset
  omega

theorem placed (he : SealedType types type e)
    (hfits : b + e.size < sizeModulus) :
    ∀ m ∈ e.members, ∃ m' ∈ t'.members, m.MovedTo b m' := by
  intro m hm
  rcases h.enclosed he hm with ⟨n, -, hend, -⟩
  refine ⟨m.shifted b, h.mem hm, rfl, rfl, ?_, rfl, rfl⟩
  show (m.offset + b) % sizeModulus = b + m.offset
  rw [Nat.mod_eq_of_lt (by omega), Nat.add_comm]

theorem covered_iff (he : SealedType types type e)
    (hfits : b + e.size < sizeModulus) :
    b + e.size ≤ t'.size ↔ b + e.size ≤ t.size ∨ LastByteUsed types e := by
  have hend : ∀ m ∈ e.members, ∀ n, sizeOf types m.type = some n →
      ((m.offset + b) % sizeModulus + n) % sizeModulus = b + (m.offset + n) := by
    intro m hm n hn
    have hle := he.enclosed m hm n hn
    rw [Nat.mod_eq_of_lt (by omega : m.offset + b < sizeModulus), Nat.mod_eq_of_lt (by omega)]
    omega
  rcases added_size h.appends with ⟨hgrow, hall, hreached⟩
  constructor
  · intro hcovered
    rcases hreached with heq | ⟨a, ha, n, hn, heq⟩
    · exact Or.inl (heq ▸ hcovered)
    · rcases List.mem_map.mp ha with ⟨m, hm, rfl⟩
      have hplace : t'.size = b + (m.offset + n) := heq.trans (hend m hm n hn)
      exact Or.inr ⟨m, hm, n, hn, by omega⟩
  · rintro (hold | ⟨m, hm, n, hn, hlast⟩)
    · exact hold.trans hgrow
    · rcases h.enclosed he hm with ⟨k, hk, -, hle⟩
      rw [hn, some.injEq] at hk
      subst hk
      rw [hend m hm n hn] at hle
      omega

end

end Copied

end Shifted

/-! ### Members that are added anew -/

section Readded

variable {base s E : Nat} {ms added : List Member}

/-- `type_add_member` appends the member behind the padded size. -/
structure Readded (types : TypeTable) (t : Typetree) (a : Member) (t' : Typetree) : Prop where
  plain : a.IsPlain
  named : AppendsNamed t a t'
  place : ∃ al n, typeAlignment types a.type = some al ∧ al ≠ 0 ∧ sizeOf types a.type = some n ∧
    a.offset = padTo t.size al ∧ t'.size = max a.offset ((a.offset + n) % sizeModulus)

variable {al n : Nat}

theorem padTo_eq_mod (hn : n < sizeModulus) :
    padTo n al = roundUp n al % sizeModulus := by
  unfold padTo roundUp
  by_cases h : n % al = 0
  · simp [h, Nat.mod_eq_of_lt hn]
  · simp [h]

theorem padTo_eq_roundUp (h : roundUp n al < sizeModulus) :
    padTo n al = roundUp n al := by
  rw [padTo_eq_mod ((le_roundUp n al).trans_lt h), Nat.mod_eq_of_lt h]

theorem typeAlignment_dvd_pow {type : CType} {al k : Nat}
    (h : typeAlignment types type = some al) (hne : al ≠ 0) (hk : 4 ≤ k) : al ∣ 2 ^ k := by
  rcases typeAlignmentAux_pow h with rfl | ⟨j, rfl⟩
  · exact absurd rfl hne
  · have hle : 2 ^ j ≤ 2 ^ 4 := typeAlignmentAux_le h
    exact pow_dvd_pow 2 (((Nat.pow_le_pow_iff_right (by decide)).mp hle).trans hk)

theorem typeAddMember_readded {name : String} (hstruct : t.type = .struct)
    (h : typeAddMember types t name type = .ok t') :
    t'.type = .struct ∧ ∃ a, Readded types t a t' ∧ a.name = name ∧ a.type = type := by
  have hfunction : t.type ≠ .function := by
    rw [hstruct]
    decide
  simp only [typeAddMember, hfunction, if_false, Except.bind_eq_ok_iff] at h
  rcases h with ⟨⟨t₁, offset⟩, hadjust, hadd⟩
  unfold adjustMemberAlignment at hadjust
  rw [if_pos hstruct] at hadjust
  simp only [Except.bind_eq_ok_iff, orAbort_eq_ok_iff] at hadjust
  rcases hadjust with ⟨al, hal, hadjust⟩
  split at hadjust
  · cases hadjust
  · rename_i hne
    split at hadjust
    · cases hadjust
    · cases hadjust
      have hadded := addMember_added hadd (Or.inl hstruct)
      rcases hadded.size with ⟨n, hn, hsize⟩
      exact ⟨hadded.kind.trans hstruct, _, ⟨⟨rfl, rfl⟩, ⟨hadded.members, hadded.fresh⟩, al, n, hal,
        hne, hn, rfl, hsize⟩, rfl, rfl⟩

theorem Readded.appendsNamed (t : Typetree) (a : Member) (t' : Typetree)
    (h : Readded types t a t') : AppendsNamed t a t' := h.named

theorem Readded.offset_iff {a m : Member} (h : Readded types t a t')
    (htype : a.type = m.type) (hal : typeAlignment types m.type = some al) (hdvd : al ∣ base)
    (hsize : t.size = base + s) (hs : s ≤ E) (hE : E ≤ 2 ^ 63) (hfits : base + E < sizeModulus)
    (hm : m.offset ≤ E) :
    a.offset = base + m.offset ↔ m.offset = roundUp s al := by
  rcases h.place with ⟨al', n, hal', hne, -, hoffset, -⟩
  rw [htype, hal, some.injEq] at hal'
  subst hal'
  have hpos : 0 < al := Nat.pos_of_ne_zero hne
  have hround : roundUp t.size al = base + roundUp s al := by
    rw [hsize, roundUp_add_of_dvd hpos hdvd]
  rw [hoffset]
  by_cases hlt : roundUp t.size al < sizeModulus
  · rw [padTo_eq_roundUp hlt, hround]
    omega
  · -- the padded size is the end of the address range, so that the base is not zero
    have hle : roundUp t.size al ≤ sizeModulus :=
      roundUp_le hpos (by omega) (typeAlignment_dvd_pow hal hne (by decide : 4 ≤ 64))
    have heq : roundUp t.size al = sizeModulus := le_antisymm hle (not_lt.mp hlt)
    have hsmall : roundUp s al ≤ 2 ^ 63 :=
      roundUp_le hpos (hs.trans hE) (typeAlignment_dvd_pow hal hne (by decide : 4 ≤ 63))
    rw [padTo_eq_mod (by omega), heq, Nat.mod_self]
    unfold sizeModulus at heq hfits
    omega

/-- Members that are added anew keep their places exactly when nothing but padding lies between
them. -/
theorem readded_iff (base : Nat) (happ : AppendsAll (Readded types) t added t')
    (hsame : List.Forall₂ (fun m a => a.name = m.name ∧ a.type = m.type) ms added)
    (haligned : ∀ m ∈ ms, ∃ al, typeAlignment types m.type = some al ∧ (al ≠ 0 → al ∣ base))
    (hends : ∀ m ∈ ms, ∀ n, sizeOf types m.type = some n → m.offset + n ≤ E)
    (hE : E ≤ 2 ^ 63) (hfits : base + E < sizeModulus) (hsize : t.size = base + s) (hs : s ≤ E) :
    (List.Forall₂ (Member.MovedTo base) ms added ↔ PlainAfter types s ms) ∧
      (List.Forall₂ (Member.MovedTo base) ms added →
        t.size ≤ t'.size ∧
          (∀ m ∈ ms, ∀ n, sizeOf types m.type = some n → base + (m.offset + n) ≤ t'.size) ∧
          (t'.size = t.size ∨ ∃ m ∈ ms, ∃ n, sizeOf types m.type = some n ∧
            t'.size = base + (m.offset + n))) := by
  induction happ generalizing ms s with
  | nil t =>
    cases hsame
    exact ⟨⟨fun _ => .nil s, fun _ => .nil⟩, fun _ => ⟨le_refl _, by simp, Or.inl rfl⟩⟩
  | @cons t t₁ t' a as hhead hrest ih =>
    cases hsame with
    | @cons m _ ms _ hm hsame =>
      rcases hm with ⟨hname, htype⟩
      rcases hhead.place with ⟨al, n, hal, hne, hn, -, hsize₁⟩
      rw [htype] at hal hn
      have hend : m.offset + n ≤ E := hends m mem_cons_self n hn
      have hdvd : al ∣ base := by
        rcases haligned m mem_cons_self with ⟨al', hal', hdvd⟩
        rw [hal, some.injEq] at hal'
        subst hal'
        exact hdvd hne
      have hoffset := hhead.offset_iff htype hal hdvd hsize hs hE hfits (by omega)
      have hmoved : Member.MovedTo base m a ↔ m.IsPlain ∧ m.offset = roundUp s al := by
        constructor
        · intro h
          exact ⟨⟨h.fieldWidth ▸ hhead.plain.1, h.fieldOffset ▸ hhead.plain.2⟩, hoffset.mp h.offset⟩
        · rintro ⟨hplain, hround⟩
          exact ⟨hname, htype, hoffset.mpr hround, hhead.plain.1.trans hplain.1.symm,
            hhead.plain.2.trans hplain.2.symm⟩
      have hstep : Member.MovedTo base m a → t₁.size = base + (m.offset + n) := by
        intro h
        rw [hsize₁, h.offset, Nat.mod_eq_of_lt (by omega)]
        omega
      have hbehind : Member.MovedTo base m a → t.size ≤ t₁.size := by
        intro h
        have hround := le_roundUp s al
        rw [hsize, hstep h, (hmoved.mp h).2]
        omega
      have htail := fun h => ih hsame (fun m' hm' => haligned m' (mem_cons_of_mem _ hm'))
        (fun m' hm' => hends m' (mem_cons_of_mem _ hm')) (hstep h) hend
      refine ⟨?_, ?_⟩
      · constructor
        · intro h
          cases h with
          | cons h hforall =>
            rcases hmoved.mp h with ⟨hplain, hround⟩
            exact .cons hplain hal hn hround ((htail h).1.mp hforall)
        · intro h
          cases h with
          | cons hplain hal' hn' hround hforall =>
            rw [hal, some.injEq] at hal'
            rw [hn, some.injEq] at hn'
            subst hal' hn'
            have h := hmoved.mpr ⟨hplain, hround⟩
            exact .cons h ((htail h).1.mpr hforall)
      · intro h
        cases h with
        | cons h hforall =>
          rcases (htail h).2 hforall with ⟨hle, hall, hreached⟩
          refine ⟨(hbehind h).trans hle, ?_, ?_⟩
          · intro m' hm' k hk
            rcases mem_cons.mp hm' with rfl | hm'
            · rw [hn, some.injEq] at hk
              subst hk
              rw [← hstep h]
              exact hle
            · exact hall m' hm' k hk
          · rcases hreached with heq | ⟨m', hm', k, hk, heq⟩
            · exact Or.inr ⟨m, mem_cons_self, n, hn, heq.trans (hstep h)⟩
            · exact Or.inr ⟨m', mem_cons_of_mem _ hm', k, hk, heq⟩

theorem readded_size_lt (happ : AppendsAll (Readded types) t added t')
    (ht : t.size < sizeModulus) : t'.size < sizeModulus := by
  induction happ with
  | nil t => exact ht
  | @cons t t₁ t' a as hhead hrest ih =>
    refine ih ?_
    rcases hhead.place with ⟨al, n, -, -, -, hoffset, hsize⟩
    have hmod : ∀ k : Nat, k % sizeModulus < sizeModulus := fun k => Nat.mod_lt k (by decide)
    have hpad := hmod (roundUp t.size al)
    rw [hsize, hoffset, padTo_eq_mod ht]
    exact max_lt hpad (hmod _)

theorem readded_of_foldlM (hstruct : t.type = .struct)
    (h : ms.foldlM (fun t m => typeAddMember types t m.name m.type) t = .ok t') :
    ∃ added, List.Forall₂ (fun m a => a.name = m.name ∧ a.type = m.type) ms added ∧
      AppendsAll (Readded types) t added t' :=
  appendsAll_of_foldlM (I := fun t => t.type = .struct) (fun t m t' ht hm => by
    rcases typeAddMember_readded ht hm with ⟨hkind, a, ha, hname, htype⟩
    exact ⟨hkind, a, ha, hname, htype⟩) hstruct h

theorem exists_of_forall₂ {α β : Type} {R : α → β → Prop} {xs : List α} {ys : List β}
    (h : List.Forall₂ R xs ys) {x : α} (hx : x ∈ xs) : ∃ y ∈ ys, R x y := by
  induction h with
  | nil => cases hx
  | cons hhead _ ih =>
    rcases mem_cons.mp hx with rfl | hx
    · exact ⟨_, mem_cons_self, hhead⟩
    · rcases ih hx with ⟨y, hy, hxy⟩
      exact ⟨y, mem_cons_of_mem _ hy, hxy⟩

theorem Readded.first_iff (base : Nat) {a m : Member} (h : Readded types t a t')
    (hname : a.name = m.name) (htype : a.type = m.type) (ht : t.size ≤ 2 ^ 63)
    (hal : typeAlignment types m.type = some al) (hn : sizeOf types m.type = some n)
    (hfits : base + (m.offset + n) < sizeModulus) :
    (Member.MovedTo base m a ↔ m.IsPlain ∧ roundUp t.size al = base + m.offset) ∧
      (Member.MovedTo base m a → t'.size = base + (m.offset + n)) := by
  rcases h.place with ⟨al', n', hal', hne, hn', hoffset, hsize⟩
  rw [htype, hal, some.injEq] at hal'
  rw [htype, hn, some.injEq] at hn'
  subst hal' hn'
  have hround : roundUp t.size al ≤ 2 ^ 63 :=
    roundUp_le (Nat.pos_of_ne_zero hne) ht (typeAlignment_dvd_pow hal hne (by decide : 4 ≤ 63))
  rw [padTo_eq_roundUp (hround.trans_lt (by decide))] at hoffset
  refine ⟨⟨?_, ?_⟩, ?_⟩
  · intro hmoved
    exact ⟨⟨hmoved.fieldWidth ▸ h.plain.1, hmoved.fieldOffset ▸ h.plain.2⟩, hoffset ▸ hmoved.offset⟩
  · rintro ⟨hplain, hplace⟩
    exact ⟨hname, htype, hoffset.trans hplace, h.plain.1.trans hplain.1.symm,
      h.plain.2.trans hplain.2.symm⟩
  · intro hmoved
    rw [hsize, hmoved.offset, Nat.mod_eq_of_lt (by omega)]
    omega

/-- A struct that is added to a struct keeps its layout exactly when it has no bit-fields and no
other gaps than padding, fits behind the members that are there, and ends with its last member. -/
theorem structInStruct_iff (hstruct : t.type = .struct) (ht : UnderConstruction types t)
    (he : SealedType types type e)
    (h : e.members.foldlM (fun t m => typeAddMember types t m.name m.type) t = .ok t') :
    (∃ base, KeepsLayout types t type e t' base) ↔
      LastByteUsed types e ∧ FitsBehind types t type e := by
  rcases readded_of_foldlM hstruct h with ⟨added, hsame, happ⟩
  rcases he.aligned with ⟨b, hb⟩
  rcases typeAlignment_aggregate hb he.kind he.entry with ⟨-, hne, halign⟩
  have hbounded : t.size ≤ 2 ^ 63 := ht.bounded.trans (by decide)
  have hlt := readded_size_lt happ (hbounded.trans_lt (by decide))
  have hnames : List.Forall₂ (fun m a => a.name = m.name) e.members added :=
    hsame.imp fun _ _ h => h.1
  have hmem := happ.members Readded.appendsNamed
  have hplacedAll := fun base => happ.forall₂ Readded.appendsNamed (P := Member.MovedTo base)
    (fun _ _ hmoved => hmoved.name) hnames he.named
  cases hmembers : e.members with
  | nil => exact absurd hmembers hne
  | cons m ms =>
    have hin : ∀ x ∈ m :: ms, x ∈ e.members := fun x hx => by rwa [hmembers]
    have hends : ∀ x ∈ m :: ms, ∀ n, sizeOf types x.type = some n → x.offset + n ≤ e.size :=
      fun x hx => he.enclosed x (hin x hx)
    rw [hmembers] at hsame
    cases hsame with
    | @cons _ a _ as hm hrestSame =>
      cases happ with
      | @cons _ t₁ _ _ _ hhead hrest =>
        rcases hhead.place with ⟨al, n, hal, -, hn, -, -⟩
        rw [hm.2] at hal hn
        have hend := hends m mem_cons_self n hn
        -- the facts about the first member and the others, for a base that leaves room
        have hfirst := fun (base : Nat) (hfits : base + e.size < sizeModulus) =>
          hhead.first_iff base hm.1 hm.2 hbounded hal hn (by omega)
        have hothers := fun (base : Nat) (hfits : base + e.size < sizeModulus) (hdvd : b ∣ base)
            (hsize : t₁.size = base + (m.offset + n)) =>
          readded_iff base hrest hrestSame (fun x hx => by
            rcases halign x (hin x (mem_cons_of_mem _ hx)) with ⟨al, hal, hd⟩
            exact ⟨al, hal, fun hne => (hd hne).trans hdvd⟩)
            (fun x hx => hends x (mem_cons_of_mem _ hx)) he.bounded hfits hsize hend
        constructor
        · rintro ⟨base, hkeeps⟩
          rcases hkeeps.aligned with ⟨b', hb', hdvd⟩
          rw [hb, some.injEq] at hb'
          subst hb'
          have hcovered := hkeeps.covered e.size he.sizeOf_eq
          have hfits : base + e.size < sizeModulus := hcovered.trans_lt hlt
          have hmovedAll := hplacedAll base hkeeps.placed
          rw [hmembers] at hmovedAll
          cases hmovedAll with
          | cons hmoved hrestMoved =>
            rcases (hfirst base hfits).1.mp hmoved with ⟨hplain, hround⟩
            have hsize := (hfirst base hfits).2 hmoved
            rcases hothers base hfits hdvd hsize with ⟨hplainAfter, hsizes⟩
            rcases hsizes hrestMoved with ⟨-, -, hreached⟩
            refine ⟨?_, m, ms, al, n, base, hmembers, hplain, hal, hn, hplainAfter.mp hrestMoved,
              hround, ⟨b, hb, hdvd⟩, hkeeps.behind hstruct, hfits⟩
            rcases hreached with heq | ⟨x, hx, k, hk, heq⟩
            · exact ⟨m, hin m mem_cons_self, n, hn, by omega⟩
            · exact ⟨x, hin x (mem_cons_of_mem _ hx), k, hk, by omega⟩
        · rintro ⟨hlast, m', ms', al', n', base, hmembers', hplain, hal', hn', hplainAfter, hround,
            ⟨b', hb', hdvd⟩, hbehind, hfits⟩
          rw [hmembers, List.cons.injEq] at hmembers'
          rcases hmembers' with ⟨rfl, rfl⟩
          rw [hal, some.injEq] at hal'
          rw [hn, some.injEq] at hn'
          rw [hb, some.injEq] at hb'
          subst hal' hn' hb'
          have hmoved := (hfirst base hfits).1.mpr ⟨hplain, hround⟩
          have hsize := (hfirst base hfits).2 hmoved
          rcases hothers base hfits hdvd hsize with ⟨hiff, hsizes⟩
          have hrestMoved := hiff.mpr hplainAfter
          rcases hsizes hrestMoved with ⟨hle, hall, -⟩
          refine ⟨base, ⟨b, hb, hdvd⟩, fun _ => hbehind, ?_, ?_, ?_⟩
          · intro hunion
            rw [hstruct] at hunion
            cases hunion
          · intro x hx
            rw [hmembers] at hx
            rcases exists_of_forall₂ (List.Forall₂.cons hmoved hrestMoved) hx with ⟨y, hy, hxy⟩
            rw [hmem]
            exact ⟨y, mem_append_right _ hy, hxy⟩
          · intro k hk
            rw [he.sizeOf_eq, some.injEq] at hk
            subst hk
            rcases hlast with ⟨x, hx, k, hk, hend'⟩
            rw [hmembers] at hx
            rcases mem_cons.mp hx with rfl | hx
            · rw [hn, some.injEq] at hk
              omega
            · have hcover := hall x hx k hk
              omega

/-- The member as an ordinary one at the start of a union. -/
def Member.restarted (m : Member) : Member := { name := m.name, type := m.type }

/-- A union that is added to a union keeps its layout exactly when its members start at its address,
are not bit-fields, and one of them or the parent covers it. -/
theorem unionInUnion_iff (hunion : t.type = .union) (he : SealedType types type e)
    (h : e.members.foldlM (fun t m => typeAddMember types t m.name m.type) t = .ok t') :
    (∃ base, KeepsLayout types t type e t' base) ↔
      (e.size ≤ t.size ∨ LastByteUsed types e) ∧ ∀ m ∈ e.members, m.offset = 0 ∧ m.IsPlain := by
  have happ := appendsAll_map_of_foldlM types (g := Member.restarted) (Or.inr hunion)
    (fun t' m ht => by simp [typeAddMember, ht, hunion, adjustMemberAlignment, Member.restarted]) h
  rcases added_size happ with ⟨hgrow, hall, hreached⟩
  have hsmall : ∀ m ∈ e.members, m.offset = 0 → ∀ n, sizeOf types m.type = some n →
      (0 + n) % sizeModulus = m.offset + n := by
    intro m hm hoffset n hn
    have hend := he.enclosed m hm n hn
    have hbounded := he.bounded
    unfold sizeModulus
    omega
  constructor
  · rintro ⟨base, hkeeps⟩
    have hbase := hkeeps.atStart hunion
    subst hbase
    have hmoved := happ.forall₂ Added.appendsNamed (P := Member.MovedTo 0)
      (fun _ _ hmoved => hmoved.name)
      (forall₂_map_right_iff.mpr (forall₂_same.mpr fun _ _ => rfl)) he.named
      hkeeps.placed
    have hplain : ∀ m ∈ e.members, m.offset = 0 ∧ m.IsPlain := by
      intro m hm
      have hm := forall₂_same.mp (forall₂_map_right_iff.mp hmoved) m hm
      have hoffset : 0 = 0 + m.offset := hm.offset
      exact ⟨by omega, hm.fieldWidth.symm, hm.fieldOffset.symm⟩
    refine ⟨?_, hplain⟩
    have hcovered := hkeeps.covered e.size he.sizeOf_eq
    rcases hreached with heq | ⟨a, ha, n, hn, heq⟩
    · exact Or.inl (by omega)
    · rcases List.mem_map.mp ha with ⟨m, hm, rfl⟩
      have hend : t'.size = m.offset + n := heq.trans (hsmall m hm (hplain m hm).1 n hn)
      exact Or.inr ⟨m, hm, n, hn, by omega⟩
  · rintro ⟨hcovered, hplain⟩
    refine ⟨0, ?_, ?_, fun _ => rfl, ?_, ?_⟩
    · rcases he.aligned with ⟨a, ha⟩
      exact ⟨a, ha, dvd_zero a⟩
    · intro hstruct
      rw [hunion] at hstruct
      cases hstruct
    · intro m hm
      rcases hplain m hm with ⟨hoffset, hwidth, hfield⟩
      refine ⟨m.restarted, ?_, rfl, rfl, ?_, hwidth.symm, hfield.symm⟩
      · rw [happ.members Added.appendsNamed]
        exact mem_append_right _ (List.mem_map_of_mem hm)
      · show 0 = 0 + m.offset
        omega
    · intro n hn
      rw [he.sizeOf_eq, some.injEq] at hn
      subst hn
      rcases hcovered with hold | ⟨m, hm, n, hn, hlast⟩
      · omega
      · rcases hall _ (List.mem_map_of_mem hm) with ⟨k, hk, hle⟩
        have hkn : k = n := some.inj (hk.symm.trans hn)
        subst hkn
        have hend := hsmall m hm (hplain m hm).1 k hn
        have hle' : (0 + k) % sizeModulus ≤ t'.size := hle
        omega

end Readded

/-! ### The whole function -/

theorem added_size_lt {added : List Member} (happ : AppendsAll (Added types) t added t')
    (ht : t.size < sizeModulus) : t'.size < sizeModulus := by
  rcases (added_size happ).2.2 with heq | ⟨a, -, n, -, heq⟩
  · rwa [heq]
  · rw [heq]
    exact Nat.mod_lt _ (by decide)

theorem unionInStruct_iff (hstruct : t.type = .struct) (ht : UnderConstruction types t)
    (he : SealedType types type e) {a : Nat} (ha : typeAlignment types type = some a)
    (h : Copied types { t with size := roundUp t.size a } e (roundUp t.size a) t') :
    (∃ base, KeepsLayout types t type e t' base) ↔
      LastByteUsed types e ∧ roundUp t.size a + e.size < sizeModulus := by
  rcases typeAlignment_aggregate ha he.kind he.entry with ⟨hpos, hne, -⟩
  have hlt := added_size_lt h.appends (h.base_le.trans_lt (by decide))
  constructor
  · rintro ⟨base, hkeeps⟩
    have hbase := h.base_eq he hkeeps.placed
    subst hbase
    have hcovered := hkeeps.covered e.size he.sizeOf_eq
    have hfits := hcovered.trans_lt hlt
    refine ⟨?_, hfits⟩
    rcases (h.covered_iff he hfits).mp hcovered with hold | hlast
    · rcases exists_mem_of_ne_nil _ hne with ⟨m, hm⟩
      rcases h.enclosed he hm with ⟨n, hn, -, -⟩
      simp only at hold
      exact ⟨m, hm, n, hn, by omega⟩
    · exact hlast
  · rintro ⟨hlast, hfits⟩
    refine ⟨_, ⟨a, ha, dvd_roundUp (Nat.pos_of_ne_zero hpos) t.size⟩, ?_, ?_, h.placed he hfits, ?_⟩
    · intro _ m hm
      exact (ht.enclosed m hm).trans (Nat.mul_le_mul_left 8 (le_roundUp t.size a))
    · intro hunion
      rw [hstruct] at hunion
      cases hunion
    · intro n hn
      rw [he.sizeOf_eq, some.injEq] at hn
      subst hn
      exact (h.covered_iff he hfits).mpr (Or.inr hlast)

theorem structInUnion_iff (hunion : t.type = .union) (he : SealedType types type e)
    (h : Copied types t e 0 t') :
    (∃ base, KeepsLayout types t type e t' base) ↔ e.size ≤ t.size ∨ LastByteUsed types e := by
  have hfits : 0 + e.size < sizeModulus := by
    have hbounded := he.bounded
    unfold sizeModulus
    omega
  have hcovers := h.covered_iff he hfits
  rw [Nat.zero_add] at hcovers
  rw [← hcovers]
  constructor
  · rintro ⟨base, hkeeps⟩
    have hbase := hkeeps.atStart hunion
    have hcovered := hkeeps.covered e.size he.sizeOf_eq
    omega
  · intro hcovered
    rcases he.aligned with ⟨a, ha⟩
    refine ⟨0, ⟨a, ha, dvd_zero a⟩, ?_, fun _ => rfl, h.placed he hfits, ?_⟩
    · intro hstruct
      rw [hunion] at hstruct
      cases hstruct
    · intro n hn
      rw [he.sizeOf_eq, some.injEq] at hn
      omega

theorem copied_unmoved (he : SealedType types type e)
    (h : AppendsAll (Added types) t (e.members.map id) t') : Copied types t e 0 t' := by
  refine ⟨?_, Nat.zero_le _⟩
  have hsame : e.members.map (Member.shifted 0) = e.members.map id := by
    refine map_congr_left fun m hm => ?_
    rcases (added_size h).2.1 m (by simpa using hm) with ⟨n, hn, -⟩
    have hend := he.enclosed m hm n hn
    have hbounded := he.bounded
    have hmod : (m.offset + 0) % sizeModulus = m.offset := by
      unfold sizeModulus
      omega
    rw [Member.shifted, hmod]
    rfl
  rwa [hsame]

/-- Flattening an anonymous struct or union keeps the layout of the type exactly when
{name}`FlattensExactly` holds of the parent and the type. -/
theorem anonymous_keepsLayout_iff (ht : UnderConstruction types t) (he : SealedType types type e)
    (h : typeAddAnonymousMember types t type = .ok t') :
    (∃ base, KeepsLayout types t type e t' base) ↔ FlattensExactly types t type e := by
  unfold typeAddAnonymousMember at h
  split at h
  · cases h
  · simp only [he.entry, orAbort, Except.bind_eq_ok_iff, Except.ok.injEq, exists_eq_left'] at h
    have hkinds : type.isUnion = true ∨ (type.isUnion = false ∧ type.isStruct = true) := by
      have hkind := he.kind
      unfold CType.isStructOrUnion at hkind
      cases hunion : type.isUnion <;> simp_all
    unfold FlattensExactly
    rcases ht.kind with hstruct | hunion
    · rcases hkinds with hinner | ⟨hinner, -⟩
      · simp only [hstruct, hinner, decide_true, Bool.and_self, if_true,
          Except.bind_eq_ok_iff] at h ⊢
        rcases h with ⟨⟨t₁, b⟩, hadjust, hloop⟩
        unfold adjustMemberAlignment at hadjust
        rw [if_pos hstruct] at hadjust
        simp only [Except.bind_eq_ok_iff, orAbort_eq_ok_iff] at hadjust
        rcases hadjust with ⟨a, ha, hadjust⟩
        split at hadjust
        · cases hadjust
        · rename_i hpos
          have hround : roundUp t.size a ≤ 2 ^ 63 :=
            roundUp_le (Nat.pos_of_ne_zero hpos) (ht.bounded.trans (by decide))
              (typeAlignment_dvd_pow ha hpos (by decide : 4 ≤ 63))
          rw [padTo_eq_roundUp (hround.trans_lt (by decide))] at hadjust
          split at hadjust
          · cases hadjust
          · cases hadjust
            have hcopied : Copied types { t with size := roundUp t.size a } e (roundUp t.size a)
                t' :=
              ⟨appendsAll_map_of_foldlM types (t := { t with size := roundUp t.size a })
                (g := Member.shifted (roundUp t.size a)) (Or.inl hstruct) (fun _ _ _ => rfl) hloop,
                hround⟩
            rw [unionInStruct_iff hstruct ht he ha hcopied]
            simp [ha]
      · have hloop : e.members.foldlM (fun t m => typeAddMember types t m.name m.type) t =
            .ok t' := by
          simpa [hstruct, hinner] using h
        rw [structInStruct_iff hstruct ht he hloop]
        simp [hstruct, hinner]
    · have hparent : t.type ≠ .struct := by
        rw [hunion]
        decide
      rw [if_neg hparent]
      rcases hkinds with hinner | ⟨hinner, hinnerStruct⟩
      · have hloop : e.members.foldlM (fun t m => typeAddMember types t m.name m.type) t =
            .ok t' := by
          have hnotStruct : type.isStruct = false := by
            unfold CType.isUnion at hinner
            unfold CType.isStruct
            simp_all
          simpa [hunion, hnotStruct] using h
        rw [unionInUnion_iff hunion he hloop]
        simp [hinner]
      · have hloop : e.members.foldlM (addMember types) t = .ok t' := by
          simpa [hunion, hinnerStruct] using h
        have hcopied := copied_unmoved he
          (appendsAll_map_of_foldlM types (Or.inr hunion) (fun _ _ _ => rfl) hloop)
        rw [structInUnion_iff hunion he hcopied]
        simp [hinner]

end Placement

/-- `struct { int x; int y; }`, sealed. -/
def pairStruct : Typetree :=
  { type := .struct, size := 8, members := [{ name := "x", type := basicTypeInt },
      { name := "y", type := basicTypeInt, offset := 4 }] }

/-- `struct { char c; ... }` under construction. -/
def charStruct : Typetree :=
  { type := .struct, size := 1, members := [{ name := "c", type := basicTypeChar }] }

/-- The pair lands at offset four of a struct that starts with a character. -/
theorem anonymous_keepsLayout_pair :
    ∃ t', typeAddAnonymousMember [pairStruct] charStruct { type := .struct, ref := 1 } = .ok t' ∧
      ∃ base, KeepsLayout [pairStruct] charStruct { type := .struct, ref := 1 } pairStruct t'
        base := by
  refine ⟨_, rfl, (anonymous_keepsLayout_iff (e := pairStruct) ⟨Or.inl rfl, ?_, ?_⟩
    ⟨rfl, rfl, ⟨4, rfl⟩, ?_, ?_, ?_⟩ rfl).mpr ?_⟩
  · decide
  · decide
  · decide
  · intro m hm n hn
    have hsize : some 4 = some n := by
      rcases mem_cons.mp hm with rfl | hm
      · exact hn
      · rw [mem_singleton.mp hm] at hn
        exact hn
    cases hsize
    revert m
    decide
  · decide
  · exact ⟨⟨_, mem_cons_of_mem _ mem_cons_self, 4, rfl, by decide⟩, _, _, 4, 4, 4, rfl,
      ⟨rfl, rfl⟩, rfl, rfl, .cons ⟨rfl, rfl⟩ rfl rfl rfl (.nil _), rfl, ⟨4, rfl, dvd_refl 4⟩,
      by decide, by decide⟩

/-- `struct { int a : 3; int b : 4; }`, sealed. -/
def fieldStruct : Typetree :=
  { type := .struct, size := 4, members :=
      [{ name := "a", type := basicTypeInt, fieldWidth := 3, fieldBacking := 32 },
        { name := "b", type := basicTypeInt, fieldWidth := 4, fieldOffset := 3,
          fieldBacking := 32 }] }

/-- The same members after flattening: two integers of full width. -/
def flattenedFields : Typetree :=
  { type := .struct, size := 8, members := [{ name := "a", type := basicTypeInt },
      { name := "b", type := basicTypeInt, offset := 4 }] }

/-- In a struct the bit-fields of an anonymous struct become ordinary members. -/
theorem not_keepsLayout_fields :
    (layoutRun [] freshStruct [.field "a" basicTypeInt 3, .field "b" basicTypeInt 4]).bind
        (typeSeal []) = .ok fieldStruct ∧
      typeAddAnonymousMember [fieldStruct] freshStruct { type := .struct, ref := 1 } =
        .ok flattenedFields ∧
      ¬ ∃ base, KeepsLayout [fieldStruct] freshStruct { type := .struct, ref := 1 } fieldStruct
        flattenedFields base := by
  refine ⟨rfl, rfl, ?_⟩
  rintro ⟨base, hkeeps⟩
  rcases hkeeps.placed _ mem_cons_self with ⟨m', hm', hmoved⟩
  have hplain : ∀ m' ∈ flattenedFields.members, m'.fieldWidth ≠ 3 := by decide
  exact hplain m' hm' hmoved.fieldWidth

end Kcs
