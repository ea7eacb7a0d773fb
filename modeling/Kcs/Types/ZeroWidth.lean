import Kcs.Types.Anonymous
import Kcs.Types.Conversion

/-!
# Fields of width zero

A field of width zero ends the unit of the fields before it: what is added next
belongs on the next boundary of the type of the zero-width field.
`reset_field_alignment` fills the unit with a padding field and rounds the size.
It adds the remainder where the complement of the remainder belongs, and it
leaves a filled unit open to wider fields.

Main results:

- Theorem {lit}`typeAddField_clear`: the end behind a field of width zero is
  {lit}`LayoutEnd.clear` of the end before it.
- Theorem {lit}`layoutStep_next`: the place of the next member in terms of that
  end.
- Theorem {lit}`layoutRun_wellLaidOut`: fields of width zero keep the layout
  invariant.
- Theorem {lit}`zeroWidth_placed_iff`: when the next member is on the boundary.
-/

namespace Kcs

open Option List

/-! ## The end of a struct under construction -/

/-- What decides where the next member goes: nothing, an ordinary member, or a
field with the offset, the bits in use and the bits of its unit. -/
inductive LastMember
  | none
  | plain
  | field (offset used backing : Nat)
deriving DecidableEq, Repr

/-- The last member and the size of a struct under construction. -/
structure LayoutEnd where
  last : LastMember
  size : Nat
deriving DecidableEq, Repr

/-- The last member, as far as it matters. -/
def LastMember.ofMember (m : Member) : LastMember :=
  if m.fieldWidth = 0 then .plain
  else .field m.offset (m.fieldOffset + m.fieldWidth) m.fieldBacking

/-- The end of a struct entry. -/
def Typetree.layoutEnd (t : Typetree) : LayoutEnd where
  last := (t.members.getLast?.map LastMember.ofMember).getD .none
  size := t.size

namespace LayoutEnd

/-- A field of {lit}`n` bytes and width {lit}`w` shares the unit of the last field
when the larger one of both units has room. -/
def shares (e : LayoutEnd) (n w : Nat) : Bool :=
  match e.last with
  | .field _ used backing => used + w ≤ max backing (8 * n)
  | _ => false

/-- First bit of a field of {lit}`n` bytes and width {lit}`w` that is added. -/
def fieldBit (e : LayoutEnd) (n w : Nat) : Nat :=
  match e.last with
  | .field offset used _ =>
    if e.shares n w then 8 * offset + used else 8 * roundUp e.size n
  | _ => 8 * roundUp e.size n

/-- The end behind a field of {lit}`n` bytes and width {lit}`w`. -/
def addField (e : LayoutEnd) (n w : Nat) : LayoutEnd :=
  match e.last with
  | .field offset used backing =>
    if e.shares n w then
      { last := .field offset (used + w) (if used + w ≤ backing then backing else 8 * n)
        size := max e.size (offset + n) }
    else { last := .field (roundUp e.size n) w (8 * n), size := roundUp e.size n + n }
  | _ => { last := .field (roundUp e.size n) w (8 * n), size := roundUp e.size n + n }

section AddField

variable {e : LayoutEnd} {offset used backing n w : Nat}

theorem fieldBit_of_shares (hlast : e.last = .field offset used backing)
    (h : e.shares n w = true) : e.fieldBit n w = 8 * offset + used := by
  simp [fieldBit, hlast, h]

theorem fieldBit_of_own (h : e.shares n w = false) : e.fieldBit n w = 8 * roundUp e.size n := by
  unfold fieldBit
  split <;> simp [h]

theorem addField_of_shares (hlast : e.last = .field offset used backing)
    (h : e.shares n w = true) :
    e.addField n w =
      { last := .field offset (used + w) (if used + w ≤ backing then backing else 8 * n)
        size := max e.size (offset + n) } := by
  simp [addField, hlast, h]

theorem addField_of_own (h : e.shares n w = false) :
    e.addField n w =
      { last := .field (roundUp e.size n) w (8 * n), size := roundUp e.size n + n } := by
  unfold addField
  split <;> simp [h]

end AddField

/-- The size after `reset_field_alignment`. -/
def clearedSize (size c : Nat) : Nat := if size < c then c else size + size % c

/-- The end with the size moved on. -/
def padded (e : LayoutEnd) (c : Nat) : LayoutEnd := { e with size := clearedSize e.size c }

/-- The end with the unit of the last field filled up to the boundary of {lit}`c`
bytes, as `reset_field_alignment` does it. -/
def filled (e : LayoutEnd) (c : Nat) : LayoutEnd :=
  match e.last with
  | .field _ used backing =>
    let rest := e.addField (backing / 8) (backing - used)
    if backing ≤ 8 * c then if used = backing then e else rest
    else if 8 * c < used then
      if used % (8 * c) = 0 then e else e.addField (backing / 8) (used % (8 * c))
    else if used = 8 * c then rest.padded (backing / 8)
    else e.addField (backing / 8) (8 * c - used)
  | _ => e

/-- The end behind a zero-width field of {lit}`c` bytes. -/
def clear (e : LayoutEnd) (c : Nat) : LayoutEnd :=
  match e.last with
  | .none => { e with size := roundUp e.size c }
  | .plain => { e with size := clearedSize (roundUp e.size c) c }
  | .field _ _ _ => (e.filled c).padded c

end LayoutEnd

variable {types : TypeTable} {t t' : Typetree} {m : Member} {type : CType} {name : String}
  {width n : Nat}

/-! ## Adding a field -/

theorem CType.intSize_cases (type : CType) :
    type.intSize = 1 ∨ type.intSize = 2 ∨ type.intSize = 4 ∨ type.intSize = 8 := by
  unfold CType.intSize
  split <;> simp

theorem typeAlignment_of_isInteger (h : type.isInteger = true) :
    typeAlignment types type = some type.intSize := by
  have hsize : sizeOf types type = some type.intSize := sizeOf_of_isInteger h
  rw [← hsize]
  unfold typeAlignment typeAlignmentAux
  rcases CType.isInteger_iff.mp h with hkind | hkind | hkind | hkind | hkind <;> simp [hkind]

theorem map_bitStart_enlargeBacking (offset backing : Nat) (ms : List Member) :
    (enlargeBacking offset backing ms).map Member.bitStart = ms.map Member.bitStart := by
  induction ms with
  | nil => rfl
  | cons m ms ih =>
    unfold enlargeBacking
    split
    · simp [ih, Member.bitStart]
    · rfl

theorem packFieldMember_shares {field : Member}
    (hshares : t.layoutEnd.shares n field.fieldWidth = true) (hn : field.fieldBacking = n * 8) :
    ∃ offset used backing t₁ m, t.layoutEnd.last = .field offset used backing ∧
      packFieldMember t field = some (t₁, m) ∧ t₁.type = t.type ∧ t₁.size = t.size ∧
      t₁.members.map Member.bitStart = t.members.map Member.bitStart ∧ m.type = field.type ∧
      m.offset = offset ∧ m.fieldOffset = used ∧ m.fieldWidth = field.fieldWidth ∧
      m.fieldBacking = if used + field.fieldWidth ≤ backing then backing else 8 * n := by
  unfold LayoutEnd.shares Typetree.layoutEnd at hshares
  unfold Typetree.layoutEnd packFieldMember
  cases hlast : t.members.getLast? with
  | none => simp [hlast] at hshares
  | some last =>
    simp only [hlast, map_some, getD_some, LastMember.ofMember] at hshares ⊢
    by_cases hplain : last.fieldWidth = 0
    · simp [hplain] at hshares
    · simp only [hplain, if_false, decide_eq_true_eq] at hshares ⊢
      refine ⟨last.offset, last.fieldOffset + last.fieldWidth, last.fieldBacking, ?_⟩
      by_cases hfits : last.fieldOffset + last.fieldWidth + field.fieldWidth ≤ last.fieldBacking
      · simp only [hfits, if_true]
        exact ⟨_, _, trivial, rfl, rfl, rfl, rfl, rfl, rfl, rfl, rfl, rfl⟩
      · have hown : last.fieldOffset + last.fieldWidth + field.fieldWidth ≤ field.fieldBacking := by
          omega
        simp only [hfits, hown, if_false, if_true]
        refine ⟨_, _, trivial, rfl, rfl, rfl, ?_, rfl, rfl, rfl, rfl, by rw [hn, Nat.mul_comm]⟩
        simp [map_reverse, map_bitStart_enlargeBacking]

theorem packFieldMember_own {field : Member}
    (hshares : t.layoutEnd.shares n field.fieldWidth = false) (hn : field.fieldBacking = n * 8) :
    packFieldMember t field = none := by
  unfold LayoutEnd.shares Typetree.layoutEnd at hshares
  unfold packFieldMember
  cases hlast : t.members.getLast? with
  | none => rfl
  | some last =>
    simp only [hlast, map_some, getD_some, LastMember.ofMember] at hshares ⊢
    by_cases hplain : last.fieldWidth = 0
    · simp [hplain]
    · simp only [hplain, if_false, decide_eq_false_iff_not] at hshares ⊢
      rw [if_neg (by omega), if_neg (by omega)]

theorem padTo_intSize (hsize : t.size < 2 ^ 63 + 2 ^ 8) (hn : n = 1 ∨ n = 2 ∨ n = 4 ∨ n = 8) :
    padTo t.size n = roundUp t.size n := by
  apply padTo_eq_roundUp
  have hlt := roundUp_lt (show 0 < n by omega) t.size
  unfold sizeModulus
  omega

theorem adjustMemberAlignment_integer {offset : Nat} (hint : type.isInteger = true)
    (hstruct : t.type = .struct) (hsize : t.size < 2 ^ 63 + 2 ^ 8)
    (h : adjustMemberAlignment types t type = .ok (t', offset)) :
    t' = { t with size := roundUp t.size type.intSize } ∧
      offset = roundUp t.size type.intSize := by
  unfold adjustMemberAlignment at h
  rw [if_pos hstruct] at h
  simp only [Except.bind_eq_ok_iff, orAbort_eq_ok_iff, typeAlignment_of_isInteger hint,
    some.injEq, exists_eq_left'] at h
  split at h
  · cases h
  · split at h
    · cases h
    · simp only [Except.ok.injEq, Prod.mk.injEq, padTo_intSize hsize type.intSize_cases] at h
      exact ⟨h.1.symm, h.2.symm⟩

/-- The unit of the last field begins within the struct. -/
def LayoutEnd.Within (e : LayoutEnd) : Prop :=
  ∀ offset used backing, e.last = .field offset used backing → offset ≤ e.size

theorem layoutEnd_of_concat {ms : List Member} (hmembers : t.members = ms ++ [m])
    (hfield : m.fieldWidth ≠ 0) :
    t.layoutEnd =
      { last := .field m.offset (m.fieldOffset + m.fieldWidth) m.fieldBacking
        size := t.size } := by
  simp [Typetree.layoutEnd, hmembers, LastMember.ofMember, hfield]

/-- The field that is placed: a unit of its own at the start of the struct. -/
def unplacedField (name : String) (type : CType) (width : Nat) : Member where
  name := name
  type := type
  fieldWidth := width
  fieldBacking := type.intSize * 8

theorem placeField_struct {placed : Option (Typetree × Member)} (hstruct : t.type = .struct)
    (h : placeField types t name type width = .ok placed) :
    type.isInteger = true ∧
      match packFieldMember t (unplacedField name type width) with
      | some packed => placed = some packed
      | none => ∃ t₁ offset, adjustMemberAlignment types t type = .ok (t₁, offset) ∧
          placed = some (t₁, { unplacedField name type width with offset := offset }) := by
  unfold placeField at h
  split at h
  · cases h
  · rename_i hkind
    have hint : type.isInteger = true := by
      by_contra hne
      simp [hne] at hkind
    refine ⟨hint, ?_⟩
    simp only [Except.bind_eq_ok_iff, orAbort_eq_ok_iff, sizeOf_of_isInteger hint,
      some.injEq, exists_eq_left'] at h
    split at h
    · cases h
    · split at h
      · cases h
      · simp only [hstruct, reduceCtorEq, false_and, if_false] at h
        split at h
        · rename_i packed hpack
          cases h
          simp only [unplacedField, hpack]
        · rename_i hpack
          simp only [unplacedField, hpack]
          rw [Except.bind_eq_ok_iff] at h
          rcases h with ⟨⟨t₁, offset⟩, hadjust, h⟩
          cases h
          exact ⟨t₁, offset, hadjust, rfl⟩

/-- A field of positive width goes where the end of the struct says. -/
theorem typeAddFieldAux_places {fuel : Nat}
    (h : typeAddFieldAux types (fuel + 1) t name type width = .ok t') (hwidth : width ≠ 0)
    (hstruct : t.type = .struct) (hsize : t.size < 2 ^ 63 + 2 ^ 8) (hwithin : t.layoutEnd.Within) :
    t'.type = .struct ∧ t'.layoutEnd = t.layoutEnd.addField type.intSize width ∧
      t'.members.map Member.bitStart =
        t.members.map Member.bitStart ++ [t.layoutEnd.fieldBit type.intSize width] := by
  unfold typeAddFieldAux at h
  simp only [Except.bind_eq_ok_iff] at h
  rcases h with ⟨placed, hplace, h⟩
  rcases placeField_struct hstruct hplace with ⟨hint, hplaced⟩
  have hn := type.intSize_cases
  have hbytes : sizeOf types type = some type.intSize := sizeOf_of_isInteger hint
  cases hshares : t.layoutEnd.shares type.intSize width with
  | true =>
    rcases packFieldMember_shares (show t.layoutEnd.shares type.intSize
        (unplacedField name type width).fieldWidth = true from hshares) rfl with
      ⟨offset, used, backing, t₁, m, hlast, hpack, htype₁, hsize₁, hstarts, htype, hoffset, hused,
        hwidth', hbacking⟩
    have hle := hwithin offset used backing hlast
    simp only [hpack] at hplaced
    subst hplaced
    simp only [hwidth, if_false] at h
    have hadded := addMember_added h (Or.inl (htype₁.trans hstruct))
    rcases hadded.size with ⟨k, hk, hsize'⟩
    rw [htype] at hk
    have hk' : k = type.intSize := some.inj (hk.symm.trans hbytes)
    subst hk'
    simp only [unplacedField] at hwidth' hbacking
    have hfield : m.fieldWidth ≠ 0 := by rwa [hwidth']
    have hmod : (m.offset + type.intSize) % sizeModulus = offset + type.intSize := by
      rw [hoffset]
      apply Nat.mod_eq_of_lt
      simp only [Typetree.layoutEnd] at hle
      unfold sizeModulus
      omega
    refine ⟨(hadded.kind.trans htype₁).trans hstruct, ?_, ?_⟩
    · rw [layoutEnd_of_concat hadded.members hfield, hsize', hmod, hsize₁, hoffset, hused, hwidth',
        hbacking]
      exact (LayoutEnd.addField_of_shares hlast hshares).symm
    · rw [hadded.members, map_append, hstarts, LayoutEnd.fieldBit_of_shares hlast hshares]
      simp [Member.bitStart, hoffset, hused]
  | false =>
    rw [packFieldMember_own (show t.layoutEnd.shares type.intSize
      (unplacedField name type width).fieldWidth = false from hshares) rfl] at hplaced
    rcases hplaced with ⟨t₁, offset, hadjust, rfl⟩
    rcases adjustMemberAlignment_integer hint hstruct hsize hadjust with ⟨rfl, rfl⟩
    simp only [hwidth, if_false] at h
    have hadded := addMember_added h (Or.inl hstruct)
    rcases hadded.size with ⟨k, hk, hsize'⟩
    have hk' : k = type.intSize := some.inj (hk.symm.trans hbytes)
    subst hk'
    have hlt := roundUp_lt (show 0 < type.intSize by omega) t.size
    have hmod : (roundUp t.size type.intSize + type.intSize) % sizeModulus =
        roundUp t.size type.intSize + type.intSize := by
      apply Nat.mod_eq_of_lt
      unfold sizeModulus
      omega
    refine ⟨hadded.kind.trans hstruct, ?_, ?_⟩
    · rw [layoutEnd_of_concat hadded.members hwidth, hsize', LayoutEnd.addField_of_own hshares]
      simp [unplacedField, hmod, Nat.mul_comm, Typetree.layoutEnd]
    · rw [hadded.members, map_append, LayoutEnd.fieldBit_of_own hshares]
      simp [unplacedField, Member.bitStart, Typetree.layoutEnd]

/-! ## Adding a field of width zero -/

theorem padSize_eq {c : Nat} (hsize : t.size < 2 ^ 63 + 2 ^ 8) (hc : 0 < c ∧ c ≤ 8) :
    padSize t c = { t with size := LayoutEnd.clearedSize t.size c } := by
  have hmod := Nat.mod_lt t.size hc.1
  have hlt : (t.size + t.size % c) % sizeModulus = t.size + t.size % c := by
    apply Nat.mod_eq_of_lt
    unfold sizeModulus
    omega
  unfold padSize LayoutEnd.clearedSize
  split
  · rfl
  · split
    · rw [hlt]
    · rename_i hzero
      simp only [not_not] at hzero
      simp [hzero]

theorem backingTypeFromBits_intSize {bits : Nat} (h : backingTypeFromBits bits = .ok type) :
    type.intSize = bits / 8 ∧ bits = 8 * (bits / 8) ∧ 0 < bits / 8 ∧ bits / 8 ≤ 8 := by
  unfold backingTypeFromBits at h
  split at h <;> cases h <;> decide

theorem size_addField_lt {e : LayoutEnd} {w : Nat} (hwithin : e.Within) (hn : 0 < n) (h8 : n ≤ 8) :
    (e.addField n w).size < e.size + 16 := by
  have hlt := roundUp_lt hn e.size
  cases hshares : e.shares n w with
  | false =>
    rw [LayoutEnd.addField_of_own hshares]
    simp only
    omega
  | true =>
    unfold LayoutEnd.shares at hshares
    split at hshares
    · rename_i offset used backing hlast
      have hle := hwithin _ _ _ hlast
      rw [LayoutEnd.addField_of_shares hlast (by simpa [LayoutEnd.shares, hlast] using hshares)]
      simp only [Nat.max_lt]
      omega
    · cases hshares

/-- The members stay where they are. -/
def KeepsPlaces (t t' : Typetree) : Prop :=
  t.members.map Member.bitStart <+: t'.members.map Member.bitStart

/-- What filling up the unit of the last field has done. -/
structure FilledTo (t t' : Typetree) (e : LayoutEnd) : Prop where
  isStruct : t'.type = .struct
  ends : t'.layoutEnd = e
  keeps : KeepsPlaces t t'
  below : t'.size < t.size + 40

section Filled

variable {offset used backing c fuel : Nat} {clear : CType}

theorem FilledTo.refl (hstruct : t.type = .struct) : FilledTo t t t.layoutEnd :=
  ⟨hstruct, rfl, prefix_rfl, by omega⟩

theorem FilledTo.of_field (hstruct : t.type = .struct) (hsize : t.size ≤ longlongMax)
    (hwithin : t.layoutEnd.Within) (hwidth : width ≠ 0)
    (htype : backingTypeFromBits backing = .ok type)
    (h : typeAddFieldAux types (fuel + 1) t "" type width = .ok t') :
    FilledTo t t' (t.layoutEnd.addField (backing / 8) width) := by
  unfold longlongMax at hsize
  rcases backingTypeFromBits_intSize htype with ⟨hn, -, hpos, hle⟩
  rcases typeAddFieldAux_places h hwidth hstruct (by omega) hwithin with ⟨hstruct', hend, hstarts⟩
  rw [hn] at hend
  refine ⟨hstruct', hend, ?_, ?_⟩
  · rw [KeepsPlaces, hstarts]
    exact prefix_append _ _
  · have hlt := size_addField_lt (w := width) hwithin hpos hle
    have hsize' : t'.size = (t.layoutEnd.addField (backing / 8) width).size := by
      rw [← hend]
      rfl
    have hsame : t.layoutEnd.size = t.size := rfl
    omega

theorem FilledTo.padSize {e : LayoutEnd} (h : FilledTo t t' e) (hsize : t.size ≤ longlongMax)
    (hc : 0 < c ∧ c ≤ 8) :
    (Kcs.padSize t' c).type = .struct ∧ (Kcs.padSize t' c).layoutEnd = e.padded c ∧
      KeepsPlaces t (Kcs.padSize t' c) ∧ (Kcs.padSize t' c).size < t'.size + 16 := by
  have hbelow := h.below
  have hmod := Nat.mod_lt t'.size hc.1
  unfold longlongMax at hsize
  rw [padSize_eq (by omega) hc]
  refine ⟨h.isStruct, ?_, h.keeps, ?_⟩
  · rw [← h.ends]
    rfl
  · simp only [LayoutEnd.clearedSize]
    split <;> omega

theorem typeAddFieldAux_zero (hstruct : t.type = .struct)
    (hlast : t.layoutEnd.last = .field offset used backing) (hle : used ≤ backing)
    (h : typeAddFieldAux types (fuel + 1) t "" type 0 = .ok t') :
    type.isInteger = true ∧
      resetFieldAlignment types (fun t type width => typeAddFieldAux types fuel t "" type width) t
        type = .ok t' := by
  unfold typeAddFieldAux at h
  simp only [Except.bind_eq_ok_iff] at h
  rcases h with ⟨placed, hplace, h⟩
  rcases placeField_struct hstruct hplace with ⟨hint, hplaced⟩
  refine ⟨hint, ?_⟩
  have hpack : ∃ m, packFieldMember t (unplacedField "" type 0) = some (t, m) := by
    unfold Typetree.layoutEnd LastMember.ofMember at hlast
    unfold packFieldMember
    cases hmember : t.members.getLast? with
    | none => simp [hmember] at hlast
    | some last =>
      simp only [hmember, map_some, getD_some] at hlast
      split at hlast
      · cases hlast
      · rename_i hfield
        simp only [LastMember.field.injEq] at hlast
        have hfits : last.fieldOffset + last.fieldWidth ≤ last.fieldBacking := by omega
        simp only [hfield, hfits, if_false, if_true, unplacedField, Nat.add_zero]
        exact ⟨_, rfl⟩
  rcases hpack with ⟨m, hpack⟩
  simp only [hpack] at hplaced
  subst hplaced
  simpa using h

theorem getLast_of_layoutEnd (hlast : t.layoutEnd.last = .field offset used backing) :
    ∃ m, t.members.getLast? = some m ∧ m.fieldWidth ≠ 0 ∧ m.offset = offset ∧
      m.fieldOffset + m.fieldWidth = used ∧ m.fieldBacking = backing := by
  unfold Typetree.layoutEnd LastMember.ofMember at hlast
  cases hmember : t.members.getLast? with
  | none => simp [hmember] at hlast
  | some m =>
    simp only [hmember, map_some, getD_some] at hlast
    split at hlast
    · cases hlast
    · rename_i hfield
      simp only [LastMember.field.injEq] at hlast
      exact ⟨m, rfl, hfield, hlast.1, hlast.2.1, hlast.2.2⟩

theorem resetFieldAlignment_field
    {addField : Typetree → CType → Nat → Except LayoutError Typetree}
    (hint : clear.isInteger = true) (hlast : t.layoutEnd.last = .field offset used backing)
    (hle : used ≤ backing) (h : resetFieldAlignment types addField t clear = .ok t') :
    ∃ type t₁, backingTypeFromBits backing = .ok type ∧ t' = padSize t₁ clear.intSize ∧
      if backing ≤ 8 * clear.intSize then
        if used = backing then t₁ = t else addField t type (backing - used) = .ok t₁
      else if 8 * clear.intSize < used then
        if used % (8 * clear.intSize) = 0 then t₁ = t
        else addField t type (used % (8 * clear.intSize)) = .ok t₁
      else addField t type (8 * clear.intSize - used) = .ok t₁ := by
  rcases getLast_of_layoutEnd hlast with ⟨m, hmember, hfield, -, hused, hbacking⟩
  simp only [resetFieldAlignment, hmember, sizeOf_of_isInteger hint, Except.bind_eq_ok_iff,
    orAbort_eq_ok_iff, some.injEq, exists_eq_left', padLastField, hfield, if_false, hused,
    hbacking, Nat.mul_comm clear.intSize 8] at h
  rcases h with ⟨t₁, ⟨type, htype, hpad⟩, h⟩
  refine ⟨type, t₁, htype, (Except.ok.inj h).symm, ?_⟩
  by_cases hwide : backing ≤ 8 * clear.intSize
  · simp only [ge_iff_le, hwide, if_true, Nat.not_lt.mpr hle, gt_iff_lt, if_false] at hpad ⊢
    split at hpad
    · rename_i hne
      rwa [if_neg hne]
    · rename_i heq
      rw [if_pos (not_not.mp heq)]
      exact (Except.ok.inj hpad).symm
  · simp only [ge_iff_le, hwide, if_false, gt_iff_lt] at hpad ⊢
    split at hpad
    · rename_i hlt
      rw [if_pos hlt]
      split at hpad
      · rename_i hne
        rwa [if_neg hne]
      · rename_i hzero
        rw [if_pos (not_not.mp hzero)]
        exact (Except.ok.inj hpad).symm
    · rename_i hlt
      rwa [if_neg hlt]

section

variable (hstruct : t.type = .struct) (hsize : t.size ≤ longlongMax)
include hstruct hsize

theorem resetFieldAlignment_rest (hwithin : t.layoutEnd.Within) (hint : clear.isInteger = true)
    (hlast : t.layoutEnd.last = .field offset used backing) (hlt : used < backing)
    (hwide : backing ≤ 8 * clear.intSize)
    (h : resetFieldAlignment types
      (fun t type width => typeAddFieldAux types (fuel + 1) t "" type width) t clear = .ok t') :
    FilledTo t t'
      ((t.layoutEnd.addField (backing / 8) (backing - used)).padded clear.intSize) := by
  rcases resetFieldAlignment_field hint hlast hlt.le h with ⟨type, t₁, htype, rfl, hadd⟩
  rw [if_pos hwide, if_neg hlt.ne] at hadd
  have hfilled := FilledTo.of_field hstruct hsize hwithin (by omega) htype hadd
  have hc : 0 < clear.intSize ∧ clear.intSize ≤ 8 := by
    have := clear.intSize_cases
    omega
  rcases hfilled.padSize hsize hc with ⟨hstruct', hend, hkeeps, hbelow⟩
  refine ⟨hstruct', hend, hkeeps, ?_⟩
  rcases backingTypeFromBits_intSize htype with ⟨-, -, hpos, hle⟩
  have hsize₁ : t₁.size < t.size + 16 := by
    have hlt : (t.layoutEnd.addField (backing / 8) (backing - used)).size < t.layoutEnd.size + 16 :=
      size_addField_lt hwithin hpos hle
    rwa [← hfilled.ends] at hlt
  omega

/-- A field of width zero behind a field fills up the unit and moves the size on. -/
theorem typeAddField_clear_field (hwithin : t.layoutEnd.Within) (hlast : t.layoutEnd.last = .field offset used backing)
    (hle : used ≤ backing) (h : typeAddField types t "" clear 0 = .ok t') :
    t'.type = .struct ∧ t'.layoutEnd = t.layoutEnd.clear clear.intSize ∧ KeepsPlaces t t' ∧
      t'.size < t.size + 64 := by
  rcases typeAddFieldAux_zero hstruct hlast hle h with ⟨hint, hreset⟩
  rcases resetFieldAlignment_field hint hlast hle hreset with ⟨type, t₁, htype, rfl, hadd⟩
  rcases backingTypeFromBits_intSize htype with ⟨hn, hbits, -, -⟩
  have hc : 0 < clear.intSize ∧ clear.intSize ≤ 8 := by
    have := clear.intSize_cases
    omega
  have hfilled : FilledTo t t₁ (t.layoutEnd.filled clear.intSize) := by
    simp only [LayoutEnd.filled, hlast]
    split at hadd
    · rename_i hwide
      rw [if_pos hwide]
      split at hadd
      · rename_i hfull
        rw [if_pos hfull, hadd]
        exact FilledTo.refl hstruct
      · rename_i hfull
        rw [if_neg hfull]
        exact FilledTo.of_field hstruct hsize hwithin (by omega) htype hadd
    · rename_i hwide
      rw [if_neg hwide]
      split at hadd
      · rename_i hover
        rw [if_pos hover]
        split at hadd
        · rename_i hzero
          rw [if_pos hzero, hadd]
          exact FilledTo.refl hstruct
        · rename_i hzero
          rw [if_neg hzero]
          exact FilledTo.of_field hstruct hsize hwithin hzero htype hadd
      · rename_i hover
        rw [if_neg hover]
        split
        · -- The padding field has width zero, so that the rest of the unit is filled up.
          rename_i heq
          rw [heq, Nat.sub_self] at hadd
          rcases typeAddFieldAux_zero hstruct hlast hle hadd with ⟨hint', hreset'⟩
          have hrest := resetFieldAlignment_rest hstruct hsize hwithin hint' hlast (by omega)
            (by omega) hreset'
          rwa [hn] at hrest
        · exact FilledTo.of_field hstruct hsize hwithin (by omega) htype hadd
  rcases hfilled.padSize hsize hc with ⟨hstruct', hend, hkeeps, hbelow⟩
  have hfilledBelow := hfilled.below
  exact ⟨hstruct', by rw [hend, LayoutEnd.clear, hlast], hkeeps, by omega⟩

theorem typeAddField_clear_resize (hlast : t.layoutEnd.last = .none ∨ t.layoutEnd.last = .plain)
    (h : typeAddField types t "" clear 0 = .ok t') :
    0 < clear.intSize ∧ t' = { t with size := (t.layoutEnd.clear clear.intSize).size } := by
  unfold typeAddField typeAddFieldAux at h
  simp only [Except.bind_eq_ok_iff] at h
  rcases h with ⟨placed, hplace, h⟩
  rcases placeField_struct hstruct hplace with ⟨hint, hplaced⟩
  have hown : t.layoutEnd.shares clear.intSize (unplacedField "" clear 0).fieldWidth = false := by
    unfold LayoutEnd.shares
    rcases hlast with hlast | hlast <;> rw [hlast]
  rw [packFieldMember_own hown rfl] at hplaced
  rcases hplaced with ⟨t₁, offset, hadjust, rfl⟩
  unfold longlongMax at hsize
  rcases adjustMemberAlignment_integer hint hstruct (by omega) hadjust with ⟨rfl, rfl⟩
  have hc : 0 < clear.intSize ∧ clear.intSize ≤ 8 := by
    have := clear.intSize_cases
    omega
  refine ⟨hc.1, ?_⟩
  simp only [if_true, resetFieldAlignment] at h
  have hlt := roundUp_lt hc.1 t.size
  unfold Typetree.layoutEnd LayoutEnd.clear at *
  cases hmember : t.members.getLast? with
  | none =>
    simp only [hmember, Except.ok.injEq] at h
    rw [← h]
    rfl
  | some m =>
    simp only [hmember, sizeOf_of_isInteger hint, Except.bind_eq_ok_iff, orAbort_eq_ok_iff,
      some.injEq, exists_eq_left', padLastField] at h
    simp only [hmember, map_some, getD_some, LastMember.ofMember] at hlast ⊢
    by_cases hplain : m.fieldWidth = 0
    · simp only [hplain, if_true, Except.ok.injEq, exists_eq_left'] at h
      rw [padSize_eq (by simp only; omega) hc] at h
      rw [← h, if_pos hplain]
    · simp [hplain] at hlast

theorem typeAddField_clear_plain (hlast : t.layoutEnd.last = .none ∨ t.layoutEnd.last = .plain)
    (h : typeAddField types t "" clear 0 = .ok t') :
    t'.type = .struct ∧ t'.layoutEnd = t.layoutEnd.clear clear.intSize ∧ KeepsPlaces t t' ∧
      t'.size < t.size + 64 := by
  rcases typeAddField_clear_resize hstruct hsize hlast h with ⟨hpos, rfl⟩
  have h8 := clear.intSize_cases
  have hlt := roundUp_lt hpos t.size
  have hsame : t.layoutEnd.size = t.size := rfl
  have hend : ({ t with size := (t.layoutEnd.clear clear.intSize).size } : Typetree).layoutEnd =
      { t.layoutEnd with size := (t.layoutEnd.clear clear.intSize).size } := rfl
  refine ⟨hstruct, ?_, prefix_rfl, ?_⟩
  · rw [hend]
    rcases hlast with hlast | hlast <;> simp [LayoutEnd.clear, hlast]
  · rcases hlast with hlast | hlast
    · simp only [LayoutEnd.clear, hlast, hsame]
      omega
    · have hmod := Nat.mod_lt (roundUp t.size clear.intSize) hpos
      simp only [LayoutEnd.clear, hlast, hsame, LayoutEnd.clearedSize]
      split <;> omega

end

end Filled

/-! ## The next member -/

/-- The type of what is added. -/
def LayoutOp.addedType : LayoutOp → CType
  | .member _ type => type
  | .field _ type _ => type

/-- First bit of what is added at the given alignment. -/
def LayoutEnd.nextBit (e : LayoutEnd) (op : LayoutOp) (a : Nat) : Nat :=
  match op with
  | .member _ _ => 8 * roundUp e.size a
  | .field _ _ width => e.fieldBit a width

/-- The end of a struct lies behind the unit of its last field. -/
def LayoutEnd.Fits (e : LayoutEnd) : Prop :=
  ∀ offset used backing, e.last = .field offset used backing →
    used ≤ backing ∧ 8 * offset + backing ≤ 8 * e.size

theorem LayoutEnd.Fits.within {e : LayoutEnd} (h : e.Fits) : e.Within := by
  intro offset used backing hlast
  have hfits := h offset used backing hlast
  omega

theorem Typetree.WellLaidOut.fits (h : t.WellLaidOut types) : t.layoutEnd.Fits := by
  intro offset used backing hlast
  rcases getLast_of_layoutEnd hlast with ⟨m, hmember, hfield, rfl, rfl, rfl⟩
  exact h.layout.field_unit m (mem_of_getLast? hmember) hfield

section Within

variable {e : LayoutEnd} {w c : Nat}

theorem LayoutEnd.Within.addField (h : e.Within) : (e.addField n w).Within := by
  cases hshares : e.shares n w with
  | false =>
    rw [LayoutEnd.addField_of_own hshares]
    intro offset used backing hlast
    simp only [LastMember.field.injEq] at hlast
    simp only
    omega
  | true =>
    have hfield : ∃ offset used backing, e.last = .field offset used backing := by
      unfold LayoutEnd.shares at hshares
      split at hshares
      · rename_i offset used backing hlast
        exact ⟨_, _, _, hlast⟩
      · cases hshares
    rcases hfield with ⟨offset, used, backing, hlast⟩
    rw [LayoutEnd.addField_of_shares hlast hshares]
    intro offset' used' backing' hlast'
    have hle := h _ _ _ hlast
    simp only [LastMember.field.injEq] at hlast'
    simp only [le_max_iff]
    omega

theorem LayoutEnd.Within.padded (h : e.Within) : (e.padded c).Within := by
  intro offset used backing hlast
  have hle := h offset used backing hlast
  unfold LayoutEnd.padded LayoutEnd.clearedSize
  simp only
  split <;> omega

theorem LayoutEnd.Within.clear (h : e.Within) : (e.clear c).Within := by
  unfold LayoutEnd.clear
  split
  · rename_i hlast
    intro offset used backing hlast'
    simp only at hlast'
    rw [hlast] at hlast'
    cases hlast'
  · rename_i hlast
    intro offset used backing hlast'
    simp only at hlast'
    rw [hlast] at hlast'
    cases hlast'
  · apply LayoutEnd.Within.padded
    unfold LayoutEnd.filled
    split
    · split
      · split
        · exact h
        · exact h.addField
      · split
        · split
          · exact h
          · exact h.addField
        · split
          · exact h.addField.padded
          · exact h.addField
    · exact h

end Within

/-- The member that is added behind a struct of the given end. -/
theorem layoutStep_next {op : LayoutOp} {a : Nat} (hstep : layoutStep types t op = .ok t')
    (hop : op.widthPositive = true) (ha : typeAlignment types op.addedType = some a)
    (hstruct : t.type = .struct) (hsize : t.size < 2 ^ 63 + 2 ^ 8) (hwithin : t.layoutEnd.Within) :
    t'.members.map Member.bitStart =
      t.members.map Member.bitStart ++ [t.layoutEnd.nextBit op a] := by
  cases op with
  | member name type =>
    simp only [layoutStep, LayoutOp.addedType] at hstep ha
    rcases typeAddMember_readded hstruct hstep with ⟨-, m, hreadded, -, rfl⟩
    rcases hreadded.place with ⟨a', n, ha', hpos, -, hoffset, -⟩
    rw [ha, some.injEq] at ha'
    subst ha'
    have hlt := roundUp_lt (Nat.pos_of_ne_zero hpos) t.size
    have hle : a ≤ 16 := typeAlignmentAux_le ha
    rw [padTo_eq_roundUp (by unfold sizeModulus; omega)] at hoffset
    rw [hreadded.named.1, map_append]
    simp [Member.bitStart, hreadded.plain.2, hoffset, LayoutEnd.nextBit, Typetree.layoutEnd]
  | field name type width =>
    simp only [layoutStep, LayoutOp.widthPositive, decide_eq_true_eq] at hstep hop
    have hint : type.isInteger = true := by
      unfold typeAddField typeAddFieldAux at hstep
      simp only [Except.bind_eq_ok_iff] at hstep
      rcases hstep with ⟨placed, hplace, -⟩
      exact (placeField_struct hstruct hplace).1
    simp only [LayoutOp.addedType, typeAlignment_of_isInteger hint, some.injEq] at ha
    subst ha
    exact (typeAddFieldAux_places hstep (by omega) hstruct hsize hwithin).2.2

/-- A field of width zero. -/
theorem typeAddField_clear {clear : CType} (hinv : t.WellLaidOut types)
    (hsize : t.size ≤ longlongMax) (hclear : typeAddField types t "" clear 0 = .ok t') :
    t'.type = .struct ∧ t'.layoutEnd = t.layoutEnd.clear clear.intSize ∧ KeepsPlaces t t' ∧
      t'.size < t.size + 64 := by
  have hfits := hinv.fits
  cases hlast : t.layoutEnd.last with
  | none => exact typeAddField_clear_plain hinv.isStruct hsize (Or.inl hlast) hclear
  | plain => exact typeAddField_clear_plain hinv.isStruct hsize (Or.inr hlast) hclear
  | field offset used backing =>
    exact typeAddField_clear_field hinv.isStruct hsize hfits.within hlast
      (hfits _ _ _ hlast).1 hclear

theorem typeAddField_clear_next {t₁ : Typetree} {clear : CType} {op : LayoutOp} {a : Nat}
    (hinv : t.WellLaidOut types) (hsize : t.size ≤ longlongMax)
    (hclear : typeAddField types t "" clear 0 = .ok t₁) (hstep : layoutStep types t₁ op = .ok t')
    (hop : op.widthPositive = true) (ha : typeAlignment types op.addedType = some a) :
    KeepsPlaces t t' ∧ (t'.members.map Member.bitStart).getLast? =
      some ((t.layoutEnd.clear clear.intSize).nextBit op a) := by
  rcases typeAddField_clear hinv hsize hclear with ⟨hstruct, hend, hkeeps, hbelow⟩
  unfold longlongMax at hsize
  have hwithin : t₁.layoutEnd.Within := by
    rw [hend]
    exact hinv.fits.within.clear
  have hstarts := layoutStep_next hstep hop ha hstruct (by omega) hwithin
  rw [hend] at hstarts
  refine ⟨hkeeps.trans ?_, ?_⟩
  · rw [hstarts]
    exact prefix_append _ _
  · rw [hstarts, getLast?_concat]

/-! ## Boundaries -/

/-- First bit behind the last member. -/
def Typetree.endBit (types : TypeTable) (t : Typetree) : Nat :=
  (t.members.getLast?.map (Member.bitEnd types)).getD 0

/-- A place on a boundary, or at the next one of the type of what is added.  A field may stay on
the boundary itself. -/
def OnBoundary (op : LayoutOp) (a boundary bit : Nat) : Prop :=
  bit = roundUp boundary (8 * a) ∨
    match op with
    | .member _ _ => False
    | .field _ _ _ => bit = boundary

/-- The member that is added last is on the first boundary of {lit}`c` bytes behind the members
that were there before, and these stay where they are. -/
def PlacedOnBoundary (types : TypeTable) (t t' : Typetree) (c : Nat) (op : LayoutOp) (a : Nat) :
    Prop :=
  KeepsPlaces t t' ∧ ∃ bit, (t'.members.map Member.bitStart).getLast? = some bit ∧
    OnBoundary op a (roundUp (t.endBit types) (8 * c)) bit

/-- Bits in use once the last unit has been filled up: the whole unit when the boundary is not
narrower or has just been reached, otherwise up to the first boundary, and behind that by as many
bits as are in use behind the last boundary. -/
def filledBits (used backing c : Nat) : Nat :=
  if backing ≤ 8 * c ∨ used = 8 * c then backing
  else if 8 * c < used then used + used % (8 * c)
  else 8 * c

/-- What is added is a field that has room in a unit. -/
def LayoutOp.fitsBehind (op : LayoutOp) (used backing a : Nat) : Bool :=
  match op with
  | .member _ _ => false
  | .field _ _ width => used + width ≤ max backing (8 * a)

/-- When a field of width zero and {lit}`c` bytes puts the next member on the boundary
{lit}`q`.

Behind an ordinary member the rounded size must be that boundary.  Behind a field the filled part
of the unit must end on it when a field follows that has room in the unit, and otherwise the size,
to which the remainder is added instead of its complement.  A padding field that does not fit
opens a unit that no field may share. -/
def ClearsRight (e : LayoutEnd) (q c : Nat) (op : LayoutOp) (a : Nat) : Prop :=
  match e.last with
  | .none => e.size = 0
  | .plain => 8 * roundUp (max c (roundUp e.size c)) a = roundUp q (8 * a)
  | .field offset used backing =>
    let filled := filledBits used backing c
    if filled ≤ backing then
      if op.fitsBehind filled backing a then
        (8 * c ∣ 8 * offset + filled ∧ filled < used + 8 * c) ∨
          8 * offset + filled = roundUp q (8 * a)
      else
        let size :=
          if used = 8 * c ∧ 8 * c < backing then LayoutEnd.clearedSize e.size (backing / 8)
          else e.size
        8 * roundUp (LayoutEnd.clearedSize size c) a = roundUp q (8 * a)
    else
      op.fitsBehind (used % (8 * c)) backing a = false ∧
        8 * roundUp (roundUp e.size (backing / 8) + backing / 8) a = roundUp q (8 * a)

section Boundaries

variable {op : LayoutOp} {a b c q : Nat} {e : LayoutEnd} {offset used backing : Nat}

theorem onBoundary_behind (ha : 0 < a) {s : Nat} :
    OnBoundary op a q (8 * roundUp s a) ↔ 8 * roundUp s a = roundUp q (8 * a) := by
  constructor
  · rintro (h | h)
    · exact h
    · cases op with
      | member name type => cases h
      | field name type width =>
        simp only at h
        rw [← h, roundUp_of_dvd (Nat.mul_dvd_mul_left 8 (dvd_roundUp ha s))]
  · exact Or.inl

theorem onBoundary_shared {name : String} {type : CType} {width : Nat} (hb : 0 < b) {p s : Nat}
    (hs : s ≤ p) :
    OnBoundary (.field name type width) a (roundUp s b) p ↔
      (b ∣ p ∧ p < s + b) ∨ p = roundUp (roundUp s b) (8 * a) := by
  have hlt := roundUp_lt hb s
  constructor
  · rintro (h | h)
    · exact Or.inr h
    · simp only at h
      rw [h]
      exact Or.inl ⟨dvd_roundUp hb s, hlt⟩
  · rintro (⟨hdvd, hp⟩ | h)
    · exact Or.inr (roundUp_eq hb hs hp hdvd).symm
    · exact Or.inl h

theorem dvd_roundUp_pow {i j : Nat} (hq : 8 * 2 ^ i ∣ q) : 8 * 2 ^ i ∣ roundUp q (8 * 2 ^ j) := by
  have hpos : 0 < 8 * 2 ^ j := by positivity
  rcases le_total i j with hle | hle
  · exact (Nat.mul_dvd_mul_left 8 (pow_dvd_pow 2 hle)).trans (dvd_roundUp hpos q)
  · rwa [roundUp_of_dvd ((Nat.mul_dvd_mul_left 8 (pow_dvd_pow 2 hle)).trans hq)]

theorem intSize_pow (h : n = 1 ∨ n = 2 ∨ n = 4 ∨ n = 8) : ∃ i, n = 2 ^ i := by
  rcases h with rfl | rfl | rfl | rfl
  · exact ⟨0, rfl⟩
  · exact ⟨1, rfl⟩
  · exact ⟨2, rfl⟩
  · exact ⟨3, rfl⟩

theorem addField_within {w : Nat} (hlast : e.last = .field offset used backing) (hfits : e.Fits)
    (hbits : backing = 8 * (backing / 8)) (hw : used + w ≤ backing) :
    e.addField (backing / 8) w = { last := .field offset (used + w) backing, size := e.size } := by
  have hshares : e.shares (backing / 8) w = true := by
    simp [LayoutEnd.shares, hlast, hw]
  have hsize := (hfits _ _ _ hlast).2
  rw [LayoutEnd.addField_of_shares hlast hshares, if_pos hw, max_eq_left (by omega)]

theorem filled_of_fits (hlast : e.last = .field offset used backing) (hfits : e.Fits)
    (hbits : backing = 8 * (backing / 8)) (hfilled : filledBits used backing c ≤ backing) :
    e.filled c =
      { last := .field offset (filledBits used backing c) backing
        size := if used = 8 * c ∧ 8 * c < backing then LayoutEnd.clearedSize e.size (backing / 8)
          else e.size } := by
  have hle := (hfits _ _ _ hlast).1
  have hself : e = { last := .field offset used backing, size := e.size } := by rw [← hlast]
  have hadd : ∀ w, used + w ≤ backing → e.addField (backing / 8) w =
      { last := .field offset (used + w) backing, size := e.size } :=
    fun w hw => addField_within hlast hfits hbits hw
  have hrest : e.addField (backing / 8) (backing - used) =
      { last := .field offset backing backing, size := e.size } := by
    rw [hadd _ (by omega), Nat.add_sub_cancel' hle]
  simp only [LayoutEnd.filled, hlast, hrest]
  unfold filledBits at hfilled ⊢
  by_cases hwide : backing ≤ 8 * c
  · have hno : ¬ (used = 8 * c ∧ 8 * c < backing) := by omega
    simp only [hwide, hno, true_or, if_true, if_false]
    by_cases hfull : used = backing
    · rw [if_pos hfull, ← hfull]
      exact hfull ▸ hself
    · rw [if_neg hfull]
  · simp only [hwide, false_or, if_false] at hfilled ⊢
    by_cases hover : 8 * c < used
    · have hne : used ≠ 8 * c := by omega
      simp only [hne, hover, false_and, if_true, if_false] at hfilled ⊢
      by_cases hzero : used % (8 * c) = 0
      · rw [if_pos hzero, hzero, Nat.add_zero]
        exact hself
      · rw [if_neg hzero, hadd _ hfilled]
    · by_cases heq : used = 8 * c
      · have hlt : 8 * c < backing := by omega
        simp only [heq, hlt, lt_irrefl, and_self, if_true, if_false]
        rfl
      · simp only [heq, hover, false_and, if_false]
        rw [hadd _ (by omega), Nat.add_sub_cancel' (by omega)]

theorem clear_of_overflow (hlast : e.last = .field offset used backing) (hfits : e.Fits)
    (hbits : backing = 8 * (backing / 8)) (hpos : 0 < backing / 8)
    (hdvd : 8 * c < backing → c ∣ backing / 8) (hfilled : backing < filledBits used backing c) :
    8 * c < backing ∧ used % (8 * c) ≠ 0 ∧
      e.clear c =
        { last := .field (roundUp e.size (backing / 8)) (used % (8 * c)) backing
          size := roundUp e.size (backing / 8) + backing / 8 } := by
  have hle := (hfits _ _ _ hlast).1
  unfold filledBits at hfilled
  by_cases hwide : backing ≤ 8 * c ∨ used = 8 * c
  · rw [if_pos hwide] at hfilled
    omega
  · rw [if_neg hwide] at hfilled
    by_cases hover : 8 * c < used
    · rw [if_pos hover] at hfilled
      have hlt : 8 * c < backing := by omega
      have hzero : used % (8 * c) ≠ 0 := by omega
      refine ⟨hlt, hzero, ?_⟩
      have hown : e.shares (backing / 8) (used % (8 * c)) = false := by
        simp only [LayoutEnd.shares, hlast, decide_eq_false_iff_not, ← hbits, max_self]
        omega
      have hround := dvd_roundUp hpos e.size
      have hmul : c ∣ roundUp e.size (backing / 8) + backing / 8 :=
        (hdvd hlt).trans (dvd_add hround dvd_rfl)
      have hcle := Nat.le_of_dvd hpos (hdvd hlt)
      have hfill : e.filled c = e.addField (backing / 8) (used % (8 * c)) := by
        simp [LayoutEnd.filled, hlast, hlt.not_ge, hover, hzero]
      rw [LayoutEnd.addField_of_own hown, ← hbits] at hfill
      simp only [LayoutEnd.clear, hlast, LayoutEnd.padded, hfill, LayoutEnd.clearedSize]
      rw [if_neg (by omega), Nat.mod_eq_zero_of_dvd hmul, Nat.add_zero]
    · rw [if_neg hover] at hfilled
      omega

theorem nextBit_of_field (hlast : e.last = .field offset used backing) :
    e.nextBit op a =
      if op.fitsBehind used backing a then 8 * offset + used else 8 * roundUp e.size a := by
  cases op with
  | member name type => rfl
  | field name type width =>
    simp [LayoutEnd.nextBit, LayoutEnd.fieldBit, LayoutEnd.shares, hlast, LayoutOp.fitsBehind]

theorem LayoutOp.field_of_fitsBehind (h : op.fitsBehind used backing a = true) :
    ∃ name type width, op = .field name type width := by
  cases op with
  | member name type => cases h
  | field name type width => exact ⟨_, _, _, rfl⟩

theorem not_onBoundary_overflow {i j k r s : Nat} (hlt : 8 * 2 ^ i < 8 * 2 ^ k) (hr : r ≠ 0)
    (hri : r < 8 * 2 ^ i) (hs : 2 ^ k ∣ s) (hq : 8 * 2 ^ i ∣ q) :
    ¬ OnBoundary op (2 ^ j) q (8 * s + r) := by
  have hik : 2 ^ i ∣ 2 ^ k := pow_dvd_pow 2 (by
    by_contra hle
    have hpow : 2 ^ k ≤ 2 ^ i := Nat.pow_le_pow_right (by decide) (by omega)
    omega)
  have hno : ¬ 8 * 2 ^ i ∣ 8 * s + r := by
    rw [Nat.dvd_add_right (Nat.mul_dvd_mul_left 8 (hik.trans hs))]
    intro hdvd
    exact absurd (Nat.le_of_dvd (Nat.pos_of_ne_zero hr) hdvd) (by omega)
  rintro (h | h)
  · exact hno (h ▸ dvd_roundUp_pow hq)
  · cases op with
    | member name type => cases h
    | field name type width => exact hno (by rw [show 8 * s + r = q from h]; exact hq)

/-- The boundary behind a field of width zero that follows a field. -/
theorem onBoundary_clear_field {i j k : Nat} (hlast : e.last = .field offset used backing)
    (hfits : e.Fits) (hbacking : backing = 8 * 2 ^ k) :
    OnBoundary op (2 ^ j) (roundUp (8 * offset + used) (8 * 2 ^ i))
        ((e.clear (2 ^ i)).nextBit op (2 ^ j)) ↔
      ClearsRight e (roundUp (8 * offset + used) (8 * 2 ^ i)) (2 ^ i) op (2 ^ j) := by
  have ha : 0 < 2 ^ j := by positivity
  have hb : 0 < 8 * 2 ^ i := by positivity
  have hbytes : backing / 8 = 2 ^ k := by omega
  simp only [ClearsRight, hlast]
  by_cases hfilled : filledBits used backing (2 ^ i) ≤ backing
  · have hused : used ≤ filledBits used backing (2 ^ i) := by
      have hle := (hfits _ _ _ hlast).1
      unfold filledBits
      split_ifs <;> omega
    have hclear : e.clear (2 ^ i) = (e.filled (2 ^ i)).padded (2 ^ i) := by
      simp [LayoutEnd.clear, hlast]
    rw [hclear, filled_of_fits hlast hfits (by omega) hfilled, LayoutEnd.padded, if_pos hfilled,
      nextBit_of_field rfl]
    cases hfield : op.fitsBehind (filledBits used backing (2 ^ i)) backing (2 ^ j) with
    | true =>
      rcases LayoutOp.field_of_fitsBehind hfield with ⟨name, type, width, rfl⟩
      simp only [if_true]
      rw [onBoundary_shared hb (Nat.add_le_add_left hused _)]
      have hiff : 8 * offset + filledBits used backing (2 ^ i) < 8 * offset + used + 8 * 2 ^ i ↔
          filledBits used backing (2 ^ i) < used + 8 * 2 ^ i := by omega
      rw [hiff]
    | false =>
      simp only [Bool.false_eq_true, if_false]
      exact onBoundary_behind ha
  · have hpos : 0 < backing / 8 := by
      rw [hbytes]
      positivity
    have hdvd : 8 * 2 ^ i < backing → 2 ^ i ∣ backing / 8 := by
      intro hlt
      rw [hbytes]
      refine pow_dvd_pow 2 ?_
      by_contra hle
      have hpow : 2 ^ k ≤ 2 ^ i := Nat.pow_le_pow_right (by decide) (by omega)
      omega
    rcases clear_of_overflow hlast hfits (by omega) hpos hdvd (by omega) with ⟨hlt, hzero, hclear⟩
    rw [hclear, nextBit_of_field rfl, if_neg hfilled]
    cases hfield : op.fitsBehind (used % (8 * 2 ^ i)) backing (2 ^ j) with
    | true =>
      simp only [if_true, reduceCtorEq, false_and, iff_false]
      apply not_onBoundary_overflow (hbacking ▸ hlt) hzero (Nat.mod_lt _ hb)
      · exact hbytes ▸ dvd_roundUp hpos e.size
      · exact dvd_roundUp hb _
    | false =>
      simp only [Bool.false_eq_true, if_false, true_and]
      exact onBoundary_behind ha

theorem onBoundary_clear_plain (ha : 0 < a) (hc : 0 < c)
    (hlast : (e.last = .none ∧ q = 0) ∨ e.last = .plain) :
    OnBoundary op a q ((e.clear c).nextBit op a) ↔ ClearsRight e q c op a := by
  have hnext : (e.clear c).nextBit op a = 8 * roundUp (e.clear c).size a := by
    cases op with
    | member name type => rfl
    | field name type width =>
      rcases hlast with ⟨hlast, -⟩ | hlast <;>
        simp [LayoutEnd.nextBit, LayoutEnd.fieldBit, LayoutEnd.clear, hlast]
  rw [hnext, onBoundary_behind ha]
  rcases hlast with ⟨hlast, rfl⟩ | hlast
  · simp only [LayoutEnd.clear, hlast, ClearsRight, roundUp_zero_left]
    have hle := le_roundUp e.size c
    have hle' := le_roundUp (roundUp e.size c) a
    constructor
    · intro h
      omega
    · intro h
      simp [h]
  · have hcleared : LayoutEnd.clearedSize (roundUp e.size c) c = max c (roundUp e.size c) := by
      have hmod := Nat.mod_eq_zero_of_dvd (dvd_roundUp hc e.size)
      unfold LayoutEnd.clearedSize
      split <;> omega
    simp only [LayoutEnd.clear, hlast, ClearsRight, hcleared]

end Boundaries

/-! ## Every struct under construction -/

theorem Typetree.WellLaidOut.padSize {c : Nat} (h : t.WellLaidOut types)
    (hsize : t.size < 2 ^ 63) (hc : 0 < c ∧ c ≤ 8) :
    (Kcs.padSize t c).WellLaidOut types ∧ (Kcs.padSize t c).size < t.size + 16 := by
  have hmod := Nat.mod_lt t.size hc.1
  rw [padSize_eq (by omega) hc]
  refine ⟨⟨h.isStruct, h.layout.mono ?_⟩, ?_⟩
  · unfold LayoutEnd.clearedSize
    simp only
    split <;> omega
  · unfold LayoutEnd.clearedSize
    simp only
    split <;> omega

/-- A field of width zero keeps the invariant. -/
theorem typeAddField_clear_invariant {clear : CType} (hinv : t.WellLaidOut types)
    (hsize : t.size < 2 ^ 62) (h : typeAddField types t "" clear 0 = .ok t') :
    t'.WellLaidOut types := by
  have hbound : t.size ≤ longlongMax := by
    unfold longlongMax
    omega
  have hfits := hinv.fits
  have hc : ∀ type : CType, 0 < type.intSize ∧ type.intSize ≤ 8 := by
    intro type
    have := type.intSize_cases
    omega
  cases hlast : t.layoutEnd.last with
  | none =>
    rcases typeAddField_clear_resize hinv.isStruct hbound (Or.inl hlast) h with ⟨-, rfl⟩
    refine ⟨hinv.isStruct, hinv.layout.mono ?_⟩
    simp only [LayoutEnd.clear, hlast]
    exact le_roundUp t.size clear.intSize
  | plain =>
    rcases typeAddField_clear_resize hinv.isStruct hbound (Or.inr hlast) h with ⟨-, rfl⟩
    refine ⟨hinv.isStruct, hinv.layout.mono ?_⟩
    have hle : t.size ≤ roundUp t.layoutEnd.size clear.intSize := le_roundUp t.size clear.intSize
    simp only [LayoutEnd.clear, hlast, LayoutEnd.clearedSize]
    split <;> omega
  | field offset used backing =>
    have hle := (hfits _ _ _ hlast).1
    -- A padding field of positive width.
    have hadded : ∀ {fuel width : Nat} {type : CType} {t₁ : Typetree}, width ≠ 0 →
        backingTypeFromBits backing = .ok type →
        typeAddFieldAux types (fuel + 1) t "" type width = .ok t₁ →
        t₁.WellLaidOut types ∧ t₁.size < t.size + 40 := by
      intro fuel width type t₁ hwidth htype hadd
      exact ⟨typeAddFieldAux_invariant hadd hinv hsize hwidth,
        (FilledTo.of_field hinv.isStruct hbound hfits.within hwidth htype hadd).below⟩
    rcases typeAddFieldAux_zero hinv.isStruct hlast hle h with ⟨hint, hreset⟩
    rcases resetFieldAlignment_field hint hlast hle hreset with ⟨type, t₁, htype, rfl, hadd⟩
    have hkept : t₁.WellLaidOut types ∧ t₁.size < t.size + 64 := by
      have hself : t.WellLaidOut types ∧ t.size < t.size + 64 := ⟨hinv, by omega⟩
      have hwiden : ∀ {t₁ : Typetree}, t₁.WellLaidOut types ∧ t₁.size < t.size + 40 →
          t₁.WellLaidOut types ∧ t₁.size < t.size + 64 := fun h => ⟨h.1, by omega⟩
      split at hadd
      · split at hadd
        · rwa [hadd]
        · exact hwiden (hadded (by omega) htype hadd)
      · split at hadd
        · split at hadd
          · rwa [hadd]
          · rename_i hzero
            exact hwiden (hadded hzero htype hadd)
        · by_cases heq : used = 8 * clear.intSize
          · rw [heq, Nat.sub_self] at hadd
            rcases typeAddFieldAux_zero hinv.isStruct hlast hle hadd with ⟨hint', hreset'⟩
            rcases resetFieldAlignment_field hint' hlast hle hreset' with
              ⟨type', t₂, htype', rfl, hadd'⟩
            rcases backingTypeFromBits_intSize htype with ⟨hn, hbits, -, -⟩
            rw [if_pos (by omega), if_neg (by omega)] at hadd'
            rcases hadded (by omega) htype' hadd' with ⟨hkept, hbelow⟩
            rcases hkept.padSize (by omega) (hc type) with ⟨hkept', hbelow'⟩
            exact ⟨hkept', by omega⟩
          · exact hwiden (hadded (by omega) htype hadd)
    exact (hkept.1.padSize (by omega) (hc clear)).1

theorem typeAddField_named_zero (hname : name ≠ "") :
    typeAddField types t name type 0 ≠ .ok t' := by
  intro h
  unfold typeAddField typeAddFieldAux at h
  simp only [Except.bind_eq_ok_iff] at h
  rcases h with ⟨placed, hplace, -⟩
  unfold placeField at hplace
  split at hplace
  · cases hplace
  · simp only [Except.bind_eq_ok_iff] at hplace
    rcases hplace with ⟨size, -, hplace⟩
    split at hplace
    · cases hplace
    · simp [hname] at hplace

/-- Structs under construction satisfy the invariant after any sequence of additions, fields of
width zero included. -/
theorem layoutRun_wellLaidOut {ops : List LayoutOp} (h : layoutRun types t ops = .ok t')
    (hinv : t.WellLaidOut types) (hsize : sizeBelow types (2 ^ 62) t ops = true) :
    t'.WellLaidOut types := by
  induction ops generalizing t with
  | nil =>
    simp only [layoutRun, Except.ok.injEq] at h
    rwa [← h]
  | cons op ops ih =>
    simp only [layoutRun, Except.bind_eq_ok_iff] at h
    rcases h with ⟨t₁, hstep, hrun⟩
    simp only [sizeBelow, hstep, Bool.and_eq_true, decide_eq_true_eq] at hsize
    refine ih hrun ?_ hsize.2
    cases hwidth : op.widthPositive with
    | true => exact layoutStep_invariant hstep hinv hsize.1 hwidth
    | false =>
      cases op with
      | member name type => cases hwidth
      | field name type width =>
        have hzero : width = 0 := by simpa [LayoutOp.widthPositive] using hwidth
        subst hzero
        simp only [layoutStep] at hstep
        by_cases hname : name = ""
        · subst hname
          exact typeAddField_clear_invariant hinv hsize.1 hstep
        · exact absurd hstep (typeAddField_named_zero hname)

/-! ## The member behind a field of width zero -/

theorem layoutStep_alignment {op : LayoutOp} {a : Nat} (hstep : layoutStep types t op = .ok t')
    (hstruct : t.type = .struct) (ha : typeAlignment types op.addedType = some a) :
    ∃ j, a = 2 ^ j := by
  rcases typeAlignmentAux_pow ha with rfl | hpow
  · exfalso
    cases op with
    | member name type =>
      rcases typeAddMember_readded hstruct hstep with ⟨-, m, hreadded, -, rfl⟩
      rcases hreadded.place with ⟨a', n, ha', hpos, -⟩
      rw [show typeAlignment types m.type = some 0 from ha, some.injEq] at ha'
      exact hpos ha'.symm
    | field name type width =>
      have hint : type.isInteger = true := by
        simp only [layoutStep, typeAddField, typeAddFieldAux, Except.bind_eq_ok_iff] at hstep
        rcases hstep with ⟨placed, hplace, -⟩
        exact (placeField_struct hstruct hplace).1
      have hn := type.intSize_cases
      simp only [LayoutOp.addedType, typeAlignment_of_isInteger hint, some.injEq] at ha
      omega
  · exact hpow

/-- Exactly when a field of width zero ends the unit: when the padding field and the rounded size
of `reset_field_alignment` reach the boundary that the next member is put on. -/
theorem zeroWidth_placed_iff (types : TypeTable) (t t₁ t' : Typetree) (clear : CType)
    (op : LayoutOp) (a : Nat) (hinv : t.WellLaidOut types) (hsize : t.size ≤ longlongMax)
    (hclear : typeAddField types t "" clear 0 = .ok t₁) (hstep : layoutStep types t₁ op = .ok t')
    (hop : op.widthPositive = true) (ha : typeAlignment types op.addedType = some a) :
    PlacedOnBoundary types t t' clear.intSize op a ↔
      ClearsRight t.layoutEnd (roundUp (t.endBit types) (8 * clear.intSize)) clear.intSize
        op a := by
  have hfits := hinv.fits
  rcases typeAddField_clear_next hinv hsize hclear hstep hop ha with ⟨hkeeps, hlastBit⟩
  have hplaced : PlacedOnBoundary types t t' clear.intSize op a ↔
      OnBoundary op a (roundUp (t.endBit types) (8 * clear.intSize))
        ((t.layoutEnd.clear clear.intSize).nextBit op a) := by
    unfold PlacedOnBoundary
    simp only [hkeeps, hlastBit, true_and, some.injEq, exists_eq_left']
  rw [hplaced]
  rcases layoutStep_alignment hstep (typeAddField_clear hinv hsize hclear).1 ha with ⟨j, rfl⟩
  rcases intSize_pow clear.intSize_cases with ⟨i, hi⟩
  rw [hi]
  cases hlast : t.layoutEnd.last with
  | none =>
    have hnil : t.members.getLast? = none := by
      unfold Typetree.layoutEnd LastMember.ofMember at hlast
      cases hmember : t.members.getLast? with
      | none => rfl
      | some m =>
        simp only [hmember, map_some, getD_some] at hlast
        split at hlast <;> cases hlast
    have hend : t.endBit types = 0 := by simp [Typetree.endBit, hnil]
    rw [hend, roundUp_zero_left]
    exact onBoundary_clear_plain (by positivity) (by positivity) (Or.inl ⟨hlast, rfl⟩)
  | plain => exact onBoundary_clear_plain (by positivity) (by positivity) (Or.inr hlast)
  | field offset used backing =>
    rcases getLast_of_layoutEnd hlast with ⟨m, hmember, hfield, hoffset, hused, -⟩
    have hend : t.endBit types = 8 * offset + used := by
      simp only [Typetree.endBit, hmember, map_some, getD_some]
      rw [Member.bitEnd_of_field types hfield, hoffset, Nat.add_assoc, hused]
    have hbacking : ∃ k, backing = 8 * 2 ^ k := by
      have hle := (hfits _ _ _ hlast).1
      rcases typeAddFieldAux_zero hinv.isStruct hlast hle hclear with ⟨hint, hreset⟩
      rcases resetFieldAlignment_field hint hlast hle hreset with ⟨type, -, htype, -⟩
      rcases backingTypeFromBits_intSize htype with ⟨hn, hbits, -, -⟩
      rcases intSize_pow type.intSize_cases with ⟨k, hk⟩
      exact ⟨k, by rw [hbits, ← hn, hk]⟩
    rcases hbacking with ⟨k, hbacking⟩
    rw [hend]
    exact onBoundary_clear_field hlast hfits hbacking

/-- `struct { int a : 12;` -/
def halfByte : Typetree where
  type := .struct
  members := [{ name := "a", type := basicTypeInt, fieldWidth := 12, fieldBacking := 32 }]
  size := 4

theorem halfByte_run :
    layoutRun [] freshStruct [.field "a" basicTypeInt 12] = .ok halfByte := by
  decide

/-- `struct { int a : 12; char : 0; int b : 3; }`: four bits of padding lead to the boundary. -/
theorem zeroWidth_placed_half :
    ∃ t₁ t', typeAddField [] halfByte "" basicTypeChar 0 = .ok t₁ ∧
      layoutStep [] t₁ (.field "b" basicTypeInt 3) = .ok t' ∧
      PlacedOnBoundary [] halfByte t' 1 (.field "b" basicTypeInt 3) 4 := by
  have hinv : halfByte.WellLaidOut [] :=
    layoutRun_wellLaidOut halfByte_run ⟨rfl, LayoutInvariant.nil _⟩ (by decide)
  have hbuilt : ∃ t₁ t', typeAddField [] halfByte "" basicTypeChar 0 = .ok t₁ ∧
      layoutStep [] t₁ (.field "b" basicTypeInt 3) = .ok t' := ⟨_, _, by rfl, by rfl⟩
  rcases hbuilt with ⟨t₁, t', hclear, hstep⟩
  refine ⟨t₁, t', hclear, hstep, ?_⟩
  have hright : ClearsRight halfByte.layoutEnd (roundUp (halfByte.endBit []) 8) 1
      (.field "b" basicTypeInt 3) 4 := Or.inl (by decide)
  exact (zeroWidth_placed_iff [] halfByte t₁ t' basicTypeChar _ 4 hinv (by decide) hclear hstep
    rfl rfl).mpr hright

/-- `struct { char a : 3; int : 0; int b : 5; }`: the first field fills its unit of eight bits, so
`b` starts at bit 8.  The next boundary of an `int` is bit 32. -/
theorem zeroWidth_misplaced :
    ∃ t t₁ t', layoutRun [] freshStruct [.field "a" basicTypeChar 3] = .ok t ∧
      typeAddField [] t "" basicTypeInt 0 = .ok t₁ ∧
      layoutStep [] t₁ (.field "b" basicTypeInt 5) = .ok t' ∧
      (t'.members.map Member.bitStart).getLast? = some 8 ∧
      ¬ PlacedOnBoundary [] t t' 4 (.field "b" basicTypeInt 5) 4 := by
  refine ⟨_, _, _, by rfl, by rfl, by rfl, by rfl, ?_⟩
  rintro ⟨-, bit, hbit, hplace | hplace⟩
  all_goals
    cases some.inj hbit
    revert hplace
    decide

end Kcs
