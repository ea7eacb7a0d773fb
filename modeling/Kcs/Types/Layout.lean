import Kcs.Lib.Result
import Kcs.Types.Table

/-!
# Struct and union layout

Members are added to a struct or union entry one at a time.  An ordinary member
goes to the next aligned offset.  A bit-field is packed behind the preceding
field when its backing unit has room, or when the new field's own unit can hold
both, in which case the units of the fields at that offset are enlarged after
the fact; otherwise it starts a unit of its own.  Sealing drops the unnamed
members and pads the size.

The entry under construction is passed as a {name}`Typetree`, and the table
resolves the types of its members.

Main results:

- Theorem {lit}`sealed_layout_wellFormed`: every struct built by additions and
  a seal has disjoint, aligned and enclosed members.
-/

namespace Kcs

open Option hiding max_eq_right
open List hiding Disjoint

/-- The ways in which building an aggregate stops. -/
inductive LayoutError
  /-- `Member '%s' already exists.` -/
  | memberExists (name : String)
  /-- `Member '%s' has incomplete type.` -/
  | incompleteMember (name : String)
  /-- `Cannot add flexible struct member.` -/
  | flexibleMember
  /-- `Object is too large.` -/
  | tooLarge
  /-- `Width of bit-field (%lu bits) exceeds width of type %t.` -/
  | fieldTooWide (width : Nat) (type : CType)
  /-- `Zero length field %s.` -/
  | zeroLengthField (name : String)
  /-- `Struct has no named members.` or `Union has no named members.` -/
  | noNamedMembers (isStruct : Bool)
  /-- A failed assertion, a division by zero or a recursion that does not end. -/
  | aborted
deriving DecidableEq, Repr

/-- Turn an aborting access to the type table into a layout error. -/
def orAbort {α : Type} : Option α → Except LayoutError α
  | some a => .ok a
  | none => .error .aborted

@[simp]
theorem orAbort_eq_ok_iff {α : Type} {x : Option α} {a : α} :
    orAbort x = .ok a ↔ x = some a := by
  cases x <;> simp [orAbort]

/-! ## Adding a member -/

/-- `add_member`: a member of size zero must be an array, which makes the parent
flexible. -/
def checkComplete (t : Typetree) (m : Member) (size : Nat) : Except LayoutError Typetree :=
  if size = 0 then
    if m.type.isArray && !t.isFlexible then .ok { t with isFlexible := true }
    else .error (.incompleteMember m.name)
  else .ok t

/-- `add_member`: a flexible member makes a union flexible and is refused in a
struct. -/
def checkFlexible (t : Typetree) (flexible : Bool) : Except LayoutError Typetree :=
  if flexible then
    if t.type = .struct then .error .flexibleMember else .ok { t with isFlexible := true }
  else .ok t

/-- `add_member`: the size of the parent covers the end of the member. -/
def commitSize (t : Typetree) (m : Member) (size : Nat) : Except LayoutError Typetree :=
  if (longlongMax + sizeModulus - m.offset) % sizeModulus < size then .error .tooLarge
  else if t.size < (m.offset + size) % sizeModulus then
    .ok { t with size := (m.offset + size) % sizeModulus }
  else .ok t

/-- `add_member` for a struct or union parent, from the point where the member
has been appended. -/
def growAggregate (types : TypeTable) (t : Typetree) (m : Member) :
    Except LayoutError Typetree := do
  let size ← orAbort (sizeOf types m.type)
  let t ← checkComplete t m size
  let flexible ← orAbort (isFlexible types m.type)
  let t ← checkFlexible t flexible
  commitSize t m size

/-- `add_member` -/
def addMember (types : TypeTable) (t : Typetree) (m : Member) :
    Except LayoutError Typetree :=
  if m.name = "..." then
    if t.type = .function && !t.isVararg && !t.isIncomplete then
      .ok { t with isVararg := true }
    else .error .aborted
  else if m.name ≠ "" && t.members.any (·.name = m.name) then
    .error (.memberExists m.name)
  else
    let t := { t with members := t.members ++ [m] }
    if t.type = .struct || t.type = .union then growAggregate types t m
    else .ok { t with isIncomplete := m.type.type = .placeholder }

/-- The padding step of `adjust_member_alignment` and `type_seal`. -/
def padTo (size align : Nat) : Nat :=
  if size % align ≠ 0 then (size + (align - size % align)) % sizeModulus else size

/-- `adjust_member_alignment`: the padded entry and the offset of the next
member. -/
def adjustMemberAlignment (types : TypeTable) (t : Typetree) (type : CType) :
    Except LayoutError (Typetree × Nat) :=
  if t.type = .struct then do
    let align ← orAbort (typeAlignment types type)
    if align = 0 then .error .aborted
    else if padTo t.size align % align ≠ 0 then .error .aborted
    else .ok ({ t with size := padTo t.size align }, padTo t.size align)
  else .ok (t, 0)

/-- `type_add_member` -/
def typeAddMember (types : TypeTable) (t : Typetree) (name : String) (type : CType) :
    Except LayoutError Typetree := do
  let (t, offset) ←
    if t.type = .function then .ok (t, 0) else adjustMemberAlignment types t type
  addMember types t { name := name, type := type, offset := offset }

/-! ## Adding a field -/

/-- The loop of `pack_field_member` that walks back over the fields at one
offset and enlarges their backing unit.  The list is in reverse order. -/
def enlargeBacking (offset backing : Nat) : List Member → List Member
  | [] => []
  | m :: ms =>
    if m.fieldWidth ≠ 0 ∧ m.offset = offset then
      { m with fieldBacking := backing } :: enlargeBacking offset backing ms
    else m :: ms

/-- `pack_field_member`: {lit}`none` when the field cannot share the unit of the
last member. -/
def packFieldMember (t : Typetree) (field : Member) : Option (Typetree × Member) :=
  match t.members.getLast? with
  | none => none
  | some last =>
    if last.fieldWidth = 0 then none
    else
      let bits := last.fieldOffset + last.fieldWidth + field.fieldWidth
      let packed :=
        { field with
          offset := last.offset
          fieldOffset := last.fieldOffset + last.fieldWidth }
      if bits ≤ last.fieldBacking then
        some (t, { packed with fieldBacking := last.fieldBacking })
      else if bits ≤ field.fieldBacking then
        some
          ({ t with
              members :=
                (enlargeBacking last.offset field.fieldBacking t.members.reverse).reverse },
            packed)
      else none

/-- `backing_type_from_bits` -/
def backingTypeFromBits : Nat → Except LayoutError CType
  | 8 => .ok basicTypeChar
  | 16 => .ok basicTypeShort
  | 32 => .ok basicTypeInt
  | 64 => .ok basicTypeLong
  | _ => .error .aborted

/-- `reset_field_alignment`: fill the unit of the last field up to the boundary,
given the function that adds a padding field. -/
def padLastField (addField : Typetree → CType → Nat → Except LayoutError Typetree)
    (t : Typetree) (m : Member) (clearBits : Nat) : Except LayoutError Typetree :=
  if m.fieldWidth = 0 then .ok t
  else do
    let backing ← backingTypeFromBits m.fieldBacking
    let bits := m.fieldOffset + m.fieldWidth
    if clearBits ≥ m.fieldBacking then
      if bits > m.fieldBacking then .error .aborted
      else if bits ≠ m.fieldBacking then addField t backing (m.fieldBacking - bits)
      else .ok t
    else if bits > clearBits then
      if bits % clearBits ≠ 0 then addField t backing (bits % clearBits) else .ok t
    else addField t backing (clearBits - bits)

/-- `reset_field_alignment`: the size after the padding field. -/
def padSize (t : Typetree) (clearSize : Nat) : Typetree :=
  if t.size < clearSize then { t with size := clearSize }
  else if t.size % clearSize ≠ 0 then
    { t with size := (t.size + t.size % clearSize) % sizeModulus }
  else t

/-- `reset_field_alignment` -/
def resetFieldAlignment (types : TypeTable)
    (addField : Typetree → CType → Nat → Except LayoutError Typetree)
    (t : Typetree) (clear : CType) : Except LayoutError Typetree :=
  match t.members.getLast? with
  | none => .ok t
  | some m => do
    let clearSize ← orAbort (sizeOf types clear)
    let t ← padLastField addField t m (clearSize * 8)
    .ok (padSize t clearSize)

/-- The part of `type_add_field` before the new field is committed: the checks,
and the entry and field after packing or padding.  An unnamed union field is
ignored ({lit}`none`). -/
def placeField (types : TypeTable) (t : Typetree) (name : String) (type : CType)
    (width : Nat) : Except LayoutError (Option (Typetree × Member)) :=
  if !(t.type = .struct || t.type = .union) || !type.isInteger then .error .aborted
  else do
    let size ← orAbort (sizeOf types type)
    if width > size * 8 ∨ (type.isBool ∧ width > 1) then .error (.fieldTooWide width type)
    else if name ≠ "" ∧ width = 0 then .error (.zeroLengthField name)
    else if t.type = .union ∧ name = "" then .ok none
    else
      let m : Member :=
        { name := name, type := type, fieldWidth := width, fieldBacking := size * 8 }
      if t.type = .struct then
        match packFieldMember t m with
        | some placed => .ok (some placed)
        | none => do
          let (t, offset) ← adjustMemberAlignment types t type
          .ok (some (t, { m with offset := offset }))
      else .ok (some (t, m))

/-- `type_add_field`, with a bound on how often `reset_field_alignment` calls it
again. -/
def typeAddFieldAux (types : TypeTable) : Nat → Typetree → String → CType → Nat →
    Except LayoutError Typetree
  | 0, _, _, _, _ => .error .aborted
  | fuel + 1, t, name, type, width => do
    match ← placeField types t name type width with
    | none => .ok t
    | some (t, m) =>
      if width = 0 then
        resetFieldAlignment types (fun t type width => typeAddFieldAux types fuel t "" type width)
          t type
      else addMember types t m

/-- `type_add_field`.  A field of width zero adds one padding field, which in
turn has width zero at most once. -/
def typeAddField (types : TypeTable) (t : Typetree) (name : String) (type : CType)
    (width : Nat) : Except LayoutError Typetree :=
  typeAddFieldAux types 3 t name type width

/-! ## Sealing -/

/-- `remove_anonymous_fields`: the remaining members and their largest
alignment. -/
def removeAnonymousFields (types : TypeTable) (t : Typetree) :
    Except LayoutError (Typetree × Nat) := do
  let members := t.members.filter (·.name ≠ "")
  let align ← orAbort (membersAlignment (typeAlignment types) members)
  .ok ({ t with members := members }, align)

/-- `type_seal` -/
def typeSeal (types : TypeTable) (t : Typetree) : Except LayoutError Typetree :=
  if t.type = .function then .ok { t with isIncomplete := false }
  else do
    let (t, align) ← removeAnonymousFields types t
    if align = 0 then .error (.noNamedMembers (t.type = .struct))
    else .ok { t with size := padTo t.size align }

/-! ## What one addition does -/

variable {t t' : Typetree}

theorem checkComplete_spec {m : Member} {size : Nat}
    (h : checkComplete t m size = .ok t') :
    t'.type = t.type ∧ t'.members = t.members ∧ t'.size = t.size := by
  unfold checkComplete at h
  split at h
  · split at h
    · cases h
      exact ⟨rfl, rfl, rfl⟩
    · cases h
  · cases h
    exact ⟨rfl, rfl, rfl⟩

theorem checkFlexible_spec {flexible : Bool}
    (h : checkFlexible t flexible = .ok t') :
    t'.type = t.type ∧ t'.members = t.members ∧ t'.size = t.size := by
  unfold checkFlexible at h
  split at h
  · split at h
    · cases h
    · cases h
      exact ⟨rfl, rfl, rfl⟩
  · cases h
    exact ⟨rfl, rfl, rfl⟩

variable {n : Nat}

theorem commitSize_spec {m : Member}
    (h : commitSize t m n = .ok t') (hoffset : m.offset ≤ longlongMax) :
    t'.type = t.type ∧ t'.members = t.members ∧ t'.size = max t.size (m.offset + n) := by
  unfold commitSize at h
  unfold longlongMax at hoffset
  split at h
  · cases h
  · rename_i hfits
    have hend : m.offset + n < sizeModulus := by
      unfold longlongMax sizeModulus at hfits
      unfold sizeModulus
      omega
    rw [Nat.mod_eq_of_lt hend] at h
    split at h
    · rename_i hlt
      cases h
      exact ⟨rfl, rfl, by simp only; omega⟩
    · rename_i hle
      cases h
      exact ⟨rfl, rfl, by omega⟩

theorem growAggregate_spec {types : TypeTable} {m : Member}
    (h : growAggregate types t m = .ok t') (hoffset : m.offset ≤ longlongMax) :
    ∃ n, sizeOf types m.type = some n ∧ t'.type = t.type ∧ t'.members = t.members ∧
      t'.size = max t.size (m.offset + n) := by
  simp only [growAggregate, Except.bind_eq_ok_iff, orAbort_eq_ok_iff] at h
  rcases h with ⟨n, hn, t₁, ht₁, flexible, -, t₂, ht₂, h⟩
  rcases checkComplete_spec ht₁ with ⟨htype₁, hmembers₁, hsize₁⟩
  rcases checkFlexible_spec ht₂ with ⟨htype₂, hmembers₂, hsize₂⟩
  rcases commitSize_spec h hoffset with ⟨htype, hmembers, hsize⟩
  refine ⟨n, hn, ?_, ?_, ?_⟩
  · rw [htype, htype₂, htype₁]
  · rw [hmembers, hmembers₂, hmembers₁]
  · rw [hsize, hsize₂, hsize₁]

theorem addMember_spec {types : TypeTable} {m : Member}
    (h : addMember types t m = .ok t') (hstruct : t.type = .struct)
    (hoffset : m.offset ≤ longlongMax) :
    ∃ n, sizeOf types m.type = some n ∧ t'.type = .struct ∧ t'.members = t.members ++ [m] ∧
      t'.size = max t.size (m.offset + n) := by
  simp only [addMember] at h
  split at h
  · simp [hstruct] at h
  · split at h
    · cases h
    · simp only [hstruct, decide_true, Bool.true_or, if_true] at h
      rcases growAggregate_spec h hoffset with ⟨n, hn, htype, hmembers, hsize⟩
      exact ⟨n, hn, htype, hmembers, hsize⟩

theorem padTo_spec {size a : Nat} (hpos : a ≠ 0) (ha : a ≤ 16) (hsize : size < 2 ^ 62) :
    a ∣ padTo size a ∧ size ≤ padTo size a ∧ padTo size a < size + 16 := by
  have hmod : size % a < a := Nat.mod_lt _ (by omega)
  have hdiv : a * (size / a) + size % a = size := Nat.div_add_mod size a
  unfold padTo
  split
  · have hwrap : (size + (a - size % a)) % sizeModulus = size + (a - size % a) := by
      apply Nat.mod_eq_of_lt
      unfold sizeModulus
      omega
    rw [hwrap]
    refine ⟨⟨size / a + 1, ?_⟩, by omega, by omega⟩
    rw [Nat.mul_add]
    omega
  · rename_i hzero
    exact ⟨Nat.dvd_of_mod_eq_zero (not_not.mp hzero), le_refl _, by omega⟩

variable {type : CType}

theorem adjustMemberAlignment_spec {types : TypeTable}
    {offset : Nat} (h : adjustMemberAlignment types t type = .ok (t', offset))
    (hstruct : t.type = .struct) (hsize : t.size < 2 ^ 62) :
    ∃ a, typeAlignment types type = some a ∧ a ∣ offset ∧ t.size ≤ offset ∧
      offset < t.size + 16 ∧ t' = { t with size := offset } := by
  unfold adjustMemberAlignment at h
  rw [if_pos hstruct] at h
  simp only [Except.bind_eq_ok_iff, orAbort_eq_ok_iff] at h
  rcases h with ⟨a, ha, h⟩
  split at h
  · cases h
  · rename_i hpos
    rcases padTo_spec hpos (typeAlignmentAux_le ha) hsize with ⟨hdvd, hle, hlt⟩
    split at h
    · cases h
    · simp only [Except.ok.injEq, Prod.mk.injEq] at h
      rcases h with ⟨rfl, rfl⟩
      exact ⟨a, ha, hdvd, hle, hlt, rfl⟩

/-! ## The invariant of a struct under construction -/

namespace Member

/-- First bit of a member. -/
def bitStart (m : Member) : Nat :=
  8 * m.offset + m.fieldOffset

/-- First bit behind a member: a field ends after its width, any other member
after its bytes. -/
def bitEnd (types : TypeTable) (m : Member) : Nat :=
  if m.fieldWidth ≠ 0 then 8 * m.offset + m.fieldOffset + m.fieldWidth
  else 8 * (m.offset + (sizeOf types m.type).getD 0)

theorem bitEnd_of_field (types : TypeTable) {m : Member} (h : m.fieldWidth ≠ 0) :
    m.bitEnd types = 8 * m.offset + m.fieldOffset + m.fieldWidth := by
  simp [bitEnd, h]

theorem bitEnd_of_plain {types : TypeTable} {m : Member} (h : m.fieldWidth = 0)
    (hn : sizeOf types m.type = some n) : m.bitEnd types = 8 * (m.offset + n) := by
  simp [bitEnd, h, hn]

end Member

/-- Members placed so far in a struct of the given size.  Each one ends before
the next begins, so the list is in order of position; the rest of the fields
say what holds of every single member. -/
structure LayoutInvariant (types : TypeTable) (members : List Member) (size : Nat) : Prop where
  ordered : members.Pairwise fun m m' => m.bitEnd types ≤ m'.bitStart ∧ m.offset ≤ m'.offset
  plain_start : ∀ m ∈ members, m.fieldWidth = 0 → m.fieldOffset = 0
  plain_end : ∀ m ∈ members, m.fieldWidth = 0 →
    ∃ n, sizeOf types m.type = some n ∧ m.offset + n ≤ size
  plain_aligned : ∀ m ∈ members, m.fieldWidth = 0 →
    ∃ a, typeAlignment types m.type = some a ∧ a ∣ m.offset
  field_unit : ∀ m ∈ members, m.fieldWidth ≠ 0 →
    m.fieldOffset + m.fieldWidth ≤ m.fieldBacking ∧ 8 * m.offset + m.fieldBacking ≤ 8 * size
  same_backing : ∀ m ∈ members, ∀ m' ∈ members, m.fieldWidth ≠ 0 → m'.fieldWidth ≠ 0 →
    m.offset = m'.offset → m.fieldBacking = m'.fieldBacking

namespace LayoutInvariant

variable {types : TypeTable} {members : List Member} {size : Nat}

theorem nil (size : Nat) : LayoutInvariant types [] size := by
  constructor <;> simp

section

variable (h : LayoutInvariant types members size)
include h

theorem mono {size' : Nat} (hle : size ≤ size') :
    LayoutInvariant types members size' where
  ordered := h.ordered
  plain_start := h.plain_start
  plain_end := by
    intro m hm hplain
    rcases h.plain_end m hm hplain with ⟨n, hn, hend⟩
    exact ⟨n, hn, hend.trans hle⟩
  plain_aligned := h.plain_aligned
  field_unit := by
    intro m hm hfield
    rcases h.field_unit m hm hfield with ⟨hin, hunit⟩
    exact ⟨hin, by omega⟩
  same_backing := h.same_backing

theorem bitEnd_le {m : Member} (hm : m ∈ members) :
    m.bitEnd types ≤ 8 * size := by
  by_cases hfield : m.fieldWidth = 0
  · rcases h.plain_end m hm hfield with ⟨n, hn, hend⟩
    rw [Member.bitEnd_of_plain hfield hn]
    omega
  · rcases h.field_unit m hm hfield with ⟨hin, hunit⟩
    rw [Member.bitEnd_of_field types hfield]
    omega

theorem offset_le {m : Member} (hm : m ∈ members) :
    m.offset ≤ size := by
  by_cases hfield : m.fieldWidth = 0
  · rcases h.plain_end m hm hfield with ⟨n, -, hend⟩
    omega
  · rcases h.field_unit m hm hfield with ⟨-, hunit⟩
    omega

/-- Append an ordinary member behind everything placed so far. -/
theorem append_plain {m : Member} {n a : Nat}
    (hplain : m.fieldWidth = 0) (hstart : m.fieldOffset = 0)
    (hn : sizeOf types m.type = some n) (ha : typeAlignment types m.type = some a)
    (hdvd : a ∣ m.offset) (hoffset : size ≤ m.offset) :
    LayoutInvariant types (members ++ [m]) (m.offset + n) where
  ordered := by
    refine pairwise_append.mpr ⟨h.ordered, pairwise_singleton _ _, ?_⟩
    intro m₁ hm₁ m₂ hm₂
    rw [mem_singleton.mp hm₂]
    have hend := h.bitEnd_le hm₁
    have hoff := h.offset_le hm₁
    unfold Member.bitStart
    omega
  plain_start := by
    intro m₁ hm₁ h₁
    rcases mem_append.mp hm₁ with hm₁ | hm₁
    · exact h.plain_start m₁ hm₁ h₁
    · rw [mem_singleton.mp hm₁]
      exact hstart
  plain_end := by
    intro m₁ hm₁ h₁
    rcases mem_append.mp hm₁ with hm₁ | hm₁
    · rcases h.plain_end m₁ hm₁ h₁ with ⟨k, hk, hend⟩
      exact ⟨k, hk, by omega⟩
    · rw [mem_singleton.mp hm₁]
      exact ⟨n, hn, le_refl _⟩
  plain_aligned := by
    intro m₁ hm₁ h₁
    rcases mem_append.mp hm₁ with hm₁ | hm₁
    · exact h.plain_aligned m₁ hm₁ h₁
    · rw [mem_singleton.mp hm₁]
      exact ⟨a, ha, hdvd⟩
  field_unit := by
    intro m₁ hm₁ h₁
    rcases mem_append.mp hm₁ with hm₁ | hm₁
    · rcases h.field_unit m₁ hm₁ h₁ with ⟨hin, hunit⟩
      exact ⟨hin, by omega⟩
    · rw [mem_singleton.mp hm₁] at h₁
      exact absurd hplain h₁
  same_backing := by
    intro m₁ hm₁ m₂ hm₂ h₁ h₂ heq
    rcases mem_append.mp hm₁ with hm₁ | hm₁
    · rcases mem_append.mp hm₂ with hm₂ | hm₂
      · exact h.same_backing m₁ hm₁ m₂ hm₂ h₁ h₂ heq
      · rw [mem_singleton.mp hm₂] at h₂
        exact absurd hplain h₂
    · rw [mem_singleton.mp hm₁] at h₁
      exact absurd hplain h₁

/-- Append a field whose first bit lies behind everything placed so far and whose
unit agrees with the fields at its offset. -/
theorem append_field {m : Member}
    (hfield : m.fieldWidth ≠ 0)
    (hbehind : ∀ m' ∈ members, m'.bitEnd types ≤ m.bitStart ∧ m'.offset ≤ m.offset)
    (hin : m.fieldOffset + m.fieldWidth ≤ m.fieldBacking)
    (hunit : 8 * m.offset + m.fieldBacking ≤ 8 * size)
    (hsame : ∀ m' ∈ members, m'.fieldWidth ≠ 0 → m'.offset = m.offset →
      m'.fieldBacking = m.fieldBacking) :
    LayoutInvariant types (members ++ [m]) size where
  ordered := by
    refine pairwise_append.mpr ⟨h.ordered, pairwise_singleton _ _, ?_⟩
    intro m₁ hm₁ m₂ hm₂
    rw [mem_singleton.mp hm₂]
    exact hbehind m₁ hm₁
  plain_start := by
    intro m₁ hm₁ h₁
    rcases mem_append.mp hm₁ with hm₁ | hm₁
    · exact h.plain_start m₁ hm₁ h₁
    · rw [mem_singleton.mp hm₁] at h₁
      exact absurd h₁ hfield
  plain_end := by
    intro m₁ hm₁ h₁
    rcases mem_append.mp hm₁ with hm₁ | hm₁
    · exact h.plain_end m₁ hm₁ h₁
    · rw [mem_singleton.mp hm₁] at h₁
      exact absurd h₁ hfield
  plain_aligned := by
    intro m₁ hm₁ h₁
    rcases mem_append.mp hm₁ with hm₁ | hm₁
    · exact h.plain_aligned m₁ hm₁ h₁
    · rw [mem_singleton.mp hm₁] at h₁
      exact absurd h₁ hfield
  field_unit := by
    intro m₁ hm₁ h₁
    rcases mem_append.mp hm₁ with hm₁ | hm₁
    · exact h.field_unit m₁ hm₁ h₁
    · rw [mem_singleton.mp hm₁]
      exact ⟨hin, hunit⟩
  same_backing := by
    intro m₁ hm₁ m₂ hm₂ h₁ h₂ heq
    rcases mem_append.mp hm₁ with hm₁ | hm₁
    · rcases mem_append.mp hm₂ with hm₂ | hm₂
      · exact h.same_backing m₁ hm₁ m₂ hm₂ h₁ h₂ heq
      · rw [mem_singleton.mp hm₂] at heq ⊢
        exact hsame m₁ hm₁ h₁ heq
    · rw [mem_singleton.mp hm₁] at h₁ heq ⊢
      rcases mem_append.mp hm₂ with hm₂ | hm₂
      · exact (hsame m₂ hm₂ h₂ heq.symm).symm
      · rw [mem_singleton.mp hm₂]

end

/-- Fields at one offset receive a larger unit. -/
def withBacking (offset backing : Nat) (m : Member) : Member :=
  if m.fieldWidth ≠ 0 ∧ m.offset = offset then { m with fieldBacking := backing } else m

section WithBacking

variable (offset backing : Nat) (m : Member)

@[simp]
theorem withBacking_type : (withBacking offset backing m).type = m.type := by
  unfold withBacking
  split <;> rfl

@[simp]
theorem withBacking_offset : (withBacking offset backing m).offset = m.offset := by
  unfold withBacking
  split <;> rfl

@[simp]
theorem withBacking_fieldWidth : (withBacking offset backing m).fieldWidth = m.fieldWidth := by
  unfold withBacking
  split <;> rfl

@[simp]
theorem withBacking_fieldOffset :
    (withBacking offset backing m).fieldOffset = m.fieldOffset := by
  unfold withBacking
  split <;> rfl

@[simp]
theorem withBacking_bitStart : (withBacking offset backing m).bitStart = m.bitStart := by
  simp [Member.bitStart]

@[simp]
theorem withBacking_bitEnd (types : TypeTable) :
    (withBacking offset backing m).bitEnd types = m.bitEnd types := by
  simp [Member.bitEnd]

theorem withBacking_fieldBacking (h : m.fieldWidth ≠ 0) :
    (withBacking offset backing m).fieldBacking =
      if m.offset = offset then backing else m.fieldBacking := by
  unfold withBacking
  split <;> simp_all

end WithBacking

theorem enlargeBacking_eq_map {offset backing : Nat} {rev : List Member}
    (hordered : rev.Pairwise fun m' m => m.bitEnd types ≤ m'.bitStart ∧ m.offset ≤ m'.offset)
    (hplain : ∀ m ∈ rev, m.fieldWidth = 0 → m.fieldOffset = 0)
    (hle : ∀ m ∈ rev, m.offset ≤ offset) :
    enlargeBacking offset backing rev = rev.map (withBacking offset backing) := by
  induction rev with
  | nil => rfl
  | cons m rev ih =>
    have hbefore := (pairwise_cons.mp hordered).1
    by_cases hhead : m.fieldWidth ≠ 0 ∧ m.offset = offset
    · have hrest := ih (pairwise_cons.mp hordered).2
        (fun m' hm' => hplain m' (mem_cons_of_mem _ hm'))
        (fun m' hm' => hle m' (mem_cons_of_mem _ hm'))
      simp [enlargeBacking, withBacking, hhead, hrest]
    · -- the walk stops at `m`: no member before it is a field at `offset`
      have hstop : ∀ m' ∈ rev, withBacking offset backing m' = m' := by
        intro m' hm'
        unfold withBacking
        split
        · rename_i hfield
          exfalso
          rcases hbefore m' hm' with ⟨hend, hoff⟩
          have hm : m.offset = offset := by
            have hbound := hle m mem_cons_self
            omega
          have hzero : m.fieldWidth = 0 := by
            by_contra hne
            exact hhead ⟨hne, hm⟩
          have hstart := hplain m mem_cons_self hzero
          rw [Member.bitEnd_of_field types hfield.1, Member.bitStart, hstart, hm] at hend
          have hwidth := hfield.1
          omega
        · rfl
      have hmap : rev.map (withBacking offset backing) = rev :=
        (map_congr_left hstop).trans (List.map_id' rev)
      simp [enlargeBacking, withBacking, hhead, hmap]

theorem enlarge (h : LayoutInvariant types members size) {offset backing : Nat}
    (hcover : 8 * offset + backing ≤ 8 * size)
    (hgrow : ∀ m ∈ members, m.fieldWidth ≠ 0 → m.offset = offset → m.fieldBacking ≤ backing) :
    LayoutInvariant types (members.map (withBacking offset backing)) size where
  ordered := by
    refine pairwise_map.mpr (h.ordered.imp ?_)
    intro m m' hm
    simpa using hm
  plain_start := by
    intro m hm hplain
    rcases List.mem_map.mp hm with ⟨m₀, hm₀, rfl⟩
    simpa using h.plain_start m₀ hm₀ (by simpa using hplain)
  plain_end := by
    intro m hm hplain
    rcases List.mem_map.mp hm with ⟨m₀, hm₀, rfl⟩
    simpa using h.plain_end m₀ hm₀ (by simpa using hplain)
  plain_aligned := by
    intro m hm hplain
    rcases List.mem_map.mp hm with ⟨m₀, hm₀, rfl⟩
    simpa using h.plain_aligned m₀ hm₀ (by simpa using hplain)
  field_unit := by
    intro m hm hfield
    rcases List.mem_map.mp hm with ⟨m₀, hm₀, rfl⟩
    have hfield₀ : m₀.fieldWidth ≠ 0 := by simpa using hfield
    rcases h.field_unit m₀ hm₀ hfield₀ with ⟨hin, hunit⟩
    rw [withBacking_fieldBacking _ _ _ hfield₀]
    simp only [withBacking_fieldOffset, withBacking_fieldWidth, withBacking_offset]
    split
    · rename_i heq
      have hle := hgrow m₀ hm₀ hfield₀ heq
      rw [heq]
      exact ⟨hin.trans hle, hcover⟩
    · exact ⟨hin, hunit⟩
  same_backing := by
    intro m hm m' hm' hfield hfield' heq
    rcases List.mem_map.mp hm with ⟨m₀, hm₀, rfl⟩
    rcases List.mem_map.mp hm' with ⟨m₁, hm₁, rfl⟩
    have hfield₀ : m₀.fieldWidth ≠ 0 := by simpa using hfield
    have hfield₁ : m₁.fieldWidth ≠ 0 := by simpa using hfield'
    have hoffset : m₀.offset = m₁.offset := by simpa using heq
    rw [withBacking_fieldBacking _ _ _ hfield₀, withBacking_fieldBacking _ _ _ hfield₁, hoffset,
      h.same_backing m₀ hm₀ m₁ hm₁ hfield₀ hfield₁ hoffset]

theorem behind_last (h : LayoutInvariant types members size) {last : Member}
    (hlast : members.getLast? = some last) {m : Member} (hm : m ∈ members) :
    m = last ∨ (m.bitEnd types ≤ last.bitStart ∧ m.offset ≤ last.offset) := by
  rcases getLast?_eq_some_iff.mp hlast with ⟨init, rfl⟩
  rcases mem_append.mp hm with hm | hm
  · exact Or.inr ((pairwise_append.mp h.ordered).2.2 m hm last (by simp))
  · exact Or.inl (mem_singleton.mp hm)

theorem behind_field (h : LayoutInvariant types members size) {last m : Member}
    (hlast : members.getLast? = some last) (hfield : last.fieldWidth ≠ 0)
    (hoffset : m.offset = last.offset)
    (hstart : m.fieldOffset = last.fieldOffset + last.fieldWidth) :
    ∀ m' ∈ members, m'.bitEnd types ≤ m.bitStart ∧ m'.offset ≤ m.offset := by
  intro m' hm'
  have hbits : m.bitStart = last.bitEnd types := by
    rw [Member.bitEnd_of_field types hfield, Member.bitStart, hoffset, hstart]
    omega
  rcases h.behind_last hlast hm' with rfl | ⟨hend, hoff⟩
  · exact ⟨hbits.ge, hoffset.ge⟩
  · have hlastEnd : last.bitStart ≤ last.bitEnd types := by
      rw [Member.bitEnd_of_field types hfield, Member.bitStart]
      omega
    exact ⟨by omega, by omega⟩

end LayoutInvariant

/-! ## Additions keep the invariant -/

/-- A struct entry under construction that satisfies the layout invariant. -/
structure Typetree.WellLaidOut (types : TypeTable) (t : Typetree) : Prop where
  isStruct : t.type = .struct
  layout : LayoutInvariant types t.members t.size

variable {name : String}

theorem typeAddMember_invariant {types : TypeTable}
    (h : typeAddMember types t name type = .ok t')
    (hinv : t.WellLaidOut types) (hsize : t.size < 2 ^ 62) : t'.WellLaidOut types := by
  have hfun : t.type ≠ .function := by
    rw [hinv.isStruct]
    decide
  simp only [typeAddMember, hfun, if_false, Except.bind_eq_ok_iff] at h
  rcases h with ⟨⟨t₁, offset⟩, hadjust, hadd⟩
  rcases adjustMemberAlignment_spec hadjust hinv.isStruct hsize with
    ⟨a, ha, hdvd, hle, hlt, rfl⟩
  have hoffset : offset ≤ longlongMax := by
    unfold longlongMax
    omega
  rcases addMember_spec hadd hinv.isStruct hoffset with ⟨n, hn, htype, hmembers, hsize'⟩
  refine ⟨htype, ?_⟩
  rw [hmembers, hsize']
  have hgrown := hinv.layout.append_plain rfl rfl hn ha hdvd hle
  exact hgrown.mono (le_max_right _ _)

theorem sizeOf_pos_of_isInteger {types : TypeTable}
    (hint : type.isInteger = true) (hn : sizeOf types type = some n) : 0 < n := by
  unfold sizeOf sizeOfAux at hn
  unfold CType.isInteger at hint
  cases hkind : type.typeOf <;> simp [hkind, TypeKind.code] at hint hn <;> omega

theorem packFieldMember_spec {field m : Member}
    (h : packFieldMember t field = some (t', m)) :
    m.name = field.name ∧ m.type = field.type ∧ m.fieldWidth = field.fieldWidth ∧
      ∃ last, t.members.getLast? = some last ∧ last.fieldWidth ≠ 0 ∧
        m.offset = last.offset ∧ m.fieldOffset = last.fieldOffset + last.fieldWidth ∧
        m.fieldOffset + m.fieldWidth ≤ m.fieldBacking ∧
        ((m.fieldBacking = last.fieldBacking ∧ t' = t) ∨
          (last.fieldBacking < m.fieldBacking ∧ m.fieldBacking = field.fieldBacking ∧
            t' = { t with members :=
              (enlargeBacking last.offset m.fieldBacking t.members.reverse).reverse })) := by
  unfold packFieldMember at h
  split at h
  · cases h
  · rename_i last hlast
    split at h
    · cases h
    · rename_i hfield
      simp only at h
      split at h
      · rename_i hfits
        simp only [some.injEq, Prod.mk.injEq] at h
        rcases h with ⟨rfl, rfl⟩
        exact ⟨rfl, rfl, rfl, last, hlast, hfield, rfl, rfl, hfits, Or.inl ⟨rfl, rfl⟩⟩
      · rename_i hlarge
        split at h
        · rename_i hown
          simp only [some.injEq, Prod.mk.injEq] at h
          rcases h with ⟨rfl, rfl⟩
          refine ⟨rfl, rfl, rfl, last, hlast, hfield, rfl, rfl, hown, Or.inr ⟨?_, rfl, rfl⟩⟩
          exact (Nat.lt_of_not_le hlarge).trans_le hown
        · cases h

theorem placeField_spec {types : TypeTable}
    {width : Nat} {m : Member}
    (h : placeField types t name type width = .ok (some (t', m)))
    (hstruct : t.type = .struct) (hsize : t.size < 2 ^ 62) :
    ∃ n, sizeOf types type = some n ∧ 0 < n ∧ width ≤ n * 8 ∧
      (packFieldMember t
          { name := name, type := type, fieldWidth := width, fieldBacking := n * 8 } =
          some (t', m) ∨
        ∃ offset, t.size ≤ offset ∧ offset < t.size + 16 ∧ t' = { t with size := offset } ∧
          m = { name := name, type := type, offset := offset, fieldWidth := width,
                fieldBacking := n * 8 }) := by
  unfold placeField at h
  split at h
  · cases h
  · rename_i hkind
    have hint : type.isInteger = true := by
      by_contra hne
      simp [hne] at hkind
    simp only [Except.bind_eq_ok_iff, orAbort_eq_ok_iff] at h
    rcases h with ⟨n, hn, h⟩
    split at h
    · cases h
    · rename_i hwidth
      refine ⟨n, hn, sizeOf_pos_of_isInteger hint hn, by omega, ?_⟩
      simp only [hstruct, reduceCtorEq, false_and, if_false] at h
      split at h
      · cases h
      · split at h
        · rename_i placed hpack
          simp only [Except.ok.injEq, some.injEq] at h
          rw [h] at hpack
          exact Or.inl hpack
        · simp only [Except.bind_eq_ok_iff] at h
          rcases h with ⟨⟨t₁, offset⟩, hadjust, h⟩
          simp only [Except.ok.injEq, some.injEq, Prod.mk.injEq] at h
          rcases h with ⟨rfl, rfl⟩
          rcases adjustMemberAlignment_spec hadjust hstruct hsize with
            ⟨a, -, -, hge, hlt, rfl⟩
          exact Or.inr ⟨offset, hge, hlt, rfl, rfl⟩

/-- Committing a field that was packed behind the last one keeps the invariant. -/
theorem addMember_packed_invariant {types : TypeTable} {t t₁ t' : Typetree} {field m : Member}
    (hpack : packFieldMember t field = some (t₁, m))
    (hadd : addMember types t₁ m = .ok t') (hinv : t.WellLaidOut types)
    (hsize : t.size < 2 ^ 62) (hn : sizeOf types field.type = some n)
    (hbacking : field.fieldBacking = n * 8) (hwidth : field.fieldWidth ≠ 0) :
    t'.WellLaidOut types := by
  rcases packFieldMember_spec hpack with
    ⟨-, htype, hfw, last, hlast, hfield, hoffset, hstart, hin, hcase⟩
  have hmem : last ∈ t.members := mem_of_getLast? hlast
  have hlastUnit := (hinv.layout.field_unit last hmem hfield).2
  have hmoffset : m.offset ≤ longlongMax := by
    unfold longlongMax
    omega
  have hfieldm : m.fieldWidth ≠ 0 := by rwa [hfw]
  rcases hcase with ⟨hsame, rfl⟩ | ⟨hgrow, hown, rfl⟩
  · rcases addMember_spec hadd hinv.isStruct hmoffset with ⟨k, -, hstruct, hmembers, hsize'⟩
    refine ⟨hstruct, ?_⟩
    rw [hmembers, hsize']
    have hlayout := hinv.layout.mono (le_max_left t₁.size (m.offset + k))
    refine hlayout.append_field hfieldm (hlayout.behind_field hlast hfield hoffset hstart) hin
      ?_ ?_
    · have hunit := (hlayout.field_unit last hmem hfield).2
      rw [hsame, show 8 * m.offset = 8 * last.offset by rw [hoffset]]
      exact hunit
    · intro m' hm' hfield' heq
      rw [hsame]
      exact hlayout.same_backing m' hm' last hmem hfield' hfield (by rw [heq, hoffset])
  · -- the unit at the offset of the last field is replaced by a larger one
    rcases addMember_spec hadd hinv.isStruct hmoffset with ⟨k, hk, hstruct, hmembers, hsize'⟩
    have hkn : k = n := by
      rw [htype, hn] at hk
      exact (some.inj hk).symm
    subst hkn
    refine ⟨hstruct, ?_⟩
    rw [hmembers, hsize']
    have hlayout := hinv.layout.mono (le_max_left t.size (m.offset + k))
    have hmap : (enlargeBacking last.offset m.fieldBacking t.members.reverse).reverse =
        t.members.map (LayoutInvariant.withBacking last.offset m.fieldBacking) := by
      rw [LayoutInvariant.enlargeBacking_eq_map (pairwise_reverse.mpr hlayout.ordered)]
      · rw [map_reverse, reverse_reverse]
      · intro m' hm'
        exact hlayout.plain_start m' (mem_reverse.mp hm')
      · intro m' hm'
        rcases hlayout.behind_last hlast (mem_reverse.mp hm') with rfl | ⟨-, hle⟩
        · exact le_refl _
        · exact hle
    simp only [hmap]
    have hcover : 8 * m.offset + m.fieldBacking ≤ 8 * max t.size (m.offset + k) := by
      have hmax := le_max_right t.size (m.offset + k)
      omega
    rw [← hoffset]
    have henlarged := hlayout.enlarge hcover (by
      intro m' hm' hfield' heq
      rw [hlayout.same_backing m' hm' last hmem hfield' hfield (by rw [heq, hoffset])]
      exact hgrow.le)
    refine henlarged.append_field hfieldm ?_ hin hcover ?_
    · intro m' hm'
      rcases List.mem_map.mp hm' with ⟨m₀, hm₀, rfl⟩
      simpa using hlayout.behind_field hlast hfield hoffset hstart m₀ hm₀
    · intro m' hm' hfield' heq
      rcases List.mem_map.mp hm' with ⟨m₀, hm₀, rfl⟩
      have hfield₀ : m₀.fieldWidth ≠ 0 := by simpa using hfield'
      rw [LayoutInvariant.withBacking_fieldBacking _ _ _ hfield₀, if_pos]
      simpa using heq

theorem typeAddFieldAux_invariant {types : TypeTable} {fuel : Nat}
    {width : Nat}
    (h : typeAddFieldAux types (fuel + 1) t name type width = .ok t')
    (hinv : t.WellLaidOut types) (hsize : t.size < 2 ^ 62) (hwidth : width ≠ 0) :
    t'.WellLaidOut types := by
  unfold typeAddFieldAux at h
  simp only [Except.bind_eq_ok_iff] at h
  rcases h with ⟨placed, hplace, h⟩
  cases placed with
  | none =>
    simp only [Except.ok.injEq] at h
    rwa [← h]
  | some placed =>
    rcases placed with ⟨t₁, m⟩
    simp only [hwidth, if_false] at h
    rcases placeField_spec hplace hinv.isStruct hsize with
      ⟨n, hn, hpos, hle, hpack | ⟨offset, hge, hlt, rfl, rfl⟩⟩
    · exact addMember_packed_invariant hpack h hinv hsize hn rfl hwidth
    · have hoffset : offset ≤ longlongMax := by
        unfold longlongMax
        omega
      rcases addMember_spec h hinv.isStruct hoffset with ⟨k, hk, hstruct, hmembers, hsize'⟩
      have hkn : k = n := by
        rw [hn] at hk
        exact (some.inj hk).symm
      subst hkn
      refine ⟨hstruct, ?_⟩
      rw [hmembers, hsize']
      have hmax : max offset (offset + k) = offset + k := max_eq_right (Nat.le_add_right _ _)
      simp only [hmax]
      refine (hinv.layout.mono (hge.trans (Nat.le_add_right _ _))).append_field hwidth
        ?_ ?_ ?_ ?_
      · intro m' hm'
        have hend := hinv.layout.bitEnd_le hm'
        have hoff := hinv.layout.offset_le hm'
        simp only [Member.bitStart]
        omega
      · simpa [Nat.mul_comm] using hle
      · simp only
        omega
      · intro m' hm' hfield' heq
        have hunit := hinv.layout.field_unit m' hm' hfield'
        simp only at heq
        omega

/-! ## Building a struct -/

/-- One call that grows a struct. -/
inductive LayoutOp
  | member (name : String) (type : CType)
  | field (name : String) (type : CType) (width : Nat)
deriving DecidableEq, Repr

/-- Perform one call. -/
def layoutStep (types : TypeTable) (t : Typetree) : LayoutOp → Except LayoutError Typetree
  | .member name type => typeAddMember types t name type
  | .field name type width => typeAddField types t name type width

/-- Perform a sequence of calls. -/
def layoutRun (types : TypeTable) : Typetree → List LayoutOp → Except LayoutError Typetree
  | t, [] => .ok t
  | t, op :: ops => do
    let t ← layoutStep types t op
    layoutRun types t ops

/-- The entry that `type_create(T_STRUCT)` makes. -/
def freshStruct : Typetree := { type := .struct }

/-- Fields have width at least one. -/
def LayoutOp.widthPositive : LayoutOp → Bool
  | .member _ _ => true
  | .field _ _ width => 1 ≤ width

/-- The total size stays below the bound, before each call and at the end. -/
def sizeBelow (types : TypeTable) (bound : Nat) : Typetree → List LayoutOp → Bool
  | t, [] => t.size < bound
  | t, op :: ops =>
    t.size < bound &&
      match layoutStep types t op with
      | .ok t' => sizeBelow types bound t' ops
      | .error _ => true

theorem layoutStep_invariant {types : TypeTable} {op : LayoutOp}
    (h : layoutStep types t op = .ok t') (hinv : t.WellLaidOut types)
    (hsize : t.size < 2 ^ 62) (hwidth : op.widthPositive = true) : t'.WellLaidOut types := by
  cases op with
  | member name type => exact typeAddMember_invariant h hinv hsize
  | field name type width =>
    have hpos : 1 ≤ width := by simpa [LayoutOp.widthPositive] using hwidth
    exact typeAddFieldAux_invariant h hinv hsize (Nat.one_le_iff_ne_zero.mp hpos)

theorem layoutRun_invariant {types : TypeTable} {ops : List LayoutOp}
    (h : layoutRun types t ops = .ok t') (hinv : t.WellLaidOut types)
    (hsize : sizeBelow types (2 ^ 62) t ops = true)
    (hwidth : ∀ op ∈ ops, op.widthPositive = true) :
    t'.WellLaidOut types ∧ t'.size < 2 ^ 62 := by
  induction ops generalizing t with
  | nil =>
    simp only [layoutRun, Except.ok.injEq] at h
    simp only [sizeBelow, decide_eq_true_eq] at hsize
    rw [← h]
    exact ⟨hinv, hsize⟩
  | cons op ops ih =>
    simp only [layoutRun, Except.bind_eq_ok_iff] at h
    rcases h with ⟨t₁, hstep, hrun⟩
    simp only [sizeBelow, hstep, Bool.and_eq_true, decide_eq_true_eq] at hsize
    have hinv₁ := layoutStep_invariant hstep hinv hsize.1 (hwidth op mem_cons_self)
    exact ih hrun hinv₁ hsize.2 (fun op' hop' => hwidth op' (mem_cons_of_mem _ hop'))

/-- The bits that a member occupies. -/
def Member.bitRange (types : TypeTable) (m : Member) : Finset Nat :=
  Finset.Ico m.bitStart (m.bitEnd types)

/-- A sealed struct whose members are disjoint, aligned and enclosed. -/
structure LayoutWellFormed (types : TypeTable) (t : Typetree) : Prop where
  disjoint : t.members.Pairwise fun m m' => Disjoint (m.bitRange types) (m'.bitRange types)
  field_in_unit : ∀ m ∈ t.members, m.fieldWidth ≠ 0 →
    m.fieldOffset + m.fieldWidth ≤ m.fieldBacking
  unit_in_struct : ∀ m ∈ t.members, m.fieldWidth ≠ 0 →
    8 * m.offset + m.fieldBacking ≤ 8 * t.size
  same_backing : ∀ m ∈ t.members, ∀ m' ∈ t.members, m.fieldWidth ≠ 0 → m'.fieldWidth ≠ 0 →
    m.offset = m'.offset → m.fieldBacking = m'.fieldBacking
  plain_aligned : ∀ m ∈ t.members, m.fieldWidth = 0 →
    ∃ a, typeAlignment types m.type = some a ∧ a ∣ m.offset
  size_aligned : ∃ a, membersAlignment (typeAlignment types) t.members = some a ∧ 0 < a ∧
    a ∣ t.size
  member_in_struct : ∀ m ∈ t.members, m.bitEnd types ≤ 8 * t.size

theorem typeSeal_spec {types : TypeTable} (h : typeSeal types t = .ok t')
    (hinv : t.WellLaidOut types) (hsize : t.size < 2 ^ 62) :
    t'.members = t.members.filter (·.name ≠ "") ∧ t.size ≤ t'.size ∧
      ∃ a, membersAlignment (typeAlignment types) t'.members = some a ∧ 0 < a ∧ a ∣ t'.size := by
  have hfun : t.type ≠ .function := by
    rw [hinv.isStruct]
    decide
  simp only [typeSeal, hfun, if_false, removeAnonymousFields, Except.bind_eq_ok_iff,
    orAbort_eq_ok_iff, Except.ok.injEq] at h
  rcases h with ⟨⟨t₁, align⟩, ⟨a, ha, heq⟩, h⟩
  simp only [Prod.mk.injEq] at heq
  rcases heq with ⟨rfl, rfl⟩
  split at h
  · cases h
  · rename_i hpos
    have hle : a ≤ 16 := membersAlignment_le _ (fun _ _ hn => typeAlignmentAux_le hn) ha
    rcases padTo_spec hpos hle hsize with ⟨hdvd, hge, -⟩
    cases h
    exact ⟨rfl, hge, a, ha, Nat.pos_of_ne_zero hpos, hdvd⟩

/-- Every struct built on a fresh entry by member and field additions and then
sealed has disjoint, aligned and enclosed members. -/
theorem sealed_layout_wellFormed {types : TypeTable} {ops : List LayoutOp} {t t' : Typetree}
    (hrun : layoutRun types freshStruct ops = .ok t) (hseal : typeSeal types t = .ok t')
    (hsize : sizeBelow types (2 ^ 62) freshStruct ops = true)
    (hwidth : ∀ op ∈ ops, op.widthPositive = true) : LayoutWellFormed types t' := by
  have hfresh : freshStruct.WellLaidOut types := ⟨rfl, LayoutInvariant.nil _⟩
  rcases layoutRun_invariant hrun hfresh hsize hwidth with ⟨hinv, hbelow⟩
  rcases typeSeal_spec hseal hinv hbelow with ⟨hmembers, hle, halign⟩
  have hlayout := hinv.layout.mono hle
  have hkept : ∀ m ∈ t'.members, m ∈ t.members := by
    intro m hm
    rw [hmembers] at hm
    exact mem_of_mem_filter hm
  exact
    { disjoint := by
        rw [hmembers]
        refine (hlayout.ordered.imp ?_).sublist filter_sublist
        intro m m' hm
        exact Finset.Ico_disjoint_Ico_consecutive _ _ _ |>.mono_right
          (Finset.Ico_subset_Ico_left hm.1)
      field_in_unit := fun m hm hfield => (hlayout.field_unit m (hkept m hm) hfield).1
      unit_in_struct := fun m hm hfield => (hlayout.field_unit m (hkept m hm) hfield).2
      same_backing := fun m hm m' hm' =>
        hlayout.same_backing m (hkept m hm) m' (hkept m' hm')
      plain_aligned := fun m hm => hlayout.plain_aligned m (hkept m hm)
      size_aligned := halign
      member_in_struct := fun m hm => hlayout.bitEnd_le (hkept m hm) }

/-- `struct { char a; short b : 10; int c : 20; int d[3]; }`: the unit of `b` is
enlarged when `c` is added. -/
theorem sealed_layout_wellFormed_packed :
    ∃ t t',
      layoutRun [{ type := .array, size := 3, next := basicTypeInt }] freshStruct
          [.member "a" basicTypeChar, .field "b" basicTypeShort 10, .field "c" basicTypeInt 20,
            .member "d" { type := .array, ref := 1 }] = .ok t ∧
        typeSeal [{ type := .array, size := 3, next := basicTypeInt }] t = .ok t' ∧
        LayoutWellFormed [{ type := .array, size := 3, next := basicTypeInt }] t' := by
  have hbuilt : ∃ t t',
      layoutRun [{ type := .array, size := 3, next := basicTypeInt }] freshStruct
          [.member "a" basicTypeChar, .field "b" basicTypeShort 10, .field "c" basicTypeInt 20,
            .member "d" { type := .array, ref := 1 }] = .ok t ∧
        typeSeal [{ type := .array, size := 3, next := basicTypeInt }] t = .ok t' :=
    ⟨_, _, by rfl, by rfl⟩
  rcases hbuilt with ⟨t, t', hrun, hseal⟩
  exact ⟨t, t', hrun, hseal, sealed_layout_wellFormed hrun hseal (by decide) (by decide)⟩

end Kcs
