import Kcs.Types.Anonymous
import Kcs.Types.Conversion
import Kcs.Types.Pointer
import Kcs.Types.Uniqueness

/-!
# Object sizes

Sizes are computed in the arithmetic of `size_t`, and so are the guards that keep objects below
`LLONG_MAX`.  The reference is the same computation on natural numbers, which refuses every object
that is larger.

Main results:

- Theorem {lit}`object_sizes_exact`: when arrays are accepted as they should be, and when sizes are
  the mathematical ones.
-/

namespace Kcs

open Option List

/-! ## The reference -/

namespace Exact

/-- The size of a type, without a bound. -/
def sizeOfAux (types : TypeTable) : Nat → CType → Option Nat
  | fuel, type =>
    match type.typeOf with
    | .array =>
      match fuel with
      | 0 => none
      | fuel + 1 =>
        (getTypetreeHandle types type.ref).bind fun t =>
          (sizeOfAux types fuel t.next).map fun n => t.size * n
    | _ => Kcs.sizeOfAux types fuel type

/-- The size of a type. -/
def sizeOf (types : TypeTable) (type : CType) : Option Nat :=
  sizeOfAux types types.length type

/-- An array is refused when it is larger than the limit. -/
def typeCreateArray (types : TypeTable) (next : CType) (count : Nat) :
    Option (CType × TypeTable) :=
  (sizeOf types next).bind fun size =>
    if count * size > longlongMax then none
    else typeCreateWith types .array fun t => { t with size := count, next := next }

/-- The calls of the constructors. -/
def typeOpStep (types : TypeTable) : TypeOp → Option (CType × TypeTable)
  | .array next count => typeCreateArray types next count
  | op => Kcs.typeOpStep types op

/-- An aggregate gets a new size, which must be within the limit. -/
def resize (t : Typetree) (size : Nat) : Except LayoutError Typetree :=
  if longlongMax < size then .error .tooLarge else .ok { t with size := size }

/-- The end of `add_member`. -/
def growAggregate (types : TypeTable) (t : Typetree) (m : Member) :
    Except LayoutError Typetree := do
  let size ← orAbort (sizeOf types m.type)
  let t ← checkComplete t m size
  let flexible ← orAbort (Kcs.isFlexible types m.type)
  let t ← checkFlexible t flexible
  resize t (max t.size (m.offset + size))

/-- `add_member` -/
def addMember (types : TypeTable) (t : Typetree) (m : Member) :
    Except LayoutError Typetree :=
  if m.name = "..." then
    if t.type = .function && !t.isVararg && !t.isIncomplete then
      .ok { t with isVararg := true }
    else .error .aborted
  else if m.name ≠ "" && t.members.any (·.name = m.name) then
    .error (.memberExists m.name)
  else
    let t := { t with members := t.members ++ [m] }
    if t.type = .struct || t.type = .union then growAggregate types t m
    else .ok { t with isIncomplete := m.type.type = .placeholder }

/-- `adjust_member_alignment` -/
def adjustMemberAlignment (types : TypeTable) (t : Typetree) (type : CType) :
    Except LayoutError (Typetree × Nat) :=
  if t.type = .struct then do
    let align ← orAbort (typeAlignment types type)
    if align = 0 then .error .aborted
    else do
      let t ← resize t (roundUp t.size align)
      .ok (t, t.size)
  else .ok (t, 0)

/-- `type_add_member` -/
def typeAddMember (types : TypeTable) (t : Typetree) (name : String) (type : CType) :
    Except LayoutError Typetree := do
  let (t, offset) ←
    if t.type = .function then .ok (t, 0) else adjustMemberAlignment types t type
  addMember types t { name := name, type := type, offset := offset }

/-- The size that `reset_field_alignment` leaves. -/
def padSize (t : Typetree) (clearSize : Nat) : Except LayoutError Typetree :=
  resize t (if t.size < clearSize then clearSize else t.size + t.size % clearSize)

/-- `reset_field_alignment` -/
def resetFieldAlignment (types : TypeTable)
    (addField : Typetree → CType → Nat → Except LayoutError Typetree)
    (t : Typetree) (clear : CType) : Except LayoutError Typetree :=
  match t.members.getLast? with
  | none => .ok t
  | some m => do
    let clearSize ← orAbort (Kcs.sizeOf types clear)
    let t ← padLastField addField t m (clearSize * 8)
    padSize t clearSize

/-- `type_add_field`, up to the field itself. -/
def placeField (types : TypeTable) (t : Typetree) (name : String) (type : CType)
    (width : Nat) : Except LayoutError (Option (Typetree × Member)) :=
  if !(t.type = .struct || t.type = .union) || !type.isInteger then .error .aborted
  else do
    let size ← orAbort (Kcs.sizeOf types type)
    if width > size * 8 ∨ (type.isBool ∧ width > 1) then .error (.fieldTooWide width type)
    else if name ≠ "" ∧ width = 0 then .error (.zeroLengthField name)
    else if t.type = .union ∧ name = "" then .ok none
    else
      let m : Member :=
        { name := name, type := type, fieldWidth := width, fieldBacking := size * 8 }
      if t.type = .struct then
        match packFieldMember t m with
        | some placed => .ok (some placed)
        | none => do
          let (t, offset) ← adjustMemberAlignment types t type
          .ok (some (t, { m with offset := offset }))
      else .ok (some (t, m))

/-- `type_add_field`, with a bound on nested calls. -/
def typeAddFieldAux (types : TypeTable) : Nat → Typetree → String → CType → Nat →
    Except LayoutError Typetree
  | 0, _, _, _, _ => .error .aborted
  | fuel + 1, t, name, type, width => do
    match ← placeField types t name type width with
    | none => .ok t
    | some (t, m) =>
      if width = 0 then
        resetFieldAlignment types (fun t type width => typeAddFieldAux types fuel t "" type width)
          t type
      else addMember types t m

/-- `type_add_field` -/
def typeAddField (types : TypeTable) (t : Typetree) (name : String) (type : CType)
    (width : Nat) : Except LayoutError Typetree :=
  typeAddFieldAux types 3 t name type width

/-- `type_add_anonymous_member` -/
def typeAddAnonymousMember (types : TypeTable) (t : Typetree) (type : CType) :
    Except LayoutError Typetree :=
  if !(t.type = .struct || t.type = .union) || !type.isStructOrUnion then .error .aborted
  else do
    let e ← orAbort (getTypetreeHandle types type.ref)
    if t.type = .struct && type.isUnion then do
      let (t, offset) ← adjustMemberAlignment types t type
      e.members.foldlM (fun t m => addMember types t { m with offset := m.offset + offset }) t
    else if t.type = .union && type.isStruct then e.members.foldlM (addMember types) t
    else e.members.foldlM (fun t m => typeAddMember types t m.name m.type) t

/-- `type_seal` -/
def typeSeal (types : TypeTable) (t : Typetree) : Except LayoutError Typetree :=
  if t.type = .function then .ok { t with isIncomplete := false }
  else do
    let (t, align) ← removeAnonymousFields types t
    if align = 0 then .error (.noNamedMembers (t.type = .struct))
    else resize t (roundUp t.size align)

end Exact

/-! ## Sizes of types -/

section Sizes

variable {types : TypeTable} {type : CType} {n : Nat}

/-- The numbers in the table are values of `size_t`. -/
def Stored (types : TypeTable) : Prop := ∀ t ∈ types, t.size < sizeModulus

theorem Stored.getTypetreeHandle (h : Stored types) {ref : Int} {t : Typetree}
    (ht : getTypetreeHandle types ref = some t) : t.size < sizeModulus := by
  simp only [Kcs.getTypetreeHandle, bind_eq_some_iff] at ht
  rcases ht with ⟨i, -, hi⟩
  exact h t (mem_of_getElem? hi)

theorem sizeOfAux_lt (h : Stored types) {fuel : Nat} (hkind : type.typeOf ≠ .array)
    (hn : sizeOfAux types fuel type = some n) : n < sizeModulus := by
  unfold sizeOfAux at hn
  cases htype : type.typeOf <;> rw [htype] at hn hkind <;> first
    | exact absurd rfl hkind
    | (rcases map_eq_some_iff.mp hn with ⟨t, ht, rfl⟩
       exact h.getTypetreeHandle ht)
    | (cases hn
       decide)

theorem sizeOfAux_eq_mod (h : Stored types) {fuel : Nat}
    (hn : Exact.sizeOfAux types fuel type = some n) :
    sizeOfAux types fuel type = some (n % sizeModulus) := by
  induction fuel generalizing type n with
  | zero =>
    unfold Exact.sizeOfAux at hn
    split at hn
    · cases hn
    · rename_i hkind
      rw [Nat.mod_eq_of_lt (sizeOfAux_lt h hkind hn)]
      exact hn
  | succ fuel ih =>
    unfold Exact.sizeOfAux at hn
    split at hn
    · rename_i hkind
      rcases bind_eq_some_iff.mp hn with ⟨t, ht, hn⟩
      rcases map_eq_some_iff.mp hn with ⟨k, hk, rfl⟩
      rw [sizeOfAux, hkind]
      simp only [ht, bind_some, ih hk, map_some, Nat.mul_mod_mod]
    · rename_i hkind
      rw [Nat.mod_eq_of_lt (sizeOfAux_lt h hkind hn)]
      exact hn

theorem sizeOf_eq_mod (h : Stored types) (hn : Exact.sizeOf types type = some n) :
    sizeOf types type = some (n % sizeModulus) :=
  sizeOfAux_eq_mod h hn

theorem sizeOf_eq_iff (h : Stored types) (hn : Exact.sizeOf types type = some n) :
    sizeOf types type = some n ↔ n < sizeModulus := by
  rw [sizeOf_eq_mod h hn, some.injEq]
  constructor
  · intro heq
    rw [← heq]
    exact Nat.mod_lt n (by decide)
  · exact Nat.mod_eq_of_lt

end Sizes

/-! ## Calls within the limit -/

section Calls

variable {types types' : TypeTable} {t t' : Typetree} {type : CType} {m : Member}

theorem longlongMax_lt : longlongMax < sizeModulus := by decide

theorem Exact.resize_eq_ok_iff {size : Nat} :
    Exact.resize t size = .ok t' ↔ size ≤ longlongMax ∧ t' = { t with size := size } := by
  unfold Exact.resize
  split
  · rename_i h
    simp [not_le.mpr h]
  · rename_i h
    simp [not_lt.mp h, eq_comm]

theorem growAggregate_of_exact (hstored : Stored types)
    (h : Exact.growAggregate types t m = .ok t') :
    growAggregate types t m = .ok t' ∧ t'.size ≤ longlongMax := by
  simp only [Exact.growAggregate, Except.bind_eq_ok_iff, orAbort_eq_ok_iff,
    Exact.resize_eq_ok_iff] at h
  rcases h with ⟨n, hn, t₁, ht₁, flexible, hflexible, t₂, ht₂, hmax, rfl⟩
  have hend : m.offset + n ≤ longlongMax := (le_max_right _ _).trans hmax
  have hsize : sizeOf types m.type = some n :=
    (sizeOf_eq_iff hstored hn).mpr (by have := longlongMax_lt; omega)
  refine ⟨?_, hmax⟩
  simp only [growAggregate, Except.bind_eq_ok_iff, orAbort_eq_ok_iff]
  refine ⟨n, hsize, t₁, ht₁, flexible, hflexible, t₂, ht₂, ?_⟩
  have hguard : ¬ (longlongMax + sizeModulus - m.offset) % sizeModulus < n := by
    unfold longlongMax sizeModulus at *
    omega
  have hmod : (m.offset + n) % sizeModulus = m.offset + n :=
    Nat.mod_eq_of_lt (hend.trans_lt longlongMax_lt)
  rw [commitSize, if_neg hguard, hmod]
  split
  · rename_i hlt
    rw [max_eq_right hlt.le]
  · rename_i hle
    rw [max_eq_left (not_lt.mp hle)]

theorem addMember_of_exact (hstored : Stored types) (ht : t.size < sizeModulus)
    (h : Exact.addMember types t m = .ok t') :
    addMember types t m = .ok t' ∧ t'.size < sizeModulus := by
  unfold Exact.addMember at h
  unfold addMember
  split at h
  · split at h
    · cases h
      rename_i hname hkind
      rw [if_pos hname, if_pos hkind]
      exact ⟨rfl, ht⟩
    · cases h
  · split at h
    · cases h
    · rename_i hname hfresh
      rw [if_neg hname, if_neg hfresh]
      dsimp only at h ⊢
      split at h
      · rename_i hkind
        rcases growAggregate_of_exact hstored h with ⟨hgrow, hle⟩
        refine ⟨?_, hle.trans_lt longlongMax_lt⟩
        rw [← hgrow]
        exact if_pos hkind
      · rename_i hkind
        cases h
        exact ⟨if_neg hkind, ht⟩

theorem adjustMemberAlignment_of_exact {offset : Nat} (ht : t.size < sizeModulus)
    (h : Exact.adjustMemberAlignment types t type = .ok (t', offset)) :
    adjustMemberAlignment types t type = .ok (t', offset) ∧ t'.size < sizeModulus := by
  unfold Exact.adjustMemberAlignment at h
  unfold adjustMemberAlignment
  split at h
  · rename_i hstruct
    rw [if_pos hstruct]
    simp only [Except.bind_eq_ok_iff, orAbort_eq_ok_iff] at h ⊢
    rcases h with ⟨a, ha, h⟩
    split at h
    · cases h
    · rename_i hpos
      simp only [Except.bind_eq_ok_iff, Exact.resize_eq_ok_iff] at h
      rcases h with ⟨t₁, ⟨hle, rfl⟩, h⟩
      cases h
      have hlt := hle.trans_lt longlongMax_lt
      have hmod := Nat.mod_eq_zero_of_dvd (dvd_roundUp (Nat.pos_of_ne_zero hpos) t.size)
      refine ⟨⟨a, ha, ?_⟩, hlt⟩
      rw [if_neg hpos, padTo_eq_roundUp hlt, if_neg (not_not.mpr hmod)]
  · rename_i hstruct
    cases h
    exact ⟨if_neg hstruct, ht⟩

theorem typeAddMember_of_exact {name : String} (hstored : Stored types)
    (ht : t.size < sizeModulus) (h : Exact.typeAddMember types t name type = .ok t') :
    typeAddMember types t name type = .ok t' ∧ t'.size < sizeModulus := by
  by_cases hfunction : t.type = .function
  · simp only [Exact.typeAddMember, typeAddMember, hfunction, if_true] at h ⊢
    exact addMember_of_exact hstored ht h
  · simp only [Exact.typeAddMember, typeAddMember, hfunction, if_false,
      Except.bind_eq_ok_iff] at h ⊢
    rcases h with ⟨⟨t₁, offset⟩, hadjust, hadd⟩
    rcases adjustMemberAlignment_of_exact ht hadjust with ⟨hadjust', ht₁⟩
    rcases addMember_of_exact hstored ht₁ hadd with ⟨hadd', hlt⟩
    exact ⟨⟨_, hadjust', hadd'⟩, hlt⟩

theorem packFieldMember_size {field : Member} (h : packFieldMember t field = some (t', m)) :
    t'.size = t.size := by
  rcases packFieldMember_spec h with ⟨-, -, -, last, -, -, -, -, -, ⟨-, rfl⟩ | ⟨-, -, rfl⟩⟩
  · rfl
  · rfl

theorem placeField_of_exact {name : String} {width : Nat} {r : Option (Typetree × Member)}
    (ht : t.size < sizeModulus) (h : Exact.placeField types t name type width = .ok r) :
    placeField types t name type width = .ok r ∧
      ∀ t' m, r = some (t', m) → t'.size < sizeModulus := by
  unfold Exact.placeField at h
  unfold placeField
  split at h
  · cases h
  · rename_i hkind
    rw [if_neg hkind]
    simp only [Except.bind_eq_ok_iff, orAbort_eq_ok_iff] at h ⊢
    rcases h with ⟨n, hn, h⟩
    split at h
    · cases h
    · rename_i hwidth
      split at h
      · cases h
      · rename_i hname
        split at h
        · rename_i hunion
          cases h
          refine ⟨⟨n, hn, ?_⟩, (by rintro _ _ ⟨⟩)⟩
          rw [if_neg hwidth, if_neg hname, if_pos hunion]
        · rename_i hunion
          split at h
          · rename_i hstruct
            split at h
            · rename_i placed hpack
              cases h
              refine ⟨⟨n, hn, ?_⟩, ?_⟩
              · rw [if_neg hwidth, if_neg hname, if_neg hunion, if_pos hstruct, hpack]
              · rintro t' m heq
                cases heq
                rw [packFieldMember_size hpack]
                exact ht
            · rename_i hpack
              simp only [Except.bind_eq_ok_iff] at h
              rcases h with ⟨⟨t₁, offset⟩, hadjust, h⟩
              cases h
              rcases adjustMemberAlignment_of_exact ht hadjust with ⟨hadjust', hlt⟩
              refine ⟨⟨n, hn, ?_⟩, ?_⟩
              · rw [if_neg hwidth, if_neg hname, if_neg hunion, if_pos hstruct, hpack]
                simp only [hadjust']
                rfl
              · rintro t' m heq
                cases heq
                exact hlt
          · rename_i hstruct
            cases h
            refine ⟨⟨n, hn, ?_⟩, ?_⟩
            · rw [if_neg hwidth, if_neg hname, if_neg hunion, if_neg hstruct]
            · rintro t' m heq
              cases heq
              exact ht

theorem padSize_of_exact {c : Nat} (h : Exact.padSize t c = .ok t') :
    padSize t c = t' ∧ t'.size < sizeModulus := by
  rcases Exact.resize_eq_ok_iff.mp h with ⟨hle, rfl⟩
  have hlt := hle.trans_lt longlongMax_lt
  refine ⟨?_, hlt⟩
  unfold padSize
  by_cases hsmall : t.size < c
  · rw [if_pos hsmall, if_pos hsmall]
  · rw [if_neg hsmall] at hlt ⊢
    rw [if_neg hsmall]
    split
    · rw [Nat.mod_eq_of_lt hlt]
    · rename_i hzero
      rw [not_not.mp hzero]
      rfl

theorem resetFieldAlignment_of_exact
    {exactField addField : Typetree → CType → Nat → Except LayoutError Typetree}
    (hfield : ∀ t type width t', t.size < sizeModulus → exactField t type width = .ok t' →
      addField t type width = .ok t' ∧ t'.size < sizeModulus) (ht : t.size < sizeModulus)
    (h : Exact.resetFieldAlignment types exactField t type = .ok t') :
    resetFieldAlignment types addField t type = .ok t' ∧ t'.size < sizeModulus := by
  unfold Exact.resetFieldAlignment at h
  unfold resetFieldAlignment
  split at h
  · rename_i hnone
    cases h
    exact ⟨by simp [hnone], ht⟩
  · rename_i m hlast
    simp only [hlast, Except.bind_eq_ok_iff, orAbort_eq_ok_iff, Except.ok.injEq] at h ⊢
    rcases h with ⟨c, hc, t₁, hpad, hsize⟩
    rcases padSize_of_exact hsize with ⟨hsize', hlt⟩
    refine ⟨⟨c, hc, t₁, ?_, hsize'⟩, hlt⟩
    unfold padLastField at hpad ⊢
    split at hpad
    · rename_i hplain
      rw [if_pos hplain]
      exact hpad
    · rename_i hplain
      rw [if_neg hplain]
      simp only [Except.bind_eq_ok_iff] at hpad ⊢
      rcases hpad with ⟨backing, hbacking, hpad⟩
      refine ⟨backing, hbacking, ?_⟩
      have hstep := fun width h => (hfield t backing width t₁ ht h).1
      split_ifs at hpad ⊢ <;> first
        | exact hpad
        | exact hstep _ hpad

theorem foldlM_of_exact {f g : Typetree → Member → Except LayoutError Typetree}
    {I : Typetree → Prop}
    (hfg : ∀ t m t', I t → f t m = .ok t' → g t m = .ok t' ∧ I t') {ms : List Member}
    (ht : I t) (h : ms.foldlM f t = .ok t') : ms.foldlM g t = .ok t' ∧ I t' := by
  induction ms generalizing t with
  | nil =>
    cases h
    exact ⟨rfl, ht⟩
  | cons m ms ih =>
    rw [foldlM_cons, Except.bind_eq_ok_iff] at h
    rcases h with ⟨t₁, hm, hrest⟩
    rcases hfg t m t₁ ht hm with ⟨hm', ht₁⟩
    rcases ih ht₁ hrest with ⟨hrest', hlt⟩
    refine ⟨?_, hlt⟩
    rw [foldlM_cons, Except.bind_eq_ok_iff]
    exact ⟨t₁, hm', hrest'⟩

theorem typeAddFieldAux_of_exact (hstored : Stored types) {fuel : Nat} {name : String}
    {width : Nat} (ht : t.size < sizeModulus)
    (h : Exact.typeAddFieldAux types fuel t name type width = .ok t') :
    typeAddFieldAux types fuel t name type width = .ok t' ∧ t'.size < sizeModulus := by
  induction fuel generalizing t t' name type width with
  | zero => cases h
  | succ fuel ih =>
    unfold Exact.typeAddFieldAux at h
    unfold typeAddFieldAux
    simp only [Except.bind_eq_ok_iff] at h ⊢
    rcases h with ⟨placed, hplace, h⟩
    rcases placeField_of_exact ht hplace with ⟨hplace', hlt⟩
    cases placed with
    | none =>
      cases h
      exact ⟨⟨none, hplace', rfl⟩, ht⟩
    | some placed =>
      rcases placed with ⟨t₁, m⟩
      have ht₁ := hlt t₁ m rfl
      simp only at h
      split at h
      · rename_i hwidth
        rcases resetFieldAlignment_of_exact (fun t type width t' ht h => ih ht h) ht₁ h with
          ⟨hreset, hlt'⟩
        exact ⟨⟨_, hplace', (if_pos hwidth).trans hreset⟩, hlt'⟩
      · rename_i hwidth
        rcases addMember_of_exact hstored ht₁ h with ⟨hadd, hlt'⟩
        exact ⟨⟨_, hplace', (if_neg hwidth).trans hadd⟩, hlt'⟩

theorem Exact.offset_le_of_addMember (hstruct : t.type = .struct)
    (h : Exact.addMember types t m = .ok t') : m.offset ≤ longlongMax := by
  unfold Exact.addMember at h
  split at h
  · simp [hstruct] at h
  · split at h
    · cases h
    · simp only [hstruct, decide_true, Bool.true_or, if_true] at h
      simp only [Exact.growAggregate, Except.bind_eq_ok_iff, Exact.resize_eq_ok_iff] at h
      rcases h with ⟨n, -, t₁, -, flexible, -, t₂, -, hmax, -⟩
      exact (Nat.le_add_right _ n).trans ((le_max_right _ _).trans hmax)

theorem movedMember_of_exact {offset : Nat} (hstored : Stored types) (ht : t.size < sizeModulus)
    (hstruct : t.type = .struct)
    (h : Exact.addMember types t { m with offset := m.offset + offset } = .ok t') :
    addMember types t { m with offset := (m.offset + offset) % sizeModulus } = .ok t' ∧
      t'.size < sizeModulus ∧ t'.type = .struct := by
  rcases addMember_of_exact hstored ht h with ⟨hadd, hlt⟩
  have hend := (Exact.offset_le_of_addMember hstruct h).trans_lt longlongMax_lt
  simp only at hend
  rw [Nat.mod_eq_of_lt hend]
  exact ⟨hadd, hlt, (addMember_added hadd (Or.inl hstruct)).kind.trans hstruct⟩

theorem typeAddAnonymousMember_of_exact (hstored : Stored types) (ht : t.size < sizeModulus)
    (h : Exact.typeAddAnonymousMember types t type = .ok t') :
    typeAddAnonymousMember types t type = .ok t' ∧ t'.size < sizeModulus := by
  unfold Exact.typeAddAnonymousMember at h
  unfold typeAddAnonymousMember
  split at h
  · cases h
  · rename_i hkind
    rw [if_neg hkind]
    simp only [Except.bind_eq_ok_iff, orAbort_eq_ok_iff] at h ⊢
    rcases h with ⟨e, he, h⟩
    split at h
    · rename_i hcase
      have hstruct : t.type = .struct := by simp_all
      simp only [Except.bind_eq_ok_iff] at h
      rcases h with ⟨⟨t₁, offset⟩, hadjust, hloop⟩
      rcases adjustMemberAlignment_of_exact ht hadjust with ⟨hadjust', ht₁⟩
      have hstruct₁ : t₁.type = .struct := by
        rw [Exact.adjustMemberAlignment, if_pos hstruct] at hadjust
        simp only [Except.bind_eq_ok_iff, orAbort_eq_ok_iff] at hadjust
        rcases hadjust with ⟨a, -, hadjust⟩
        split at hadjust
        · cases hadjust
        · simp only [Except.bind_eq_ok_iff, Exact.resize_eq_ok_iff] at hadjust
          rcases hadjust with ⟨t₂, ⟨-, rfl⟩, hadjust⟩
          cases hadjust
          exact hstruct
      rcases foldlM_of_exact (I := fun t => t.size < sizeModulus ∧ t.type = .struct)
        (fun t m t' ht hm => movedMember_of_exact hstored ht.1 ht.2 hm) ⟨ht₁, hstruct₁⟩ hloop with
        ⟨hloop', hlt, -⟩
      refine ⟨⟨e, he, ?_⟩, hlt⟩
      rw [if_pos hcase, hadjust']
      exact hloop'
    · rename_i hcase
      split at h
      · rename_i hcase'
        rcases foldlM_of_exact (I := fun t => t.size < sizeModulus)
          (fun t m t' ht hm => addMember_of_exact hstored ht hm) ht h with ⟨hloop', hlt⟩
        exact ⟨⟨e, he, (if_neg hcase).trans ((if_pos hcase').trans hloop')⟩, hlt⟩
      · rename_i hcase'
        rcases foldlM_of_exact (I := fun t => t.size < sizeModulus)
          (fun t m t' ht hm => typeAddMember_of_exact hstored ht hm) ht h with ⟨hloop', hlt⟩
        exact ⟨⟨e, he, (if_neg hcase).trans ((if_neg hcase').trans hloop')⟩, hlt⟩

theorem typeSeal_of_exact (ht : t.size < sizeModulus) (h : Exact.typeSeal types t = .ok t') :
    typeSeal types t = .ok t' ∧ t'.size < sizeModulus := by
  unfold Exact.typeSeal at h
  unfold typeSeal
  split at h
  · rename_i hfunction
    cases h
    exact ⟨if_pos hfunction, ht⟩
  · rename_i hfunction
    rw [if_neg hfunction]
    simp only [Except.bind_eq_ok_iff] at h ⊢
    rcases h with ⟨⟨t₁, a⟩, hremove, h⟩
    simp only at h
    split at h
    · cases h
    · rename_i hpos
      rcases Exact.resize_eq_ok_iff.mp h with ⟨hle, rfl⟩
      have hlt := hle.trans_lt longlongMax_lt
      refine ⟨⟨_, hremove, ?_⟩, hlt⟩
      simp only [if_neg hpos, padTo_eq_roundUp hlt]

end Calls

/-! ## Building types -/

/-- A call that creates a type or completes one. -/
inductive BuildOp
  | construct (op : TypeOp)
  | grow (type : CType) (op : LayoutOp)
  | anonymous (type inner : CType)
  | complete (type : CType)
  | setLength (type : CType) (length : Nat)
deriving DecidableEq, Repr

/-- The numbers that are passed are values of `size_t`. -/
def BuildOp.InRange : BuildOp → Prop
  | .construct (.array _ count) => count < sizeModulus
  | .setLength _ length => length < sizeModulus
  | _ => True

/-- Change the entry of a type. -/
def updateEntry (types : TypeTable) (type : CType)
    (f : Typetree → Except LayoutError Typetree) : Option TypeTable :=
  (getTypetreeHandle types type.ref).bind fun t =>
    (f t).toOption.bind fun t' => setTypetree types type.ref t'

/-- Perform one call, {lit}`none` when it aborts or exits with an error. -/
def buildStep (types : TypeTable) : BuildOp → Option TypeTable
  | .construct op => (typeOpStep types op).map (·.2)
  | .grow type op => updateEntry types type fun t => layoutStep types t op
  | .anonymous type inner => updateEntry types type fun t => typeAddAnonymousMember types t inner
  | .complete type => updateEntry types type (typeSeal types)
  | .setLength type length => setArrayLength types type length

/-- A call that grows a struct, within the limit. -/
def Exact.layoutStep (types : TypeTable) (t : Typetree) : LayoutOp → Except LayoutError Typetree
  | .member name type => Exact.typeAddMember types t name type
  | .field name type width => Exact.typeAddField types t name type width

/-- Perform one call within the limit. -/
def Exact.buildStep (types : TypeTable) : BuildOp → Option TypeTable
  | .construct op => (Exact.typeOpStep types op).map (·.2)
  | .grow type op => updateEntry types type fun t => Exact.layoutStep types t op
  | .anonymous type inner =>
    updateEntry types type fun t => Exact.typeAddAnonymousMember types t inner
  | .complete type => updateEntry types type (Exact.typeSeal types)
  | .setLength type length => setArrayLength types type length

section Building

variable {types types' : TypeTable} {type : CType}

theorem Stored.set (h : Stored types) {ref : Int} {t : Typetree}
    (hset : setTypetree types ref t = some types') (ht : t.size < sizeModulus) :
    Stored types' := by
  rcases map_eq_some_iff.mp hset with ⟨i, -, rfl⟩
  intro x hx
  rcases mem_or_eq_of_mem_set hx with hx | rfl
  · exact h x hx
  · exact ht

theorem zero_lt_sizeModulus : 0 < sizeModulus := by decide

section

variable (h : Stored types)
include h

theorem Stored.append {t : Typetree} (ht : t.size < sizeModulus) :
    Stored (types ++ [t]) := by
  intro x hx
  rcases mem_append.mp hx with hx | hx
  · exact h x hx
  · rwa [mem_singleton.mp hx]

theorem Stored.typeCreateWith {tt : TypeKind} {fill : Typetree → Typetree}
    (hcreate : typeCreateWith types tt fill = some (type, types'))
    (hfill : ∀ t, t.size < sizeModulus → (fill t).size < sizeModulus) : Stored types' := by
  simp only [Kcs.typeCreateWith, bind_eq_some_iff, map_eq_some_iff, Prod.mk.injEq] at hcreate
  rcases hcreate with ⟨t, ht, types₁, hset, -, rfl⟩
  have happend : Stored (typeCreate types tt).2 := h.append zero_lt_sizeModulus
  exact happend.set hset (hfill t (happend.getTypetreeHandle ht))

theorem stored_updateEntry {f g : Typetree → Except LayoutError Typetree}
    (hfg : ∀ t t', t.size < sizeModulus → f t = .ok t' → g t = .ok t' ∧ t'.size < sizeModulus)
    (hstep : updateEntry types type f = some types') :
    updateEntry types type g = some types' ∧ Stored types' := by
  simp only [updateEntry, bind_eq_some_iff] at hstep ⊢
  rcases hstep with ⟨t, ht, t', ht', hset⟩
  have hf : f t = .ok t' := by
    cases hf : f t with
    | error e =>
      rw [hf] at ht'
      cases ht'
    | ok t₁ =>
      rw [hf] at ht'
      cases ht'
      rfl
  rcases hfg t t' (h.getTypetreeHandle ht) hf with ⟨hg, hlt⟩
  exact ⟨⟨t, ht, t', by rw [hg]; rfl, hset⟩, h.set hset hlt⟩

theorem Stored.typeCreateArray {next : CType} {count : Nat}
    (hcount : count < sizeModulus) (hstep : typeCreateArray types next count = some (type, types')) :
    Stored types' := by
  rcases bind_eq_some_iff.mp hstep with ⟨size, -, hstep⟩
  split at hstep
  · cases hstep
  · exact h.typeCreateWith hstep fun _ _ => hcount

theorem Stored.typeOpStep {op : TypeOp}
    (hop : (BuildOp.construct op).InRange) (hstep : typeOpStep types op = some (type, types')) :
    Stored types' := by
  cases op with
  | create tt =>
    cases hstep
    exact h.append zero_lt_sizeModulus
  | pointer next =>
    simp only [Kcs.typeOpStep, typeCreatePointer] at hstep
    split at hstep
    · exact h.typeCreateWith hstep fun _ ht => ht
    · cases hstep
      exact h
  | function next =>
    rw [Kcs.typeOpStep, typeCreateFunction] at hstep
    exact h.typeCreateWith hstep fun _ ht => ht
  | array next count =>
    rw [Kcs.typeOpStep] at hstep
    exact h.typeCreateArray hop hstep
  | incomplete next =>
    rw [Kcs.typeOpStep, typeCreateIncomplete] at hstep
    exact h.typeCreateWith hstep fun _ ht => ht
  | vla next count =>
    simp only [Kcs.typeOpStep, typeCreateVla, bind_eq_some_iff, map_eq_some_iff,
      Prod.exists, Prod.mk.injEq] at hstep
    rcases hstep with ⟨type', types₁, harray, t, ht, types₂, hset, -, rfl⟩
    have h₁ := h.typeCreateArray zero_lt_sizeModulus harray
    exact h₁.set hset (show t.size < sizeModulus from h₁.getTypetreeHandle ht)
  | copyIncomplete next =>
    simp only [Kcs.typeOpStep, typeCopyIncomplete, bind_eq_some_iff,
      map_eq_some_iff, Prod.mk.injEq] at hstep
    rcases hstep with ⟨tb, htb, tn, -, types₂, hset, -, rfl⟩
    have h₁ : Stored (typeCreate types next.type).2 := h.append zero_lt_sizeModulus
    exact h₁.set hset (show tb.size < sizeModulus from h₁.getTypetreeHandle htb)

theorem typeCreateArray_of_exact {next : CType} {count : Nat}
    (hstep : Exact.typeCreateArray types next count = some (type, types')) :
    typeCreateArray types next count = some (type, types') := by
  rcases bind_eq_some_iff.mp hstep with ⟨size, hsize, hstep⟩
  split at hstep
  · cases hstep
  · rename_i hlimit
    have hle := not_lt.mp hlimit
    have hproduct : count * (size % sizeModulus) % sizeModulus = count * size := by
      rw [Nat.mul_mod_mod]
      exact Nat.mod_eq_of_lt (hle.trans_lt longlongMax_lt)
    rw [typeCreateArray, sizeOf_eq_mod h hsize, bind_some, hproduct, if_neg hlimit]
    exact hstep

theorem typeOpStep_of_exact {op : TypeOp}
    (hstep : Exact.typeOpStep types op = some (type, types')) :
    typeOpStep types op = some (type, types') := by
  cases op with
  | array next count => exact typeCreateArray_of_exact h hstep
  | _ => exact hstep

theorem buildStep_of_exact {op : BuildOp} (hop : op.InRange)
    (hstep : Exact.buildStep types op = some types') :
    buildStep types op = some types' ∧ Stored types' := by
  cases op with
  | construct op =>
    rw [Exact.buildStep] at hstep
    rcases map_eq_some_iff.mp hstep with ⟨⟨type, types₁⟩, hcreate, rfl⟩
    have hstep' := typeOpStep_of_exact h hcreate
    exact ⟨map_eq_some_iff.mpr ⟨_, hstep', rfl⟩, h.typeOpStep hop hstep'⟩
  | grow type op =>
    refine stored_updateEntry h (fun t t' ht hgrow => ?_) hstep
    cases op with
    | member name type => exact typeAddMember_of_exact h ht hgrow
    | field name type width => exact typeAddFieldAux_of_exact h ht hgrow
  | anonymous type inner =>
    exact stored_updateEntry h (fun t t' ht => typeAddAnonymousMember_of_exact h ht) hstep
  | complete type => exact stored_updateEntry h (fun t t' ht => typeSeal_of_exact ht) hstep
  | setLength type length =>
    refine ⟨hstep, ?_⟩
    rw [Exact.buildStep, setArrayLength] at hstep
    split at hstep
    · rcases bind_eq_some_iff.mp hstep with ⟨t, -, hset⟩
      split at hset
      · exact h.set hset hop
      · cases hset
    · cases hstep

theorem buildRun_of_exact {ops : List BuildOp} (hops : ∀ op ∈ ops, op.InRange)
    (hrun : ops.foldlM Exact.buildStep types = some types') :
    ops.foldlM buildStep types = some types' ∧ Stored types' := by
  induction ops generalizing types with
  | nil =>
    cases hrun
    exact ⟨rfl, h⟩
  | cons op ops ih =>
    rw [foldlM_cons] at hrun
    rcases bind_eq_some_iff.mp hrun with ⟨types₁, hstep, hrest⟩
    rcases buildStep_of_exact h (hops op mem_cons_self) hstep with ⟨hstep', h₁⟩
    rcases ih h₁ (fun x hx => hops x (mem_cons_of_mem _ hx)) hrest with ⟨hrest', h'⟩
    refine ⟨?_, h'⟩
    rw [foldlM_cons]
    exact bind_eq_some_iff.mpr ⟨types₁, hstep', hrest'⟩

end

end Building

/-! ## Exactness -/

/-- An array is accepted exactly when its mathematical size is within the limit. -/
def AcceptsExactly (types : TypeTable) (next : CType) (count size : Nat) : Prop :=
  (∃ created, typeCreateArray types next count = some created) ↔ count * size ≤ longlongMax

/-- The product wraps around to a size within the limit. -/
def WrapsBelowLimit (count size : Nat) : Prop :=
  sizeModulus ≤ count * size ∧ count * size % sizeModulus ≤ longlongMax

theorem acceptsExactly_iff {types : TypeTable} {next : CType} {count size : Nat}
    (hroom : types.length < 32767) (hsize : sizeOf types next = some size) :
    AcceptsExactly types next count size ↔ ¬ WrapsBelowLimit count size := by
  have haccepts : (∃ created, typeCreateArray types next count = some created) ↔
      count * size % sizeModulus ≤ longlongMax := by
    rw [typeCreateArray, hsize, bind_some]
    split
    · rename_i hlarge
      simp [not_le.mpr hlarge]
    · rename_i hsmall
      rw [typeCreateWith_eq hroom]
      simp [not_lt.mp hsmall]
  rw [AcceptsExactly, haccepts, WrapsBelowLimit]
  have hlimit := longlongMax_lt
  rcases Nat.lt_or_ge (count * size) sizeModulus with hlt | hge
  · rw [Nat.mod_eq_of_lt hlt]
    simp [not_le.mpr hlt]
  · have hfar : ¬ count * size ≤ longlongMax := by omega
    simp [hge, hfar]

/-- Arrays are accepted as they should be unless the product wraps around to a size within the limit.
In a run of calls that stay within the limit, `size_of` is the mathematical size of every type that
is smaller than the address range. -/
theorem object_sizes_exact (types : TypeTable) :
    (∀ (next : CType) (count size : Nat), types.length < 32767 →
      sizeOf types next = some size →
        (AcceptsExactly types next count size ↔ ¬ WrapsBelowLimit count size)) ∧
    ∀ ops : List BuildOp, (∀ op ∈ ops, op.InRange) →
      ops.foldlM Exact.buildStep [] = some types →
        ops.foldlM buildStep [] = some types ∧
          ∀ (type : CType) (n : Nat), Exact.sizeOf types type = some n →
            (sizeOf types type = some n ↔ n < sizeModulus) := by
  refine ⟨fun next count size hroom hsize => acceptsExactly_iff hroom hsize, ?_⟩
  intro ops hops hrun
  have hempty : Stored [] := fun t ht => nomatch ht
  rcases buildRun_of_exact hempty hops hrun with ⟨hrun', hstored⟩
  exact ⟨hrun', fun type n hn => sizeOf_eq_iff hstored hn⟩

/-- The type `int[n]` in an empty table. -/
def intArray (n : Nat) : TypeTable := [{ type := .array, size := n, next := basicTypeInt }]

/-- `int[3]` is accepted, and its size is twelve. -/
theorem object_sizes_exact_intArray :
    AcceptsExactly [] basicTypeInt 3 4 ∧
      sizeOf (intArray 3) { type := .array, ref := 1 } = some 12 := by
  refine ⟨((object_sizes_exact []).1 basicTypeInt 3 4 (by decide) rfl).mpr ?_, ?_⟩
  · rintro ⟨hwrap, -⟩
    exact absurd hwrap (by decide)
  · refine (((object_sizes_exact (intArray 3)).2 [.construct (.array basicTypeInt 3)] ?_ rfl).2
      { type := .array, ref := 1 } 12 rfl).mpr (by decide)
    intro op hop
    rw [mem_singleton.mp hop]
    show 3 < sizeModulus
    decide

/-- `int[0x4000000000000001]` is accepted with size four. -/
theorem not_object_sizes_exact :
    typeCreateArray [] basicTypeInt (2 ^ 62 + 1) =
        some ({ type := .array, ref := 1 }, intArray (2 ^ 62 + 1)) ∧
      sizeOf [] basicTypeInt = some 4 ∧
      ¬ AcceptsExactly [] basicTypeInt (2 ^ 62 + 1) 4 ∧
      sizeOf (intArray (2 ^ 62 + 1)) { type := .array, ref := 1 } = some 4 ∧
      Exact.sizeOf (intArray (2 ^ 62 + 1)) { type := .array, ref := 1 } = some (2 ^ 64 + 4) := by
  have hcreate : typeCreateArray [] basicTypeInt (2 ^ 62 + 1) =
      some ({ type := .array, ref := 1 }, intArray (2 ^ 62 + 1)) := by decide
  refine ⟨hcreate, rfl, ?_, by decide, by decide⟩
  intro hexact
  exact absurd (hexact.mp ⟨_, hcreate⟩) (by decide)

end Kcs
