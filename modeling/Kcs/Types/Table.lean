import Kcs.Types.Handle

/-!
# The type table

`typetree.c` keeps every function, array, aggregate and deeper pointer type in
one growing list.  A handle names an entry by its position counted from one.
This module embeds the table, the access function, `size_of`, the constructors
and the pointer dereference.

A constructor that aborts on an assertion or exits with an error returns
{lit}`none`.

Main results:

- Lemma {lit}`typeCreate_length`: creating a type appends one entry.
- Lemma {lit}`typetreeIndex_eq_some_iff`: which slot of the table a reference
  selects.
-/

namespace Kcs

open Option

/-- A symbol of the compiler, by the number that tells it from all others. -/
abbrev SymbolId := Nat

/-- `struct member`: a parameter, or a struct or union member. -/
structure Member where
  name : String
  type : CType
  offset : Nat := 0
  fieldWidth : Nat := 0
  fieldOffset : Nat := 0
  fieldBacking : Nat := 0
deriving DecidableEq, Repr, Inhabited

/-- `struct typetree`.  The tag is left out: only diagnostics read it. -/
structure Typetree where
  type : TypeKind
  isUnsigned : Bool := false
  isConst : Bool := false
  isVolatile : Bool := false
  isRestrict : Bool := false
  isVararg : Bool := false
  isFlexible : Bool := false
  isVla : Bool := false
  isIncomplete : Bool := false
  size : Nat := 0
  vlen : Option SymbolId := none
  members : List Member := []
  next : CType := { type := .void }
deriving DecidableEq, Repr, Inhabited

/-- The global list `types`. -/
abbrev TypeTable := List Typetree

/-! ## Entry access -/

/-- Slot of the list that `get_typetree_handle` selects, {lit}`none` when one of
its two assertions fails. -/
def typetreeIndex (types : TypeTable) (ref : Int) : Option Nat :=
  if 0 < ref ∧ ref ≤ types.length then some (ref - 1).toNat else none

/-- `get_typetree_handle` -/
def getTypetreeHandle (types : TypeTable) (ref : Int) : Option Typetree :=
  (typetreeIndex types ref).bind fun i => types[i]?

/-- Update in place through the pointer that `get_typetree_handle` returns. -/
def setTypetree (types : TypeTable) (ref : Int) (t : Typetree) : Option TypeTable :=
  (typetreeIndex types ref).map fun i => types.set i t

variable {types : TypeTable} {ref : Int}

/-- A reference selects a slot exactly when it is one more than its index. -/
theorem typetreeIndex_eq_some_iff {i : Nat} :
    typetreeIndex types ref = some i ↔ ref = (i : Int) + 1 ∧ i < types.length := by
  unfold typetreeIndex
  split
  · rename_i h
    simp only [some.injEq]
    omega
  · rename_i h
    simp only [reduceCtorEq, false_iff]
    omega

@[simp]
theorem typetreeIndex_set (types : TypeTable) (i : Nat) (t : Typetree) (ref : Int) :
    typetreeIndex (types.set i t) ref = typetreeIndex types ref := by
  simp [typetreeIndex]

variable {types' : TypeTable}

theorem setTypetree_length {t : Typetree}
    (h : setTypetree types ref t = some types') : types'.length = types.length := by
  simp only [setTypetree, map_eq_some_iff] at h
  obtain ⟨i, -, rfl⟩ := h
  simp

theorem setTypetree_isSome {t : Typetree}
    (h : getTypetreeHandle types ref = some t) (t' : Typetree) :
    ∃ types', setTypetree types ref t' = some types' := by
  simp only [getTypetreeHandle, bind_eq_some_iff] at h
  obtain ⟨i, hi, -⟩ := h
  exact ⟨types.set i t', by simp [setTypetree, hi]⟩

/-! ## Sizes -/

/-- Number of values of `size_t`. -/
def sizeModulus : Nat := 2 ^ 64

/-- `LONGLONG_MAX` -/
def longlongMax : Nat := 2 ^ 63 - 1

/-- `size_of`, with a bound on the depth of nested arrays. -/
def sizeOfAux (types : TypeTable) : Nat → CType → Option Nat
  | fuel, type =>
    match type.typeOf with
    | .bool | .char => some 1
    | .short => some 2
    | .int | .float => some 4
    | .long | .double | .pointer => some 8
    | .ldouble => some 16
    | .struct | .union => (getTypetreeHandle types type.ref).map (·.size)
    | .array =>
      match fuel with
      | 0 => none
      | fuel + 1 =>
        (getTypetreeHandle types type.ref).bind fun t =>
          (sizeOfAux types fuel t.next).map fun n => t.size * n % sizeModulus
    | _ => some 0

/-- `size_of`.  The bound is the number of entries: a longer chain of array
entries visits one of them twice, and then the recursion of the source does not
end. -/
def sizeOf (types : TypeTable) (type : CType) : Option Nat :=
  sizeOfAux types types.length type

/-- `PAD8` of `kcs.h`: the next multiple of eight, and at least eight. -/
def pad8 (size : Int) : Int :=
  if size < 8 then 8 else size + (8 - size % 8) % 8

/-- `is_flexible` -/
def isFlexible (types : TypeTable) (type : CType) : Option Bool :=
  if type.isStructOrUnion then (getTypetreeHandle types type.ref).map (·.isFlexible)
  else some false

/-! ## Constructors -/

/-- `type_create` -/
def typeCreate (types : TypeTable) (tt : TypeKind) : CType × TypeTable :=
  ({ type := tt, ref := refField (types.length + 1) }, types ++ [{ type := tt }])

/-- Create an entry of the given kind and fill it in, as each of the
constructors below does through `get_typetree_handle(type.ref)`. -/
def typeCreateWith (types : TypeTable) (tt : TypeKind) (fill : Typetree → Typetree) :
    Option (CType × TypeTable) :=
  let (type, types) := typeCreate types tt
  (getTypetreeHandle types type.ref).bind fun t =>
    (setTypetree types type.ref (fill t)).map fun types => (type, types)

/-- `type_create_pointer` -/
def typeCreatePointer (types : TypeTable) (next : CType) : Option (CType × TypeTable) :=
  if next.isPointer then
    typeCreateWith types .pointer fun t =>
      { t with
        isConst := next.isConstType
        isVolatile := next.isVolatileType
        next := { removeQualifiers next with isPointer := false } }
  else
    some ({ next with isPointer := true }, types)

/-- `type_create_function` -/
def typeCreateFunction (types : TypeTable) (next : CType) : Option (CType × TypeTable) :=
  typeCreateWith types .function fun t => { t with next := next, isIncomplete := true }

/-- `type_create_array` -/
def typeCreateArray (types : TypeTable) (next : CType) (count : Nat) :
    Option (CType × TypeTable) :=
  (sizeOf types next).bind fun size =>
    if count * size % sizeModulus > longlongMax then none
    else typeCreateWith types .array fun t => { t with size := count, next := next }

/-- `type_create_incomplete` -/
def typeCreateIncomplete (types : TypeTable) (next : CType) : Option (CType × TypeTable) :=
  typeCreateWith types .array fun t => { t with next := next, isIncomplete := true }

/-- `type_create_vla` -/
def typeCreateVla (types : TypeTable) (next : CType) (count : SymbolId) :
    Option (CType × TypeTable) :=
  (typeCreateArray types next 0).bind fun (type, types) =>
    (getTypetreeHandle types type.ref).bind fun t =>
      (setTypetree types type.ref { t with vlen := some count, isVla := true }).map
        fun types => (type, types)

/-- `type_copy_incomplete` -/
def typeCopyIncomplete (types : TypeTable) (type : CType) : Option (CType × TypeTable) :=
  let (tp, types) := typeCreate types type.type
  let tp := { type with ref := tp.ref }
  (getTypetreeHandle types type.ref).bind fun tb =>
    (getTypetreeHandle types tp.ref).bind fun _ =>
      (setTypetree types tp.ref { tb with isIncomplete := true }).map fun types => (tp, types)

@[simp]
theorem typeCreate_length (types : TypeTable) (tt : TypeKind) :
    (typeCreate types tt).2.length = types.length + 1 := by
  simp [typeCreate]

@[simp]
theorem typeCreate_ref (types : TypeTable) (tt : TypeKind) :
    (typeCreate types tt).1.ref = refField (types.length + 1) := by
  simp only [typeCreate]

variable {type : CType}

theorem typeCreateWith_eq_some {tt : TypeKind}
    {fill : Typetree → Typetree}
    (h : typeCreateWith types tt fill = some (type, types')) :
    type.ref = refField (types.length + 1) ∧ types'.length = types.length + 1 := by
  simp only [typeCreateWith, bind_eq_some_iff, map_eq_some_iff, Prod.mk.injEq] at h
  obtain ⟨t, -, types'', hset, htype, htypes⟩ := h
  subst htypes
  rw [← htype]
  exact ⟨typeCreate_ref types tt, by simpa using setTypetree_length hset⟩

theorem typeCreateArray_eq_some {next type : CType} {count : Nat}
    (h : typeCreateArray types next count = some (type, types')) :
    type.ref = refField (types.length + 1) ∧ types'.length = types.length + 1 := by
  simp only [typeCreateArray, bind_eq_some_iff] at h
  obtain ⟨size, -, h⟩ := h
  split at h
  · cases h
  · exact typeCreateWith_eq_some h

/-! ## Dereferencing and inner types -/

/-- `get_type_handle` -/
def getTypeHandle (types : TypeTable) (ref : Int) : Option CType :=
  (getTypetreeHandle types ref).bind fun t =>
    match t.type with
    | .pointer =>
      if t.next.isPointer then none
      else
        some
          { t.next with
            isPointer := true
            isPointerConst := t.isConst
            isPointerVolatile := t.isVolatile
            isPointerRestrict := t.isRestrict }
    | .function | .array | .struct | .union =>
      some
        { type := t.type, isUnsigned := t.isUnsigned, isVolatile := t.isVolatile,
          isConst := t.isConst, isRestrict := t.isRestrict, ref := ref }
    | _ =>
      some
        { type := t.type, isUnsigned := t.isUnsigned, isVolatile := t.isVolatile,
          isConst := t.isConst, isRestrict := t.isRestrict }

/-- `type_deref` -/
def typeDeref (types : TypeTable) (type : CType) : Option CType :=
  if type.isPointerType then
    if type.isPointer then some { removeQualifiers type with isPointer := false }
    else getTypeHandle types type.ref
  else none

/-- `type_next` -/
def typeNext (types : TypeTable) (type : CType) : Option CType :=
  if type.isPointerType then typeDeref types type
  else if type.isFunction || type.isArray then
    (getTypetreeHandle types type.ref).map (·.next)
  else none

/-! ## Alignment -/

/-- Largest alignment of a list of members, given the alignment of a type.  This
is the loop of `type_alignment` over the members of a struct or union. -/
def membersAlignment (alignment : CType → Option Nat) (members : List Member) : Option Nat :=
  members.foldlM (fun m member => (alignment member.type).map (max m)) 0

/-- `type_alignment`, with a bound on the nesting of arrays and aggregates. -/
def typeAlignmentAux (types : TypeTable) : Nat → CType → Option Nat
  | fuel, type =>
    match type.typeOf with
    | .function => none
    | .array =>
      match fuel with
      | 0 => none
      | fuel + 1 => (typeNext types type).bind fun next => typeAlignmentAux types fuel next
    | .struct | .union =>
      match fuel with
      | 0 => none
      | fuel + 1 =>
        (getTypetreeHandle types type.ref).bind fun t =>
          (membersAlignment (fun m => typeAlignmentAux types fuel m) t.members).bind fun m =>
            if m = 0 then none else some m
    | _ => sizeOf types type

/-- `type_alignment` -/
def typeAlignment (types : TypeTable) (type : CType) : Option Nat :=
  typeAlignmentAux types types.length type

theorem foldlM_alignment_le {alignment : CType → Option Nat} {bound : Nat}
    (h : ∀ type n, alignment type = some n → n ≤ bound) {members : List Member} {m₀ m : Nat}
    (hm₀ : m₀ ≤ bound)
    (hfold : members.foldlM (fun m member => (alignment member.type).map (max m)) m₀ = some m) :
    m ≤ bound := by
  induction members generalizing m₀ with
  | nil =>
    simp only [List.foldlM_nil, pure, some.injEq] at hfold
    omega
  | cons member members ih =>
    simp only [List.foldlM_cons, bind, bind_eq_some_iff, map_eq_some_iff] at hfold
    rcases hfold with ⟨_, ⟨n, hn, rfl⟩, hrest⟩
    exact ih (Nat.max_le.mpr ⟨hm₀, h _ _ hn⟩) hrest

theorem membersAlignment_le (alignment : CType → Option Nat) {bound m : Nat}
    (h : ∀ type n, alignment type = some n → n ≤ bound) {members : List Member}
    (hm : membersAlignment alignment members = some m) : m ≤ bound :=
  foldlM_alignment_le h (Nat.zero_le _) hm

theorem sizeOfAux_scalar_le {fuel n : Nat}
    (h : sizeOfAux types fuel type = some n)
    (hscalar : type.typeOf ≠ .struct ∧ type.typeOf ≠ .union ∧ type.typeOf ≠ .array) :
    n ≤ 16 := by
  unfold sizeOfAux at h
  split at h <;> simp_all <;> omega

theorem typeAlignmentAux_le {fuel n : Nat}
    (h : typeAlignmentAux types fuel type = some n) : n ≤ 16 := by
  induction fuel generalizing type n with
  | zero =>
    unfold typeAlignmentAux at h
    split at h <;> try cases h
    exact sizeOfAux_scalar_le h (by simp_all)
  | succ fuel ih =>
    unfold typeAlignmentAux at h
    split at h
    · cases h
    · simp only [bind_eq_some_iff] at h
      rcases h with ⟨next, -, hnext⟩
      exact ih hnext
    all_goals try exact sizeOfAux_scalar_le h (by simp_all)
    all_goals
      simp only [bind_eq_some_iff] at h
      rcases h with ⟨t, -, m, hm, h⟩
      split at h
      · cases h
      · simp only [some.injEq] at h
        subst h
        exact membersAlignment_le _ (fun _ _ hn => ih hn) hm

end Kcs
