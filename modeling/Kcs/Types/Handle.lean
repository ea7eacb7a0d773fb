import Mathlib

/-!
# Type handles

A C type is passed around the compiler as a 32-bit value (`Type` in
`include/lacc/type.h`).  Basic types and pointers to them are described by the
handle alone; functions, arrays, aggregates and deeper pointers carry in
`ref` the number of an entry of the type table.

This module gives the handle with its bit-field widths, the classification
macros of `type.h`, and the qualifier operations of `typetree.c` that touch
nothing but the handle.

Main results:

- Lemma {lit}`refField_of_le`: the 16-bit reference field keeps an entry number
  up to 32767.
- Lemma {lit}`CType.typeOf_of_isPointer`: the pointer flag overrides the kind
  that the handle stores.
-/

namespace Kcs

/-- The enumeration `enum type`, with the value `-1` that
`get_type_placeholder` stores in the 8-bit field. -/
inductive TypeKind
  | placeholder
  | void
  | bool
  | char
  | short
  | int
  | long
  | float
  | double
  | ldouble
  | pointer
  | function
  | array
  | struct
  | union
deriving DecidableEq, Repr, Inhabited

/-- Numeric value of the enumeration constant; the macros compare these. -/
def TypeKind.code : TypeKind → Int
  | .placeholder => -1
  | .void => 0
  | .bool => 1
  | .char => 2
  | .short => 3
  | .int => 4
  | .long => 5
  | .float => 6
  | .double => 7
  | .ldouble => 8
  | .pointer => 9
  | .function => 10
  | .array => 11
  | .struct => 12
  | .union => 13

/-- The handle `Type`. -/
structure CType where
  type : TypeKind
  isUnsigned : Bool := false
  isConst : Bool := false
  isVolatile : Bool := false
  isRestrict : Bool := false
  isPointer : Bool := false
  isPointerConst : Bool := false
  isPointerVolatile : Bool := false
  isPointerRestrict : Bool := false
  ref : Int := 0
deriving DecidableEq, Repr, Inhabited

/-- Value held by `int32_t ref : 16` after an entry number is assigned to it. -/
def refField (n : Nat) : Int :=
  Int.bmod n 65536

theorem refField_of_le {n : Nat} (hn : n ≤ 32767) : refField n = n := by
  unfold refField
  rw [Int.bmod_eq_of_le_mul_two] <;> omega

theorem refField_first_lost : refField 32768 = -32768 := by
  decide

namespace CType

/-! ## Classification macros -/

/-- `type_of`: the type can be overridden to mean pointer. -/
def typeOf (t : CType) : TypeKind :=
  if t.isPointer then .pointer else t.type

/-- `is_function` -/
def isFunction (t : CType) : Bool := t.typeOf = .function

/-- `is_object` -/
def isObject (t : CType) : Bool := !t.isFunction

/-- `is_bool` -/
def isBool (t : CType) : Bool := t.typeOf = .bool

/-- `is_char` -/
def isChar (t : CType) : Bool := t.typeOf = .char

/-- `is_integer` -/
def isInteger (t : CType) : Bool :=
  TypeKind.bool.code ≤ t.typeOf.code && t.typeOf.code ≤ TypeKind.long.code

/-- `is_unsigned`: `_Bool` counts as unsigned without the flag. -/
def isUnsignedType (t : CType) : Bool := (!t.isPointer && t.isUnsigned) || t.isBool

/-- `is_signed` -/
def isSigned (t : CType) : Bool := !t.isUnsignedType && t.isInteger

/-- `is_pointer` -/
def isPointerType (t : CType) : Bool := t.typeOf = .pointer

/-- `is_float` -/
def isFloat (t : CType) : Bool := t.typeOf = .float

/-- `is_double` -/
def isDouble (t : CType) : Bool := t.typeOf = .double

/-- `is_long_double` -/
def isLongDouble (t : CType) : Bool := t.typeOf = .ldouble

/-- `is_real` -/
def isReal (t : CType) : Bool :=
  TypeKind.float.code ≤ t.typeOf.code && t.typeOf.code ≤ TypeKind.ldouble.code

/-- `is_arithmetic` -/
def isArithmetic (t : CType) : Bool :=
  TypeKind.bool.code ≤ t.typeOf.code && t.typeOf.code ≤ TypeKind.ldouble.code

/-- `is_scalar` -/
def isScalar (t : CType) : Bool :=
  TypeKind.bool.code ≤ t.typeOf.code && t.typeOf.code ≤ TypeKind.pointer.code

/-- `is_void` -/
def isVoid (t : CType) : Bool := t.typeOf = .void

/-- `is_array` -/
def isArray (t : CType) : Bool := t.typeOf = .array

/-- `is_struct` -/
def isStruct (t : CType) : Bool := t.typeOf = .struct

/-- `is_union` -/
def isUnion (t : CType) : Bool := t.typeOf = .union

/-- `is_struct_or_union` -/
def isStructOrUnion (t : CType) : Bool := t.isStruct || t.isUnion

/-- `is_const` -/
def isConstType (t : CType) : Bool := if t.isPointer then t.isPointerConst else t.isConst

/-- `is_volatile` -/
def isVolatileType (t : CType) : Bool :=
  if t.isPointer then t.isPointerVolatile else t.isVolatile

/-- `is_restrict` -/
def isRestrictType (t : CType) : Bool :=
  if t.isPointer then t.isPointerRestrict else t.isRestrict

@[simp]
theorem typeOf_of_isPointer {t : CType} (h : t.isPointer = true) : t.typeOf = .pointer := by
  simp [typeOf, h]

@[simp]
theorem typeOf_of_not_isPointer {t : CType} (h : t.isPointer = false) : t.typeOf = t.type := by
  simp [typeOf, h]

theorem isPointer_of_isInteger {t : CType} (h : t.isInteger = true) : t.isPointer = false := by
  cases hflag : t.isPointer with
  | false => rfl
  | true =>
    rw [isInteger, typeOf_of_isPointer hflag] at h
    exact absurd h (by decide)

end CType

/-! ## Basic types and qualifiers -/

/-- `basic_type__void` -/
def basicTypeVoid : CType := { type := .void }

/-- `basic_type__bool` -/
def basicTypeBool : CType := { type := .bool }

/-- `basic_type__char` -/
def basicTypeChar : CType := { type := .char }

/-- `basic_type__short` -/
def basicTypeShort : CType := { type := .short }

/-- `basic_type__int` -/
def basicTypeInt : CType := { type := .int }

/-- `basic_type__long` -/
def basicTypeLong : CType := { type := .long }

/-- `basic_type__unsigned_char` -/
def basicTypeUnsignedChar : CType := { type := .char, isUnsigned := true }

/-- `basic_type__unsigned_short` -/
def basicTypeUnsignedShort : CType := { type := .short, isUnsigned := true }

/-- `basic_type__unsigned_int` -/
def basicTypeUnsignedInt : CType := { type := .int, isUnsigned := true }

/-- `basic_type__unsigned_long` -/
def basicTypeUnsignedLong : CType := { type := .long, isUnsigned := true }

/-- `basic_type__float` -/
def basicTypeFloat : CType := { type := .float }

/-- `basic_type__double` -/
def basicTypeDouble : CType := { type := .double }

/-- `basic_type__long_double` -/
def basicTypeLongDouble : CType := { type := .ldouble }

/-- `remove_qualifiers` -/
def removeQualifiers (type : CType) : CType :=
  if type.isPointer then
    { type with
      isPointerConst := false, isPointerVolatile := false, isPointerRestrict := false }
  else
    { type with isConst := false, isVolatile := false, isRestrict := false }

@[simp]
theorem removeQualifiers_type (type : CType) : (removeQualifiers type).type = type.type := by
  unfold removeQualifiers
  split <;> rfl

@[simp]
theorem removeQualifiers_isUnsigned (type : CType) :
    (removeQualifiers type).isUnsigned = type.isUnsigned := by
  unfold removeQualifiers
  split <;> rfl

@[simp]
theorem removeQualifiers_isPointer (type : CType) :
    (removeQualifiers type).isPointer = type.isPointer := by
  unfold removeQualifiers
  split <;> rfl

@[simp]
theorem removeQualifiers_ref (type : CType) : (removeQualifiers type).ref = type.ref := by
  unfold removeQualifiers
  split <;> rfl

end Kcs
