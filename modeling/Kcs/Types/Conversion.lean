import Kcs.Lib.CInteger
import Kcs.Types.Equal

/-!
# Promotion, common types and compatibility

The parts of `typetree.c` that the evaluation of operators asks for: integer
promotion, the usual arithmetic conversions, variable length arrays and type
compatibility.

Main results:

- Lemma {lit}`sizeOf_of_isInteger`: the size of an integer type does not depend
  on the type table.
- Lemmas {lit}`promoteInteger_eq` and {lit}`usualArithmeticConversion_eq`: both
  conversions on integer types, as functions of the handles alone.
-/

namespace Kcs

open CType

/-! ## Integer types -/

theorem CType.isInteger_iff {t : CType} :
    t.isInteger = true ↔ t.typeOf = .bool ∨ t.typeOf = .char ∨ t.typeOf = .short ∨
      t.typeOf = .int ∨ t.typeOf = .long := by
  unfold CType.isInteger
  cases t.typeOf <;> decide

/-- Bytes of an integer type. -/
def CType.intSize (t : CType) : Nat :=
  match t.typeOf with
  | .bool | .char => 1
  | .short => 2
  | .int => 4
  | _ => 8

theorem sizeOf_of_isInteger {types : TypeTable} {t : CType} (h : t.isInteger = true) :
    sizeOf types t = some t.intSize := by
  unfold sizeOf sizeOfAux CType.intSize
  rcases isInteger_iff.mp h with h | h | h | h | h <;> simp [h]

/-! ## Promotion and common types -/

/-- `promote_integer` -/
def promoteInteger (types : TypeTable) (type : CType) : Option CType :=
  if type.isInteger then
    (sizeOf types type).map fun size => if size < 4 then basicTypeInt else type
  else none

/-- `usual_arithmetic_conversion` for integers, from the promoted types. -/
def commonInteger (types : TypeTable) (t1 t2 : CType) : Option CType :=
  (sizeOf types t1).bind fun size1 =>
    (sizeOf types t2).map fun size2 =>
      if size1 > size2 then t1
      else if size2 > size1 then t2
      else if t1.isUnsignedType then t1 else t2

/-- `usual_arithmetic_conversion` -/
def usualArithmeticConversion (types : TypeTable) (t1 t2 : CType) : Option CType :=
  if !t1.isArithmetic || !t2.isArithmetic then none
  else if t1.isLongDouble || t2.isLongDouble then some basicTypeLongDouble
  else if t1.isDouble || t2.isDouble then some basicTypeDouble
  else if t1.isFloat || t2.isFloat then some basicTypeFloat
  else
    (promoteInteger types t1).bind fun t1 =>
      (promoteInteger types t2).bind fun t2 =>
        (commonInteger types t1 t2).map removeQualifiers

/-- Promotion of an integer type. -/
def CType.promoted (t : CType) : CType :=
  if t.intSize < 4 then basicTypeInt else t

/-- The common type of two integer types. -/
def CType.common (t1 t2 : CType) : CType :=
  removeQualifiers
    (if t1.promoted.intSize > t2.promoted.intSize then t1.promoted
    else if t2.promoted.intSize > t1.promoted.intSize then t2.promoted
    else if t1.promoted.isUnsignedType then t1.promoted else t2.promoted)

theorem promoteInteger_eq {types : TypeTable} {t : CType} (h : t.isInteger = true) :
    promoteInteger types t = some t.promoted := by
  simp [promoteInteger, h, sizeOf_of_isInteger h, CType.promoted]

theorem CType.isInteger_promoted {t : CType} (h : t.isInteger = true) :
    t.promoted.isInteger = true := by
  unfold CType.promoted
  split
  · decide
  · exact h

theorem CType.isReal_of_isInteger {t : CType} (h : t.isInteger = true) :
    t.isArithmetic = true ∧ t.isLongDouble = false ∧ t.isDouble = false ∧ t.isFloat = false := by
  unfold CType.isArithmetic CType.isLongDouble CType.isDouble CType.isFloat
  rcases isInteger_iff.mp h with h | h | h | h | h <;> simp [h] <;> decide

/-- The usual arithmetic conversions of integer types look at the handles
only. -/
theorem usualArithmeticConversion_eq {types : TypeTable} {t1 t2 : CType}
    (h1 : t1.isInteger = true) (h2 : t2.isInteger = true) :
    usualArithmeticConversion types t1 t2 = some (t1.common t2) := by
  rcases isReal_of_isInteger h1 with ⟨harith1, hld1, hd1, hf1⟩
  rcases isReal_of_isInteger h2 with ⟨harith2, hld2, hd2, hf2⟩
  simp [usualArithmeticConversion, harith1, harith2, hld1, hld2, hd1, hd2, hf1, hf2,
    promoteInteger_eq h1, promoteInteger_eq h2, commonInteger,
    sizeOf_of_isInteger (isInteger_promoted h1),
    sizeOf_of_isInteger (isInteger_promoted h2), CType.common]

@[simp]
theorem removeQualifiers_typeOf (type : CType) : (removeQualifiers type).typeOf = type.typeOf := by
  simp [CType.typeOf]

theorem CType.isInteger_common {t1 t2 : CType} (h1 : t1.isInteger = true)
    (h2 : t2.isInteger = true) : (t1.common t2).isInteger = true := by
  have hp1 := isInteger_promoted h1
  have hp2 := isInteger_promoted h2
  unfold CType.common
  rw [CType.isInteger, removeQualifiers_typeOf, ← CType.isInteger]
  split
  · exact hp1
  · split
    · exact hp2
    · split
      · exact hp1
      · exact hp2

/-! ## Integer types of handles -/

/-- The C integer type that a handle stands for. -/
def CType.cInteger (t : CType) : Option CInteger :=
  match t.typeOf, t.isUnsignedType with
  | .bool, _ => some .bool
  | .char, false => some .char
  | .char, true => some .uchar
  | .short, false => some .short
  | .short, true => some .ushort
  | .int, false => some .int
  | .int, true => some .uint
  | .long, false => some .long
  | .long, true => some .ulong
  | _, _ => none

/-- The stored kind of an integer type. -/
def integerKind : CInteger → TypeKind
  | .bool => .bool
  | .char | .uchar => .char
  | .short | .ushort => .short
  | .int | .uint => .int
  | .long | .ulong => .long

theorem CType.cInteger_eq_some_iff {t : CType} {c : CInteger} :
    t.cInteger = some c ↔ t.typeOf = integerKind c ∧ t.isUnsignedType = !c.signed := by
  unfold CType.cInteger CType.isUnsignedType CType.isBool
  cases t.typeOf <;> cases (!t.isPointer && t.isUnsigned) <;> cases c <;> decide

section IntegerHandle

variable {t t1 t2 : CType} {c c1 c2 : CInteger}

theorem CType.isInteger_of_cInteger (h : t.cInteger = some c) : t.isInteger = true := by
  rw [CType.isInteger, (cInteger_eq_some_iff.mp h).1]
  cases c <;> decide

theorem CType.isSigned_of_cInteger (h : t.cInteger = some c) : t.isSigned = c.format.signed := by
  rw [CType.isSigned, isInteger_of_cInteger h, (cInteger_eq_some_iff.mp h).2]
  cases c <;> rfl

theorem CType.isScalar_of_cInteger (h : t.cInteger = some c) :
    t.isScalar = true ∧ t.isFunction = false ∧ t.isArray = false ∧ t.isVoid = false ∧
      t.isPointerType = false := by
  rw [CType.isScalar, CType.isFunction, CType.isArray, CType.isVoid, CType.isPointerType,
    (cInteger_eq_some_iff.mp h).1]
  cases c <;> decide

theorem cInteger_removeQualifiers (t : CType) : (removeQualifiers t).cInteger = t.cInteger := by
  simp [CType.cInteger, CType.isUnsignedType, CType.isBool]

theorem CType.cInteger_promoted (h : t.cInteger = some c) :
    t.promoted.cInteger = some c.promote := by
  have hkind := (cInteger_eq_some_iff.mp h).1
  unfold CType.promoted CType.intSize
  rw [hkind]
  cases c <;> first | exact h | rfl

theorem CType.intSize_of_cInteger (h : t.cInteger = some c) : t.intSize = 2 ^ (c.rank - 1) := by
  rw [CType.intSize, (cInteger_eq_some_iff.mp h).1]
  cases c <;> rfl

theorem CType.cInteger_common (h1 : t1.cInteger = some c1) (h2 : t2.cInteger = some c2) :
    (t1.common t2).cInteger = some (CInteger.common c1 c2) := by
  have hp1 := cInteger_promoted h1
  have hp2 := cInteger_promoted h2
  rw [CType.common, cInteger_removeQualifiers, intSize_of_cInteger hp1,
    intSize_of_cInteger hp2, (cInteger_eq_some_iff.mp hp1).2]
  -- Either handle is already known; what remains is which one is selected.
  have hselect : ∀ a b : CInteger, a.promote = a → b.promote = b →
      CInteger.commonPromoted a b =
        if 2 ^ (a.rank - 1) > 2 ^ (b.rank - 1) then a
        else if 2 ^ (b.rank - 1) > 2 ^ (a.rank - 1) then b
        else if (!a.signed) = true then a else b := by
    intro a b
    cases a <;> cases b <;> decide
  rw [CInteger.common, hselect _ _ (by cases c1 <;> rfl) (by cases c2 <;> rfl)]
  split
  · exact hp1
  · split
    · exact hp2
    · split
      · exact hp1
      · exact hp2

end IntegerHandle

/-! ## Arrays and compatibility -/

/-- `is_vla`, with a bound on the nesting of arrays. -/
def isVlaAux (types : TypeTable) : Nat → CType → Option Bool
  | 0, type => if type.isArray then none else some false
  | fuel + 1, type =>
    if type.isArray then
      (getTypetreeHandle types type.ref).bind fun t =>
        if t.isVla then some true else isVlaAux types fuel t.next
    else some false

/-- `is_vla` -/
def isVla (types : TypeTable) (type : CType) : Option Bool :=
  isVlaAux types types.length type

/-- `is_complete` -/
def isComplete (types : TypeTable) (type : CType) : Option Bool :=
  match type.typeOf with
  | .array | .function => (getTypetreeHandle types type.ref).map fun t => !t.isIncomplete
  | _ => some true

/-- `type_array_len` -/
def typeArrayLen (types : TypeTable) (type : CType) : Option Nat :=
  if type.isArray then (getTypetreeHandle types type.ref).map (·.size) else none

/-- `set_array_length` -/
def setArrayLength (types : TypeTable) (type : CType) (length : Nat) : Option TypeTable :=
  if type.isArray then
    (getTypetreeHandle types type.ref).bind fun t =>
      if t.isIncomplete then
        setTypetree types type.ref { t with size := length, isIncomplete := false }
      else none
  else none

/-- `is_compatible`, with a bound on the depth of the types. -/
def isCompatibleAux (types : TypeTable) : Nat → CType → CType → Option Bool
  | 0, _, _ => none
  | fuel + 1, l, r =>
    if l.typeOf ≠ r.typeOf ∨ l.isConstType ≠ r.isConstType ∨
        l.isVolatileType ≠ r.isVolatileType ∨ l.isRestrictType ≠ r.isRestrictType then
      some false
    else
      match l.typeOf with
      | .bool | .char | .short | .int | .long | .float | .double | .ldouble => some true
      | .pointer =>
        (typeNext types l).bind fun l =>
          (typeNext types r).bind fun r => isCompatibleAux types fuel l r
      | .array =>
        (typeArrayLen types l).bind fun s1 =>
          (typeArrayLen types r).bind fun s2 =>
            if s1 = 0 ∨ s2 = 0 ∨ s1 = s2 then
              (typeNext types l).bind fun l =>
                (typeNext types r).bind fun r => isCompatibleAux types fuel l r
            else some false
      | .function =>
        (typeNext types l).bind fun nl =>
          (typeNext types r).bind fun nr =>
            (typeEqual types nl nr).bind fun equal =>
              if !equal then some false
              else
                (isComplete types l).bind fun cl =>
                  (isComplete types r).bind fun cr =>
                    if !cl || !cr then some true else typeEqual types l r
      | _ => typeEqual types l r

/-- `is_compatible_unqualified`.  A pointer or array step leads to an entry of
the table or drops the pointer flag, so the number of pairs of such handles
bounds a recursion that ends. -/
def isCompatibleUnqualified (types : TypeTable) (l r : CType) : Option Bool :=
  isCompatibleAux types ((2 * types.length + 2) ^ 2) (removeQualifiers l) (removeQualifiers r)

end Kcs
