import Kcs.Lib.IntFormat

/-!
# Integer types of C

The nine integer types of an implementation with 8-, 16-, 32- and 64-bit
integers and signed plain `char`, their promotion and common types, and the
value of each operator.  Signed overflow and right shifts of negative values
follow the usual two's complement reading; a division that overflows, a zero
divisor and a shift count out of range have no value.

Main results:

- Lemma {lit}`CInteger.inRange_convert`: a converted value is a value of the
  target type.
- Lemma {lit}`CInteger.convert_of_inRange`: a value of the type is converted to
  itself.
-/

/-- The integer types. -/
inductive CInteger
  | bool
  | char
  | uchar
  | short
  | ushort
  | int
  | uint
  | long
  | ulong
deriving DecidableEq, Repr

namespace CInteger

open Option IntFormat

/-- Integer conversion rank. -/
def rank : CInteger → Nat
  | bool => 0
  | char | uchar => 1
  | short | ushort => 2
  | int | uint => 3
  | long | ulong => 4

/-- The signed types. -/
def signed : CInteger → Bool
  | char | short | int | long => true
  | _ => false

/-- The values of a type. -/
def format : CInteger → IntFormat
  | bool => ⟨false, 1, by decide, by decide⟩
  | char => .bits8 true
  | uchar => .bits8 false
  | short => .bits16 true
  | ushort => .bits16 false
  | int => .bits32 true
  | uint => .bits32 false
  | long => .bits64 true
  | ulong => .bits64 false

/-- The unsigned type of the same rank. -/
def toUnsigned : CInteger → CInteger
  | char => uchar
  | short => ushort
  | int => uint
  | long => ulong
  | t => t

/-- Integer promotion: `int` represents all values of the types of lower rank. -/
def promote (t : CInteger) : CInteger :=
  if t.rank < int.rank then int else t

/-- The usual arithmetic conversions, after promotion. -/
def commonPromoted (a b : CInteger) : CInteger :=
  if a = b then a
  else if a.signed = b.signed then if a.rank < b.rank then b else a
  else
    -- Exactly one of the two is unsigned.
    let u := if a.signed then b else a
    let s := if a.signed then a else b
    if s.rank ≤ u.rank then u
    else if u.format.width < s.format.width then s
    else s.toUnsigned

/-- The usual arithmetic conversions. -/
def common (a b : CInteger) : CInteger :=
  commonPromoted a.promote b.promote

/-- Conversion of a value to a type. -/
def convert (t : CInteger) (n : Int) : Int :=
  if t = bool then if n = 0 then 0 else 1 else t.format.wrap n

theorem inRange_convert (t : CInteger) (n : Int) : t.format.InRange (t.convert n) := by
  unfold convert
  split
  · rename_i h
    subst h
    split <;> decide
  · exact inRange_wrap n

theorem convert_of_inRange {t : CInteger} {n : Int} (h : t.format.InRange n) :
    t.convert n = n := by
  unfold convert
  split
  · rename_i ht
    subst ht
    have hrange := (inRange_unsigned_iff rfl n).mp h
    have hone : n < 2 := hrange.2
    split
    · omega
    · omega
  · exact h

/-- The binary operators on integers. -/
inductive BinaryOp
  | add
  | sub
  | mul
  | div
  | mod
  | or
  | xor
  | and
  | shl
  | shr
  | eq
  | ne
  | ge
  | gt
deriving DecidableEq, Repr

/-- The shift operators, whose operands are promoted separately. -/
def BinaryOp.isShift : BinaryOp → Bool
  | .shl | .shr => true
  | _ => false

/-- The comparison operators, whose result is an `int`. -/
def BinaryOp.isComparison : BinaryOp → Bool
  | .eq | .ne | .ge | .gt => true
  | _ => false

/-- Type to which the left operand is converted. -/
def operandType (op : BinaryOp) (a b : CInteger) : CInteger :=
  if op.isShift then a.promote else common a b

/-- Type of the result. -/
def resultType (op : BinaryOp) (a b : CInteger) : CInteger :=
  if op.isComparison then int else operandType op a b

/-- Truth values. -/
def ofBool (p : Bool) : Int := if p then 1 else 0

/-- Value of an operator on two values of the operand type; the count of a shift
keeps its own type. -/
def binary (op : BinaryOp) (t : CInteger) (a b : Int) : Option Int :=
  let f := t.format
  match op with
  | .add => some (f.wrap (a + b))
  | .sub => some (f.wrap (a - b))
  | .mul => some (f.wrap (a * b))
  | .div => if b = 0 ∨ ¬ f.InRange (a.tdiv b) then none else some (a.tdiv b)
  | .mod => if b = 0 ∨ ¬ f.InRange (a.tdiv b) then none else some (a.tmod b)
  | .or => some (f.ofBits (BitVec.ofInt f.width a ||| BitVec.ofInt f.width b))
  | .xor => some (f.ofBits (BitVec.ofInt f.width a ^^^ BitVec.ofInt f.width b))
  | .and => some (f.ofBits (BitVec.ofInt f.width a &&& BitVec.ofInt f.width b))
  | .shl => if 0 ≤ b ∧ b < f.width then some (f.wrap (a * 2 ^ b.toNat)) else none
  | .shr => if 0 ≤ b ∧ b < f.width then some (a / 2 ^ b.toNat) else none
  | .eq => some (ofBool (a = b))
  | .ne => some (ofBool (a ≠ b))
  | .ge => some (ofBool (a ≥ b))
  | .gt => some (ofBool (a > b))

theorem inRange_binary {op : BinaryOp} {t : CInteger} {a b n : Int} (ha : t.format.InRange a)
    (hcmp : op.isComparison = false) (hn : binary op t a b = some n) : t.format.InRange n := by
  cases op with
  | add | sub | mul =>
    simp only [binary, some.injEq] at hn
    rw [← hn]
    exact inRange_wrap _
  | div =>
    simp only [binary, ite_none_left_eq_some, not_or, not_not, some.injEq] at hn
    rw [← hn.2]
    exact hn.1.2
  | mod =>
    simp only [binary, ite_none_left_eq_some, not_or, not_not, some.injEq] at hn
    rw [← hn.2]
    exact inRange_tmod ha b
  | or | xor | and =>
    simp only [binary, some.injEq] at hn
    rw [← hn]
    exact inRange_ofBits _
  | shl =>
    simp only [binary, ite_none_right_eq_some, some.injEq] at hn
    rw [← hn.2]
    exact inRange_wrap _
  | shr =>
    simp only [binary, ite_none_right_eq_some, some.injEq] at hn
    rw [← hn.2]
    exact inRange_shiftRight ha _
  | eq | ne | ge | gt => cases hcmp

theorem inRange_ofBool (t : CInteger) (p : Bool) : t.format.InRange (ofBool p) := by
  cases t <;> cases p <;> decide

theorem binary_comparison {op : BinaryOp} {t : CInteger} {a b n : Int}
    (hcmp : op.isComparison = true) (hn : binary op t a b = some n) : ∃ p, n = ofBool p := by
  cases op with
  | eq | ne | ge | gt =>
    simp only [binary, some.injEq] at hn
    exact ⟨_, hn.symm⟩
  | _ => cases hcmp

/-- The unary operators on integers. -/
inductive UnaryOp
  | not
  | neg
deriving DecidableEq, Repr

/-- Value of an operator on a value of the promoted type. -/
def unary (op : UnaryOp) (t : CInteger) (a : Int) : Int :=
  match op with
  | .not => t.format.ofBits (~~~ BitVec.ofInt t.format.width a)
  | .neg => t.format.wrap (-a)

theorem inRange_unary (op : UnaryOp) (t : CInteger) (a : Int) :
    t.format.InRange (unary op t a) := by
  cases op with
  | not => exact inRange_ofBits _
  | neg => exact inRange_wrap _

/-! ## Comparing a constant with a promoted value -/

section Promoted

variable {t c : CInteger} {v x : Int}

theorem promote_ne_bool (c : CInteger) : c.promote ≠ bool := by
  cases c <;> decide

theorem common_ne_bool (t c : CInteger) : common t c ≠ bool := by
  cases t <;> cases c <;> decide

theorem width_common (t c : CInteger) :
    (common t c).format.width = max t.promote.format.width c.promote.format.width := by
  cases t <;> cases c <;> decide

theorem inRange_promote (hx : c.format.InRange x) : c.promote.format.InRange x := by
  have hbounds : ∀ c : CInteger, c.promote.format.minValue ≤ c.format.minValue ∧
      c.format.maxValue ≤ c.promote.format.maxValue := by
    intro c
    cases c <;> decide
  have hc := hbounds c
  have hx' := hx.bounds
  rw [inRange_iff_bounds]
  omega

theorem emod_common (hv : c.promote.format.InRange v ∨
      t.promote.format.width ≤ c.promote.format.width) :
    c.promote.convert v % 2 ^ (common t c).format.width = v % 2 ^ (common t c).format.width := by
  rcases hv with hv | hv
  · rw [convert_of_inRange hv]
  · rw [width_common, max_eq_right hv, convert, if_neg (promote_ne_bool c), wrap_emod_width]

theorem convert_common_eq_iff (hx : c.format.InRange x) (hv : c.promote.format.InRange v ∨
      t.promote.format.width ≤ c.promote.format.width) :
    (common t c).convert v = (common t c).convert x ↔ c.promote.convert v = x := by
  have hxp := inRange_promote hx
  have hwidth : c.promote.format.width ≤ (common t c).format.width := by
    rw [width_common]
    exact le_max_right _ _
  rw [convert, convert, if_neg (common_ne_bool t c), if_neg (common_ne_bool t c),
    wrap_eq_wrap_iff, ← emod_common hv]
  constructor
  · intro h
    refine (inRange_convert c.promote v).eq_of_emod hxp ?_
    have hdvd : (2 : Int) ^ c.promote.format.width ∣ 2 ^ (common t c).format.width :=
      pow_dvd_pow 2 hwidth
    rw [← Int.emod_emod_of_dvd _ hdvd, h, Int.emod_emod_of_dvd _ hdvd]
  · intro h
    rw [h]

end Promoted

end CInteger
