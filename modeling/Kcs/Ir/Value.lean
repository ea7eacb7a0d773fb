import Kcs.Types.Handle

/-!
# Constants

The compiler keeps a constant in a union of 64-bit integers and the three
floating formats of the host.  The union is modelled by its two memory words.
Integer arithmetic of the host is two's complement; floating arithmetic is a
parameter, given by its effect on bit patterns.

Main results:

- Lemmas {lit}`Value.lo_setI` and {lit}`Value.lo_setU`: the word that an
  assignment to one of the integer members leaves.
-/

namespace Kcs

/-- The three floating formats. -/
inductive RealKind
  | float
  | double
  | ldouble
deriving DecidableEq, Repr, Inhabited

/-- Number of bits that a floating value occupies in memory. -/
def RealKind.width : RealKind → Nat
  | .float => 32
  | .double => 64
  | .ldouble => 128

/-- The floating format of a type. -/
def CType.realKind (t : CType) : Option RealKind :=
  match t.typeOf with
  | .float => some .float
  | .double => some .double
  | .ldouble => some .ldouble
  | _ => none

/-- Floating arithmetic, on bit patterns. -/
class HostFloat where
  add : (k : RealKind) → BitVec k.width → BitVec k.width → BitVec k.width
  sub : (k : RealKind) → BitVec k.width → BitVec k.width → BitVec k.width
  mul : (k : RealKind) → BitVec k.width → BitVec k.width → BitVec k.width
  div : (k : RealKind) → BitVec k.width → BitVec k.width → BitVec k.width
  neg : (k : RealKind) → BitVec k.width → BitVec k.width
  eq : (k : RealKind) → BitVec k.width → BitVec k.width → Bool
  ge : (k : RealKind) → BitVec k.width → BitVec k.width → Bool
  gt : (k : RealKind) → BitVec k.width → BitVec k.width → Bool
  /-- Conversion of an integer. -/
  ofInt : (k : RealKind) → Int → BitVec k.width
  /-- Conversion to an integer, toward zero. -/
  truncate : (k : RealKind) → BitVec k.width → Int
  /-- Conversion between formats. -/
  convert : (j k : RealKind) → BitVec j.width → BitVec k.width

/-- What the folding of conversions relies on: a value below or above an integer
is truncated to an integer that is not on its other side.  Bounds of all
integer types lie in the given interval. -/
class LawfulHostFloat [HostFloat] : Prop where
  truncate_le : ∀ (k : RealKind) (x : BitVec k.width) (n : Int), -2 ^ 64 ≤ n → n ≤ 2 ^ 64 →
    HostFloat.gt k (HostFloat.ofInt k n) x = true → HostFloat.truncate k x ≤ n
  le_truncate : ∀ (k : RealKind) (x : BitVec k.width) (n : Int), -2 ^ 64 ≤ n → n ≤ 2 ^ 64 →
    HostFloat.gt k x (HostFloat.ofInt k n) = true → n ≤ HostFloat.truncate k x

/-- A host whose floating values are all zero.  Computations on integers do not
use them. -/
abbrev HostFloat.zero : HostFloat where
  add _ _ _ := 0
  sub _ _ _ := 0
  mul _ _ _ := 0
  div _ _ _ := 0
  neg _ _ := 0
  eq _ _ _ := true
  ge _ _ _ := true
  gt _ _ _ := false
  ofInt _ _ := 0
  truncate _ _ := 0
  convert _ _ _ := 0

theorem lawful_zero : @LawfulHostFloat HostFloat.zero :=
  @LawfulHostFloat.mk HostFloat.zero (fun _ _ _ _ _ h => absurd h Bool.false_ne_true)
    fun _ _ _ _ _ h => absurd h Bool.false_ne_true

/-- `union value`: the first and the second eight bytes. -/
structure Value where
  lo : BitVec 64 := 0
  hi : BitVec 64 := 0
deriving DecidableEq, Repr, Inhabited

namespace Value

/-- The member `i`. -/
def i (v : Value) : Int := v.lo.toInt

/-- The member `u`. -/
def u (v : Value) : Nat := v.lo.toNat

/-- Assignment to the member `i`. -/
def setI (v : Value) (n : Int) : Value := { v with lo := BitVec.ofInt 64 n }

/-- Assignment to the member `u`. -/
def setU (v : Value) (n : Int) : Value := { v with lo := BitVec.ofInt 64 n }

/-- The members `f`, `d` and `ld`. -/
def real (v : Value) : (k : RealKind) → BitVec k.width
  | .float => v.lo.setWidth 32
  | .double => v.lo
  | .ldouble => v.hi ++ v.lo

/-- Assignment to one of the members `f`, `d` and `ld`. -/
def setReal (v : Value) : (k : RealKind) → BitVec k.width → Value
  | .float, x => { v with lo := v.lo.extractLsb' 32 32 ++ (x : BitVec 32) }
  | .double, x => { v with lo := x }
  | .ldouble, x =>
    { lo := BitVec.extractLsb' 0 64 (x : BitVec 128)
      hi := BitVec.extractLsb' 64 64 (x : BitVec 128) }

@[simp]
theorem lo_setI (v : Value) (n : Int) : (v.setI n).lo = BitVec.ofInt 64 n := rfl

@[simp]
theorem lo_setU (v : Value) (n : Int) : (v.setU n).lo = BitVec.ofInt 64 n := rfl

theorem setWidth_append_low (a x : BitVec 32) : (a ++ x).setWidth 32 = x := by
  rw [BitVec.setWidth_append]
  simp

theorem extract_append (x : BitVec 128) :
    BitVec.extractLsb' 64 64 x ++ BitVec.extractLsb' 0 64 x = x := by
  apply BitVec.eq_of_getLsbD_eq
  intro i hi
  rw [BitVec.getLsbD_append]
  by_cases h : i < 64
  · simp [h]
  · have hlt : i - 64 < 64 := by omega
    have hsum : 64 + (i - 64) = i := by omega
    simp [h, hlt, hsum, hi]

theorem real_setReal (v : Value) (k : RealKind) (x : BitVec k.width) :
    (v.setReal k x).real k = x := by
  cases k with
  | float => exact setWidth_append_low (v.lo.extractLsb' 32 32) x
  | double => rfl
  | ldouble => exact extract_append x

end Value

end Kcs
