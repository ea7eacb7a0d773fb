import Kcs.Ir.Execution
import Kcs.Lib.Memory
import Kcs.Types.Conversion

/-!
# Meaning of the intermediate representation

Symbols live at fixed addresses of a byte memory.  Values are little-endian
integers of the size of their type.  Integer operators have the arithmetic of
C; an operation without a defined result has no successor state.  Functions
that are called are a parameter: they receive the arguments and the memory.

Main results:

- Lemma {lit}`decode_encode`: a scalar value survives being stored.
-/

namespace Kcs

open Option CType

/-! ## Scalar values -/

/-- A scalar value: an integer or address, or the bits of a floating value. -/
inductive Scalar
  | int (n : Int)
  | real (k : RealKind) (x : BitVec k.width)
deriving DecidableEq, Repr

/-- The integer type in which a scalar that is no floating value is computed;
pointers are `unsigned long`. -/
def CType.wordType (t : CType) : Option CInteger :=
  if t.isPointerType then some .ulong else t.cInteger

/-- Read a scalar of the given type from its bytes. -/
def decode (type : CType) (raw : Nat) : Option Scalar :=
  match type.wordType with
  | some c => some (.int (c.format.ofBits (BitVec.ofNat c.format.width raw)))
  | none => type.realKind.map fun k => .real k (BitVec.ofNat k.width raw)

/-- Bytes of a scalar of the given type. -/
def encode (type : CType) : Scalar → Option Nat
  | .int n => type.wordType.map fun c => (BitVec.ofInt c.format.width n).toNat
  | .real k x => if type.realKind = some k then some x.toNat else none

/-- The scalars of a type. -/
def Scalar.HasType (type : CType) : Scalar → Prop
  | .int n => ∃ c, type.wordType = some c ∧ c.format.InRange n
  | .real k _ => type.wordType = none ∧ type.realKind = some k

/-- Bytes of a scalar type. -/
def CType.scalarSize (t : CType) : Nat :=
  match t.typeOf with
  | .bool | .char => 1
  | .short => 2
  | .int | .float => 4
  | .ldouble => 16
  | _ => 8

theorem CType.wordType_cases {t : CType} {c : CInteger} (h : t.wordType = some c) :
    (t.typeOf = .pointer ∧ c = .ulong) ∨ t.cInteger = some c := by
  unfold CType.wordType at h
  split at h
  · rename_i hp
    left
    exact ⟨by simpa [CType.isPointerType] using hp, by simpa using h.symm⟩
  · exact Or.inr h

theorem CType.wordType_of_cInteger {t : CType} {c : CInteger} (h : t.cInteger = some c) :
    t.wordType = some c := by
  rcases isScalar_of_cInteger h with ⟨-, -, -, -, hpointer⟩
  rw [CType.wordType, if_neg (by simp [hpointer]), h]

theorem CType.width_le_scalarSize {t : CType} {c : CInteger} (h : t.wordType = some c) :
    c.format.width ≤ 8 * t.scalarSize := by
  rcases wordType_cases h with ⟨hkind, rfl⟩ | h
  · rw [CType.scalarSize, hkind]
    decide
  · rw [CType.scalarSize, (cInteger_eq_some_iff.mp h).1]
    cases c <;> decide

theorem CType.realWidth {t : CType} {k : RealKind} (h : t.realKind = some k) :
    k.width = 8 * t.scalarSize := by
  unfold CType.realKind at h
  unfold CType.scalarSize
  split at h <;> simp_all <;> subst h <;> rfl

theorem sizeOf_of_isScalar {types : TypeTable} {t : CType} (h : t.isScalar = true) :
    sizeOf types t = some t.scalarSize := by
  unfold CType.isScalar at h
  unfold sizeOf sizeOfAux CType.scalarSize
  cases hkind : t.typeOf <;> first | rfl | (rw [hkind] at h; exact absurd h (by decide))

theorem Scalar.HasType.isScalar {type : CType} {x : Scalar} (h : x.HasType type) :
    type.isScalar = true := by
  cases x with
  | int n =>
    rcases h with ⟨c, hword, -⟩
    rcases wordType_cases hword with ⟨hkind, -⟩ | hint
    · rw [CType.isScalar, hkind]
      decide
    · exact (isScalar_of_cInteger hint).1
  | real k b =>
    have hreal := h.2
    unfold CType.realKind at hreal
    unfold CType.isScalar
    cases hkind : type.typeOf <;> first | decide | (rw [hkind] at hreal; cases hreal)

/-- The bytes of a scalar fit its type, and the scalar survives being stored. -/
theorem decode_encode {type : CType} {x : Scalar} (hx : x.HasType type) :
    ∃ raw, encode type x = some raw ∧ raw < 256 ^ type.scalarSize ∧
      decode type raw = some x := by
  have hpow : (256 : Nat) ^ type.scalarSize = 2 ^ (8 * type.scalarSize) := by
    rw [pow_mul]
    norm_num
  cases x with
  | int n =>
    rcases hx with ⟨c, htype, hn⟩
    refine ⟨(BitVec.ofInt c.format.width n).toNat, by simp [encode, htype], ?_, ?_⟩
    · rw [hpow]
      exact lt_of_lt_of_le (BitVec.isLt _)
        (Nat.pow_le_pow_right (by decide) (width_le_scalarSize htype))
    · simp only [decode, htype, BitVec.ofNat_toNat, BitVec.setWidth_eq]
      exact congrArg _ (congrArg _ hn)
  | real k b =>
    rcases hx with ⟨hword, hreal⟩
    refine ⟨b.toNat, by simp [encode, hreal], ?_, ?_⟩
    · rw [hpow, ← realWidth hreal]
      exact b.isLt
    · simp [decode, hword, hreal]
section Scalars

variable [HostFloat]

/-- Conversion of a scalar to a type.  A floating value outside the range of an
integer type has no conversion, and there is none between floating values and
pointers. -/
def castScalar (type target : CType) : Scalar → Option Scalar
  | .int n =>
    match target.wordType with
    | some c => some (.int (c.convert n))
    | none =>
      if type.isPointerType then none
      else target.realKind.map fun k => .real k (HostFloat.ofInt k n)
  | .real j x =>
    match target.wordType with
    | some .bool => some (.int (if HostFloat.eq j x (HostFloat.ofInt j 0) then 0 else 1))
    | some c =>
      if target.isPointerType then none
      else if c.format.InRange (HostFloat.truncate j x) then
        some (.int (HostFloat.truncate j x))
      else none
    | none =>
      target.realKind.map fun k =>
        .real k (if h : j = k then h ▸ x else HostFloat.convert j k x)

theorem castScalar_hasType {type target : CType} {x y : Scalar}
    (h : castScalar type target x = some y) : y.HasType target := by
  cases x with
  | int n =>
    simp only [castScalar] at h
    split at h
    · rename_i c hword
      simp only [some.injEq] at h
      subst h
      exact ⟨c, hword, CInteger.inRange_convert c n⟩
    · rename_i hword
      split at h
      · cases h
      · simp only [map_eq_some_iff] at h
        rcases h with ⟨k, hreal, rfl⟩
        exact ⟨hword, hreal⟩
  | real j b =>
    simp only [castScalar] at h
    split at h
    · rename_i hword
      simp only [some.injEq] at h
      subst h
      refine ⟨.bool, hword, ?_⟩
      split <;> decide
    · rename_i c _ hword
      split at h
      · cases h
      · split at h
        · rename_i hrange
          simp only [some.injEq] at h
          subst h
          exact ⟨c, hword, hrange⟩
        · cases h
    · rename_i hword
      simp only [map_eq_some_iff] at h
      rcases h with ⟨k, hreal, rfl⟩
      exact ⟨hword, hreal⟩

/-- The binary operators as operators on integers. -/
def OpType.binaryOp : OpType → Option CInteger.BinaryOp
  | .add => some .add
  | .sub => some .sub
  | .mul => some .mul
  | .div => some .div
  | .mod => some .mod
  | .and => some .and
  | .or => some .or
  | .xor => some .xor
  | .shl => some .shl
  | .shr => some .shr
  | .eq => some .eq
  | .ne => some .ne
  | .ge => some .ge
  | .gt => some .gt
  | _ => none

/-- The binary operators on floating values. -/
def realScalar (op : OpType) (k : RealKind) (x y : BitVec k.width) : Option Scalar :=
  match op with
  | .add => some (.real k (HostFloat.add k x y))
  | .sub => some (.real k (HostFloat.sub k x y))
  | .mul => some (.real k (HostFloat.mul k x y))
  | .div => some (.real k (HostFloat.div k x y))
  | .eq => some (.int (CInteger.ofBool (HostFloat.eq k x y)))
  | .ne => some (.int (CInteger.ofBool (!HostFloat.eq k x y)))
  | .ge => some (.int (CInteger.ofBool (HostFloat.ge k x y)))
  | .gt => some (.int (CInteger.ofBool (HostFloat.gt k x y)))
  | _ => none

/-- A binary operator on two scalars, computed in the type of the left one. -/
def binaryScalar (op : OpType) (type : CType) : Scalar → Scalar → Option Scalar
  | .int a, .int b =>
    type.wordType.bind fun c =>
      op.binaryOp.bind fun o => (CInteger.binary o c a b).map .int
  | .real j x, .real k y => if h : k = j then realScalar op j x (h ▸ y) else none
  | _, _ => none

/-- A unary operator on a scalar of the given type. -/
def unaryScalar (op : OpType) (type : CType) : Scalar → Option Scalar
  | .int a =>
    type.wordType.bind fun c =>
      match op with
      | .not => some (.int (CInteger.unary .not c a))
      | .neg => some (.int (CInteger.unary .neg c a))
      | _ => none
  | .real k x => if op = .neg then some (.real k (HostFloat.neg k x)) else none

end Scalars

/-! ## Storage -/

/-- What the run-time system provides: the types, the place of every symbol and
the functions that can be called.  Places do not overlap; a pointer holds an
address modulo two to the 64. -/
structure RunEnv where
  types : TypeTable
  addr : SymbolId → Nat
  extent : SymbolId → Nat
  callee : Nat → List Nat → Memory → Nat × Memory
  addr_pos : ∀ id, 0 < addr id
  disjoint : ∀ i j, i ≠ j → addr i + extent i ≤ addr j ∨ addr j + extent j ≤ addr i

/-- A call that has been made. -/
structure CallEvent where
  target : Nat
  args : List Nat
deriving DecidableEq, Repr

/-- State of a running function: the memory, the arguments pushed for the next
call and the calls made so far. -/
structure RunState where
  mem : Memory
  params : List Nat := []
  trace : List CallEvent := []

section Storage

variable (env : RunEnv)

/-- Address of the storage that a symbol points to. -/
def pointerOf (m : Memory) (v : Var) : Option Nat :=
  match v.symbol with
  | none => some v.imm.u
  | some sym =>
    if sym.symtype = .stringValue then some (env.addr sym.id)
    else if 8 ≤ env.extent sym.id then some (m.load (env.addr sym.id) 8)
    else none

/-- Address of the storage that an operand designates. -/
def locate (m : Memory) (v : Var) (size : Nat) : Option Nat :=
  match v.kind with
  | .direct =>
    v.symbol.bind fun sym =>
      if v.offset.toNat + size ≤ env.extent sym.id then
        some (env.addr sym.id + v.offset.toNat)
      else none
  | .deref => (pointerOf env m v).map fun p => (p + v.offset.toNat) % 2 ^ 64
  | _ => none

/-- Bits of a field, extended to the size of its type. -/
def readField (v : Var) (size unit : Nat) : Nat :=
  let x := BitVec.ofNat v.fieldWidth (unit / 2 ^ v.fieldOffset)
  if v.type.isSigned then (x.signExtend (8 * size)).toNat else x.toNat

/-- The unit of a field with the bits of the field replaced. -/
def writeField (v : Var) (unit raw : Nat) : Nat :=
  unit % 2 ^ v.fieldOffset +
    2 ^ v.fieldOffset * (raw % 2 ^ v.fieldWidth) +
    2 ^ (v.fieldOffset + v.fieldWidth) * (unit / 2 ^ (v.fieldOffset + v.fieldWidth))

/-- Value of an immediate.  A string stands for its characters while it has array
type, and for its address afterwards. -/
def immediateValue (m : Memory) (v : Var) (size : Nat) : Nat :=
  match v.symbol with
  | some sym =>
    if sym.symtype = .stringValue then
      if v.type.isArray then m.load (env.addr sym.id + v.offset.toNat) size
      else (env.addr sym.id + v.offset.toNat) % 2 ^ 64 % 256 ^ size
    else (v.imm.lo.toNat + 2 ^ 64 * v.imm.hi.toNat) % 256 ^ size
  | none => (v.imm.lo.toNat + 2 ^ 64 * v.imm.hi.toNat) % 256 ^ size

/-- Value of an operand. -/
def operandValue (m : Memory) (v : Var) : Option Nat :=
  (sizeOf env.types v.type).bind fun size =>
    match v.kind with
    | .immediate => some (immediateValue env m v size)
    | .address => v.symbol.map fun sym => (env.addr sym.id + v.offset.toNat) % 2 ^ 64
    | _ =>
      (locate env m v size).map fun a =>
        if v.isField then readField v size (m.load a size) else m.load a size

/-- Store a value to an operand. -/
def storeOperand (m : Memory) (v : Var) (raw : Nat) : Option Memory :=
  (sizeOf env.types v.type).bind fun size =>
    (locate env m v size).map fun a =>
      m.store a size (if v.isField then writeField v (m.load a size) raw else raw)

end Storage

/-! ## Expressions and statements -/

section Statements

variable [HostFloat] (env : RunEnv)

/-- Conversion between the bytes of two types; aggregates are copied. -/
def castRaw (type target : CType) (raw : Nat) : Option Nat :=
  if type.isScalar then
    (decode type raw).bind fun x => (castScalar type target x).bind (encode target)
  else some raw

/-- Value of an expression other than a call. -/
def pureValue (m : Memory) (e : Expression) : Option Nat :=
  (operandValue env m e.l).bind fun l =>
    match e.op with
    | .cast => castRaw e.l.type e.type l
    | .call | .vaArg => none
    | .not | .neg =>
      (decode e.l.type l).bind fun x => (unaryScalar e.op e.l.type x).bind (encode e.type)
    | op =>
      (operandValue env m e.r).bind fun r =>
        (decode e.l.type l).bind fun x =>
          (decode e.r.type r).bind fun y => (binaryScalar op e.l.type x y).bind (encode e.type)

/-- Value of an expression.  A call takes the arguments pushed since the last
one. -/
def exprValue (e : Expression) (s : RunState) : Option (Nat × RunState) :=
  if e.op = .call then
    (operandValue env s.mem e.l).map fun target =>
      let (result, mem) := env.callee target s.params s.mem
      (result, { mem := mem, trace := s.trace ++ [{ target := target, args := s.params }] })
  else (pureValue env s.mem e).map fun raw => (raw, s)

/-- Execution of a statement.  Variable arguments and variable length arrays are
left to the back-ends and have no meaning here. -/
def execStatement (st : Statement) (s : RunState) : Option RunState :=
  match st.st with
  | .expr => (exprValue env st.expr s).map (·.2)
  | .param => (exprValue env st.expr s).map fun (raw, s) => { s with params := s.params ++ [raw] }
  | .assign =>
    (exprValue env st.expr s).bind fun (raw, s) =>
      (storeOperand env s.mem st.t raw).map fun mem => { s with mem := mem }
  | .vaStart | .vlaAlloc => none

/-- The machine of the intermediate representation. -/
def irMachine : IrMachine RunState where
  exec := execStatement env
  value := exprValue env

end Statements

end Kcs
