import Kcs.Eval.Operators

/-!
# Folding of integer constants

Trees of integer constants are folded by `eval_expr` node by node.  The
reference is the arithmetic of the C integer types; a constant is canonical when
its 64-bit word is the sign- or zero-extension of its value.

Main results:

- Theorem {lit}`foldTree_correct`: the folded tree is a canonical constant of
  the C type and value.
-/

namespace Kcs

open Option CType IntFormat

/-! ## Canonical constants -/

theorem CType.realKind_of_cInteger {t : CType} {c : CInteger} (h : t.cInteger = some c) :
    t.realKind = none := by
  rw [CType.realKind, (cInteger_eq_some_iff.mp h).1]
  cases c <;> rfl

/-- An immediate integer of the given type, whatever its word holds. -/
structure IsIntegerWord (v : Var) (t : CInteger) : Prop where
  kind : v.kind = .immediate
  type : v.type.cInteger = some t
  notString : v.isString = false
  offset : v.offset = 0
  fieldWidth : v.fieldWidth = 0

/-- An immediate integer of the given type and value, stored sign- or
zero-extended. -/
structure IsInteger (v : Var) (t : CInteger) (n : Int) : Prop extends IsIntegerWord v t where
  inRange : t.format.InRange n
  word : v.imm.lo = BitVec.ofInt 64 n

section Constants

variable {v : Var} {t t' : CInteger} {n : Int} {type : CType}

theorem isIntegerWord_varNumeric (htype : type.cInteger = some t) (val : Value) :
    IsIntegerWord (varNumeric type val) t :=
  ⟨rfl, htype, rfl, rfl, rfl⟩

theorem IsInteger.ofWord (h : IsInteger v t n) : t.format.ofWord v.imm.lo = n := by
  rw [h.word]
  exact ofWord_ofInt h.inRange

theorem IsIntegerWord.isInteger (h : IsIntegerWord v t)
    (hrange : t.format.InRange (t.format.ofWord v.imm.lo)) :
    IsInteger v t (t.format.ofWord v.imm.lo) :=
  ⟨h, hrange, (ofInt_ofWord v.imm.lo).symm⟩

variable [HostFloat]

theorem IsInteger.rvalue_eq (block : BlockRef) (h : IsInteger v t n) :
    rvalue block v = pure v := by
  rcases isScalar_of_cInteger h.type with ⟨-, hfunction, harray, -, -⟩
  exact rvalue_of_scalar block (by simp [Var.isField, h.fieldWidth]) hfunction harray

theorem IsIntegerWord.immediateInt_eq (h : IsIntegerWord v t) :
    immediateInt v.imm v.type = t.format.ofWord v.imm.lo := by
  have hsigned := isSigned_of_cInteger h.type
  unfold immediateInt
  rw [IntFormat.ofWord, ← hsigned]
  split
  · rfl
  · rename_i hs
    have hunsigned : v.type.isUnsignedType = true := by
      simpa [CType.isSigned, isInteger_of_cInteger h.type] using hs
    simp [hunsigned, Value.u]

theorem IsIntegerWord.isZeroValue_iff (h : IsIntegerWord v t) :
    isZeroValue v.imm v.type = true ↔ t.format.ofWord v.imm.lo = 0 := by
  unfold isZeroValue
  rw [realKind_of_cInteger h.type, decide_eq_true_iff]
  constructor
  · intro hzero
    have hlo : v.imm.lo = 0 := BitVec.eq_of_toNat_eq (by simpa [Value.u] using hzero)
    rw [hlo]
    simp [IntFormat.ofWord]
  · intro hzero
    rw [Value.u, ← ofInt_ofWord (f := t.format) v.imm.lo, hzero]
    rfl

theorem convert_spec (h : IsIntegerWord v t) (htype : type.cInteger = some t') :
    ∃ val, convert v.imm v.type type = some val ∧
      val.lo = BitVec.ofInt 64 (t'.convert (t.format.ofWord v.imm.lo)) := by
  have hreal := realKind_of_cInteger h.type
  have hkind := (cInteger_eq_some_iff.mp htype).1
  have hsigned := isSigned_of_cInteger htype
  have hint : ∀ f : IntFormat, (convertInt v.imm v.type f).lo =
      BitVec.ofInt 64 (f.wrap (t.format.ofWord v.imm.lo)) := by
    intro f
    simp only [convertInt, isFloatBelow, isFloatAbove, hreal, h.immediateInt_eq,
      Bool.false_eq_true, if_false]
    split <;> rfl
  unfold convert
  rw [hkind, hsigned]
  by_cases hbool : t' = .bool
  · subst hbool
    refine ⟨_, rfl, ?_⟩
    rw [Value.lo_setU, CInteger.convert, if_pos rfl]
    by_cases hn : t.format.ofWord v.imm.lo = 0
    · rw [if_pos (h.isZeroValue_iff.mpr hn), if_pos hn]
    · rw [if_neg fun hzero => hn (h.isZeroValue_iff.mp hzero), if_neg hn]
  · rw [CInteger.convert, if_neg hbool]
    cases t' <;> first | exact absurd rfl hbool | exact ⟨_, rfl, hint _⟩

theorem cast_spec (h : IsIntegerWord v t) (htype : type.cInteger = some t') :
    ∃ w, cast v type = pure (asExpr w) ∧ w.type = type ∧
      IsInteger w t' (t'.convert (t.format.ofWord v.imm.lo)) := by
  rcases convert_spec h htype with ⟨val, hval, hword⟩
  rcases isScalar_of_cInteger h.type with ⟨hscalar, -⟩
  rcases isScalar_of_cInteger htype with ⟨hscalar', -, -, hvoid, -⟩
  refine ⟨varNumeric type val, ?_, rfl, isIntegerWord_varNumeric htype val,
    CInteger.inRange_convert t' _, hword⟩
  simp [cast, hvoid, hscalar, hscalar', h.kind, h.notString, h.offset, hval]
  rfl

theorem evalCast_spec (block : BlockRef) (h : IsInteger v t n) (htype : type.cInteger = some t') :
    ∃ w, evalCast block v type = pure w ∧ w.type = type ∧ IsInteger w t' (t'.convert n) := by
  rcases cast_spec h.toIsIntegerWord htype with ⟨w, hcast, hwtype, hw⟩
  rw [h.ofWord] at hw
  refine ⟨w, ?_, hwtype, hw⟩
  rw [evalCast, hcast, pure_bind, eval_asExpr]

end Constants

/-! ## Host arithmetic -/

section Host

variable {op : CInteger.BinaryOp} {t : CInteger} {a b n : Int}

/-- The operator of the intermediate representation. -/
def opType : CInteger.BinaryOp → OpType
  | .add => .add
  | .sub => .sub
  | .mul => .mul
  | .div => .div
  | .mod => .mod
  | .or => .or
  | .xor => .xor
  | .and => .and
  | .shl => .shl
  | .shr => .shr
  | .eq => .eq
  | .ne => .ne
  | .ge => .ge
  | .gt => .gt

theorem ofInt_ne_zero {f : IntFormat} (hb : f.InRange b) (hne : b ≠ 0) :
    BitVec.ofInt 64 b ≠ 0 := by
  intro hzero
  have hword := ofWord_ofInt hb
  rw [hzero] at hword
  apply hne
  rw [← hword]
  simp [IntFormat.ofWord]

theorem not_intMin_div (ha : t.format.InRange a) (hb : t.format.InRange b)
    (hquot : t.format.InRange (a.tdiv b)) (hsigned : t.format.signed = true) :
    ¬ (BitVec.ofInt 64 a = BitVec.intMin 64 ∧ BitVec.ofInt 64 b = -1) := by
  rintro ⟨hmin, hminus⟩
  have hvala := IntFormat.toInt_ofInt hsigned ha
  have hvalb := IntFormat.toInt_ofInt hsigned hb
  rw [hmin] at hvala
  rw [hminus] at hvalb
  have ha' : a = -2 ^ 63 := by rw [← hvala]; rfl
  have hb' : b = -1 := by rw [← hvalb]; rfl
  subst ha' hb'
  have hbound := ((inRange_signed_iff hsigned _).mp hquot).2
  have hle : (2 : Int) ^ (t.format.width - 1) ≤ 2 ^ 63 :=
    pow_le_pow_right₀ (by decide) (by have := t.format.width_le; omega)
  have htdiv : (-2 ^ 63 : Int).tdiv (-1) = 2 ^ 63 := by decide
  omega

theorem shiftCount (hcount : 0 ≤ b ∧ b < t.format.width) :
    (BitVec.ofInt 64 b).toNat % 64 = b.toNat := by
  have hwidth := t.format.width_le
  have hword := toNat_ofInt_of_nonneg hcount.1 (by omega : b < 2 ^ 64)
  omega

/-- Whenever an operator has a value, the host computes a word that reads as
that value once it is reduced to the type. -/
theorem hostWord_spec (ha : t.format.InRange a)
    (hb : op.isShift = false → t.format.InRange b) (hcmp : op.isComparison = false)
    (hn : CInteger.binary op t a b = some n) :
    ∃ x, hostWord (opType op) t.format.signed (BitVec.ofInt 64 a) (BitVec.ofInt 64 b) = some x ∧
      t.format.wrap (t.format.ofWord x) = n := by
  cases op with
  | add =>
    simp only [CInteger.binary, some.injEq] at hn
    refine ⟨_, rfl, ?_⟩
    rw [← BitVec.ofInt_add, wrap_ofWord_ofInt, hn]
  | sub =>
    simp only [CInteger.binary, some.injEq] at hn
    refine ⟨_, rfl, ?_⟩
    rw [BitVec.sub_eq_add_neg, ← BitVec.ofInt_neg, ← BitVec.ofInt_add, wrap_ofWord_ofInt, ← hn]
    rfl
  | mul =>
    simp only [CInteger.binary, some.injEq] at hn
    refine ⟨_, rfl, ?_⟩
    rw [← BitVec.ofInt_mul, wrap_ofWord_ofInt, hn]
  | div =>
    have hb := hb rfl
    simp only [CInteger.binary, ite_none_left_eq_some, not_or, not_not, some.injEq] at hn
    rcases hn with ⟨⟨hzero, hquot⟩, rfl⟩
    have hdiv := ofWord_div ha hb
    refine ⟨_, ?_, hdiv.trans hquot⟩
    simp only [hostWord, opType, if_neg (ofInt_ne_zero hb hzero)]
    cases hsigned : t.format.signed with
    | true => rw [if_pos rfl, if_neg (not_intMin_div ha hb hquot hsigned), if_pos rfl]
    | false => rfl
  | mod =>
    have hb := hb rfl
    simp only [CInteger.binary, ite_none_left_eq_some, not_or, not_not, some.injEq] at hn
    rcases hn with ⟨⟨hzero, hquot⟩, rfl⟩
    have hmod := ofWord_mod ha hb
    refine ⟨_, ?_, (congrArg _ hmod).trans (inRange_tmod ha b)⟩
    simp only [hostWord, opType, if_neg (ofInt_ne_zero hb hzero)]
    cases hsigned : t.format.signed with
    | true => rw [if_pos rfl, if_neg (not_intMin_div ha hb hquot hsigned), if_pos rfl]
    | false => rfl
  | or =>
    simp only [CInteger.binary, some.injEq] at hn
    refine ⟨_, rfl, ?_⟩
    rw [ofWord_or ha (hb rfl), ← hn]
    exact inRange_ofBits _
  | xor =>
    simp only [CInteger.binary, some.injEq] at hn
    refine ⟨_, rfl, ?_⟩
    rw [ofWord_xor ha (hb rfl), ← hn]
    exact inRange_ofBits _
  | and =>
    simp only [CInteger.binary, some.injEq] at hn
    refine ⟨_, rfl, ?_⟩
    rw [ofWord_and ha (hb rfl), ← hn]
    exact inRange_ofBits _
  | shl =>
    simp only [CInteger.binary, ite_none_right_eq_some, some.injEq] at hn
    rcases hn with ⟨hcount, rfl⟩
    refine ⟨_, rfl, ?_⟩
    rw [shiftCount hcount, wrap_ofWord_shiftLeft]
  | shr =>
    simp only [CInteger.binary, ite_none_right_eq_some, some.injEq] at hn
    rcases hn with ⟨hcount, rfl⟩
    have hshift := ofWord_shiftRight ha b.toNat
    refine ⟨_, ?_, (congrArg _ hshift).trans (inRange_shiftRight ha _)⟩
    simp only [hostWord, opType, shiftCount hcount]
    split <;> rfl
  | eq => simp [CInteger.BinaryOp.isComparison] at hcmp
  | ne => simp [CInteger.BinaryOp.isComparison] at hcmp
  | ge => simp [CInteger.BinaryOp.isComparison] at hcmp
  | gt => simp [CInteger.BinaryOp.isComparison] at hcmp

end Host

/-! ## Folding one operator -/

section Operators

variable {op : CInteger.BinaryOp} {t t1 t2 : CInteger} {n a b : Int} {type : CType}
  {v l r : Var}

/-- The types that operands are converted to. -/
def IsPromoted (t : CInteger) : Prop :=
  t = .int ∨ t = .uint ∨ t = .long ∨ t = .ulong

theorem isPromoted_promote (t : CInteger) : IsPromoted t.promote := by
  unfold IsPromoted
  cases t <;> decide

theorem isPromoted_common (t1 t2 : CInteger) : IsPromoted (CInteger.common t1 t2) := by
  unfold IsPromoted
  cases t1 <;> cases t2 <;> decide

theorem convert_of_isPromoted (ht : IsPromoted t) (n : Int) : t.convert n = t.format.wrap n := by
  rw [CInteger.convert, if_neg]
  rintro rfl
  revert ht
  unfold IsPromoted
  decide

theorem immSigned_spec (htype : type.cInteger = some t) (hsigned : t.format.signed = true)
    (x : BitVec 64) : immSigned type x.toInt = pure (varNumeric type { lo := x }) := by
  rw [immSigned, isSigned_of_cInteger htype, if_pos hsigned]
  simp [Value.setI]

theorem immUnsigned_spec (htype : type.cInteger = some t) (ht : IsPromoted t)
    (hsigned : t.format.signed = false) (x : BitVec 64) :
    ∃ y, immUnsigned type x.toNat = pure (varNumeric type { lo := y }) ∧
      t.format.ofWord y = t.format.wrap (t.format.ofWord x) := by
  have hinteger := isInteger_of_cInteger htype
  have hsize := intSize_of_cInteger htype
  have hunsigned : type.isUnsignedType = true := by
    rw [(cInteger_eq_some_iff.mp htype).2]
    rcases ht with rfl | rfl | rfl | rfl <;> first | rfl | cases hsigned
  have hread : readTable (sizeOf · type) = pure type.intSize := by
    funext s
    simp [readTable, sizeOf_of_isInteger hinteger]
    rfl
  have hwrap := wrap_unsigned hsigned (t.format.ofWord x)
  have hword : t.format.ofWord x = x.toNat := by simp [IntFormat.ofWord, hsigned]
  rcases ht with rfl | rfl | rfl | rfl
  · cases hsigned
  · refine ⟨x &&& unsignedMask 4, ?_, ?_⟩
    · simp [immUnsigned, hunsigned, hread, hsize, CInteger.rank]
    · have hmask : (x &&& unsignedMask 4).toNat = x.toNat % 2 ^ 32 :=
        Nat.and_two_pow_sub_one_eq_mod x.toNat 32
      rw [hwrap, hword, IntFormat.ofWord, if_neg (by simp [hsigned]), hmask]
      rfl
  · cases hsigned
  · refine ⟨x, ?_, ?_⟩
    · simp [immUnsigned, hunsigned, hread, hsize, CInteger.rank, Value.setU]
    · rw [hwrap, hword]
      have hlt := x.isLt
      exact (Int.emod_eq_of_lt (by omega) (by exact_mod_cast hlt)).symm

theorem evalIntegerImmediate_word {op : OpType} (htype : type.cInteger = some t)
    (ht : IsPromoted t) {x : BitVec 64}
    (hx : hostWord op t.format.signed l.imm.lo r.imm.lo = some x) :
    ∃ y, evalIntegerImmediate op type l r = pure (varNumeric type { lo := y }) ∧
      t.format.wrap (t.format.ofWord y) = t.format.wrap (t.format.ofWord x) ∧
      (t.format.InRange (t.format.ofWord x) → t.format.InRange (t.format.ofWord y)) := by
  rw [evalIntegerImmediate, isSigned_of_cInteger htype]
  cases hsigned : t.format.signed with
  | true =>
    rw [hsigned] at hx
    refine ⟨x, ?_, rfl, id⟩
    simp only [if_true, hx, orTrap, pure_bind]
    exact immSigned_spec htype hsigned x
  | false =>
    rw [hsigned] at hx
    rcases immUnsigned_spec htype ht hsigned x with ⟨y, hy, hword⟩
    refine ⟨y, ?_, by rw [hword, wrap_wrap], ?_⟩
    · simp only [Bool.false_eq_true, if_false, hx, orTrap, pure_bind]
      exact hy
    · intro _
      rw [hword]
      exact inRange_wrap _

theorem evalIntegerImmediate_spec (htype : type.cInteger = some t) (ht : IsPromoted t)
    (hl : l.imm.lo = BitVec.ofInt 64 a) (hr : r.imm.lo = BitVec.ofInt 64 b)
    (ha : t.format.InRange a) (hb : op.isShift = false → t.format.InRange b)
    (hcmp : op.isComparison = false) (hn : CInteger.binary op t a b = some n) :
    ∃ y, evalIntegerImmediate (opType op) type l r = pure (varNumeric type { lo := y }) ∧
      t.format.wrap (t.format.ofWord y) = n := by
  rcases hostWord_spec ha hb hcmp hn with ⟨x, hx, hvalue⟩
  rw [← hl, ← hr] at hx
  rcases evalIntegerImmediate_word htype ht hx with ⟨y, hy, hword, -⟩
  exact ⟨y, hy, hword.trans hvalue⟩

theorem readTable_common (hl : l.type.cInteger = some t1) (hr : r.type.cInteger = some t2) :
    readTable (usualArithmeticConversion · l.type r.type) = pure (l.type.common r.type) := by
  funext s
  simp [readTable, usualArithmeticConversion_eq (isInteger_of_cInteger hl)
    (isInteger_of_cInteger hr)]
  rfl

theorem bothImmediate_of_isInteger (hl : IsInteger l t1 a) (hr : IsInteger r t2 b) :
    bothImmediate l r = true := by
  simp [bothImmediate, hl.kind, hr.kind]

theorem isInteger_varInt (hn : (CInteger.format .int).InRange n) : IsInteger (varInt n) .int n :=
  ⟨isIntegerWord_varNumeric rfl _, hn, rfl⟩

theorem isInteger_ofBool (p : Bool) :
    IsInteger (varInt (CInteger.ofBool p)) .int (CInteger.ofBool p) := by
  apply isInteger_varInt
  cases p <;> decide

theorem common_int (t : CInteger) : CInteger.common .int t = t.promote := by
  cases t <;> rfl

theorem notImmediate_spec (htype : type.cInteger = some t) (ht : IsPromoted t)
    (h : IsInteger v t a) :
    ∃ y, notImmediate type v = pure (varNumeric type { lo := y }) ∧
      t.format.ofWord y = CInteger.unary .not t a := by
  have hbits := wrap_ofWord_not (f := t.format) a
  rw [← h.word] at hbits
  rw [notImmediate, isSigned_of_cInteger htype]
  cases hsigned : t.format.signed with
  | true =>
    refine ⟨~~~v.imm.lo, immSigned_spec htype hsigned _, ?_⟩
    have hrange := inRange_ofWord_not hsigned h.inRange
    rw [← h.word] at hrange
    exact hrange.symm.trans hbits
  | false =>
    rcases immUnsigned_spec htype ht hsigned (~~~v.imm.lo) with ⟨y, hy, hword⟩
    exact ⟨y, hy, hword.trans hbits⟩

/-- The result of folding: a canonical constant of the given type and value. -/
def FoldsTo (fold : EvalM Expression) (t : CInteger) (n : Int) : Prop :=
  ∃ w, fold = pure (asExpr w) ∧ IsInteger w t n

variable [HostFloat]

theorem cast_folded (htype : type.cInteger = some t) (ht : IsPromoted t) {y : BitVec 64}
    (hvalue : t.format.wrap (t.format.ofWord y) = n) :
    ∃ w, cast (varNumeric type { lo := y }) type = pure (asExpr w) ∧ w.type = type ∧
      IsInteger w t n := by
  rcases cast_spec (isIntegerWord_varNumeric htype { lo := y }) htype with ⟨w, hw, hwtype, hint⟩
  refine ⟨w, hw, hwtype, ?_⟩
  rwa [convert_of_isPromoted ht, varNumeric, hvalue] at hint

theorem convertOperands_spec (block : BlockRef) (hl : IsInteger l t1 a) (hr : IsInteger r t2 b) :
    ∃ l' r', convertOperands block l r = pure (l.type.common r.type, l', r') ∧
      l'.type = l.type.common r.type ∧
      IsInteger l' (CInteger.common t1 t2) ((CInteger.common t1 t2).convert a) ∧
      IsInteger r' (CInteger.common t1 t2) ((CInteger.common t1 t2).convert b) := by
  have htype := cInteger_common hl.type hr.type
  rcases evalCast_spec block hl htype with ⟨l', hl', hltype, hlint⟩
  rcases evalCast_spec block hr htype with ⟨r', hr', -, hrint⟩
  refine ⟨l', r', ?_, hltype, hlint, hrint⟩
  rw [convertOperands, readTable_common hl.type hr.type, pure_bind, hl', pure_bind, hr', pure_bind]

theorem arithmetic_spec (op : CInteger.BinaryOp) (block : BlockRef) (hl : IsInteger l t1 a)
    (hr : IsInteger r t2 b) (hcmp : op.isComparison = false)
    (hn : CInteger.binary op (CInteger.common t1 t2) ((CInteger.common t1 t2).convert a)
      ((CInteger.common t1 t2).convert b) = some n) :
    ∃ w, arithmetic (opType op) block l r = pure (asExpr w) ∧ w.type = l.type.common r.type ∧
      IsInteger w (CInteger.common t1 t2) n := by
  have htype := cInteger_common hl.type hr.type
  have hpromoted := isPromoted_common t1 t2
  rcases convertOperands_spec block hl hr with ⟨l', r', hconvert, -, hl', hr'⟩
  rcases evalIntegerImmediate_spec htype hpromoted hl'.word hr'.word hl'.inRange
    (fun _ => hr'.inRange) hcmp hn with ⟨y, hfold, hvalue⟩
  rcases cast_folded htype hpromoted hvalue with ⟨w, hcast, hwtype, hw⟩
  have hinteger : ((l.type.common r.type).isSigned || (l.type.common r.type).isUnsignedType) =
      true := by
    rw [CType.isSigned, isInteger_of_cInteger htype]
    cases (l.type.common r.type).isUnsignedType <;> rfl
  refine ⟨w, ?_, hwtype, hw⟩
  simp only [arithmetic, hconvert, pure_bind, bothImmediate_of_isInteger hl' hr', if_true,
    evalArithmeticImmediate, hinteger, Bool.true_or, hfold, hcast]

theorem arithmetic_foldsTo (op : CInteger.BinaryOp) (block : BlockRef) (hl : IsInteger l t1 a)
    (hr : IsInteger r t2 b) (hcmp : op.isComparison = false)
    (hn : CInteger.binary op (CInteger.common t1 t2) ((CInteger.common t1 t2).convert a)
      ((CInteger.common t1 t2).convert b) = some n) :
    FoldsTo (arithmetic (opType op) block l r) (CInteger.common t1 t2) n := by
  rcases arithmetic_spec op block hl hr hcmp hn with ⟨w, hw, -, hint⟩
  exact ⟨w, hw, hint⟩

theorem mod_spec (block : BlockRef) (hl : IsInteger l t1 a) (hr : IsInteger r t2 b)
    (hn : CInteger.binary .mod (CInteger.common t1 t2) ((CInteger.common t1 t2).convert a)
      ((CInteger.common t1 t2).convert b) = some n) :
    FoldsTo (mod block l r) (CInteger.common t1 t2) n := by
  have htype := cInteger_common hl.type hr.type
  have hpromoted := isPromoted_common t1 t2
  rcases evalCast_spec block hl htype with ⟨l', hl', -, hlint⟩
  rcases evalCast_spec block hr htype with ⟨r', hr', -, hrint⟩
  rcases evalIntegerImmediate_spec htype hpromoted hlint.word hrint.word hlint.inRange
    (fun _ => hrint.inRange) rfl hn with ⟨y, hfold, hvalue⟩
  rcases cast_folded htype hpromoted hvalue with ⟨w, hcast, -, hw⟩
  refine ⟨w, ?_, hw⟩
  simp only [opType] at hfold
  simp [mod, readTable_common hl.type hr.type, isInteger_of_cInteger htype, hl', hr',
    bothImmediate_of_isInteger hlint hrint, hfold]
  exact hcast

theorem bitwise_spec (op : CInteger.BinaryOp) (block : BlockRef) (message : String) (hl : IsInteger l t1 a)
    (hr : IsInteger r t2 b) (hcmp : op.isComparison = false)
    (hn : CInteger.binary op (CInteger.common t1 t2) ((CInteger.common t1 t2).convert a)
      ((CInteger.common t1 t2).convert b) = some n) :
    FoldsTo (bitwise (opType op) message block l r) (CInteger.common t1 t2) n := by
  have htype := cInteger_common hl.type hr.type
  have hpromoted := isPromoted_common t1 t2
  rcases convertOperands_spec block hl hr with ⟨l', r', hconvert, -, hl', hr'⟩
  rcases evalIntegerImmediate_spec htype hpromoted hl'.word hr'.word hl'.inRange
    (fun _ => hr'.inRange) hcmp hn with ⟨y, hfold, hvalue⟩
  rcases cast_folded htype hpromoted hvalue with ⟨w, hcast, -, hw⟩
  refine ⟨w, ?_, hw⟩
  simp [bitwise, isInteger_of_cInteger hl.type, isInteger_of_cInteger hr.type,
    hconvert, bothImmediate_of_isInteger hl' hr', hfold]
  exact hcast

theorem shift_spec (op : CInteger.BinaryOp) (block : BlockRef) (hl : IsInteger l t1 a) (hr : IsInteger r t2 b)
    (hshift : op.isShift = true) (hcmp : op.isComparison = false)
    (hn : CInteger.binary op t1.promote (t1.promote.convert a) b = some n) :
    FoldsTo (shift (opType op) block l r) t1.promote n := by
  have htype := cInteger_promoted hl.type
  have hpromoted := isPromoted_promote t1
  have hread : readTable (promoteInteger · l.type) = pure l.type.promoted := by
    funext s
    simp [readTable, promoteInteger_eq (isInteger_of_cInteger hl.type)]
    rfl
  rcases evalCast_spec block hl htype with ⟨l', hl', -, hlint⟩
  rcases evalIntegerImmediate_spec htype hpromoted hlint.word hr.word hlint.inRange
    (fun h => absurd h (by simp [hshift])) hcmp hn with ⟨y, hfold, hvalue⟩
  rcases cast_folded htype hpromoted hvalue with ⟨w, hcast, -, hw⟩
  refine ⟨w, ?_, hw⟩
  simp [shift, isInteger_of_cInteger hl.type, isInteger_of_cInteger hr.type, hread,
    hl', bothImmediate_of_isInteger hlint hr, hfold]
  exact hcast

theorem and_spec (block : BlockRef) (hl : IsInteger l t1 a) (hr : IsInteger r t2 b)
    (hn : CInteger.binary .and (CInteger.common t1 t2) ((CInteger.common t1 t2).convert a)
      ((CInteger.common t1 t2).convert b) = some n) :
    FoldsTo (and block l r) (CInteger.common t1 t2) n := by
  have htype := cInteger_common hl.type hr.type
  rcases convertOperands_spec block hl hr with ⟨l', r', hconvert, -, hl', hr'⟩
  have hx : hostWord .and (CInteger.common t1 t2).format.signed l'.imm.lo r'.imm.lo =
      some (l'.imm.lo &&& r'.imm.lo) := rfl
  have hbits : (CInteger.common t1 t2).format.ofWord (l'.imm.lo &&& r'.imm.lo) = n := by
    simp only [CInteger.binary, some.injEq] at hn
    rw [hl'.word, hr'.word, ofWord_and hl'.inRange hr'.inRange, hn]
  have hrange : (CInteger.common t1 t2).format.InRange n := by
    simp only [CInteger.binary, some.injEq] at hn
    rw [← hn]
    exact inRange_ofBits _
  rcases evalIntegerImmediate_word htype (isPromoted_common t1 t2) hx with
    ⟨y, hfold, hword, hinRange⟩
  rw [hbits] at hword hinRange
  have hvalue : (CInteger.common t1 t2).format.ofWord y = n := by
    rw [← hinRange hrange, hword, hrange]
  have hint := (isIntegerWord_varNumeric htype { lo := y }).isInteger (hinRange hrange)
  refine ⟨varNumeric (l.type.common r.type) { lo := y }, ?_, hvalue ▸ hint⟩
  simp [and, isInteger_of_cInteger hl.type, isInteger_of_cInteger hr.type, hconvert,
    bothImmediate_of_isInteger hl' hr', hfold]

theorem evalImmediateCompare_spec (htype : type.cInteger = some t) (hl : IsInteger l t a)
    (hr : IsInteger r t b) (hcmp : op.isComparison = true) :
    ∃ p, evalImmediateCompare (opType op) type l r = varInt (CInteger.ofBool p) ∧
      CInteger.binary op t a b = some (CInteger.ofBool p) := by
  have hsigned := isSigned_of_cInteger htype
  have hvalues : (if type.isSigned then compareInt (opType op) l.imm.i r.imm.i
      else if type.isUnsignedType || type.isPointerType then
        compareInt (opType op) l.imm.u r.imm.u
      else compareReal (opType op) (type.realKind.getD .ldouble)
        (l.imm.real (type.realKind.getD .ldouble)) (r.imm.real (type.realKind.getD .ldouble))) =
      compareInt (opType op) a b := by
    have hla := hl.ofWord
    have hrb := hr.ofWord
    rw [IntFormat.ofWord] at hla hrb
    rw [hsigned]
    cases hs : t.format.signed with
    | true =>
      rw [if_pos hs] at hla hrb
      rw [if_pos rfl, Value.i, Value.i, hla, hrb]
    | false =>
      have hunsigned : type.isUnsignedType = true := by
        rw [hs] at hsigned
        simpa [CType.isSigned, isInteger_of_cInteger htype] using hsigned
      rw [if_neg (by simp [hs])] at hla hrb
      rw [if_neg (by simp), hunsigned, Bool.true_or, if_pos rfl, Value.u, Value.u, hla, hrb]
  refine ⟨compareInt (opType op) a b, ?_, ?_⟩
  · simp only [evalImmediateCompare, hvalues, CInteger.ofBool]
  · cases op <;> first | rfl | cases hcmp

theorem equality_spec (op : CInteger.BinaryOp) (block : BlockRef) (hl : IsInteger l t1 a)
    (hr : IsInteger r t2 b) (hcmp : op.isComparison = true) :
    ∃ p, equality (opType op) block l r = pure (asExpr (varInt (CInteger.ofBool p))) ∧
      CInteger.binary op (CInteger.common t1 t2) ((CInteger.common t1 t2).convert a)
        ((CInteger.common t1 t2).convert b) = some (CInteger.ofBool p) := by
  have htype := cInteger_common hl.type hr.type
  rcases convertOperands_spec block hl hr with ⟨l', r', hconvert, hltype, hl', hr'⟩
  rw [← hltype] at htype
  rcases evalImmediateCompare_spec htype hl' hr' hcmp with ⟨p, hfold, hvalue⟩
  rcases isReal_of_isInteger (isInteger_of_cInteger hl.type) with ⟨harith1, -⟩
  rcases isReal_of_isInteger (isInteger_of_cInteger hr.type) with ⟨harith2, -⟩
  rcases isScalar_of_cInteger hr.type with ⟨-, -, -, -, hpointer⟩
  refine ⟨p, ?_, hvalue⟩
  simp [equality, prepareComparisonOperands, comparisonSwapped, hpointer, prepareOrdered,
    harith1, harith2, hconvert, bothImmediate_of_isInteger hl' hr', hfold]

theorem relational_spec (op : CInteger.BinaryOp) (block : BlockRef) (hl : IsInteger l t1 a)
    (hr : IsInteger r t2 b) (hcmp : op.isComparison = true) :
    ∃ p, relational (opType op) block l r = pure (asExpr (varInt (CInteger.ofBool p))) ∧
      CInteger.binary op (CInteger.common t1 t2) ((CInteger.common t1 t2).convert a)
        ((CInteger.common t1 t2).convert b) = some (CInteger.ofBool p) := by
  have htype := cInteger_common hl.type hr.type
  rcases evalCast_spec block hl htype with ⟨l', hl', -, hlint⟩
  rcases evalCast_spec block hr htype with ⟨r', hr', -, hrint⟩
  rcases evalImmediateCompare_spec htype hlint hrint hcmp with ⟨p, hfold, hvalue⟩
  rcases isReal_of_isInteger (isInteger_of_cInteger hl.type) with ⟨harith1, -⟩
  rcases isReal_of_isInteger (isInteger_of_cInteger hr.type) with ⟨harith2, -⟩
  refine ⟨p, ?_, hvalue⟩
  simp [relational, commonCompareType, harith1, harith2, readTable_common hl.type hr.type, hl',
    hr', bothImmediate_of_isInteger hlint hrint, hfold]

omit [HostFloat] in
theorem foldsTo_ofBool {fold : EvalM Expression} {o : Option Int} (hn : o = some n)
    (h : ∃ p, fold = pure (asExpr (varInt (CInteger.ofBool p))) ∧ o = some (CInteger.ofBool p)) :
    FoldsTo fold .int n := by
  rcases h with ⟨p, hfold, hvalue⟩
  rw [hn, some.injEq] at hvalue
  exact ⟨_, hfold, hvalue ▸ isInteger_ofBool p⟩

theorem evalBinary_spec (block : BlockRef) (hl : IsInteger l t1 a) (hr : IsInteger r t2 b)
    (hn : CInteger.binary op (CInteger.operandType op t1 t2)
      ((CInteger.operandType op t1 t2).convert a)
      (if op.isShift then b else (CInteger.operandType op t1 t2).convert b) = some n) :
    FoldsTo (evalBinary block (opType op) l r) (CInteger.resultType op t1 t2) n := by
  have hinteger := isInteger_of_cInteger hl.type
  have hinteger' := isInteger_of_cInteger hr.type
  rcases isReal_of_isInteger hinteger with ⟨harith, -⟩
  rcases isReal_of_isInteger hinteger' with ⟨harith', -⟩
  rcases isScalar_of_cInteger hl.type with ⟨-, -, -, -, hpointer⟩
  rcases isScalar_of_cInteger hr.type with ⟨-, -, -, -, hpointer'⟩
  rw [evalBinary, hl.rvalue_eq block, pure_bind, hr.rvalue_eq block, pure_bind]
  cases op with
  | add =>
    have hadd : add block l r = arithmetic .add block l r := by
      simp [add, addOrdered, hpointer', harith, harith']
    simp only [opType, hadd]
    exact arithmetic_foldsTo .add block hl hr rfl hn
  | sub =>
    have hsub : sub block l r = arithmetic .sub block l r := by simp [sub, harith, harith']
    simp only [opType, hsub]
    exact arithmetic_foldsTo .sub block hl hr rfl hn
  | mul => exact arithmetic_foldsTo .mul block hl hr rfl hn
  | div => exact arithmetic_foldsTo .div block hl hr rfl hn
  | mod => exact mod_spec block hl hr hn
  | or => exact bitwise_spec .or block _ hl hr rfl hn
  | xor => exact bitwise_spec .xor block _ hl hr rfl hn
  | and => exact and_spec block hl hr hn
  | shl => exact shift_spec .shl block hl hr rfl rfl hn
  | shr => exact shift_spec .shr block hl hr rfl rfl hn
  | eq => exact foldsTo_ofBool hn (equality_spec .eq block hl hr rfl)
  | ne => exact foldsTo_ofBool hn (equality_spec .ne block hl hr rfl)
  | ge => exact foldsTo_ofBool hn (relational_spec .ge block hl hr rfl)
  | gt => exact foldsTo_ofBool hn (relational_spec .gt block hl hr rfl)

theorem not_spec (block : BlockRef) (h : IsInteger v t a) :
    FoldsTo (not block v) t.promote (CInteger.unary .not t.promote (t.promote.convert a)) := by
  have htype := cInteger_promoted h.type
  have hread : readTable (promoteInteger · v.type) = pure v.type.promoted := by
    funext s
    simp [readTable, promoteInteger_eq (isInteger_of_cInteger h.type)]
    rfl
  rcases evalCast_spec block h htype with ⟨w, hw, -, hint⟩
  rcases notImmediate_spec htype (isPromoted_promote t) hint with ⟨y, hfold, hvalue⟩
  have hcanonical := (isIntegerWord_varNumeric htype { lo := y }).isInteger (by
    simp only [varNumeric, hvalue]
    exact inRange_ofBits _)
  simp only [varNumeric, hvalue] at hcanonical
  refine ⟨varNumeric v.type.promoted { lo := y }, ?_, hcanonical⟩
  simp [not, isInteger_of_cInteger h.type, hread, hw, hint.kind, hfold]

theorem neg_spec (block : BlockRef) (h : IsInteger v t a) :
    FoldsTo (neg block v) t.promote (CInteger.unary .neg t.promote (t.promote.convert a)) := by
  have hinteger := isInteger_of_cInteger h.type
  rcases isReal_of_isInteger hinteger with ⟨harith, -, hdouble, hfloat⟩
  have hneg : neg block v = arithmetic .sub block (varInt 0) v := by
    simp only [neg, harith, hfloat, hdouble, sub]
    rfl
  have hzero : IsInteger (varInt 0) .int 0 := isInteger_ofBool false
  have hconvert : t.promote.convert 0 = 0 := CInteger.convert_of_inRange (by cases t <;> decide)
  rw [hneg, ← common_int t]
  refine arithmetic_foldsTo .sub block hzero h rfl ?_
  rw [common_int, hconvert]
  simp [CInteger.binary, CInteger.unary]

end Operators

/-! ## Trees of constants -/

/-- An integer constant expression. -/
inductive ConstTree
  | constant (v : Var) (t : CInteger) (n : Int) (h : IsInteger v t n)
  | cast (type : CType) (t : CInteger) (h : type.cInteger = some t) (e : ConstTree)
  | unary (op : CInteger.UnaryOp) (e : ConstTree)
  | binary (op : CInteger.BinaryOp) (l r : ConstTree)

namespace ConstTree

/-- The type that C gives to the expression. -/
def cType : ConstTree → CInteger
  | constant _ t _ _ => t
  | cast _ t _ _ => t
  | unary _ e => e.cType.promote
  | binary op l r => CInteger.resultType op l.cType r.cType

/-- The value that C gives to the expression; {lit}`none` when a division
overflows or has a zero divisor, or a shift count is out of range. -/
def cValue : ConstTree → Option Int
  | constant _ _ n _ => some n
  | cast _ t _ e => e.cValue.map t.convert
  | unary op e =>
    e.cValue.map fun n => CInteger.unary op e.cType.promote (e.cType.promote.convert n)
  | binary op l r =>
    l.cValue.bind fun a =>
      r.cValue.bind fun b =>
        let t := CInteger.operandType op l.cType r.cType
        CInteger.binary op t (t.convert a) (if op.isShift then b else t.convert b)

end ConstTree

section Trees

variable [HostFloat]

/-- The operator of the intermediate representation. -/
def unaryOpType : CInteger.UnaryOp → OpType
  | .not => .not
  | .neg => .neg

/-- The parser's use of `eval` and `eval_expr` on a tree of constants. -/
def foldTree (block : BlockRef) : ConstTree → EvalM Expression
  | .constant v _ _ _ => pure (asExpr v)
  | .cast type _ _ e => do
    let e ← foldTree block e
    let v ← eval block e
    evalTyped block .cast v type
  | .unary op e => do
    let e ← foldTree block e
    let v ← eval block e
    evalUnary block (unaryOpType op) v
  | .binary op l r => do
    let l ← foldTree block l
    let vl ← eval block l
    let r ← foldTree block r
    let vr ← eval block r
    evalBinary block (opType op) vl vr

theorem foldTree_foldsTo (block : BlockRef) {tree : ConstTree} {n : Int}
    (hn : tree.cValue = some n) : FoldsTo (foldTree block tree) tree.cType n := by
  induction tree generalizing n with
  | constant v t n' h =>
    simp only [ConstTree.cValue, some.injEq] at hn
    exact ⟨v, rfl, hn ▸ h⟩
  | cast type t htype e ih =>
    simp only [ConstTree.cValue, map_eq_some_iff] at hn
    rcases hn with ⟨m, hm, rfl⟩
    rcases ih hm with ⟨v, hv, hint⟩
    rcases cast_spec hint.toIsIntegerWord htype with ⟨w, hw, -, hwint⟩
    rw [hint.ofWord] at hwint
    refine ⟨w, ?_, hwint⟩
    simp [foldTree, hv, evalTyped, hint.rvalue_eq block, hw]
  | unary op e ih =>
    simp only [ConstTree.cValue, map_eq_some_iff] at hn
    rcases hn with ⟨m, hm, rfl⟩
    rcases ih hm with ⟨v, hv, hint⟩
    have hfold : foldTree block (.unary op e) =
        (evalUnary block (unaryOpType op) v) := by
      simp [foldTree, hv]
    rw [hfold, evalUnary, hint.rvalue_eq block, pure_bind]
    cases op with
    | not => exact not_spec block hint
    | neg => exact neg_spec block hint
  | binary op l r ihl ihr =>
    simp only [ConstTree.cValue, bind_eq_some_iff] at hn
    rcases hn with ⟨a, ha, b, hb, hn⟩
    rcases ihl ha with ⟨vl, hvl, hlint⟩
    rcases ihr hb with ⟨vr, hvr, hrint⟩
    have hfold : foldTree block (.binary op l r) = evalBinary block (opType op) vl vr := by
      simp [foldTree, hvl, hvr]
    rw [hfold]
    exact evalBinary_spec block hlint hrint hn

/-- Folding a tree of constants of which every operation has a value emits
nothing and gives a canonical immediate of the C type and value. -/
theorem foldTree_correct (block : BlockRef) (s : EvalState) (tree : ConstTree) {n : Int}
    (hn : tree.cValue = some n) :
    ∃ w, foldTree block tree s = .ok (asExpr w, s) ∧ IsInteger w tree.cType n := by
  rcases foldTree_foldsTo block hn with ⟨w, hw, hint⟩
  refine ⟨w, ?_, hint⟩
  rw [hw]
  rfl

end Trees

/-- The tree of `(char) (-1 / 2u)`. -/
def charOfQuotient : ConstTree :=
  .cast basicTypeChar .char rfl
    (.binary .div
      (.unary .neg (.constant (varInt 1) .int 1 (isInteger_ofBool true)))
      (.constant (varNumeric basicTypeUnsignedInt { lo := 2 }) .uint 2
        ⟨⟨rfl, rfl, rfl, rfl, rfl⟩, by decide, rfl⟩))

/-- The quotient is taken in `unsigned int` and its low byte is minus one. -/
theorem foldTree_correct_quotient :
    charOfQuotient.cValue = some (-1) ∧
      ∃ w, @foldTree HostFloat.zero none charOfQuotient {} = .ok (asExpr w, {}) ∧
        IsInteger w .char (-1) :=
  ⟨by decide, @foldTree_correct HostFloat.zero none {} charOfQuotient (-1) (by decide)⟩

end Kcs
