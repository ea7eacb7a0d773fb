import Kcs.Eval.PointerArithmetic

/-!
# Truth of operands

The operand of a logical operator is compared with zero in its own type, either by the branch at
the end of a block or by a comparison that `eval_expr` makes for `!=`.

Main results:

- Lemma {lit}`isZeroValue_isTrue`: `is_zero_value` of a canonical constant.
- Lemmas {lit}`IntegerOperand.nonZero_emits` and {lit}`StandsFor.nonZero_emits`: the comparison of
  an operand with zero.
-/

namespace Kcs

open CType
open Option hiding bind_assoc

/-! ## Truth values -/

section Truth

variable [HostFloat]

/-- Does a scalar compare unequal to zero? -/
def Scalar.isTrue : Scalar → Bool
  | .int n => n ≠ 0
  | .real k x => !HostFloat.eq k x (HostFloat.ofInt k 0)

variable {env : RunEnv} {v : Var} {x : Scalar} {t : CType} {raw : Nat} {c : CInteger} {a : Int}

@[simp]
theorem isTrue_ofBool (p : Bool) : (Scalar.int (CInteger.ofBool p)).isTrue = p := by
  cases p <;> rfl

/-- `is_zero_value` of a canonical constant. -/
theorem isZeroValue_isTrue (h : ImmRepr v x) : isZeroValue v.imm v.type = !x.isTrue := by
  cases x with
  | int n =>
    rw [isZeroValue_of_repr h, Scalar.isTrue]
    by_cases hn : n = 0 <;> simp [hn]
  | real k bits =>
    rcases h with ⟨-, hreal, rfl⟩
    simp [isZeroValue, hreal, Scalar.isTrue]

omit [HostFloat] in
theorem decode_hasType (h : decode t raw = some x) : x.HasType t := by
  unfold decode at h
  cases hword : t.wordType with
  | some c =>
    rw [hword, some.injEq] at h
    subst h
    exact ⟨c, hword, IntFormat.inRange_ofBits _⟩
  | none =>
    rw [hword] at h
    rcases map_eq_some_iff.mp h with ⟨k, hreal, rfl⟩
    exact ⟨hword, hreal⟩

omit [HostFloat] in
theorem decode_mod (t : CType) (raw : Nat) : decode t (raw % 256 ^ t.scalarSize) = decode t raw := by
  have hpow : (256 : Nat) ^ t.scalarSize = 2 ^ (8 * t.scalarSize) := by
    rw [pow_mul]
    norm_num
  have hmod : ∀ w : Nat, w ≤ 8 * t.scalarSize →
      BitVec.ofNat w (raw % 256 ^ t.scalarSize) = BitVec.ofNat w raw := by
    intro w hw
    apply BitVec.eq_of_toNat_eq
    rw [BitVec.toNat_ofNat, BitVec.toNat_ofNat, hpow, Nat.mod_mod_of_dvd _ (pow_dvd_pow 2 hw)]
  unfold decode
  cases hword : t.wordType with
  | some c => simp only [hmod _ (width_le_scalarSize hword)]
  | none =>
    cases hreal : t.realKind with
    | none => rfl
    | some k => simp only [map_some, hmod _ (realWidth hreal).le]

omit [HostFloat] in
theorem encode_ofBool (p : Bool) :
    encode basicTypeInt (.int (CInteger.ofBool p)) = some p.toNat ∧
      decode basicTypeInt p.toNat = some (.int (CInteger.ofBool p)) := by
  cases p <;> exact ⟨rfl, rfl⟩

omit [HostFloat] in
theorem convert_common_int_eq_zero (ha : c.format.InRange a) :
    (CInteger.common c .int).convert a = 0 ↔ a = 0 := by
  have hcomm : CInteger.common c .int = CInteger.common .int c := by cases c <;> rfl
  have hzero : c.promote.format.InRange 0 := by cases c <;> decide
  have hiff := CInteger.convert_common_eq_iff (t := .int) ha (Or.inl hzero)
  have hconvert : ∀ c : CInteger, c.convert 0 = 0 := by intro c; cases c <;> decide
  rw [hconvert, hconvert] at hiff
  rw [hcomm]
  exact ⟨fun h => (hiff.mp h.symm).symm, fun h => (hiff.mpr h.symm).symm⟩

end Truth

/-! ## Comparisons with zero -/

/-- After the emitted code the expression is a truth value, whatever later temporaries hold. -/
structure Tests [HostFloat] (env : RunEnv) (p : Bool) (e : Expression) (s : EvalState)
    (m : Memory) : Prop where
  type : e.type = basicTypeInt
  shape : e = asExpr (varInt (CInteger.ofBool p)) ∨ e.op = .ne
  value : ∀ m', AgreeBelow env s.symbols.length m m' → pureValue env m' e = some p.toNat

section Comparisons

variable [HostFloat] {env : RunEnv} {b : BlockId} {s : EvalState} {m : Memory} {v l r : Var}
  {x y : Scalar} {c c' : CInteger} {a k : Int} {p : Bool}

omit [HostFloat] in
theorem integerOperand_zero (env : RunEnv) (n : Nat) (m : Memory) :
    IntegerOperand env n m (varInt 0) .int 0 :=
  (isInteger_varInt (by decide)).operand plain_int

omit [HostFloat] in
theorem standsFor_zero (env : RunEnv) (n : Nat) (m : Memory) :
    StandsFor env n m (varInt 0) (.int 0) :=
  (isInteger_varInt (by decide)).standsFor plain_int

theorem tests_ofBool (p : Bool) : Tests env p (asExpr (varInt (CInteger.ofBool p))) s m where
  type := rfl
  shape := Or.inl rfl
  value := fun m' _ => by
    have hstands : StandsFor env 0 m' (varInt (CInteger.ofBool p)) (.int (CInteger.ofBool p)) :=
      (isInteger_ofBool p).standsFor plain_int
    exact hstands.pureValue_eq.trans (encode_ofBool p).1

theorem IntegerOperand.compare_emits {type : CType}
    (hl : IntegerOperand env s.symbols.length m l c a)
    (hr : IntegerOperand env s.symbols.length m r c k) (htype : type = l.type) :
    Emits env b s m
      (if bothImmediate l r then pure (asExpr (evalImmediateCompare .ne type l r))
        else pure (createExpr .ne l r)) (Tests env (decide (a ≠ k))) := by
  have hbinary : CInteger.binary .ne c a k = some (CInteger.ofBool (decide (a ≠ k))) := rfl
  by_cases hkinds : l.kind = .immediate ∧ r.kind = .immediate
  · have hboth : bothImmediate l r = true := by simp [bothImmediate, hkinds]
    have hcompare : CInteger.BinaryOp.ne.isComparison = true := rfl
    rcases evalImmediateCompare_spec (htype ▸ hl.type) (hl.immediate hkinds.1)
      (hr.immediate hkinds.2) hcompare with ⟨p, hfold, hvalue⟩
    have hp : p = decide (a ≠ k) := by
      rw [hbinary, some.injEq] at hvalue
      have htrue := congrArg (fun n => (Scalar.int n).isTrue) hvalue
      simpa using htrue.symm
    have hop : opType .ne = .ne := rfl
    rw [hop] at hfold
    rw [if_pos hboth, hfold, hp]
    exact Emits.pure (tests_ofBool _)
  · have hboth : bothImmediate l r = false := by
      rw [bothImmediate, Bool.and_eq_false_iff, decide_eq_false_iff_not, decide_eq_false_iff_not]
      tauto
    rw [hboth, if_neg Bool.false_ne_true]
    refine Emits.pure ⟨rfl, Or.inr rfl, fun m' hm' => ?_⟩
    rw [IntegerOperand.createExpr_value .ne (by simp [OpType.binaryOp]) (hl.mono le_rfl hm')
      (hr.mono le_rfl hm')]
    simp only [binaryScalar, wordType_of_cInteger hl.type, bind_some,
      OpType.binaryOp, hbinary, map_some]
    exact (encode_ofBool _).1

theorem IntegerOperand.cmpNe_emits (hl : IntegerOperand env s.symbols.length m l c a)
    (hr : IntegerOperand env s.symbols.length m r c' k) (hroom : Room env s.symbols.length) :
    Emits env b s m (cmpNe (some b) l r) fun e s' m' =>
      Tests env (decide ((CInteger.common c c').convert a ≠ (CInteger.common c c').convert k))
          e s' m' ∧ (bothImmediate l r = false → e.op = .ne) := by
  have hcommon := cInteger_common hl.type hr.type
  have hi1 := isInteger_of_cInteger hl.type
  have hi2 := isInteger_of_cInteger hr.type
  have hplain := plain_common hi1 hi2 hl.plain hr.plain
  rcases isScalar_of_cInteger hr.type with ⟨-, -, -, -, hpointer⟩
  unfold cmpNe equality prepareComparisonOperands comparisonSwapped prepareOrdered convertOperands
  simp only [hpointer, (isReal_of_isInteger hi1).1, (isReal_of_isInteger hi2).1,
    readTable_common hl.type hr.type, Bool.false_eq_true, if_false, pure_bind, Bool.and_self,
    if_true, bind_assoc]
  refine Emits.bind (hl.evalCast_emits hroom hcommon hplain) ?_
  rintro l' s1 m1 hle1 - hagree1 ⟨hl', hlkind, -⟩
  refine Emits.bind ((hr.mono hle1 hagree1).evalCast_emits (hroom.mono hle1) hcommon hplain) ?_
  rintro r' s2 m2 hle2 - hagree2 ⟨hr', hrkind, -⟩
  rcases (hl'.mono hle2 hagree2).compare_emits (b := b) hr' rfl with
    ⟨e, s3, code, m3, hok, hemit, hrun, hagree, htests⟩
  refine ⟨e, s3, code, m3, hok, hemit, hrun, hagree, htests, fun hboth => ?_⟩
  have hboth' : bothImmediate l' r' = false := by
    simpa [bothImmediate, hlkind, hrkind] using hboth
  rw [hboth', if_neg Bool.false_ne_true] at hok
  cases hok
  rfl

omit [HostFloat] in
theorem IntegerOperand.lt_of_field (h : IntegerOperand env s.symbols.length m v c a)
    (hkind : v.kind = .direct ∨ v.kind = .deref) (hfield : v.fieldWidth ≠ 0)
    (hunsigned : v.type.isUnsignedType = true) : 0 ≤ a ∧ a < 2 ^ v.fieldWidth := by
  have hnot : v.kind ≠ .immediate := by
    rcases hkind with hkind | hkind <;> rw [hkind] <;> decide
  rcases h.stored hnot m (AgreeBelow.refl _ _ _) with ⟨raw, hraw, hdecode⟩
  have hsigned : v.type.isSigned = false := by simp [CType.isSigned, hunsigned]
  have hisField : v.isField = true := by simpa [Var.isField] using hfield
  have hlt : raw < 2 ^ v.fieldWidth := by
    rw [operandValue, sizeOf_of_isScalar (isScalar_of_cInteger h.type).1, bind_some] at hraw
    have hread : ∃ x, readField v v.type.scalarSize x = raw := by
      rcases hkind with hkind | hkind
      · rw [hkind] at hraw
        rcases map_eq_some_iff.mp hraw with ⟨x, -, hx⟩
        exact ⟨_, (if_pos hisField).symm.trans hx⟩
      · rw [hkind] at hraw
        rcases map_eq_some_iff.mp hraw with ⟨x, -, hx⟩
        exact ⟨_, (if_pos hisField).symm.trans hx⟩
    rcases hread with ⟨x, rfl⟩
    simp only [readField, hsigned, Bool.false_eq_true, if_false]
    exact BitVec.isLt _
  have hformat : c.format.signed = false := by
    rw [isSigned_of_cInteger h.type] at hsigned
    exact hsigned
  simp only [decode, wordType_of_cInteger h.type, some.injEq, Scalar.int.injEq]
    at hdecode
  rw [IntFormat.ofBits, if_neg (by simp [hformat]), BitVec.toNat_ofNat] at hdecode
  have hle : raw % 2 ^ c.format.width ≤ raw := Nat.mod_le _ _
  rw [← hdecode]
  refine ⟨Int.natCast_nonneg _, ?_⟩
  exact_mod_cast lt_of_le_of_lt hle hlt

section

variable (h : IntegerOperand env s.symbols.length m v c a) (hroom : Room env s.symbols.length)
  (hfield : v.fieldWidth ≠ 0 → v.kind = .direct ∨ v.kind = .deref)
include h hroom hfield

theorem IntegerOperand.rvalue_emits :
    Emits env b s m (rvalue (some b) v) fun w s' m' =>
      (∃ c', IntegerOperand env s'.symbols.length m' w c' a) ∧
        (w.kind = .immediate ↔ v.kind = .immediate) ∧
        (w.fieldWidth ≠ 0 → w.kind = .direct ∨ w.kind = .deref) := by
  rcases isScalar_of_cInteger h.type with ⟨-, hfunction, harray, -, -⟩
  by_cases hpromoted : v.isField = true ∧ v.type.isUnsignedType = true ∧ v.fieldWidth < 32
  · -- A narrow field is promoted.
    have hrvalue : rvalue (some b) v = evalCast (some b) v basicTypeInt := by
      simp [rvalue, hfunction, harray, hpromoted]
    have hisField : v.fieldWidth ≠ 0 := by simpa [Var.isField] using hpromoted.1
    have hbounds := h.lt_of_field (hfield hisField) hisField hpromoted.2.1
    have hsmall : (2 : Int) ^ v.fieldWidth ≤ 2 ^ 31 :=
      pow_le_pow_right₀ (by norm_num) (by omega)
    have hsame : CInteger.int.convert a = a := by
      refine CInteger.convert_of_inRange ?_
      rw [IntFormat.inRange_signed_iff rfl]
      show -2 ^ 31 ≤ a ∧ a < 2 ^ 31
      omega
    rw [hrvalue]
    refine Emits.mono (h.evalCast_emits hroom rfl plain_int) ?_
    rintro w s' m' ⟨hw, hkind, -, hsource⟩
    rw [hsame] at hw
    refine ⟨⟨_, hw⟩, hkind, fun hno => ?_⟩
    rcases hsource with rfl | hzero
    · exact hfield hisField
    · exact absurd hzero hno
  · have hrvalue : rvalue (some b) v = pure v := by
      unfold rvalue
      rw [hfunction, harray, if_neg Bool.false_ne_true, if_neg Bool.false_ne_true]
      split
      · rename_i hunsigned
        rw [Bool.and_eq_true] at hunsigned
        exact if_neg fun hlt => hpromoted ⟨hunsigned.1, hunsigned.2, hlt⟩
      · rfl
    rw [hrvalue]
    exact Emits.pure ⟨⟨c, h⟩, Iff.rfl, hfield⟩

/-- The comparison of an integer operand with zero.  It may be a bit-field. -/
theorem IntegerOperand.nonZero_emits :
    Emits env b s m (evalBinary (some b) .ne v (varInt 0)) (Tests env (decide (a ≠ 0))) := by
  have hzero : rvalue (some b) (varInt 0) = pure (varInt 0) := rvalue_of_scalar (some b) rfl rfl rfl
  unfold evalBinary
  refine Emits.bind (h.rvalue_emits hroom hfield) ?_
  rintro w s1 m1 hle1 - - ⟨⟨c', hw⟩, -, -⟩
  rw [hzero, pure_bind]
  refine Emits.mono (hw.cmpNe_emits (integerOperand_zero env _ m1) (hroom.mono hle1)) ?_
  rintro e s2 m2 ⟨htests, -⟩
  have hconvert : (CInteger.common c' .int).convert 0 = 0 := by cases c' <;> decide
  have hiff : decide ((CInteger.common c' .int).convert a ≠ 0) = decide (a ≠ 0) :=
    decide_eq_decide.mpr (not_congr (convert_common_int_eq_zero hw.inRange))
  rwa [hconvert, hiff] at htests

end

theorem StandsFor.evalCast_ulong [LawfulHostFloat]
    (h : StandsFor env s.symbols.length m v (.int a)) (hpointer : v.type.isPointerType = true) :
    ∃ w, evalCast (some b) v basicTypeUnsignedLong = pure w ∧
      IntegerOperand env s.symbols.length m w .ulong a := by
  have hword := wordType_of_isPointerType hpointer
  have hulong : basicTypeUnsignedLong.isVoid = false ∧ basicTypeUnsignedLong.isScalar = true ∧
      basicTypeUnsignedLong.scalarSize = 8 := by decide
  have hcast : castScalar v.type basicTypeUnsignedLong (.int a) = some (.int a) := by
    rcases h.hasType with ⟨c, hc, hrange⟩
    rw [hword, some.injEq] at hc
    subst hc
    have htarget : basicTypeUnsignedLong.wordType = some .ulong := rfl
    simp only [castScalar, htarget, CInteger.convert_of_inRange hrange]
  by_cases hkind : v.kind = .immediate
  · rcases h.evalCast_immediate (some b) hkind plain_ulong hcast with ⟨w, hw, hstands, htype, -⟩
    exact ⟨w, hw, hstands.operand (by rw [htype]; rfl)⟩
  · refine ⟨{ v with type := basicTypeUnsignedLong }, ?_, ?_⟩
    · simp [evalCast, cast, hulong, (isScalar_of_isPointerType hpointer).1, hkind,
        readTable_scalarSize, hpointer, scalarSize_of_isPointerType hpointer]
    · have hstands := h.reinterpret hkind plain_ulong hcast
        ((scalarSize_of_isPointerType hpointer).trans hulong.2.2.symm) (Or.inl hpointer)
      exact hstands.operand rfl

theorem StandsFor.pointerNonZero_emits [LawfulHostFloat]
    (h : StandsFor env s.symbols.length m v (.int a)) (hpointer : v.type.isPointerType = true) :
    Emits env b s m (evalBinary (some b) .ne v (varInt 0)) (Tests env (decide (a ≠ 0))) := by
  rcases isScalar_of_isPointerType hpointer with ⟨-, -, -, -, -, harith⟩
  have hint : basicTypeInt.isPointerType = false := rfl
  have hzero := standsFor_zero env s.symbols.length m
  have hcast : castScalar basicTypeInt basicTypeUnsignedLong (.int 0) = some (.int 0) := rfl
  rcases h.evalCast_ulong (b := b) hpointer with ⟨l, hl, hlint⟩
  rcases hzero.evalCast_immediate (some b) rfl plain_ulong hcast with ⟨r, hr, hrstands, hrtype, -⟩
  have hrint : IntegerOperand env s.symbols.length m r .ulong 0 :=
    hrstands.operand (by rw [hrtype]; rfl)
  have hpair : evalBinary (some b) .ne v (varInt 0) =
      (if bothImmediate l r then pure (asExpr (evalImmediateCompare .ne l.type l r))
        else pure (createExpr .ne l r)) := by
    unfold evalBinary
    rw [h.rvalue_eq (some b), pure_bind, hzero.rvalue_eq (some b), pure_bind]
    have htype : (varInt 0).type = basicTypeInt := rfl
    simp [cmpNe, equality, prepareComparisonOperands, comparisonSwapped, prepareOrdered, htype,
      hint, harith, hpointer, hl, hr]
  rw [hpair]
  exact hlint.compare_emits hrint rfl

omit [HostFloat] in
theorem CType.commonArithmetic_real {t : CType} {k : RealKind} (h : t.realKind = some k) :
    (t.commonArithmetic basicTypeInt).typeOf = t.typeOf ∧
      (t.commonArithmetic basicTypeInt).isUnsignedType = false := by
  unfold CType.realKind at h
  unfold CType.commonArithmetic CType.isLongDouble CType.isDouble CType.isFloat
  cases hkind : t.typeOf <;> rw [hkind] at h <;> first
    | (cases h; done)
    | exact ⟨rfl, rfl⟩

/-- The comparison of a floating operand with zero. -/
theorem StandsFor.realNonZero_emits [LawfulHostFloat] {k : RealKind} {bits : BitVec k.width}
    (h : StandsFor env s.symbols.length m v (.real k bits)) (hroom : Room env s.symbols.length) :
    Emits env b s m (evalBinary (some b) .ne v (varInt 0))
      (Tests env (Scalar.real k bits).isTrue) := by
  have hreal : v.type.realKind = some k := h.hasType.2
  have hzero := standsFor_zero env s.symbols.length m
  have harith : v.type.isArithmetic = true := by
    unfold CType.realKind at hreal
    unfold CType.isArithmetic
    cases hkind : v.type.typeOf <;> rw [hkind] at hreal <;> first | (cases hreal; done) | decide
  have hint : (varInt 0).type.isPointerType = false ∧ (varInt 0).type.isArithmetic = true := by
    decide
  rcases commonArithmetic_real hreal with ⟨hkind, hcommon⟩
  have hunsigned : v.type.isUnsignedType = false := h.plain.unsigned (by simp [hreal])
  have hlike : v.type.Like (v.type.commonArithmetic (varInt 0).type) :=
    ⟨hkind.symm, hunsigned.trans hcommon.symm⟩
  unfold evalBinary
  rw [h.rvalue_eq (some b), pure_bind, hzero.rvalue_eq (some b), pure_bind]
  simp only [cmpNe, equality, prepareComparisonOperands, comparisonSwapped, prepareOrdered, hint,
    harith, Bool.false_eq_true, if_false, pure_bind, Bool.and_self, if_true, bind_assoc]
  refine convertOperands_emits h hzero hroom harith hint.2 ?_
  intro l r x y s' m' _ _ hx hy hl hr
  -- The operand keeps its value, and zero is converted to its format.
  have hsame : x = .real k bits := by
    rw [castScalar_like h.hasType hlike, some.injEq] at hx
    exact hx.symm
  have hzeroReal : y = .real k (HostFloat.ofInt k 0) := by
    have hword := hlike.wordType ▸ h.hasType.1
    have hformat := hlike.realKind ▸ hreal
    have hnopointer : (varInt 0).type.isPointerType = false := hint.1
    simp only [castScalar, hword, hnopointer, hformat, Bool.false_eq_true, if_false,
      map_some, some.injEq] at hy
    exact hy.symm
  subst hsame
  subst hzeroReal
  have hls := hl.standsFor
  have hrs := hr.standsFor
  have hltype : l.type.wordType = none ∧ l.type.realKind = some k := hls.hasType
  simp only
  by_cases hkinds : l.kind = .immediate ∧ r.kind = .immediate
  · have hboth : bothImmediate l r = true := by simp [bothImmediate, hkinds]
    have hlrepr := ((hls.immediate hkinds.1).2.2).2.2
    have hrrepr := ((hrs.immediate hkinds.2).2.2).2.2
    have hnosigned : l.type.isSigned = false ∧ l.type.isUnsignedType = false ∧
        l.type.isPointerType = false := by
      have hnot := not_word_of_realKind hltype.2
      refine ⟨?_, hls.plain.unsigned (by simp [hltype.2]), hnot.2⟩
      have hnoint : l.type.isInteger = false := by
        have hformat := hltype.2
        unfold CType.realKind at hformat
        unfold CType.isInteger
        cases hkind : l.type.typeOf <;> rw [hkind] at hformat <;>
          first | (cases hformat; done) | decide
      simp [CType.isSigned, hnoint]
    have hfold : evalImmediateCompare .ne l.type l r =
        varInt (CInteger.ofBool (Scalar.real k bits).isTrue) := by
      have hcompare : ∀ j : RealKind, j = k →
          compareReal .ne j (l.imm.real j) (r.imm.real j) = (Scalar.real k bits).isTrue := by
        rintro j rfl
        rw [hlrepr, hrrepr]
        rfl
      simp only [evalImmediateCompare, hnosigned, Bool.or_self, Bool.false_eq_true, if_false]
      rw [hcompare _ (by rw [hltype.2]; rfl)]
      rfl
    rw [if_pos hboth, hfold]
    exact Emits.pure (tests_ofBool _)
  · have hboth : bothImmediate l r = false := by
      rw [bothImmediate, Bool.and_eq_false_iff, decide_eq_false_iff_not, decide_eq_false_iff_not]
      tauto
    rw [hboth, if_neg Bool.false_ne_true]
    refine Emits.pure ⟨rfl, Or.inr rfl, fun m'' hm'' => ?_⟩
    rw [createExpr_value (by simp [OpType.binaryOp]) (hls.mono le_rfl hm'')
      (hrs.mono le_rfl hm'')]
    have hvalue : binaryScalar .ne l.type (.real k bits) (.real k (HostFloat.ofInt k 0)) =
        some (.int (CInteger.ofBool (Scalar.real k bits).isTrue)) := by
      simp [binaryScalar, realScalar, Scalar.isTrue]
    rw [hvalue]
    exact (encode_ofBool _).1

end Comparisons

end Kcs
