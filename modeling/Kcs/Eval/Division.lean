import Kcs.Eval.Fold

/-!
# Division of integer constants

`ediv` and `mod` fold two constants with the division of the host, and check neither the divisor nor
the most negative dividend.  A constant is stored sign- or zero-extended in 64 bits, so that only the
division of the least `long` by minus one overflows on the host.

Main results:

- Theorem {lit}`division_traps_iff`: folding a quotient or a remainder traps exactly when the divisor
  is zero, or the dividend is the least `long` and the divisor minus one.
- Theorem {lit}`foldTree_traps_iff`: folding a constant expression traps exactly when it contains
  such a division.
-/

namespace Kcs

/-- The operators `/` and `%`. -/
def IsDivision (op : CInteger.BinaryOp) : Prop := op = .div ∨ op = .mod

/-- The divisions of constants that have no result on the host. -/
def HostDivisionTraps (a b : Int) : Prop := b = 0 ∨ (a = -2 ^ 63 ∧ b = -1)

/-! ## Words -/

section Words

variable {op : CInteger.BinaryOp} {t : CInteger} {a b : Int}

theorem hostWord_division_eq_none_iff (hop : IsDivision op) (signed : Bool) (x y : BitVec 64) :
    hostWord (opType op) signed x y = none ↔
      y = 0 ∨ (signed = true ∧ x = BitVec.intMin 64 ∧ y = -1) := by
  rcases hop with rfl | rfl <;> cases signed <;>
    simp [hostWord, opType, or_iff_not_imp_left]

theorem hostWord_traps_iff (hop : IsDivision op) (ha : t.format.InRange a)
    (hb : t.format.InRange b) :
    hostWord (opType op) t.format.signed (BitVec.ofInt 64 a) (BitVec.ofInt 64 b) = none ↔
      HostDivisionTraps a b := by
  rw [hostWord_division_eq_none_iff hop, HostDivisionTraps]
  have hzero : BitVec.ofInt 64 b = 0 ↔ b = 0 := by
    constructor
    · intro h
      by_contra hne
      exact ofInt_ne_zero hb hne h
    · rintro rfl
      rfl
  rw [hzero]
  refine or_congr_right ?_
  constructor
  · rintro ⟨hsigned, hmin, hminus⟩
    have hvala := IntFormat.toInt_ofInt hsigned ha
    have hvalb := IntFormat.toInt_ofInt hsigned hb
    rw [hmin] at hvala
    rw [hminus] at hvalb
    exact ⟨hvala.symm, hvalb.symm⟩
  · rintro ⟨rfl, rfl⟩
    refine ⟨?_, rfl, rfl⟩
    cases hsigned : t.format.signed with
    | true => rfl
    | false =>
      have hlow := ((IntFormat.inRange_unsigned_iff hsigned _).mp hb).1
      omega

end Words

/-! ## Constants -/

section Constants

variable {op : CInteger.BinaryOp} {t1 t2 t : CInteger} {a b n : Int} {l r : Var} {type : CType}

theorem inRange_common (hsigned : (CInteger.common t1 t2).format.signed = true)
    (ha : t1.format.InRange a) : (CInteger.common t1 t2).format.InRange a := by
  have hbounds : (CInteger.common t1 t2).format.minValue ≤ t1.format.minValue ∧
      t1.format.maxValue ≤ (CInteger.common t1 t2).format.maxValue := by
    revert hsigned
    cases t1 <;> cases t2 <;> decide
  rw [IntFormat.inRange_iff_bounds] at ha ⊢
  omega

theorem CInteger.common_comm (t1 t2 : CInteger) :
    CInteger.common t1 t2 = CInteger.common t2 t1 := by
  cases t1 <;> cases t2 <;> rfl

theorem convert_common_eq_zero_iff (hb : t2.format.InRange b) :
    (CInteger.common t1 t2).convert b = 0 ↔ b = 0 := by
  have hwidth : t2.format.width ≤ (CInteger.common t1 t2).format.width := by
    cases t1 <;> cases t2 <;> decide
  rw [convert_of_isPromoted (isPromoted_common t1 t2)]
  have hwrap : ∀ f : IntFormat, f.wrap 0 = 0 := fun f =>
    (IntFormat.inRange_iff_bounds.mpr (by
      have hpos : (0 : Int) < 2 ^ (f.width - 1) := by positivity
      have hpos' : (0 : Int) < 2 ^ f.width := by positivity
      unfold IntFormat.minValue IntFormat.maxValue
      split <;> omega))
  constructor
  · intro h
    rw [← hwrap, IntFormat.wrap_eq_wrap_iff, Int.zero_emod] at h
    have hdvd : (2 : Int) ^ t2.format.width ∣ b :=
      (pow_dvd_pow 2 hwidth).trans (Int.dvd_of_emod_eq_zero h)
    refine hb.eq_of_emod (hwrap _) ?_
    rw [Int.zero_emod]
    exact Int.emod_eq_zero_of_dvd hdvd
  · rintro rfl
    exact hwrap _

theorem signed_common_of_min (ha : t1.format.InRange (-2 ^ 63)) (hb : t2.format.InRange (-1)) :
    (CInteger.common t1 t2).format.signed = true := by
  have hlong : t1 = .long := by
    cases t1 <;> first | rfl | exact absurd ha (by decide)
  subst hlong
  cases t2 <;> first | rfl | exact absurd hb (by decide)

theorem hostDivisionTraps_convert (ha : t1.format.InRange a) (hb : t2.format.InRange b) :
    HostDivisionTraps ((CInteger.common t1 t2).convert a) ((CInteger.common t1 t2).convert b) ↔
      HostDivisionTraps a b := by
  rw [HostDivisionTraps, convert_common_eq_zero_iff hb, HostDivisionTraps]
  refine or_congr_right ?_
  cases hsigned : (CInteger.common t1 t2).format.signed with
  | true =>
    rw [CInteger.convert_of_inRange (inRange_common hsigned ha)]
    rw [CInteger.common_comm] at hsigned ⊢
    rw [CInteger.convert_of_inRange (inRange_common hsigned hb)]
  | false =>
    have hrange := CInteger.inRange_convert (CInteger.common t1 t2) a
    have hlow := ((IntFormat.inRange_unsigned_iff hsigned _).mp hrange).1
    constructor
    · rintro ⟨hmin, -⟩
      omega
    · rintro ⟨rfl, rfl⟩
      rw [signed_common_of_min ha hb] at hsigned
      cases hsigned

variable [HostFloat]

omit [HostFloat] in
theorem evalIntegerImmediate_trap {optype : OpType} (htype : type.cInteger = some t)
    (hx : hostWord optype t.format.signed l.imm.lo r.imm.lo = none) :
    evalIntegerImmediate optype type l r = throw .trap := by
  rw [evalIntegerImmediate, CType.isSigned_of_cInteger htype]
  cases hsigned : t.format.signed with
  | true =>
    rw [hsigned] at hx
    rw [if_pos rfl, hx]
    rfl
  | false =>
    rw [hsigned] at hx
    rw [if_neg (by decide), hx]
    rfl

theorem evalBinary_division (block : BlockRef) (hop : IsDivision op) (hl : IsInteger l t1 a)
    (hr : IsInteger r t2 b) :
    ∃ l' r', IsInteger l' (CInteger.common t1 t2) ((CInteger.common t1 t2).convert a) ∧
      IsInteger r' (CInteger.common t1 t2) ((CInteger.common t1 t2).convert b) ∧
      evalBinary block (opType op) l r = (do
        let v ← evalIntegerImmediate (opType op) (l.type.common r.type) l' r'
        cast v (l.type.common r.type)) := by
  have htype := CType.cInteger_common hl.type hr.type
  rcases evalCast_spec block hl htype with ⟨l', hl', -, hlint⟩
  rcases evalCast_spec block hr htype with ⟨r', hr', -, hrint⟩
  refine ⟨l', r', hlint, hrint, ?_⟩
  have hinteger : ((l.type.common r.type).isSigned || (l.type.common r.type).isUnsignedType) =
      true := by
    rw [CType.isSigned, CType.isInteger_of_cInteger htype]
    cases (l.type.common r.type).isUnsignedType <;> rfl
  rw [evalBinary, hl.rvalue_eq block, pure_bind, hr.rvalue_eq block, pure_bind]
  rcases hop with rfl | rfl
  · simp only [opType, ediv, arithmetic, convertOperands, readTable_common hl.type hr.type, hl',
      hr', pure_bind, bothImmediate_of_isInteger hlint hrint, if_true, evalArithmeticImmediate,
      hinteger, Bool.true_or]
  · simp [opType, mod, readTable_common hl.type hr.type, CType.isInteger_of_cInteger htype, hl',
      hr', bothImmediate_of_isInteger hlint hrint]

theorem evalBinary_division_spec (block : BlockRef) (hop : IsDivision op)
    (hl : IsInteger l t1 a) (hr : IsInteger r t2 b) :
    (HostDivisionTraps a b ∧ evalBinary block (opType op) l r = throw .trap) ∨
      (¬ HostDivisionTraps a b ∧
        ∃ n, FoldsTo (evalBinary block (opType op) l r) (CInteger.common t1 t2) n) := by
  have htype := CType.cInteger_common hl.type hr.type
  have hpromoted := isPromoted_common t1 t2
  rcases evalBinary_division block hop hl hr with ⟨l', r', hl', hr', hfold⟩
  have htraps := hostWord_traps_iff hop hl'.inRange hr'.inRange
  rw [hostDivisionTraps_convert hl.inRange hr.inRange, ← hl'.word, ← hr'.word] at htraps
  cases hword : hostWord (opType op) (CInteger.common t1 t2).format.signed l'.imm.lo
      r'.imm.lo with
  | none =>
    refine Or.inl ⟨htraps.mp hword, ?_⟩
    rw [hfold, evalIntegerImmediate_trap htype hword]
    rfl
  | some x =>
    rw [hword] at htraps
    refine Or.inr ⟨(fun h => nomatch htraps.mpr h), ?_⟩
    rcases evalIntegerImmediate_word htype hpromoted hword with ⟨y, hy, -, -⟩
    rcases cast_folded htype hpromoted (y := y) rfl with ⟨w, hcast, -, hw⟩
    refine ⟨_, w, ?_, hw⟩
    rw [hfold, hy, pure_bind, hcast]

/-- Folding a quotient or a remainder of two constants traps exactly when the divisor is zero, or
when the dividend is the least `long` and the divisor minus one. -/
theorem division_traps_iff (block : BlockRef) (s : EvalState) (hop : IsDivision op)
    (hl : IsInteger l t1 a) (hr : IsInteger r t2 b) :
    evalBinary block (opType op) l r s ≠ .error .trap ↔ b ≠ 0 ∧ ¬ (a = -2 ^ 63 ∧ b = -1) := by
  rw [← not_or]
  refine not_congr ?_
  show _ ↔ HostDivisionTraps a b
  rcases evalBinary_division_spec block hop hl hr with ⟨htraps, hfold⟩ | ⟨hsafe, n, w, hfold, -⟩
  · rw [hfold]
    exact ⟨fun _ => htraps, fun _ => rfl⟩
  · rw [hfold]
    exact ⟨(fun h => nomatch h), fun h => absurd h hsafe⟩

end Constants

/-- `7 / 2` is folded. -/
theorem division_traps_iff_seven :
    @evalBinary HostFloat.zero none .div (varInt 7) (varInt 2) {} ≠ .error .trap :=
  (@division_traps_iff .div .int .int 7 2 (varInt 7) (varInt 2) HostFloat.zero none {}
    (Or.inl rfl) (isInteger_varInt (by decide)) (isInteger_varInt (by decide))).mpr (by decide)

/-- `1 / 0` traps, and so does the remainder of the least `long` and minus one. -/
theorem not_division_safe :
    IsInteger (varInt 1) .int 1 ∧ IsInteger (varInt 0) .int 0 ∧
      @evalBinary HostFloat.zero none .div (varInt 1) (varInt 0) {} = .error .trap ∧
      IsInteger (varNumeric basicTypeLong { lo := BitVec.intMin 64 }) .long (-2 ^ 63) ∧
      IsInteger (varInt (-1)) .int (-1) ∧
      @evalBinary HostFloat.zero none .mod (varNumeric basicTypeLong { lo := BitVec.intMin 64 })
        (varInt (-1)) {} = .error .trap := by
  refine ⟨isInteger_varInt (by decide), isInteger_varInt (by decide), rfl, ?_,
    isInteger_varInt (by decide), rfl⟩
  exact ⟨isIntegerWord_varNumeric rfl _, by decide, rfl⟩

/-! ## Constant expressions -/

section Trees

variable [HostFloat] {op : CInteger.BinaryOp} {t1 t2 : CInteger} {a b : Int} {l r : Var}

theorem shift_foldsTo (block : BlockRef) (hshift : op.isShift = true) (hl : IsInteger l t1 a)
    (hr : IsInteger r t2 b) : ∃ n, FoldsTo (shift (opType op) block l r) t1.promote n := by
  have htype := CType.cInteger_promoted hl.type
  have hpromoted := isPromoted_promote t1
  have hread : readTable (promoteInteger · l.type) = pure l.type.promoted := by
    funext s
    simp [readTable, promoteInteger_eq (CType.isInteger_of_cInteger hl.type)]
    rfl
  rcases evalCast_spec block hl htype with ⟨l', hl', -, hlint⟩
  have hword : ∃ x, hostWord (opType op) t1.promote.format.signed l'.imm.lo r.imm.lo = some x := by
    cases op with
    | shl => exact ⟨_, rfl⟩
    | shr =>
      cases t1.promote.format.signed
      · exact ⟨_, rfl⟩
      · exact ⟨_, rfl⟩
    | _ => cases hshift
  rcases hword with ⟨x, hx⟩
  rcases evalIntegerImmediate_word htype hpromoted hx with ⟨y, hy, -, -⟩
  rcases cast_folded htype hpromoted (y := y) rfl with ⟨w, hcast, -, hw⟩
  refine ⟨_, w, ?_, hw⟩
  simp only [shift, CType.isInteger_of_cInteger hl.type, CType.isInteger_of_cInteger hr.type,
    Bool.not_true, Bool.or_self, Bool.false_eq_true, if_false, hread, pure_bind, hl',
    bothImmediate_of_isInteger hlint hr, if_true, hy, hcast]

theorem evalBinary_folds (block : BlockRef) (hop : ¬ IsDivision op) (hl : IsInteger l t1 a)
    (hr : IsInteger r t2 b) :
    ∃ n, FoldsTo (evalBinary block (opType op) l r) (CInteger.resultType op t1 t2) n := by
  by_cases hshift : op.isShift = true
  · have hfold := shift_foldsTo block hshift hl hr
    have hresult : CInteger.resultType op t1 t2 = t1.promote := by
      cases op <;> first | rfl | cases hshift
    rw [evalBinary, hl.rvalue_eq block, pure_bind, hr.rvalue_eq block, pure_bind, hresult]
    cases op with
    | shl => exact hfold
    | shr => exact hfold
    | _ => cases hshift
  · have hvalue : ∃ n, CInteger.binary op (CInteger.operandType op t1 t2)
        ((CInteger.operandType op t1 t2).convert a)
        (if op.isShift then b else (CInteger.operandType op t1 t2).convert b) = some n := by
      cases op with
      | div => exact absurd (Or.inl rfl) hop
      | mod => exact absurd (Or.inr rfl) hop
      | shl => exact absurd rfl hshift
      | shr => exact absurd rfl hshift
      | _ => exact ⟨_, rfl⟩
    rcases hvalue with ⟨n, hn⟩
    exact ⟨n, evalBinary_spec block hl hr hn⟩

/-- An expression is part of another one. -/
inductive ConstTree.Contains (e : ConstTree) : ConstTree → Prop
  | self : Contains e e
  | cast (type : CType) (t : CInteger) (h : type.cInteger = some t) {e' : ConstTree}
      (hpart : Contains e e') : Contains e (.cast type t h e')
  | unary (op : CInteger.UnaryOp) {e' : ConstTree} (hpart : Contains e e') :
      Contains e (.unary op e')
  | left (op : CInteger.BinaryOp) {l r : ConstTree} (hpart : Contains e l) :
      Contains e (.binary op l r)
  | right (op : CInteger.BinaryOp) {l r : ConstTree} (hpart : Contains e r) :
      Contains e (.binary op l r)

/-- A division whose operands are folded to constants that the host cannot divide. -/
inductive TrappingDivision (block : BlockRef) : ConstTree → Prop
  | mk {op : CInteger.BinaryOp} {l r : ConstTree} {a b : Int} (hop : IsDivision op)
      (hl : FoldsTo (foldTree block l) l.cType a) (hr : FoldsTo (foldTree block r) r.cType b)
      (htraps : HostDivisionTraps a b) : TrappingDivision block (.binary op l r)

/-- The expression contains such a division. -/
def HasTrappingDivision (block : BlockRef) (tree : ConstTree) : Prop :=
  ∃ d, ConstTree.Contains d tree ∧ TrappingDivision block d

omit [HostFloat] in
theorem FoldsTo.unique {fold : EvalM Expression} {t : CInteger} {m n : Int}
    (hm : FoldsTo fold t m) (hn : FoldsTo fold t n) : m = n := by
  rcases hm with ⟨w, rfl, hw⟩
  rcases hn with ⟨w', hfold, hw'⟩
  have hsame : w = w' := by
    have hstate := congrFun hfold {}
    simp only [pure, StateT.pure, Except.pure, Except.ok.injEq, Prod.mk.injEq] at hstate
    exact congrArg Expression.l hstate.1
  rw [← hw.ofWord, hsame, hw'.ofWord]

omit [HostFloat] in
theorem FoldsTo.ne_trap {fold : EvalM Expression} {t : CInteger} {n : Int}
    (h : FoldsTo fold t n) : fold ≠ throw .trap := by
  rcases h with ⟨w, rfl, -⟩
  intro h
  cases congrFun h {}

/-- A constant expression is folded, unless it contains a division that traps. -/
theorem foldTree_outcome (block : BlockRef) (tree : ConstTree) :
    (∃ n, FoldsTo (foldTree block tree) tree.cType n) ∧ ¬ HasTrappingDivision block tree ∨
      foldTree block tree = throw .trap ∧ HasTrappingDivision block tree := by
  induction tree with
  | constant v t n h =>
    refine Or.inl ⟨⟨n, v, rfl, h⟩, ?_⟩
    rintro ⟨d, hpart, hd⟩
    cases hpart
    cases hd
  | cast type t htype e ih =>
    rcases ih with ⟨⟨n, v, hv, hint⟩, hsafe⟩ | ⟨htrap, d, hpart, hd⟩
    · rcases cast_spec hint.toIsIntegerWord htype with ⟨w, hw, -, hwint⟩
      refine Or.inl ⟨⟨_, w, ?_, hwint⟩, ?_⟩
      · simp [foldTree, hv, evalTyped, hint.rvalue_eq block, hw]
      · rintro ⟨d, hpart, hd⟩
        cases hpart with
        | self => cases hd
        | cast _ _ _ hpart => exact hsafe ⟨d, hpart, hd⟩
    · refine Or.inr ⟨?_, d, .cast type t htype hpart, hd⟩
      rw [foldTree, htrap]
      rfl
  | unary op e ih =>
    rcases ih with ⟨⟨n, v, hv, hint⟩, hsafe⟩ | ⟨htrap, d, hpart, hd⟩
    · refine Or.inl ⟨?_, ?_⟩
      · have hfold : foldTree block (.unary op e) = evalUnary block (unaryOpType op) v := by
          simp [foldTree, hv]
        rw [hfold, evalUnary, hint.rvalue_eq block, pure_bind]
        cases op with
        | not => exact ⟨_, not_spec block hint⟩
        | neg => exact ⟨_, neg_spec block hint⟩
      · rintro ⟨d, hpart, hd⟩
        cases hpart with
        | self => cases hd
        | unary _ hpart => exact hsafe ⟨d, hpart, hd⟩
    · refine Or.inr ⟨?_, d, .unary op hpart, hd⟩
      rw [foldTree, htrap]
      rfl
  | binary op l r ihl ihr =>
    rcases ihl with ⟨⟨a, vl, hvl, hl⟩, hsafel⟩ | ⟨htrap, d, hpart, hd⟩
    · rcases ihr with ⟨⟨b, vr, hvr, hr⟩, hsafer⟩ | ⟨htrap, d, hpart, hd⟩
      · have hfold : foldTree block (.binary op l r) = evalBinary block (opType op) vl vr := by
          simp [foldTree, hvl, hvr]
        have hparts : ∀ d, ConstTree.Contains d (.binary op l r) → TrappingDivision block d →
            d = .binary op l r := by
          intro d hpart hd
          cases hpart with
          | self => rfl
          | left _ hpart => exact absurd ⟨d, hpart, hd⟩ hsafel
          | right _ hpart => exact absurd ⟨d, hpart, hd⟩ hsafer
        by_cases hop : IsDivision op
        · have hresult : CInteger.resultType op l.cType r.cType =
              CInteger.common l.cType r.cType := by
            rcases hop with rfl | rfl <;> rfl
          rcases evalBinary_division_spec block hop hl hr with ⟨htraps, htrap⟩ | ⟨hsafe, hn⟩
          · exact Or.inr ⟨hfold.trans htrap, _, .self, .mk hop ⟨vl, hvl, hl⟩ ⟨vr, hvr, hr⟩ htraps⟩
          · refine Or.inl ⟨?_, ?_⟩
            · rw [hfold, ConstTree.cType, hresult]
              exact hn
            · rintro ⟨d, hpart, hd⟩
              rw [hparts d hpart hd] at hd
              cases hd with
              | mk _ hl' hr' htraps =>
                rw [FoldsTo.unique hl' ⟨vl, hvl, hl⟩, FoldsTo.unique hr' ⟨vr, hvr, hr⟩] at htraps
                exact hsafe htraps
        · refine Or.inl ⟨?_, ?_⟩
          · rw [hfold]
            exact evalBinary_folds block hop hl hr
          · rintro ⟨d, hpart, hd⟩
            rw [hparts d hpart hd] at hd
            cases hd with
            | mk hop' _ _ _ => exact hop hop'
      · refine Or.inr ⟨?_, d, .right op hpart, hd⟩
        rw [foldTree, hvl, pure_bind, eval_asExpr, pure_bind, htrap]
        rfl
    · refine Or.inr ⟨?_, d, .left op hpart, hd⟩
      rw [foldTree, htrap]
      rfl

/-- Folding a constant expression traps exactly when it contains a division whose operands are folded
to constants that the host cannot divide, and makes a constant of its type of every other one. -/
theorem foldTree_traps_iff (block : BlockRef) (tree : ConstTree) :
    (foldTree block tree = throw .trap ↔ HasTrappingDivision block tree) ∧
      ((∃ n, FoldsTo (foldTree block tree) tree.cType n) ↔ ¬ HasTrappingDivision block tree) := by
  rcases foldTree_outcome block tree with ⟨⟨n, hfold⟩, hsafe⟩ | ⟨htrap, hdivision⟩
  · exact ⟨iff_of_false hfold.ne_trap hsafe, iff_of_true ⟨n, hfold⟩ hsafe⟩
  · refine ⟨iff_of_true htrap hdivision, iff_of_false ?_ (not_not_intro hdivision)⟩
    rintro ⟨n, hfold⟩
    exact hfold.ne_trap htrap

end Trees

end Kcs
