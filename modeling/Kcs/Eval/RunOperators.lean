import Kcs.Eval.Runtime

/-!
# Run-time meaning of operators

What the code that `eval_expr` emits for an operator computes, in terms of the
scalars that the operands stand for.

Main results:

- Lemma {lit}`createExpr_value`: the value of a three-address expression.
- Lemma {lit}`convertOperands_emits`: both operands are converted to their
  common type.
-/

namespace Kcs

open CType
open Option hiding bind_assoc

/-! ## Three-address expressions -/

/-- Comparison operators. -/
def OpType.isComparison (op : OpType) : Bool :=
  match op with
  | .eq | .ne | .ge | .gt => true
  | _ => false

section Expressions

variable [HostFloat] {env : RunEnv} {n : Nat} {s : EvalState} {m : Memory} {l r : Var}
  {x y z : Scalar} {op : OpType}

omit [HostFloat] in
theorem binaryOp_isComparison {o : CInteger.BinaryOp} (h : op.binaryOp = some o) :
    o.isComparison = op.isComparison := by
  cases op <;> cases h <;> rfl

omit [HostFloat] in
theorem hasType_ofBool (p : Bool) : (Scalar.int (CInteger.ofBool p)).HasType basicTypeInt :=
  ⟨.int, rfl, CInteger.inRange_ofBool .int p⟩

theorem binaryScalar_hasType {t : CType} (hx : x.HasType t)
    (hz : binaryScalar op t x y = some z) :
    z.HasType (if op.isComparison then basicTypeInt else t) := by
  cases x with
  | int a =>
    cases y with
    | real k b => cases hz
    | int b =>
      simp only [binaryScalar, bind_eq_some_iff, map_eq_some_iff] at hz
      rcases hz with ⟨c, hc, o, ho, n, hn, rfl⟩
      rcases hx with ⟨c', hc', ha⟩
      rw [hc, some.injEq] at hc'
      subst hc'
      rw [← binaryOp_isComparison ho]
      cases hcmp : o.isComparison with
      | true =>
        rcases CInteger.binary_comparison hcmp hn with ⟨p, rfl⟩
        exact hasType_ofBool p
      | false => exact ⟨c, hc, CInteger.inRange_binary ha hcmp hn⟩
  | real j a =>
    cases y with
    | int b => cases hz
    | real k b =>
      simp only [binaryScalar] at hz
      split at hz
      · rename_i hkj
        subst hkj
        cases op <;> simp only [realScalar, some.injEq, reduceCtorEq] at hz <;> subst hz <;>
          first | exact hx | exact hasType_ofBool _
      · cases hz

/-- The value of a binary expression. -/
theorem createExpr_value (hop : op.binaryOp ≠ none) (hl : StandsFor env n m l x)
    (hr : StandsFor env n m r y) :
    pureValue env m (createExpr op l r) =
      (binaryScalar op l.type x y).bind (encode (createExpr op l r).type) := by
  rcases hl.operandValue_eq with ⟨rawl, hrawl, hdecl⟩
  rcases hr.operandValue_eq with ⟨rawr, hrawr, hdecr⟩
  cases op <;> first
    | exact absurd rfl hop
    | simp [pureValue, createExpr, hrawl, hrawr, hdecl, hdecr]

/-- After the emitted code the expression has the given value, and is no call. -/
structure Computes (env : RunEnv) (type : CType) (z : Option Scalar) (e : Expression)
    (s : EvalState) (m : Memory) : Prop where
  like : e.type.Like type
  plain : e.type.Plain
  hasType : ∀ w, z = some w → w.HasType e.type
  value : pureValue env m e = z.bind (encode e.type)
  operand : (∃ v w, e = asExpr v ∧ z = some w ∧ StandsFor env s.symbols.length m v w) ∨
    (e.op ≠ .cast ∧ e.op ≠ .call)

omit [HostFloat] in
theorem plain_int : basicTypeInt.Plain := ⟨fun _ => rfl, fun h => absurd rfl h⟩

theorem StandsFor.pureValue_eq {v : Var} {n : Nat} (h : StandsFor env n m v x) :
    pureValue env m (asExpr v) = encode v.type x := by
  rcases h.operandValue_eq with ⟨raw, hraw, hdecode⟩
  have hsame := castScalar_like h.hasType (Like.refl v.type)
  simp [pureValue, asExpr, hraw, castRaw, h.hasType.isScalar, hdecode, hsame]

theorem StandsFor.computes {v : Var} (h : StandsFor env s.symbols.length m v x) :
    Computes env v.type (some x) (asExpr v) s m where
  like := Like.refl v.type
  plain := h.plain
  hasType := by
    rintro w hw
    cases hw
    exact h.hasType
  value := h.pureValue_eq
  operand := Or.inl ⟨v, x, rfl, rfl, h⟩

theorem createExpr_computes (hop : op.binaryOp ≠ none) (hl : StandsFor env s.symbols.length m l x)
    (hr : StandsFor env s.symbols.length m r y) :
    Computes env (if op.isComparison then basicTypeInt else l.type)
      (binaryScalar op l.type x y) (createExpr op l r) s m := by
  have htype : (createExpr op l r).type = if op.isComparison then basicTypeInt else l.type := by
    cases op <;> rfl
  refine ⟨htype ▸ Like.refl _, ?_, ?_, createExpr_value hop hl hr, Or.inr ?_⟩
  · rw [htype]
    split
    · exact plain_int
    · exact hl.plain
  · intro w hw
    rw [htype]
    exact binaryScalar_hasType hl.hasType hw
  · cases op <;> first | exact absurd rfl hop | exact ⟨by simp [createExpr], by simp [createExpr]⟩

theorem Computes.eval_emits {b : BlockId} {e : Expression} {type : CType}
    (h : Computes env type (some z) e s m) (hroom : Room env s.symbols.length) :
    Emits env b s m (eval (some b) e) fun w s' m' =>
      StandsFor env s'.symbols.length m' w z ∧ w.type.Like type := by
  rcases h.operand with ⟨v, w, rfl, hw, hv⟩ | ⟨hcast, hcall⟩
  · cases hw
    rw [eval_asExpr]
    exact Emits.pure ⟨hv, h.like⟩
  · have hz := h.hasType z rfl
    rcases decode_encode hz with ⟨raw, hencode, hlt, hdecode⟩
    have hidentity : isIdentity e s = .ok (false, s) := by
      simp only [isIdentity, hcast]
      rfl
    have hvalue : pureValue env m e = some raw := h.value.trans hencode
    refine Emits.mono (Kcs.eval_emits hroom hidentity hcall h.plain hz hvalue hlt hdecode) ?_
    rintro w s' m' ⟨hstands, hwtype, -⟩
    exact ⟨hstands, hwtype ▸ h.like⟩

end Expressions

/-! ## Common types -/

/-- The common type of two arithmetic types. -/
def CType.commonArithmetic (t1 t2 : CType) : CType :=
  if t1.isLongDouble || t2.isLongDouble then basicTypeLongDouble
  else if t1.isDouble || t2.isDouble then basicTypeDouble
  else if t1.isFloat || t2.isFloat then basicTypeFloat
  else t1.common t2

section Common

variable {t t1 t2 : CType}

theorem CType.isArithmetic_cases (h : t.isArithmetic = true) :
    t.isInteger = true ∨ t.isFloat = true ∨ t.isDouble = true ∨ t.isLongDouble = true := by
  unfold CType.isArithmetic at h
  unfold CType.isInteger CType.isFloat CType.isDouble CType.isLongDouble
  cases hkind : t.typeOf <;> rw [hkind] at h <;> first | (cases h; done) | decide

theorem CType.not_pointer_of_isArithmetic (h : t.isArithmetic = true) :
    t.isPointerType = false := by
  unfold CType.isArithmetic at h
  unfold CType.isPointerType
  cases hkind : t.typeOf <;> rw [hkind] at h <;> first | (cases h; done) | decide

theorem usualArithmeticConversion_arithmetic (types : TypeTable) (h1 : t1.isArithmetic = true)
    (h2 : t2.isArithmetic = true) :
    usualArithmeticConversion types t1 t2 = some (t1.commonArithmetic t2) := by
  unfold CType.commonArithmetic
  by_cases hld : (t1.isLongDouble || t2.isLongDouble) = true
  · simp [usualArithmeticConversion, h1, h2, hld]
  by_cases hd : (t1.isDouble || t2.isDouble) = true
  · simp [usualArithmeticConversion, h1, h2, hld, hd]
  by_cases hf : (t1.isFloat || t2.isFloat) = true
  · simp [usualArithmeticConversion, h1, h2, hld, hd, hf]
  · simp only [Bool.or_eq_true, not_or, Bool.not_eq_true] at hld hd hf
    have hint1 : t1.isInteger = true := by
      rcases isArithmetic_cases h1 with h | h | h | h <;> simp_all
    have hint2 : t2.isInteger = true := by
      rcases isArithmetic_cases h2 with h | h | h | h <;> simp_all
    rw [usualArithmeticConversion_eq hint1 hint2]
    simp [hld, hd, hf]

theorem CType.commonArithmetic_int (h1 : t1.isInteger = true)
    (h2 : t2.isInteger = true) : t1.commonArithmetic t2 = t1.common t2 := by
  rcases isReal_of_isInteger h1 with ⟨-, hld1, hd1, hf1⟩
  rcases isReal_of_isInteger h2 with ⟨-, hld2, hd2, hf2⟩
  simp [CType.commonArithmetic, hld1, hld2, hd1, hd2, hf1, hf2]

theorem CType.plain_common (h1 : t1.isInteger = true) (h2 : t2.isInteger = true)
    (hp1 : t1.Plain) (hp2 : t2.Plain) : (t1.common t2).Plain := by
  have hpromoted : ∀ u : CType, u.isInteger = true → u.Plain → u.promoted.ref = 0 := by
    intro u hu hplain
    unfold CType.promoted
    split
    · rfl
    · exact hplain.ref (not_pointer_of_isArithmetic (isReal_of_isInteger hu).1)
  have href : (t1.common t2).ref = 0 := by
    unfold CType.common
    rw [removeQualifiers_ref]
    split
    · exact hpromoted t1 h1 hp1
    · split
      · exact hpromoted t2 h2 hp2
      · split
        · exact hpromoted t1 h1 hp1
        · exact hpromoted t2 h2 hp2
  refine ⟨fun _ => href, fun hreal => absurd ?_ hreal⟩
  have hint := isInteger_common h1 h2
  unfold CType.realKind
  rcases isInteger_iff.mp hint with h | h | h | h | h <;> rw [h]

theorem CType.commonArithmetic_cases (h1 : t1.isArithmetic = true) (h2 : t2.isArithmetic = true) :
    (∃ k, (t1.commonArithmetic t2).realKind = some k ∧
        (t1.commonArithmetic t2).wordType = none ∧ (t1.commonArithmetic t2).Plain) ∨
      (t1.isInteger = true ∧ t2.isInteger = true ∧ t1.commonArithmetic t2 = t1.common t2) := by
  unfold CType.commonArithmetic
  by_cases hld : (t1.isLongDouble || t2.isLongDouble) = true
  · rw [if_pos hld]
    exact Or.inl ⟨.ldouble, rfl, rfl, fun _ => rfl, fun _ => rfl⟩
  by_cases hd : (t1.isDouble || t2.isDouble) = true
  · rw [if_neg hld, if_pos hd]
    exact Or.inl ⟨.double, rfl, rfl, fun _ => rfl, fun _ => rfl⟩
  by_cases hf : (t1.isFloat || t2.isFloat) = true
  · rw [if_neg hld, if_neg hd, if_pos hf]
    exact Or.inl ⟨.float, rfl, rfl, fun _ => rfl, fun _ => rfl⟩
  · right
    rw [if_neg hld, if_neg hd, if_neg hf]
    simp only [Bool.or_eq_true, not_or, Bool.not_eq_true] at hld hd hf
    refine ⟨?_, ?_, rfl⟩
    · rcases isArithmetic_cases h1 with h | h | h | h <;> simp_all
    · rcases isArithmetic_cases h2 with h | h | h | h <;> simp_all

theorem Scalar.HasType.int_of_isInteger {x : Scalar} (hx : x.HasType t)
    (ht : t.isInteger = true) : ∃ c n, t.cInteger = some c ∧ x = .int n ∧ c.format.InRange n := by
  cases x with
  | int n =>
    rcases hx with ⟨c, hword, hrange⟩
    have hp := not_pointer_of_isArithmetic (isReal_of_isInteger ht).1
    rcases wordType_cases hword with ⟨hkind, -⟩ | hint
    · rw [CType.isPointerType, hkind] at hp
      cases hp
    · exact ⟨c, n, hint, rfl, hrange⟩
  | real k b =>
    have hreal := hx.2
    unfold CType.realKind at hreal
    rcases isInteger_iff.mp ht with h | h | h | h | h <;> rw [h] at hreal <;> cases hreal

theorem CType.plain_commonArithmetic (h1 : t1.isArithmetic = true) (h2 : t2.isArithmetic = true)
    (hp1 : t1.Plain) (hp2 : t2.Plain) : (t1.commonArithmetic t2).Plain := by
  rcases commonArithmetic_cases h1 h2 with ⟨k, -, -, hplain⟩ | ⟨hi1, hi2, heq⟩
  · exact hplain
  · rw [heq]
    exact plain_common hi1 hi2 hp1 hp2

variable [HostFloat]

theorem castScalar_commonArithmetic (h1 : t1.isArithmetic = true) (h2 : t2.isArithmetic = true)
    {t : CType} {x : Scalar} (ht : t = t1 ∨ t = t2) (hx : x.HasType t) :
    ∃ y, castScalar t (t1.commonArithmetic t2) x = some y := by
  have harith : t.isArithmetic = true := by
    rcases ht with rfl | rfl
    · exact h1
    · exact h2
  have hp := not_pointer_of_isArithmetic harith
  rcases commonArithmetic_cases h1 h2 with ⟨k, hreal, hword, -⟩ | ⟨hi1, hi2, heq⟩
  · cases x with
    | int n => simp [castScalar, hword, hreal, hp]
    | real j b => simp [castScalar, hword, hreal]
  · have hint : t.isInteger = true := by
      rcases ht with rfl | rfl
      · exact hi1
      · exact hi2
    rcases hx.int_of_isInteger hint with ⟨c, n, -, rfl, -⟩
    have hcommon := isInteger_common hi1 hi2
    have hword : ∃ c, (t1.common t2).wordType = some c := by
      have hp := not_pointer_of_isArithmetic (isReal_of_isInteger hcommon).1
      unfold CType.wordType CType.cInteger
      rw [hp]
      rcases isInteger_iff.mp hcommon with h | h | h | h | h <;> rw [h] <;>
        cases (t1.common t2).isUnsignedType <;> exact ⟨_, rfl⟩
    rcases hword with ⟨c', hc'⟩
    rw [heq]
    simp [castScalar, hc']

end Common

/-! ## Operators on arithmetic operands -/

section Arithmetic

variable [HostFloat] [LawfulHostFloat] {env : RunEnv} {b : BlockId} {s s' : EvalState}
  {m m' : Memory} {v w l r : Var} {x y z : Scalar} {op : OpType} {type : CType}

omit [HostFloat] [LawfulHostFloat] in
theorem CastTo.mono (h : CastTo env v type y w s m) (hle : s.symbols.length ≤ s'.symbols.length)
    (hm : AgreeBelow env s.symbols.length m m') : CastTo env v type y w s' m' :=
  ⟨h.standsFor.mono hle hm, h.like, h.kind⟩

omit [HostFloat] [LawfulHostFloat] in
theorem CType.Distinct.of_not_pointer {types : TypeTable} {t t' : CType}
    (h : t.isPointerType = false) (h' : t'.isPointerType = false) : CType.Distinct types t t' :=
  fun _ => h.trans h'.symm

theorem StandsFor.evalCast_both_emits {α : Type} {f : Var → Var → EvalM α}
    {Q : α → EvalState → Memory → Prop} {x' y' : Scalar}
    (hl : StandsFor env s.symbols.length m l x) (hr : StandsFor env s.symbols.length m r y)
    (hroom : Room env s.symbols.length) (hplain : type.Plain)
    (hx : castScalar l.type type x = some x') (hy : castScalar r.type type y = some y')
    (hdl : CType.Distinct s.types l.type type) (hdr : CType.Distinct s.types r.type type)
    (hf : ∀ l' r' s' m', s.symbols.length ≤ s'.symbols.length → s'.types = s.types →
      CastTo env l type x' l' s' m' → CastTo env r type y' r' s' m' → Emits env b s' m' (f l' r') Q) :
    Emits env b s m
      (do let l ← evalCast (some b) l type; let r ← evalCast (some b) r type; f l r) Q := by
  refine Emits.bind (hl.evalCast_emits hroom hplain hx hdl) ?_
  intro l' s1 m1 hle htypes hagree hl'
  have hr1 := hr.mono hle hagree
  refine Emits.bind (hr1.evalCast_emits (hroom.mono hle) hplain hy (by rwa [htypes])) ?_
  intro r' s2 m2 hle2 htypes2 hagree2 hr'
  exact hf l' r' s2 m2 (hle.trans hle2) (htypes2.trans htypes) (hl'.mono hle2 hagree2) hr'

/-- Values of the arithmetic operators: the operands are converted to their
common type. -/
def arithmeticScalar (op : OpType) (t1 t2 : CType) (x y : Scalar) : Option Scalar :=
  (castScalar t1 (t1.commonArithmetic t2) x).bind fun x =>
    (castScalar t2 (t1.commonArithmetic t2) y).bind fun y =>
      binaryScalar op (t1.commonArithmetic t2) x y

omit [LawfulHostFloat] in
theorem binaryScalar_like {t t' : CType} (h : t.Like t') (op : OpType) (x y : Scalar) :
    binaryScalar op t x y = binaryScalar op t' x y := by
  cases x <;> cases y <;> simp only [binaryScalar, h.wordType]

/-- Both operands of an operator are converted to their common type. -/
theorem convertOperands_emits {α : Type} {f : CType × Var × Var → EvalM α}
    {Q : α → EvalState → Memory → Prop}
    (hl : StandsFor env s.symbols.length m l x) (hr : StandsFor env s.symbols.length m r y)
    (hroom : Room env s.symbols.length) (h1 : l.type.isArithmetic = true)
    (h2 : r.type.isArithmetic = true)
    (hf : ∀ l' r' x' y' s' m', s.symbols.length ≤ s'.symbols.length → s'.types = s.types →
      castScalar l.type (l.type.commonArithmetic r.type) x = some x' →
      castScalar r.type (l.type.commonArithmetic r.type) y = some y' →
      CastTo env l (l.type.commonArithmetic r.type) x' l' s' m' →
      CastTo env r (l.type.commonArithmetic r.type) y' r' s' m' →
      Emits env b s' m' (f (l.type.commonArithmetic r.type, l', r')) Q) :
    Emits env b s m (convertOperands (some b) l r >>= f) Q := by
  rcases castScalar_commonArithmetic h1 h2 (Or.inl rfl) hl.hasType with ⟨x', hx'⟩
  rcases castScalar_commonArithmetic h1 h2 (Or.inr rfl) hr.hasType with ⟨y', hy'⟩
  have hpcommon : (l.type.commonArithmetic r.type).isPointerType = false := by
    rcases commonArithmetic_cases h1 h2 with ⟨k, hreal, -, -⟩ | ⟨hi1, hi2, heq⟩
    · exact (not_word_of_realKind hreal).2
    · rw [heq]
      exact not_pointer_of_isArithmetic
        (isReal_of_isInteger (isInteger_common hi1 hi2)).1
  unfold convertOperands
  rw [bind_assoc]
  refine Emits.bindTable (usualArithmeticConversion_arithmetic s.types h1 h2) ?_
  simp only [bind_assoc, pure_bind]
  refine hl.evalCast_both_emits hr hroom
    (plain_commonArithmetic h1 h2 hl.plain hr.plain) hx' hy'
    (Distinct.of_not_pointer (not_pointer_of_isArithmetic h1) hpcommon)
    (Distinct.of_not_pointer (not_pointer_of_isArithmetic h2) hpcommon) ?_
  exact fun l' r' s' m' hle htypes hl' hr' => hf l' r' x' y' s' m' hle htypes hx' hy' hl' hr'

omit [LawfulHostFloat] in
theorem CastTo.createExpr_computes {x' y' : Scalar} {l' r' : Var} (hop : op.binaryOp ≠ none)
    (hl : CastTo env l type x' l' s m) (hr : CastTo env r type y' r' s m) :
    Computes env (if op.isComparison then basicTypeInt else type)
      (binaryScalar op type x' y') (createExpr op l' r') s m := by
  have h := Kcs.createExpr_computes hop hl.standsFor hr.standsFor
  rw [binaryScalar_like hl.like] at h
  refine ⟨h.like.trans ?_, h.plain, h.hasType, h.value, ?_⟩
  · split
    · exact Like.refl _
    · exact hl.like
  · exact Or.inr (by cases op <;> first | exact absurd rfl hop | exact ⟨by simp [createExpr], by simp [createExpr]⟩)

omit [HostFloat] [LawfulHostFloat] in
theorem CastTo.bothImmediate_eq {x' y' : Scalar} {l' r' : Var} {t t' : CType}
    (hl : CastTo env l t x' l' s m) (hr : CastTo env r t' y' r' s m) :
    bothImmediate l' r' = bothImmediate l r := by
  simp only [bothImmediate, hl.kind, hr.kind]

section

variable (hl : StandsFor env s.symbols.length m l x) (hr : StandsFor env s.symbols.length m r y)
  (hroom : Room env s.symbols.length) (h1 : l.type.isArithmetic = true)
  (h2 : r.type.isArithmetic = true) (hkind : bothImmediate l r = false)
include hl hr hroom h1 h2 hkind

theorem convertOperands_computes (hop : op.binaryOp ≠ none)
    (fold : CType → Var → Var → EvalM Expression) :
    Emits env b s m (do
      let (type, l, r) ← convertOperands (some b) l r
      if bothImmediate l r then fold type l r else pure (createExpr op l r))
      (Computes env (if op.isComparison then basicTypeInt else l.type.commonArithmetic r.type)
        (arithmeticScalar op l.type r.type x y)) := by
  refine convertOperands_emits hl hr hroom h1 h2 ?_
  intro l' r' x' y' s' m' hle htypes hx' hy' hl' hr'
  have hcomputes := CastTo.createExpr_computes hop hl' hr'
  simp only [hl'.bothImmediate_eq hr', hkind, arithmeticScalar, hx', hy', bind_some]
  exact Emits.pure hcomputes

theorem arithmetic_computes (hop : op.binaryOp ≠ none) (hcmp : op.isComparison = false) :
    Emits env b s m (arithmetic op (some b) l r)
      (Computes env (l.type.commonArithmetic r.type) (arithmeticScalar op l.type r.type x y)) := by
  have h := convertOperands_computes (b := b) hl hr hroom h1 h2 hkind hop fun type l r => do
    let v ← evalArithmeticImmediate op type l r
    cast v type
  rwa [hcmp, if_neg Bool.false_ne_true] at h

theorem equality_computes (hop : op = .eq ∨ op = .ne) :
    Emits env b s m (equality op (some b) l r)
      (Computes env basicTypeInt (arithmeticScalar op l.type r.type x y)) := by
  have hp := not_pointer_of_isArithmetic h2
  unfold equality prepareComparisonOperands comparisonSwapped prepareOrdered
  simp only [hp, h1, h2, Bool.false_eq_true, if_false, pure_bind, Bool.and_self, if_true,
    bind_assoc]
  have hop' : op.binaryOp ≠ none := by rcases hop with rfl | rfl <;> simp [OpType.binaryOp]
  have h := convertOperands_computes (b := b) hl hr hroom h1 h2 hkind hop' fun _ l r =>
    pure (asExpr (evalImmediateCompare op l.type l r))
  rcases hop with rfl | rfl <;> exact h

theorem relational_computes (hop : op = .ge ∨ op = .gt) :
    Emits env b s m (relational op (some b) l r)
      (Computes env basicTypeInt (arithmeticScalar op l.type r.type x y)) := by
  -- The conversions are those of the other operators.
  have hconvert : relational op (some b) l r = (do
      let (type, l, r) ← convertOperands (some b) l r
      if bothImmediate l r then pure (asExpr (evalImmediateCompare op type l r))
      else pure (createExpr op l r)) := by
    simp only [relational, commonCompareType, h1, h2, Bool.and_self, if_true, convertOperands,
      bind_assoc, pure_bind]
  rw [hconvert]
  have hop' : op.binaryOp ≠ none := by rcases hop with rfl | rfl <;> simp [OpType.binaryOp]
  have h := convertOperands_computes (b := b) hl hr hroom h1 h2 hkind hop' fun type l r =>
    pure (asExpr (evalImmediateCompare op type l r))
  rcases hop with rfl | rfl <;> exact h

end

end Arithmetic

/-! ## Operators on integers -/

section Integers

variable [HostFloat] [LawfulHostFloat] {env : RunEnv} {b : BlockId} {s : EvalState}
  {m : Memory} {v l r : Var} {c c1 c2 : CInteger} {a k : Int}

omit [HostFloat] [LawfulHostFloat] in
theorem IsInteger.standsFor {n : Nat} (h : IsInteger v c a) (hplain : v.type.Plain) :
    StandsFor env n m v (.int a) := by
  have hword := wordType_of_cInteger h.type
  exact ⟨h.fieldWidth, hplain, ⟨c, hword, h.inRange⟩,
    fun _ => ⟨h.notString, h.offset, c, hword, h.inRange, h.word⟩, fun hne => absurd h.kind hne⟩

omit [HostFloat] [LawfulHostFloat] in
theorem StandsFor.isInteger {n : Nat} (h : StandsFor env n m v (.int a))
    (htype : v.type.cInteger = some c) (hkind : v.kind = .immediate) : IsInteger v c a := by
  rcases h.immediate hkind with ⟨hstring, hoffset, c', hword, hrange, hlo⟩
  rw [wordType_of_cInteger htype, some.injEq] at hword
  subst hword
  exact ⟨⟨hkind, htype, hstring, hoffset, h.fieldWidth⟩, hrange, hlo⟩

omit [LawfulHostFloat] in
theorem arithmeticScalar_int {o : CInteger.BinaryOp} (h1 : l.type.cInteger = some c1)
    (h2 : r.type.cInteger = some c2) :
    arithmeticScalar (opType o) l.type r.type (.int a) (.int k) =
      (CInteger.binary o (CInteger.common c1 c2) ((CInteger.common c1 c2).convert a)
        ((CInteger.common c1 c2).convert k)).map .int := by
  have hi1 := isInteger_of_cInteger h1
  have hi2 := isInteger_of_cInteger h2
  have hcommon := commonArithmetic_int hi1 hi2
  have hword := wordType_of_cInteger (cInteger_common h1 h2)
  have hop : (opType o).binaryOp = some o := by cases o <;> rfl
  simp [arithmeticScalar, castScalar, hcommon, hword, binaryScalar, hop]

omit [LawfulHostFloat] in
theorem StandsFor.rvalue_eq {n : Nat} {x : Scalar} (block : BlockRef) (h : StandsFor env n m v x) :
    rvalue block v = pure v := by
  have hscalar := h.hasType.isScalar
  unfold CType.isScalar at hscalar
  refine rvalue_of_scalar block (by simp [Var.isField, h.fieldWidth]) ?_ ?_
  · unfold CType.isFunction
    cases hk : v.type.typeOf <;> first | rfl | (rw [hk] at hscalar; cases hscalar)
  · unfold CType.isArray
    cases hk : v.type.typeOf <;> first | rfl | (rw [hk] at hscalar; cases hscalar)

omit [LawfulHostFloat] in
theorem computes_ofBool (p : Bool) :
    Computes env basicTypeInt (some (.int (CInteger.ofBool p)))
      (asExpr (varInt (CInteger.ofBool p))) s m :=
  ((isInteger_ofBool p).standsFor plain_int).computes

theorem evalBinary_comparison {o : CInteger.BinaryOp} (ho : o = .eq ∨ o = .gt)
    (hl : StandsFor env s.symbols.length m l (.int a))
    (hr : StandsFor env s.symbols.length m r (.int k)) (hroom : Room env s.symbols.length)
    (h1 : l.type.cInteger = some c1) (h2 : r.type.cInteger = some c2) :
    Emits env b s m (evalBinary (some b) (opType o) l r)
      (Computes env basicTypeInt
        ((CInteger.binary o (CInteger.common c1 c2) ((CInteger.common c1 c2).convert a)
          ((CInteger.common c1 c2).convert k)).map .int)) := by
  have harith1 := (isReal_of_isInteger (isInteger_of_cInteger h1)).1
  have harith2 := (isReal_of_isInteger (isInteger_of_cInteger h2)).1
  unfold evalBinary
  rw [hl.rvalue_eq (some b), pure_bind, hr.rvalue_eq (some b), pure_bind]
  by_cases hkind : bothImmediate l r = true
  · have hkinds : l.kind = .immediate ∧ r.kind = .immediate := by
      simpa [bothImmediate] using hkind
    have hil := hl.isInteger h1 hkinds.1
    have hir := hr.isInteger h2 hkinds.2
    rcases ho with rfl | rfl
    · rcases equality_spec .eq (some b) hil hir rfl with ⟨p, hfold, hvalue⟩
      rw [hvalue]
      simp only [opType, cmpEq] at hfold ⊢
      rw [hfold]
      exact Emits.pure (computes_ofBool p)
    · rcases relational_spec .gt (some b) hil hir rfl with ⟨p, hfold, hvalue⟩
      rw [hvalue]
      simp only [opType, cmpGt] at hfold ⊢
      rw [hfold]
      exact Emits.pure (computes_ofBool p)
  · rw [Bool.not_eq_true] at hkind
    rw [← arithmeticScalar_int h1 h2]
    rcases ho with rfl | rfl
    · exact equality_computes hl hr hroom harith1 harith2 hkind (Or.inl rfl)
    · exact relational_computes hl hr hroom harith1 harith2 hkind (Or.inr rfl)

theorem evalBinary_sum {o : CInteger.BinaryOp} (ho : o = .add ∨ o = .sub)
    (hl : StandsFor env s.symbols.length m l (.int a))
    (hr : StandsFor env s.symbols.length m r (.int k)) (hroom : Room env s.symbols.length)
    (h1 : l.type.cInteger = some c1) (h2 : r.type.cInteger = some c2) :
    Emits env b s m (evalBinary (some b) (opType o) l r)
      (Computes env (l.type.common r.type)
        ((CInteger.binary o (CInteger.common c1 c2) ((CInteger.common c1 c2).convert a)
          ((CInteger.common c1 c2).convert k)).map .int)) := by
  have hi1 := isInteger_of_cInteger h1
  have hi2 := isInteger_of_cInteger h2
  have harith1 := (isReal_of_isInteger hi1).1
  have harith2 := (isReal_of_isInteger hi2).1
  have hp := not_pointer_of_isArithmetic harith2
  have heq : evalBinary (some b) (opType o) l r = arithmetic (opType o) (some b) l r := by
    unfold evalBinary
    rw [hl.rvalue_eq (some b), pure_bind, hr.rvalue_eq (some b), pure_bind]
    rcases ho with rfl | rfl
    · simp [opType, add, addOrdered, hp, harith1, harith2]
    · simp [opType, sub, harith1, harith2]
  rw [heq]
  by_cases hkind : bothImmediate l r = true
  · have hkinds : l.kind = .immediate ∧ r.kind = .immediate := by
      simpa [bothImmediate] using hkind
    have hil := hl.isInteger h1 hkinds.1
    have hir := hr.isInteger h2 hkinds.2
    have hn : ∃ n, CInteger.binary o (CInteger.common c1 c2) ((CInteger.common c1 c2).convert a)
        ((CInteger.common c1 c2).convert k) = some n := by
      rcases ho with rfl | rfl
      · exact ⟨_, rfl⟩
      · exact ⟨_, rfl⟩
    rcases hn with ⟨n, hn⟩
    have hcmp : o.isComparison = false := by rcases ho with rfl | rfl <;> rfl
    rcases arithmetic_spec o (some b) hil hir hcmp hn with ⟨w, hw, hwtype, hwint⟩
    rw [hw, hn]
    have hplain : w.type.Plain := hwtype ▸ plain_common hi1 hi2 hl.plain hr.plain
    have hstands : StandsFor env s.symbols.length m w (.int n) := hwint.standsFor hplain
    have hcomputes := hstands.computes
    rw [hwtype] at hcomputes
    exact Emits.pure hcomputes
  · rw [Bool.not_eq_true] at hkind
    rw [← arithmeticScalar_int h1 h2, ← commonArithmetic_int hi1 hi2]
    refine arithmetic_computes hl hr hroom harith1 harith2 hkind ?_ ?_
    · rcases ho with rfl | rfl <;> simp [opType, OpType.binaryOp]
    · rcases ho with rfl | rfl <;> rfl

end Integers

end Kcs
