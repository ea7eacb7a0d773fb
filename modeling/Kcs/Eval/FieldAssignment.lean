import Kcs.Eval.Assignment
import Kcs.Eval.Pending

/-!
# Assignments to bit-fields

`assign_field` masks a constant to the width of the field, and converts any other value to a type
that is chosen by the size of the declared type.  For one byte this is `_Bool`, so that a character
field gets a truth value, and the mask for a width of 64 is empty.

Main results:

- Theorem {lit}`assignsField_iff`: exactly when it does.
-/

namespace Kcs

/-! ## Masks -/

section Masks

variable {w i : Nat}

theorem getLsbD_mask (hw : w < 64) (i : Nat) :
    ((1#64 <<< w) - 1).getLsbD i = decide (i < w) := by
  have hpow : 2 ^ w < 2 ^ 64 := Nat.pow_lt_pow_right (by decide) hw
  have hpos : 0 < 2 ^ w := by positivity
  have hshift : (1#64 <<< w).toNat = 2 ^ w := by
    rw [BitVec.toNat_shiftLeft, BitVec.toNat_ofNat, Nat.shiftLeft_eq]
    omega
  have hmask : ((1#64 <<< w) - 1).toNat = 2 ^ w - 1 := by
    rw [BitVec.toNat_sub_of_le]
    · rw [hshift]
      rfl
    · rw [BitVec.le_def, hshift]
      exact hpos
  rw [BitVec.getLsbD, hmask, Nat.testBit_two_pow_sub_one]

theorem and_bit_ne_zero (x : BitVec 64) (hi : i < 64) :
    x &&& (1#64 <<< i) ≠ 0 ↔ x.getLsbD i = true := by
  have hbit : ∀ j, (x &&& (1#64 <<< i)).getLsbD j = (x.getLsbD j && decide (j = i)) := by
    intro j
    have hone : ∀ k, (1#64).getLsbD k = decide (k = 0) := fun k => by simp
    rw [BitVec.getLsbD_and, BitVec.getLsbD_shiftLeft, hone]
    by_cases hj : j = i
    · simp [hj, hi]
    · by_cases hlt : j < i
      · simp [hj, hlt]
      · simp [hj, show j - i ≠ 0 by omega]
  constructor
  · intro hne
    by_contra hclear
    refine hne (BitVec.eq_of_getLsbD_eq fun j _ => ?_)
    rw [hbit]
    by_cases hj : j = i
    · subst hj
      simpa using hclear
    · simp [hj]
  · intro hset hzero
    have hone := hbit i
    rw [hzero, hset] at hone
    simp at hone

/-- A value that is extended from the width of a field. -/
def fieldExtend (signed : Bool) (w : Nat) (a : Int) : Int :=
  if signed then Int.bmod a (2 ^ w) else a % 2 ^ w

theorem fieldExtend_emod (signed : Bool) (w : Nat) (a : Int) :
    fieldExtend signed w a % 2 ^ w = a % 2 ^ w := by
  unfold fieldExtend
  split
  · have hmod := Int.bmod_emod (x := a) (m := 2 ^ w)
    push_cast at hmod
    exact hmod
  · exact Int.emod_emod_of_dvd a (dvd_refl _)

theorem getLsbD_fieldExtend (signed : Bool) {lo : BitVec 64} {a : Int} (hpos : 0 < w)
    (hw : w ≤ 64) (hlo : lo = BitVec.ofInt 64 a) (hi : i < 64) :
    (BitVec.ofInt 64 (fieldExtend signed w a)).getLsbD i =
      if i < w then lo.getLsbD i else signed && lo.getLsbD (w - 1) := by
  have hbits : BitVec.ofInt w a = lo.setWidth w := by
    rw [hlo]
    exact (IntFormat.setWidth_ofInt (f := ⟨signed, w, hpos, hw⟩) a).symm
  cases signed with
  | true =>
    have hextend : BitVec.ofInt 64 (fieldExtend true w a) = (lo.setWidth w).signExtend 64 := by
      rw [BitVec.signExtend, ← hbits, BitVec.toInt_ofInt]
      rfl
    have hmsb : (lo.setWidth w).msb = lo.getLsbD (w - 1) := by
      rw [BitVec.msb_eq_getLsbD_last, BitVec.getLsbD_setWidth]
      simp [hpos]
    rw [hextend, BitVec.getLsbD_signExtend, hmsb, BitVec.getLsbD_setWidth]
    by_cases h : i < w <;> simp [h, hi]
  | false =>
    have hextend : BitVec.ofInt 64 (fieldExtend false w a) = (lo.setWidth w).setWidth 64 := by
      rw [← hbits]
      have hnonneg : 0 ≤ a % 2 ^ w := Int.emod_nonneg a (by positivity)
      apply BitVec.eq_of_toNat_eq
      rw [BitVec.toNat_setWidth, BitVec.toNat_ofInt, BitVec.toNat_ofInt, fieldExtend,
        if_neg Bool.false_ne_true]
      push_cast
      generalize a % 2 ^ w = p at hnonneg
      omega
    rw [hextend, BitVec.getLsbD_setWidth, BitVec.getLsbD_setWidth]
    by_cases h : i < w <;> simp [h, hi]

theorem maskField_eq {target : Var} {imm : Value} {a : Int} (hpos : 0 < target.fieldWidth)
    (hw : target.fieldWidth < 64) (hlo : imm.lo = BitVec.ofInt 64 a) :
    (maskField target imm).lo =
      BitVec.ofInt 64 (fieldExtend target.type.isSigned target.fieldWidth a) := by
  have hmod : target.fieldWidth % 64 = target.fieldWidth := Nat.mod_eq_of_lt hw
  have hlast : (target.fieldWidth - 1) % 64 = target.fieldWidth - 1 := by omega
  have hmask : ∀ i, (imm.lo &&& ((1#64 <<< target.fieldWidth) - 1)).getLsbD i =
      (imm.lo.getLsbD i && decide (i < target.fieldWidth)) := by
    intro i
    rw [BitVec.getLsbD_and, getLsbD_mask hw]
  have hsign : imm.lo &&& ((1#64 <<< target.fieldWidth) - 1) &&&
      (1#64 <<< (target.fieldWidth - 1)) ≠ 0 ↔
        imm.lo.getLsbD (target.fieldWidth - 1) = true := by
    rw [and_bit_ne_zero _ (by omega), hmask]
    simp [show target.fieldWidth - 1 < target.fieldWidth by omega]
  refine BitVec.eq_of_getLsbD_eq fun i hi => ?_
  rw [getLsbD_fieldExtend _ hpos hw.le hlo hi]
  simp only [maskField, hmod, hlast]
  by_cases hset : target.type.isSigned = true ∧ imm.lo.getLsbD (target.fieldWidth - 1) = true
  · rw [if_pos (by rwa [Bool.and_eq_true, decide_eq_true_eq, hsign])]
    rw [BitVec.getLsbD_or, BitVec.getLsbD_not, hmask, getLsbD_mask hw]
    by_cases h : i < target.fieldWidth <;> simp [h, hi, hset]
  · rw [if_neg (by rwa [Bool.and_eq_true, decide_eq_true_eq, hsign])]
    rw [hmask]
    by_cases h : i < target.fieldWidth
    · simp [h]
    · have hclear : (target.type.isSigned && imm.lo.getLsbD (target.fieldWidth - 1)) = false := by
        rw [← Bool.not_eq_true, Bool.and_eq_true]
        exact hset
      simp [h, hclear]

theorem maskField_word {target : Var} {imm : Value} (hw : target.fieldWidth = 64) :
    (maskField target imm).lo = 0 := by
  simp only [maskField, hw]
  have hmask : (1#64 <<< (64 % 64)) - 1 = 0#64 := by decide
  rw [hmask, BitVec.and_zero]
  split
  · rename_i hset
    simp at hset
  · rfl

end Masks

/-! ## Sources -/

/-- The zero with which `eval_bool` compares. -/
def longZero : Var := varNumeric basicTypeLong (({} : Value).setI 0)

theorem isInteger_longZero : IsInteger longZero .long 0 :=
  ⟨isIntegerWord_varNumeric rfl _, by decide, rfl⟩

theorem longZero_ne_iff {c : CInteger} {a : Int} (ha : c.format.InRange a) :
    (CInteger.common .long c).convert 0 ≠ (CInteger.common .long c).convert a ↔ a ≠ 0 := by
  have hinRange : c.promote.format.InRange 0 := by cases c <;> decide
  have hconvert : c.promote.convert 0 = 0 := by cases c <;> decide
  rw [ne_eq, CInteger.convert_common_eq_iff ha (Or.inl hinRange), hconvert]
  exact not_congr eq_comm

theorem convert_bool_eq (a : Int) : CInteger.bool.convert a = CInteger.ofBool (decide (a ≠ 0)) := by
  rw [CInteger.convert, if_pos rfl]
  by_cases hzero : a = 0 <;> simp [hzero, CInteger.ofBool]

/-- A constant operand. -/
def Expression.IsConstant (e : Expression) : Prop := e = asExpr e.l ∧ e.l.kind = .immediate

instance (e : Expression) : Decidable e.IsConstant :=
  inferInstanceAs (Decidable (e = asExpr e.l ∧ e.l.kind = .immediate))

/-- An integer expression of the parser and its value. -/
structure IntegerSource [HostFloat] (env : RunEnv) (n : Nat) (e : Expression) (σ : RunState)
    (a : Int) (σ' : RunState) : Prop where
  pending : Pending env n e σ (.int a) σ'
  testable : Testable e
  notString : ¬ e.IsString
  integer : e.type.isInteger = true

/-- Decay of the source of an assignment. -/
def decaySource [HostFloat] (b : BlockId) (e : Expression) : EvalM Expression :=
  if e = asExpr e.l then do
    let var ← rvalue (some b) e.l
    pure (asExpr var)
  else pure e

/-- An evaluation leaves an expression with the given value that is no constant. -/
def LeavesSource [HostFloat] (env : RunEnv) (b : BlockId) (s : EvalState) (σ : RunState)
    (c : EvalM Expression) (a : Int) : Prop :=
  ∃ e s' code σ1 σ2, c s = .ok (e, s') ∧ EmitsTo b s s' code ∧
    execCode (irMachine env) code σ = some σ1 ∧
    IntegerSource env s'.symbols.length e σ1 a σ2 ∧ ¬ e.IsConstant

section Sources

variable [HostFloat] {env : RunEnv} {n : Nat} {b : BlockId} {s : EvalState} {m : Memory}
  {e : Expression} {v : Var} {σ σ' : RunState} {c : CInteger} {a : Int}

theorem IntegerSource.cInteger (h : IntegerSource env n e σ a σ') :
    ∃ c, e.type.cInteger = some c ∧ c.format.InRange a := by
  rcases h.pending.hasType.int_of_isInteger h.integer with ⟨c, a', hc, ha, hrange⟩
  rw [Scalar.int.injEq] at ha
  exact ⟨c, hc, ha ▸ hrange⟩

theorem IntegerOperand.source (h : IntegerOperand env n σ.mem v c a) (hkind : v.kind ≠ .immediate)
    (hfield : v.fieldWidth ≠ 0 → v.kind = .direct ∨ v.kind = .deref) :
    IntegerSource env n (asExpr v) σ a σ ∧ ¬ (asExpr v).IsConstant := by
  have hscalar := (CType.isScalar_of_cInteger h.type).1
  refine ⟨⟨⟨fun hno => absurd hno (by simp [asExpr]), fun _ => ⟨rfl, fun m' hm' => ?_⟩⟩,
    ⟨hscalar, h.plain, fun _ => Or.inl rfl,
      fun hno => absurd hno (by simp [asExpr, OpType.isComparison]),
      fun _ himm => absurd himm hkind,
      fun _ hno => ⟨CType.isInteger_of_cInteger h.type, hfield hno⟩⟩,
    fun hstring => ?_, CType.isInteger_of_cInteger h.type⟩, fun hno => hkind hno.2⟩
  · rcases h.stored hkind m' hm' with ⟨raw, hraw, hdecode⟩
    rcases decode_encode h.hasType with ⟨raw', hencode, -, hdecode'⟩
    refine ⟨raw', ?_, hdecode'⟩
    have hsame := castScalar_like h.hasType (CType.Like.refl v.type)
    simp [pureValue, asExpr, hraw, castRaw, hscalar, hdecode, hsame, hencode]
  · have hno := hstring.2
    simp [Var.isString, asExpr, hkind] at hno

theorem Emits.leavesSource {c : EvalM Expression} {Q : Expression → EvalState → Memory → Prop}
    (h : Emits env b s σ.mem c Q)
    (hQ : ∀ e s' σ1, Q e s' σ1.mem → IntegerSource env s'.symbols.length e σ1 a σ1 ∧
      ¬ e.IsConstant) :
    LeavesSource env b s σ c a := by
  rcases h with ⟨e, s', code, m', hok, hemit, hrun, -, hpost⟩
  rcases hQ e s' { σ with mem := m' } hpost with ⟨hsource, hconstant⟩
  exact ⟨e, s', code, _, _, hok, hemit, hrun σ.params σ.trace, hsource, hconstant⟩

theorem IntegerSource.leaves (h : IntegerSource env s.symbols.length e σ a σ')
    (hconstant : ¬ e.IsConstant) : LeavesSource env b s σ (pure e) a :=
  ⟨e, s, [], σ, σ', rfl, EmitsTo.refl b s, rfl, h, hconstant⟩

theorem LeavesSource.bind {c : EvalM Expression} {f : Expression → EvalM Expression} {a' : Int}
    (h : LeavesSource env b s σ c a)
    (hf : ∀ e s' σ1 σ2, s.symbols.length ≤ s'.symbols.length →
      IntegerSource env s'.symbols.length e σ1 a σ2 → ¬ e.IsConstant →
      LeavesSource env b s' σ1 (f e) a') :
    LeavesSource env b s σ (c >>= f) a' := by
  rcases h with ⟨e, s1, code, σ1, σ2, hok, hemit, hrun, hsource, hconstant⟩
  rcases hf e s1 σ1 σ2 hemit.symbols hsource hconstant with
    ⟨e', s2, code', σ3, σ4, hok', hemit', hrun', hsource', hconstant'⟩
  refine ⟨e', s2, code ++ code', σ3, σ4, (bind_of_ok hok).trans hok', hemit.trans hemit', ?_,
    hsource', hconstant'⟩
  rw [execCode_append, hrun, Option.bind_some, hrun']

theorem IntegerSource.rvalue_leaves (h : IntegerSource env s.symbols.length e σ a σ')
    (hconstant : ¬ e.IsConstant) (hroom : Room env s.symbols.length) :
    LeavesSource env b s σ (decaySource b e) a := by
  unfold decaySource
  by_cases hsame : e = asExpr e.l
  · rw [if_pos hsame]
    rcases h.pending.operand h.testable h.notString hsame with ⟨-, hoperand⟩
    rcases h.cInteger with ⟨c, hc, -⟩
    have htype : e.l.type.cInteger = some c := by rwa [hsame] at hc
    rcases hoperand.integer htype with ⟨hint, hfield⟩
    have hkind : e.l.kind ≠ .immediate := fun hno => hconstant ⟨hsame, hno⟩
    refine Emits.leavesSource (Emits.bind (hint.rvalue_emits hroom hfield)
      (R := fun e s' m' => ∃ w c', e = asExpr w ∧ IntegerOperand env s'.symbols.length m' w c' a ∧
        w.kind ≠ .immediate ∧ (w.fieldWidth ≠ 0 → w.kind = .direct ∨ w.kind = .deref)) ?_) ?_
    · rintro w s' m' - - - ⟨⟨c', hw⟩, hkind', hfield'⟩
      exact Emits.pure ⟨w, c', rfl, hw, fun hno => hkind (hkind'.mp hno), hfield'⟩
    · rintro _ s' σ1 ⟨w, c', rfl, hw, hkind', hfield'⟩
      exact hw.source hkind' hfield'
  · rw [if_neg hsame]
    exact h.leaves hconstant

theorem IntegerSource.eval_bind {α : Type} {f : Var → EvalM α} {Q : α → EvalState → Memory → Prop}
    (h : IntegerSource env s.symbols.length e σ a σ') (hconstant : ¬ e.IsConstant)
    (htype : e.type.cInteger = some c) (hroom : Room env s.symbols.length)
    (hf : ∀ w s' m, s.symbols.length ≤ s'.symbols.length → s'.types = s.types →
      w.type = e.type → IntegerOperand env s'.symbols.length m w c a → w.kind ≠ .immediate →
      (w.fieldWidth ≠ 0 → w.kind = .direct ∨ w.kind = .deref) → Emits env b s' m (f w) Q) :
    ∃ x s' code m, (eval (some b) e >>= f) s = .ok (x, s') ∧ EmitsTo b s s' code ∧
      execCode (irMachine env) code σ = some { σ' with mem := m } ∧ Q x s' m := by
  rcases h.pending.eval_run (b := b) h.testable h.notString hroom with
    ⟨w, s1, code, m, hok, hemit, hrun, -, hw, hwtype, hwkind⟩
  rcases hw.integer (hwtype ▸ htype) with ⟨hint, hfield⟩
  rcases hf w s1 m hemit.symbols hemit.types hwtype hint (fun hno => hconstant (hwkind hno)) hfield
    with ⟨x, s2, code', m', hok', hemit', hrun', -, hpost⟩
  refine ⟨x, s2, code ++ code', m', (bind_of_ok hok).trans hok', hemit.trans hemit', ?_, hpost⟩
  rw [execCode_append, hrun]
  exact hrun' σ'.params σ'.trace

theorem IntegerOperand.zeroNe_emits (h : IntegerOperand env s.symbols.length m v c a)
    (hroom : Room env s.symbols.length) (hkind : v.kind ≠ .immediate)
    (hfield : v.fieldWidth ≠ 0 → v.kind = .direct ∨ v.kind = .deref) :
    Emits env b s m (immSigned basicTypeLong 0 >>= fun zero => evalBinary (some b) .ne zero v)
      fun e s' m' => Tests env (decide (a ≠ 0)) e s' m' ∧ e.op = .ne := by
  have hzero : rvalue (some b) longZero = pure longZero := rvalue_of_scalar (some b) rfl rfl rfl
  have himm : immSigned basicTypeLong 0 = (pure longZero : EvalM Var) := rfl
  rw [himm, pure_bind]
  unfold evalBinary
  rw [hzero, pure_bind]
  refine Emits.bind (h.rvalue_emits hroom hfield) ?_
  rintro w s1 m1 hle - - ⟨⟨c', hw⟩, hwkind, -⟩
  refine Emits.mono ((isInteger_longZero.operand plain_long).cmpNe_emits hw (hroom.mono hle)) ?_
  rintro e s2 m2 ⟨htests, hop⟩
  rw [decide_eq_decide.mpr (longZero_ne_iff hw.inRange)] at htests
  refine ⟨htests, hop ?_⟩
  rw [bothImmediate, Bool.and_eq_false_iff, decide_eq_false_iff_not, decide_eq_false_iff_not]
  exact Or.inr fun hno => hkind (hwkind.mp hno)

theorem IntegerSource.evalBool_leaves (h : IntegerSource env s.symbols.length e σ a σ')
    (hconstant : ¬ e.IsConstant) (hroom : Room env s.symbols.length) :
    LeavesSource env b s σ (evalBool (some b) e) (CInteger.bool.convert a) := by
  rcases h.cInteger with ⟨c, hc, hrange⟩
  by_cases hbool : e.type.isBool = true
  · -- The source is a truth value already.
    have hsame : c = .bool := by
      have hkind := (CType.cInteger_eq_some_iff.mp hc).1
      rw [CType.isBool, decide_eq_true_eq, hkind] at hbool
      cases c <;> first | rfl | cases hbool
    subst hsame
    rw [evalBool, if_pos hbool, CInteger.convert_of_inRange hrange]
    exact h.leaves hconstant
  · rcases h.eval_bind (b := b) hconstant hc hroom fun w s1 m hle _ _ hw hkind hfield =>
      hw.zeroNe_emits (hroom.mono hle) hkind hfield with
      ⟨e', s1, code, m, hok, hemit, hrun, htests, hop⟩
    rw [evalBool, if_neg hbool, convert_bool_eq]
    refine ⟨e', s1, code, _, _, hok, hemit, hrun, ⟨htests.pending, htests.testable.1,
      htests.testable.2, ?_⟩, fun hno => asExpr_ne (by rw [hop]; decide) hno.1⟩
    rw [htests.type]
    rfl

end Sources

/-! ## The conversion to the type of the field -/

/-- The integer type in which `assign_field` stores a value, by the type of the field. -/
def fieldInteger : CInteger → CInteger
  | .bool | .char | .uchar => .bool
  | .short | .ushort => .short
  | .int | .uint => .int
  | .long | .ulong => .long

section Conversion

variable [HostFloat] {env : RunEnv} {b : BlockId} {s : EvalState} {m : Memory} {e : Expression}
  {v target : Var} {σ σ' : RunState} {c t : CInteger} {a : Int} {type : CType}

omit [HostFloat] in
theorem fieldType_spec (htarget : target.type.cInteger = some t) :
    ∃ type, fieldType target.type.scalarSize = some type ∧
      type.cInteger = some (fieldInteger t) ∧ type.Plain := by
  rw [CType.scalarSize, (CType.cInteger_eq_some_iff.mp htarget).1]
  cases t <;> exact ⟨_, rfl, rfl, fun _ => rfl, fun hno => absurd rfl hno⟩

theorem assignField_eq (b : BlockId) (hfield : target.isField = true)
    (htarget : target.type.cInteger = some t) :
    ∃ type, type.cInteger = some (fieldInteger t) ∧ type.Plain ∧
      ∀ e, assignField (some b) target e = (isImmediate e >>= fun immediate =>
        if immediate then
          let l := { e.l with imm := maskField target e.l.imm, type := type }
          emitAssign (some b) target { e with l := l, type := type }
        else readTable (typeEqual · type e.type) >>= fun equal =>
          if equal then emitAssign (some b) target e
          else (eval (some b) e >>= fun val => evalTyped (some b) .cast val type) >>=
            emitAssign (some b) target) := by
  rcases fieldType_spec htarget with ⟨type, htype, hinteger, hplain⟩
  have hsize : readTable (sizeOf · target.type) = (pure target.type.scalarSize : EvalM Nat) :=
    readTable_scalarSize (CType.isScalar_of_cInteger htarget).1
  have hchoose : readTable (fun _ => fieldType target.type.scalarSize) =
      (pure type : EvalM CType) := by
    funext s
    simp [readTable, htype]
    rfl
  refine ⟨type, hinteger, hplain, fun e => ?_⟩
  unfold assignField
  simp only [hfield, CType.isInteger_of_cInteger htarget, Bool.not_true, Bool.or_self,
    Bool.false_eq_true, if_false, hsize, hchoose, pure_bind, bind_assoc]

theorem IntegerOperand.cast_emits (h : IntegerOperand env s.symbols.length m v c a)
    (hkind : v.kind ≠ .immediate) (htype : type.cInteger = some t) (hplain : type.Plain) :
    Emits env b s m (cast v type) fun e s' m' =>
      (∀ s'', s''.types = s'.types → isImmediate e s'' = .ok (false, s'')) ∧ e.op ≠ .call ∧
        ∃ raw, pureValue env m' e = some raw ∧ decode e.type raw = some (.int (t.convert a)) := by
  rcases CType.isScalar_of_cInteger h.type with ⟨hscalar, -, -, -, hpointer⟩
  rcases CType.isScalar_of_cInteger htype with ⟨hscalar', -, -, hvoid, hpointer'⟩
  rcases typeEqual_of_ref s.types (Or.inr (hplain.ref hpointer') : v.type.ref = 0 ∨ type.ref = 0)
    with ⟨equal, hequal⟩
  have hcast : castScalar v.type type (.int a) = some (.int (t.convert a)) := by
    simp only [castScalar, CType.wordType_of_cInteger htype]
  rcases h.operandValue_eq with ⟨raw, hraw, hdecode⟩
  unfold cast
  simp only [hvoid, hscalar, hscalar', hkind, hpointer, hpointer', readTable_scalarSize,
    Bool.not_true, Bool.or_self, Bool.false_eq_true, Bool.and_false, if_false, pure_bind]
  refine Emits.bindTable hequal ?_
  cases equal with
  | true =>
    have hlike : v.type.Like type := CType.Like.of_typeEqual hequal hpointer hpointer'
    have hsame : t.convert a = a := by
      have hscalars := castScalar_like h.hasType hlike
      rw [hcast] at hscalars
      simpa using hscalars
    rcases decode_encode h.hasType with ⟨raw', hencode, -, hdecode'⟩
    have hself := castScalar_like h.hasType (CType.Like.refl v.type)
    rw [if_pos rfl, hsame]
    refine Emits.pure ⟨fun s'' _ => ?_, by simp [asExpr], raw', ?_, hdecode'⟩
    · rw [isImmediate, isIdentity_asExpr, pure_bind]
      simp [asExpr, hkind]
      rfl
    · simp [pureValue, asExpr, hraw, castRaw, hscalar, hdecode, hself, hencode]
  | false =>
    rcases decode_encode (castScalar_hasType hcast) with ⟨raw', hencode, -, hdecode'⟩
    have hidentity : ∀ s'', s''.types = s.types →
        isIdentity { op := .cast, type := type, l := v } s'' = .ok (false, s'') := by
      intro s'' hs''
      simp [isIdentity, readTable, hs'', typeEqual_comm s.types type v.type, hequal]
    rw [if_neg Bool.false_ne_true]
    refine Emits.pure ⟨fun s'' hs'' => bind_of_ok (hidentity s'' hs''), by simp, raw', ?_, hdecode'⟩
    · simp [pureValue, hraw, castRaw, hscalar, hdecode, hcast, hencode]

theorem IntegerOperand.evalTyped_emits (h : IntegerOperand env s.symbols.length m v c a)
    (hroom : Room env s.symbols.length) (hkind : v.kind ≠ .immediate)
    (hfield : v.fieldWidth ≠ 0 → v.kind = .direct ∨ v.kind = .deref)
    (htype : type.cInteger = some t) (hplain : type.Plain) :
    Emits env b s m (evalTyped (some b) .cast v type) fun e s' m' =>
      (∀ s'', s''.types = s'.types → isImmediate e s'' = .ok (false, s'')) ∧ e.op ≠ .call ∧
        ∃ raw, pureValue env m' e = some raw ∧
          decode e.type raw = some (.int (t.convert a)) := by
  unfold evalTyped
  refine Emits.bind (h.rvalue_emits hroom hfield) ?_
  rintro w s1 m1 - - - ⟨⟨c', hw⟩, hwkind, -⟩
  exact hw.cast_emits (fun hno => hkind (hwkind.mp hno)) htype hplain

omit [HostFloat] in
theorem emitAssign_run (b : BlockId) (target : Var) (himmediate : ∀ s', s'.types = s.types →
    isImmediate e s' = .ok (false, s')) :
    ∃ s', emitAssign (some b) target e s = .ok ({ target with lvalue := false }, s') ∧
      EmitsTo b s s' [{ st := .assign, t := target, expr := e }] := by
  let st : Statement := { st := .assign, t := target, expr := e }
  let s' : EvalState := { s with
    blocks := s.blocks.modify b fun blk => { blk with code := blk.code ++ [st] } }
  have hemit : emitIr (some b) st s = .ok ((), s') := rfl
  exact ⟨s', (bind_of_ok hemit).trans (bind_of_ok (himmediate s' rfl)), ⟨rfl, le_rfl, rfl⟩⟩

/-- Code that stores the given value, as `assign_field` leaves it. -/
def StoresValue (env : RunEnv) (b : BlockId) (target : Var) (s : EvalState) (σ : RunState)
    (c : EvalM Var) (n : Int) : Prop :=
  ∃ res s' code e σ1 σ2 raw, c s = .ok (res, s') ∧
    EmitsTo b s s' (code ++ [{ st := .assign, t := target, expr := e }]) ∧
    execCode (irMachine env) code σ = some σ1 ∧ exprValue env e σ1 = some (raw, σ2) ∧
    decode e.type raw = some (.int n)

theorem IntegerSource.assignField_stores (h : IntegerSource env s.symbols.length e σ a σ')
    (hconstant : ¬ e.IsConstant) (hroom : Room env s.symbols.length)
    (hfield : target.isField = true) (htarget : target.type.cInteger = some t) :
    StoresValue env b target s σ (assignField (some b) target e) ((fieldInteger t).convert a) := by
  rcases h.cInteger with ⟨c, hc, hrange⟩
  rcases assignField_eq b hfield htarget with ⟨type, hinteger, hplain, hassign⟩
  have hpointer := (CType.isScalar_of_cInteger hinteger).2.2.2.2
  have hpointer' := (CType.isScalar_of_cInteger hc).2.2.2.2
  rcases typeEqual_of_ref s.types (Or.inl (hplain.ref hpointer) : type.ref = 0 ∨ e.type.ref = 0)
    with ⟨equal, hequal⟩
  have himmediate : isImmediate e = pure false :=
    h.testable.isImmediate_eq.trans (congrArg pure (decide_eq_false hconstant))
  have hread : readTable (typeEqual · type e.type) s = .ok (equal, s) := by
    simp [readTable, hequal]
  have hrun : assignField (some b) target e s = (if equal then emitAssign (some b) target e
      else (eval (some b) e >>= fun val => evalTyped (some b) .cast val type) >>=
        emitAssign (some b) target) s := by
    rw [hassign, himmediate, pure_bind]
    exact bind_of_ok hread
  cases equal with
  | true =>
    -- The value has the type already.
    have hlike : type.Like e.type := CType.Like.of_typeEqual hequal hpointer hpointer'
    have hsame : (fieldInteger t).convert a = a := by
      have hword := hlike.wordType
      rw [CType.wordType_of_cInteger hinteger, CType.wordType_of_cInteger hc,
        Option.some.injEq] at hword
      rw [hword, CInteger.convert_of_inRange hrange]
    rcases emitAssign_run b target (s := s) fun s' _ => congrFun himmediate s' with
      ⟨s', hend, hemit⟩
    rcases h.pending.value with ⟨raw, hraw, hdecode⟩
    exact ⟨_, s', [], e, σ, σ', raw, hrun.trans hend, hemit, rfl, hraw, hsame.symm ▸ hdecode⟩
  | false =>
    rcases h.eval_bind (b := b) hconstant hc hroom fun w s1 m hle _ _ hw hkind hwfield =>
        hw.evalTyped_emits (hroom.mono hle) hkind hwfield hinteger hplain with
      ⟨e', s1, code, m, hok, hemit, hexec, himm, hcall, raw, hraw, hdecode⟩
    rcases emitAssign_run b target himm with ⟨s', hend, hemit'⟩
    refine ⟨_, s', code, e', _, { σ' with mem := m }, raw,
      hrun.trans ((bind_of_ok hok).trans hend), hemit.trans hemit', hexec, ?_, hdecode⟩
    rw [exprValue, if_neg hcall, hraw]
    rfl

/-- Code that stores a constant with the given word, which is the result too. -/
def StoresConstant (b : BlockId) (target : Var) (s : EvalState) (c : EvalM Var)
    (word : BitVec 64) : Prop :=
  ∃ res s', c s = .ok (res, s') ∧
    EmitsTo b s s' [{ st := .assign, t := target, expr := asExpr res }] ∧
    res.kind = .immediate ∧ res.imm.lo = word

theorem assignField_constant (hv : v.kind = .immediate) (hfield : target.isField = true)
    (htarget : target.type.cInteger = some t) :
    StoresConstant b target s (assignField (some b) target (asExpr v))
      (maskField target v.imm).lo := by
  rcases assignField_eq b hfield htarget with ⟨type, -, -, hassign⟩
  have himmediate : ∀ u : Var, u.kind = .immediate → isImmediate (asExpr u) = pure true := by
    intro u hu
    rw [isImmediate, isIdentity_asExpr, pure_bind]
    simp [asExpr, hu]
  let res : Var := { v with imm := maskField target v.imm, type := type }
  let st : Statement := { st := .assign, t := target, expr := asExpr res }
  let s' : EvalState := { s with
    blocks := s.blocks.modify b fun blk => { blk with code := blk.code ++ [st] } }
  have hemit : emitIr (some b) st s = .ok ((), s') := rfl
  refine ⟨res, s', ?_, ⟨rfl, le_rfl, rfl⟩, hv, rfl⟩
  rw [hassign, himmediate v hv, pure_bind, if_pos rfl]
  exact (bind_of_ok hemit).trans (bind_of_ok (congrFun (himmediate res hv) s'))

theorem evalBool_constant (hv : IsInteger v c a) :
    ∃ w c', evalBool (some b) (asExpr v) = pure (asExpr w) ∧
      IsInteger w c' (CInteger.bool.convert a) := by
  by_cases hbool : v.type.isBool = true
  · have hsame : c = .bool := by
      have hkind := (CType.cInteger_eq_some_iff.mp hv.type).1
      rw [CType.isBool, decide_eq_true_eq, hkind] at hbool
      cases c <;> first | rfl | cases hbool
    subst hsame
    refine ⟨v, .bool, if_pos hbool, ?_⟩
    rwa [CInteger.convert_of_inRange hv.inRange]
  · have hzero : rvalue (some b) longZero = pure longZero := rvalue_of_scalar (some b) rfl rfl rfl
    rcases CType.isScalar_of_cInteger hv.type with ⟨-, hfunction, harray, -, -⟩
    have hrvalue : rvalue (some b) v = pure v :=
      rvalue_of_scalar (some b) (by simp [Var.isField, hv.fieldWidth]) hfunction harray
    rcases equality_spec .ne (some b) isInteger_longZero hv rfl with ⟨p, hfold, hvalue⟩
    have hp : CInteger.ofBool p = CInteger.bool.convert a := by
      rw [convert_bool_eq, ← decide_eq_decide.mpr (longZero_ne_iff hv.inRange)]
      exact (Option.some.inj hvalue).symm
    refine ⟨varInt (CInteger.ofBool p), .int, ?_, hp ▸ isInteger_ofBool p⟩
    have himm : immSigned basicTypeLong 0 = (pure longZero : EvalM Var) := rfl
    have htype : (asExpr v).type = v.type := rfl
    unfold evalBool
    rw [htype, if_neg hbool, eval_asExpr, pure_bind, himm, pure_bind]
    unfold evalBinary
    rw [hzero, pure_bind, hrvalue, pure_bind]
    exact hfold

end Conversion

/-! ## Every assignment -/

/-- The value that a target of the given type gets: a truth value for `_Bool`. -/
def fieldSource (t : CInteger) (a : Int) : Int := if t = .bool then CInteger.bool.convert a else a

/-- The low bits in the emitted assignment are those of the source, and a constant is returned as
the field will be read. -/
def AssignsField [HostFloat] (env : RunEnv) (b : BlockId) (target : Var) (t : CInteger)
    (e : Expression) (a : Int) (s : EvalState) (σ : RunState) : Prop :=
  if e.IsConstant then
    ∃ word, StoresConstant b target s (evalAssign (some b) target e) word ∧
      (word.toNat : Int) % 2 ^ target.fieldWidth = fieldSource t a % 2 ^ target.fieldWidth ∧
      word = BitVec.ofInt 64
        (fieldExtend target.type.isSigned target.fieldWidth (fieldSource t a))
  else
    ∃ n, StoresValue env b target s σ (evalAssign (some b) target e) n ∧
      n % 2 ^ target.fieldWidth = fieldSource t a % 2 ^ target.fieldWidth

/-- The sources whose low bits are kept.  A constant needs a mask, and a character field that is
assigned at run time gets a truth value. -/
def FieldKept (t : CInteger) (w : Nat) (e : Expression) (a : Int) : Prop :=
  if e.IsConstant then w = 64 → a = 0
  else t = .char ∨ t = .uchar → CInteger.bool.convert a % 2 ^ w = a % 2 ^ w

section Assignment

variable [HostFloat] {env : RunEnv} {b : BlockId} {s : EvalState} {e : Expression}
  {v target : Var} {σ σ' : RunState} {c t : CInteger} {a : Int}

theorem evalAssign_field_eq (he : Testable e) (hlvalue : target.lvalue = true)
    (htarget : target.type.cInteger = some t) :
    evalAssign (some b) target e =
      ((decaySource b e >>= fun e =>
        if target.type.isBool then evalBool (some b) e else pure e) >>=
        assignValue (some b) target) := by
  rcases CType.isScalar_of_cInteger htarget with ⟨-, -, harray, -, -⟩
  unfold evalAssign decaySource
  simp only [hlvalue, harray, he.isIdentity_eq, Bool.not_true, Bool.false_eq_true, if_false,
    pure_bind, decide_eq_true_eq]
  by_cases hsame : e = asExpr e.l
  · cases target.type.isBool <;> simp only [if_pos hsame, bind_assoc, pure_bind, Bool.false_eq_true,
      if_false, if_true]
  · cases target.type.isBool <;> simp only [if_neg hsame, pure_bind, Bool.false_eq_true, if_false,
      if_true]

theorem assignValue_field (hfield : target.isField = true)
    (htarget : target.type.cInteger = some t) (he : e.type.isInteger = true) :
    assignValue (some b) target e = assignField (some b) target e := by
  rcases CType.isScalar_of_cInteger htarget with ⟨-, -, -, -, hpointer⟩
  have harith := (CType.isReal_of_isInteger (CType.isInteger_of_cInteger htarget)).1
  unfold assignValue
  simp only [hpointer, harith, (CType.isReal_of_isInteger he).1, hfield, Bool.false_eq_true,
    if_false, Bool.and_self, if_true]

omit [HostFloat] in
theorem isBool_of_cInteger {type : CType} (h : type.cInteger = some t) :
    type.isBool = decide (t = .bool) := by
  rw [CType.isBool, (CType.cInteger_eq_some_iff.mp h).1]
  cases t <;> rfl

theorem IntegerSource.evalAssign_stores (h : IntegerSource env s.symbols.length e σ a σ')
    (hconstant : ¬ e.IsConstant) (hroom : Room env s.symbols.length)
    (hlvalue : target.lvalue = true) (hfield : target.isField = true)
    (htarget : target.type.cInteger = some t) :
    StoresValue env b target s σ (evalAssign (some b) target e)
      ((fieldInteger t).convert (fieldSource t a)) := by
  have hbool := isBool_of_cInteger htarget
  have hleaves : LeavesSource env b s σ
      (decaySource b e >>= fun e => if target.type.isBool then evalBool (some b) e else pure e)
      (fieldSource t a) := by
    refine (h.rvalue_leaves hconstant hroom).bind ?_
    intro e' s' σ1 σ2 hle hsource hconstant'
    rw [hbool, fieldSource]
    by_cases ht : t = .bool
    · simp only [ht, decide_true, if_true]
      exact hsource.evalBool_leaves hconstant' (hroom.mono hle)
    · simp only [ht, decide_false, Bool.false_eq_true, if_false]
      exact hsource.leaves hconstant'
  rcases hleaves with ⟨e', s1, code, σ1, σ2, hok, hemit, hrun, hsource, hconstant'⟩
  rcases hsource.assignField_stores (b := b) hconstant' (hroom.mono hemit.symbols) hfield htarget
    with ⟨res, s2, code', e'', σ3, σ4, raw, hok', hemit', hrun', hraw, hdecode⟩
  refine ⟨res, s2, code ++ code', e'', σ3, σ4, raw, ?_, ?_, ?_, hraw, hdecode⟩
  · rw [evalAssign_field_eq h.testable hlvalue htarget, bind_of_ok hok,
      assignValue_field hfield htarget hsource.integer]
    exact hok'
  · rw [List.append_assoc]
    exact hemit.trans hemit'
  · rw [execCode_append, hrun]
    exact hrun'

theorem evalAssign_constant (hv : IsInteger v c a) (he : Testable (asExpr v))
    (hlvalue : target.lvalue = true) (hfield : target.isField = true)
    (htarget : target.type.cInteger = some t) :
    ∃ imm : Value, imm.lo = BitVec.ofInt 64 (fieldSource t a) ∧
      StoresConstant b target s (evalAssign (some b) target (asExpr v))
        (maskField target imm).lo := by
  rcases CType.isScalar_of_cInteger hv.type with ⟨-, hfunction, harray, -, -⟩
  have hrvalue : rvalue (some b) v = pure v :=
    rvalue_of_scalar (some b) (by simp [Var.isField, hv.fieldWidth]) hfunction harray
  have hleft : ∃ w c', (if target.type.isBool then evalBool (some b) (asExpr v)
      else pure (asExpr v)) = (pure (asExpr w) : EvalM Expression) ∧
        IsInteger w c' (fieldSource t a) := by
    rw [isBool_of_cInteger htarget, fieldSource]
    by_cases ht : t = .bool
    · simp only [ht, decide_true, if_true]
      exact evalBool_constant hv
    · simp only [ht, decide_false, Bool.false_eq_true, if_false]
      exact ⟨v, c, rfl, hv⟩
  rcases hleft with ⟨w, c', hw, hint⟩
  refine ⟨w.imm, hint.word, ?_⟩
  have hl : (asExpr v).l = v := rfl
  rw [evalAssign_field_eq he hlvalue htarget, decaySource, hl, if_pos rfl, hrvalue, pure_bind,
    pure_bind, hw, pure_bind,
    assignValue_field hfield htarget (CType.isInteger_of_cInteger hint.type)]
  exact assignField_constant hint.kind hfield htarget

omit [HostFloat] in
theorem StoresConstant.unique {r : EvalM Var} {word word' : BitVec 64}
    (h : StoresConstant b target s r word) (h' : StoresConstant b target s r word') :
    word = word' := by
  rcases h with ⟨res, s1, hok, -, -, hword⟩
  rcases h' with ⟨res', s1', hok', -, -, hword'⟩
  rw [hok] at hok'
  cases hok'
  exact hword.symm.trans hword'

theorem StoresValue.unique {r : EvalM Var} {n n' : Int} {blk : Block}
    (hblk : s.blocks[b]? = some blk) (h : StoresValue env b target s σ r n)
    (h' : StoresValue env b target s σ r n') : n = n' := by
  rcases h with ⟨res, s1, code, e, σ1, σ2, raw, hok, hemit, hrun, hraw, hdecode⟩
  rcases h' with ⟨res', s1', code', e', σ1', σ2', raw', hok', hemit', hrun', hraw', hdecode'⟩
  rw [hok] at hok'
  cases hok'
  have hcode : code ++ [{ st := .assign, t := target, expr := e }] =
      code' ++ [{ st := .assign, t := target, expr := e' }] := by
    have hblock := congrArg (·[b]?) (hemit.blocks.symm.trans hemit'.blocks)
    simpa [hblk] using hblock
  rcases List.append_inj' hcode rfl with ⟨hsame, hlast⟩
  subst hsame
  cases hlast
  rw [hrun] at hrun'
  cases hrun'
  rw [hraw] at hraw'
  cases hraw'
  rw [hdecode] at hdecode'
  cases hdecode'
  rfl

omit [HostFloat] in
theorem toNat_ofInt_emod {w : Nat} (hw : w ≤ 64) (n : Int) :
    ((BitVec.ofInt 64 n).toNat : Int) % 2 ^ w = n % 2 ^ w := by
  rw [BitVec.toNat_ofInt, Int.toNat_of_nonneg (Int.emod_nonneg n (by decide))]
  exact Int.emod_emod_of_dvd n (by exact_mod_cast pow_dvd_pow 2 hw)

omit [HostFloat] in
theorem convert_fieldInteger_iff {w : Nat} (hw : w ≤ t.format.width) (a : Int) :
    (fieldInteger t).convert (fieldSource t a) % 2 ^ w = fieldSource t a % 2 ^ w ↔
      (t = .char ∨ t = .uchar → CInteger.bool.convert a % 2 ^ w = a % 2 ^ w) := by
  have hwrap : ∀ f : IntFormat, w ≤ f.width → f.wrap a % 2 ^ w = a % 2 ^ w := by
    intro f hf
    have hdvd : (2 : Int) ^ w ∣ 2 ^ f.width := pow_dvd_pow 2 hf
    rw [← Int.emod_emod_of_dvd _ hdvd, IntFormat.wrap_emod_width, Int.emod_emod_of_dvd _ hdvd]
  cases t with
  | bool =>
    have hinRange := CInteger.inRange_convert .bool a
    simp only [fieldInteger, fieldSource, if_true, CInteger.convert_of_inRange hinRange]
    simp
  | char | uchar => simp [fieldInteger, fieldSource]
  | short | ushort =>
    simpa [fieldInteger, fieldSource, CInteger.convert] using hwrap CInteger.short.format hw
  | int | uint =>
    simpa [fieldInteger, fieldSource, CInteger.convert] using hwrap CInteger.int.format hw
  | long | ulong =>
    simpa [fieldInteger, fieldSource, CInteger.convert] using hwrap CInteger.long.format hw

omit [HostFloat] in
theorem maskField_iff {imm : Value} (hpos : 0 < target.fieldWidth) (hw : target.fieldWidth ≤ 64)
    (hlo : imm.lo = BitVec.ofInt 64 a) (ha : c.format.InRange a) :
    (((maskField target imm).lo.toNat : Int) % 2 ^ target.fieldWidth = a % 2 ^ target.fieldWidth ∧
        (maskField target imm).lo =
          BitVec.ofInt 64 (fieldExtend target.type.isSigned target.fieldWidth a)) ↔
      (target.fieldWidth = 64 → a = 0) := by
  by_cases hlt : target.fieldWidth < 64
  · refine iff_of_true ?_ fun hno => absurd hno hlt.ne
    rw [maskField_eq hpos hlt hlo, toNat_ofInt_emod hw, fieldExtend_emod]
    exact ⟨rfl, rfl⟩
  · have hword : target.fieldWidth = 64 := by omega
    rw [maskField_word hword, hword]
    constructor
    · rintro ⟨hmod, -⟩ -
      by_contra hne
      refine ofInt_ne_zero ha hne (BitVec.eq_of_toNat_eq ?_)
      have hzero : a % 2 ^ 64 = 0 := hmod.symm
      have hcast : ((2 ^ 64 : Nat) : Int) = 2 ^ 64 := by norm_num
      rw [BitVec.toNat_ofInt, hcast, hzero]
      rfl
    · intro hzero
      rw [hzero rfl]
      cases target.type.isSigned <;> decide

/-- An assignment to a bit-field keeps the low bits of its source, unless a constant is assigned
to a field of 64 bits or a character field gets a value at run time. -/
theorem assignsField_iff {blk : Block} (hblk : s.blocks[b]? = some blk)
    (hroom : Room env s.symbols.length) (hlvalue : target.lvalue = true)
    (hfield : target.isField = true) (htarget : target.type.cInteger = some t)
    (hwidth : target.fieldWidth ≤ t.format.width)
    (h : IntegerSource env s.symbols.length e σ a σ') :
    AssignsField env b target t e a s σ ↔ FieldKept t target.fieldWidth e a := by
  by_cases hconstant : e.IsConstant
  · rw [AssignsField, if_pos hconstant, FieldKept, if_pos hconstant]
    rcases h.cInteger with ⟨c, hc, hrange⟩
    rcases h.pending.operand h.testable h.notString hconstant.1 with ⟨-, hoperand⟩
    have htype : e.l.type.cInteger = some c := by rwa [hconstant.1] at hc
    have hv : IsInteger e.l c a := (hoperand.integer htype).1.immediate hconstant.2
    have htestable : Testable (asExpr e.l) := hconstant.1 ▸ h.testable
    rcases evalAssign_constant (b := b) (s := s) hv htestable hlvalue hfield htarget with
      ⟨imm, hlo, hstores⟩
    rw [← hconstant.1] at hstores
    have hpos : 0 < target.fieldWidth := by
      simp only [Var.isField, decide_eq_true_eq, ne_eq] at hfield
      omega
    have hle : target.fieldWidth ≤ 64 := hwidth.trans t.format.width_le
    have hkept : (target.fieldWidth = 64 → fieldSource t a = 0) ↔
        (target.fieldWidth = 64 → a = 0) := by
      by_cases ht : t = .bool
      · subst ht
        have hone : target.fieldWidth ≤ 1 := hwidth
        exact iff_of_true (fun hno => by omega) fun hno => by omega
      · rw [fieldSource, if_neg ht]
    have hsource : ∃ c : CInteger, c.format.InRange (fieldSource t a) := by
      unfold fieldSource
      split
      · exact ⟨.bool, CInteger.inRange_convert .bool a⟩
      · exact ⟨c, hrange⟩
    rcases hsource with ⟨c', hc'⟩
    rw [← hkept, ← maskField_iff hpos hle hlo hc']
    constructor
    · rintro ⟨word, hword, hproperty⟩
      rwa [← hword.unique hstores]
    · intro hproperty
      exact ⟨_, hstores, hproperty⟩
  · rw [AssignsField, if_neg hconstant, FieldKept, if_neg hconstant,
      ← convert_fieldInteger_iff hwidth a]
    have hstores := h.evalAssign_stores (b := b) hconstant hroom hlvalue hfield htarget
    constructor
    · rintro ⟨n, hn, hmod⟩
      rwa [← hn.unique hblk hstores]
    · intro hmod
      exact ⟨_, hstores, hmod⟩

end Assignment

/-- A structure with one field. -/
def fieldSymbol : Symbol := { id := 1, name := "s", type := { type := .struct, ref := 1 } }

/-- A block that is being filled, with a variable and a structure. -/
def fieldState : EvalState :=
  { types := [], symbols := [intSymbol, fieldSymbol], locals := [0, 1], blocks := [{}] }

/-- The variable holds two. -/
def twoState : RunState := { mem := Memory.store (fun _ => 0) (spacedEnv.addr 0) 4 2 }

/-- A field of four bits. -/
def fourBits (type : CType) : Var :=
  { kind := .direct, type := type, symbol := some fieldSymbol, fieldWidth := 4, lvalue := true }

theorem source_intSymbol :
    @IntegerSource HostFloat.zero spacedEnv 2 (asExpr (varDirect intSymbol)) twoState 2 twoState ∧
      ¬ (asExpr (varDirect intSymbol)).IsConstant := by
  let _ := HostFloat.zero
  have hstands : StandsFor spacedEnv 1 twoState.mem (varDirect intSymbol) (.int 2) :=
    standsFor_intSymbol (by decide)
  have hlater := hstands.mono one_le_two (AgreeBelow.refl spacedEnv 1 twoState.mem)
  exact (hlater.operand rfl).source (by decide) fun hno => absurd rfl hno

/-- A field of type `short` gets the variable. -/
theorem assignsField_short :
    @AssignsField HostFloat.zero spacedEnv 0 (fourBits basicTypeShort) .short
      (asExpr (varDirect intSymbol)) 2 fieldState twoState :=
  (@assignsField_iff HostFloat.zero spacedEnv 0 fieldState (asExpr (varDirect intSymbol))
    (fourBits basicTypeShort) twoState twoState .short 2 {} rfl (room_spacedEnv 2) rfl rfl rfl
    (by decide) source_intSymbol.1).mpr (by
      rw [FieldKept, if_neg source_intSymbol.2]
      decide)

/-- A character field gets whether the variable is not zero. -/
theorem not_assignsField_char :
    ¬ @AssignsField HostFloat.zero spacedEnv 0 (fourBits basicTypeChar) .char
      (asExpr (varDirect intSymbol)) 2 fieldState twoState := by
  let _ := HostFloat.zero
  have hstores : StoresValue spacedEnv 0 (fourBits basicTypeChar) fieldState twoState
      (evalAssign (some 0) (fourBits basicTypeChar) (asExpr (varDirect intSymbol)))
      ((fieldInteger .char).convert (fieldSource .char 2)) :=
    source_intSymbol.1.evalAssign_stores source_intSymbol.2 (room_spacedEnv 2) rfl rfl rfl
  have hblk : fieldState.blocks[0]? = some ({} : Block) := rfl
  rw [AssignsField, if_neg source_intSymbol.2]
  rintro ⟨n, hn, hmod⟩
  rw [hn.unique hblk hstores] at hmod
  exact absurd hmod (by decide)

end Kcs
