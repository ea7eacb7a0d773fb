import Kcs.Eval.RunOperators

/-!
# Pointer arithmetic

`add` and `sub` of a pointer and an integer.  Strings and addresses are shifted by their offset,
constants by their number, and for all other operands code is emitted that scales the integer and
adds it.

Main results:

- Theorem {lit}`addSub_scales_iff`: the result is the shifted pointer, but for the sum of a
  dereferenced constant address and a constant.
-/

namespace Kcs

open CType
open Option hiding bind_assoc

/-! ## Integer operands -/

/-- An integer operand with its value, whatever later temporaries hold.  It may be a bit-field. -/
structure IntegerOperand (env : RunEnv) (n : Nat) (m : Memory) (v : Var) (c : CInteger) (k : Int) :
    Prop where
  type : v.type.cInteger = some c
  plain : v.type.Plain
  inRange : c.format.InRange k
  immediate : v.kind = .immediate → IsInteger v c k
  stored : v.kind ≠ .immediate → ∀ m', AgreeBelow env n m m' →
    ∃ raw, operandValue env m' v = some raw ∧ decode v.type raw = some (.int k)

section IntegerOperands

variable {env : RunEnv} {n n' : Nat} {b : BlockId} {s : EvalState} {m m' : Memory} {v l r : Var}
  {c c1 c2 : CInteger} {a k : Int} {type : CType}

theorem IntegerOperand.mono (h : IntegerOperand env n m v c k) (hle : n ≤ n')
    (hm : AgreeBelow env n m m') : IntegerOperand env n' m' v c k where
  type := h.type
  plain := h.plain
  inRange := h.inRange
  immediate := h.immediate
  stored := fun hkind m'' hm'' => h.stored hkind m'' (hm.trans hle hm'')

theorem IntegerOperand.hasType (h : IntegerOperand env n m v c k) :
    (Scalar.int k).HasType v.type :=
  ⟨c, wordType_of_cInteger h.type, h.inRange⟩

theorem IsInteger.operand (h : IsInteger v c k) (hplain : v.type.Plain) :
    IntegerOperand env n m v c k where
  type := h.type
  plain := hplain
  inRange := h.inRange
  immediate := fun _ => h
  stored := fun hne => absurd h.kind hne

theorem StandsFor.operand (h : StandsFor env n m v (.int k)) (htype : v.type.cInteger = some c) :
    IntegerOperand env n m v c k where
  type := htype
  plain := h.plain
  inRange := by
    rcases h.hasType with ⟨c', hword, hrange⟩
    rw [wordType_of_cInteger htype, some.injEq] at hword
    exact hword ▸ hrange
  immediate := fun hkind => h.isInteger htype hkind
  stored := h.stored

theorem IntegerOperand.operandValue_eq (h : IntegerOperand env n m v c k) :
    ∃ raw, operandValue env m v = some raw ∧ decode v.type raw = some (.int k) := by
  by_cases hkind : v.kind = .immediate
  · exact ((h.immediate hkind).standsFor (n := n) h.plain).operandValue_eq
  · exact h.stored hkind m (AgreeBelow.refl env n m)

theorem readTable_scalarSize {t : CType} (ht : t.isScalar = true) :
    readTable (sizeOf · t) = (pure t.scalarSize : EvalM Nat) := by
  funext s
  simp only [readTable, sizeOf_of_isScalar ht]
  rfl

variable [HostFloat]

/-- The conversion of an integer operand to an integer type. -/
theorem IntegerOperand.evalCast_emits (h : IntegerOperand env s.symbols.length m v c1 k)
    (hroom : Room env s.symbols.length) (htype : type.cInteger = some c2) (hplain : type.Plain) :
    Emits env b s m (evalCast (some b) v type) fun w s' m' =>
      IntegerOperand env s'.symbols.length m' w c2 (c2.convert k) ∧
        (w.kind = .immediate ↔ v.kind = .immediate) ∧ w.type.Like type ∧
        (w = v ∨ w.fieldWidth = 0) := by
  by_cases hkind : v.kind = .immediate
  · rcases evalCast_spec (some b) (h.immediate hkind) htype with ⟨w, hw, hwtype, hint⟩
    rw [hw]
    exact Emits.pure ⟨hint.operand (hwtype ▸ hplain), by simp [hint.kind, hkind],
      hwtype ▸ Like.refl type, Or.inr hint.fieldWidth⟩
  rcases isScalar_of_cInteger h.type with ⟨hscalar, -, -, -, hpointer⟩
  rcases isScalar_of_cInteger htype with ⟨hscalar', -, -, hvoid, hpointer'⟩
  have href : v.type.ref = 0 ∨ type.ref = 0 := Or.inr (hplain.ref hpointer')
  rcases typeEqual_of_ref s.types href with ⟨equal, hequal⟩
  have hcast : castScalar v.type type (.int k) = some (.int (c2.convert k)) := by
    simp only [castScalar, wordType_of_cInteger htype]
  unfold evalCast cast
  simp only [hvoid, hscalar, hscalar', hkind, hpointer, hpointer', readTable_scalarSize, Bool.not_true,
    Bool.or_self, Bool.false_eq_true, Bool.and_false, if_false, pure_bind, bind_assoc]
  refine Emits.bindTable hequal ?_
  cases equal with
  | true =>
    have hlike : v.type.Like type := Like.of_typeEqual hequal hpointer hpointer'
    have hsame : c2.convert k = k := by
      have hscalars := castScalar_like h.hasType hlike
      rw [hcast] at hscalars
      simpa using hscalars
    have hc : c1 = c2 := by
      have hword := hlike.wordType
      rw [wordType_of_cInteger h.type, wordType_of_cInteger htype] at hword
      exact some.inj hword
    rw [if_pos rfl, pure_bind, eval_asExpr, hsame]
    exact Emits.pure ⟨hc ▸ h, by simp [hkind], hlike, Or.inl rfl⟩
  | false =>
    rw [if_neg Bool.false_ne_true, pure_bind]
    rcases h.operandValue_eq with ⟨raw, hraw, hdecode⟩
    have hy := castScalar_hasType hcast
    rcases decode_encode hy with ⟨raw', hencode, hlt, hdecode'⟩
    have hidentity : isIdentity { op := .cast, type := type, l := v } s = .ok (false, s) := by
      simp [isIdentity, readTable, typeEqual_comm s.types type v.type, hequal]
    have hvalue : pureValue env m { op := .cast, type := type, l := v } = some raw' := by
      simp [pureValue, hraw, castRaw, hscalar, hdecode, hcast, hencode]
    refine Emits.mono (eval_emits (y := .int (c2.convert k)) hroom hidentity (by simp) hplain hy
      hvalue hlt hdecode') ?_
    rintro w s' m' ⟨hstands, hwtype, hwkind⟩
    exact ⟨hstands.operand (hwtype ▸ htype), by simp [hwkind], hwtype ▸ Like.refl type,
      Or.inr hstands.fieldWidth⟩

theorem IntegerOperand.createExpr_value (op : OpType) (hop : op.binaryOp ≠ none)
    (hl : IntegerOperand env n m l c1 a) (hr : IntegerOperand env n m r c2 k) :
    pureValue env m (createExpr op l r) =
      (binaryScalar op l.type (.int a) (.int k)).bind (encode (createExpr op l r).type) := by
  rcases hl.operandValue_eq with ⟨rawl, hrawl, hdecl⟩
  rcases hr.operandValue_eq with ⟨rawr, hrawr, hdecr⟩
  cases op <;> first
    | exact absurd rfl hop
    | simp [pureValue, createExpr, hrawl, hrawr, hdecl, hdecr]

theorem IntegerOperand.mul_emits (hl : IntegerOperand env s.symbols.length m l c1 a)
    (hr : IntegerOperand env s.symbols.length m r c2 k) (hroom : Room env s.symbols.length) :
    Emits env b s m (mul (some b) l r) (Computes env (l.type.common r.type)
      (some (.int ((CInteger.common c1 c2).format.wrap
        ((CInteger.common c1 c2).convert a * (CInteger.common c1 c2).convert k))))) := by
  have hi1 := isInteger_of_cInteger hl.type
  have hi2 := isInteger_of_cInteger hr.type
  have hcommon := cInteger_common hl.type hr.type
  have hplain := plain_common hi1 hi2 hl.plain hr.plain
  by_cases hkinds : l.kind = .immediate ∧ r.kind = .immediate
  · rcases arithmetic_spec .mul (some b) (hl.immediate hkinds.1) (hr.immediate hkinds.2) rfl rfl with
      ⟨w, hw, hwtype, hint⟩
    have hfold : mul (some b) l r = pure (asExpr w) := hw
    rw [hfold]
    have hstands : StandsFor env s.symbols.length m w _ := hint.standsFor (hwtype ▸ hplain)
    exact Emits.pure (hwtype ▸ hstands.computes)
  · unfold mul arithmetic convertOperands
    simp only [readTable_common hl.type hr.type, bind_assoc, pure_bind]
    refine Emits.bind (hl.evalCast_emits hroom hcommon hplain) ?_
    rintro l' s1 m1 hle1 - hagree1 ⟨hl', hlkind, hllike, -⟩
    refine Emits.bind ((hr.mono hle1 hagree1).evalCast_emits (hroom.mono hle1) hcommon hplain) ?_
    rintro r' s2 m2 hle2 - hagree2 ⟨hr', hrkind, -⟩
    have hnot : bothImmediate l' r' = false := by
      rw [bothImmediate, Bool.and_eq_false_iff, decide_eq_false_iff_not, decide_eq_false_iff_not,
        hlkind, hrkind]
      tauto
    rw [hnot, if_neg Bool.false_ne_true]
    refine Emits.pure ?_
    have hl2 := hl'.mono hle2 hagree2
    have hvalue := IntegerOperand.createExpr_value .mul (by simp [OpType.binaryOp]) hl2 hr'
    have hscalar : binaryScalar .mul l'.type (.int ((CInteger.common c1 c2).convert a))
        (.int ((CInteger.common c1 c2).convert k)) =
        some (.int ((CInteger.common c1 c2).format.wrap
          ((CInteger.common c1 c2).convert a * (CInteger.common c1 c2).convert k))) := by
      simp [binaryScalar, wordType_of_cInteger hl'.type, OpType.binaryOp, CInteger.binary]
    rw [hscalar] at hvalue
    refine ⟨hllike, hl2.plain, ?_, hvalue, Or.inr ⟨by simp [createExpr], by simp [createExpr]⟩⟩
    rintro w hw
    rw [← some.inj hw]
    exact ⟨_, wordType_of_cInteger hl'.type, IntFormat.inRange_wrap _⟩

end IntegerOperands

/-! ## Words -/

section Words

variable {c : CInteger} {t : CType} {a : Nat} {k : Int}

/-- The address behind a number of bytes, modulo two to the 64. -/
def shiftAddress (a : Nat) (d : Int) : Nat := (((a : Int) + d) % 2 ^ 64).toNat

theorem shiftAddress_eq (a : Nat) (d : Int) :
    shiftAddress a d = (BitVec.ofNat 64 a + BitVec.ofInt 64 d).toNat := by
  have hsum : BitVec.ofNat 64 a + BitVec.ofInt 64 d = BitVec.ofInt 64 (a + d) := by
    rw [BitVec.ofInt_add, BitVec.ofInt_natCast]
  rw [hsum, BitVec.toNat_ofInt]
  rfl

theorem shiftAddress_lt (a : Nat) (d : Int) : shiftAddress a d < 2 ^ 64 := by
  rw [shiftAddress_eq]
  exact BitVec.isLt _

theorem ofInt_wrap (hc : c.format.width = 64) (k : Int) :
    BitVec.ofInt 64 (c.format.wrap k) = BitVec.ofInt 64 k := by
  rcases CInteger.eq_of_width hc with rfl | rfl
  · exact BitVec.ofInt_toInt
  · exact (BitVec.ofInt_natCast 64 _).trans (BitVec.ofNat_toNat 64 _)

theorem decode_address (ht : t.wordType = some c) (hc : c.format.width = 64) :
    ∃ k, decode t a = some (.int k) ∧ BitVec.ofInt 64 k = BitVec.ofNat 64 a := by
  rcases CInteger.eq_of_width hc with rfl | rfl
  · refine ⟨_, by simp only [decode, ht]; rfl, ?_⟩
    exact BitVec.ofInt_toInt
  · refine ⟨_, by simp only [decode, ht]; rfl, ?_⟩
    exact (BitVec.ofInt_natCast 64 _).trans (BitVec.ofNat_toNat 64 _)

theorem encode_word (ht : t.wordType = some c) (hc : c.format.width = 64) (k : Int) :
    encode t (.int k) = some (BitVec.ofInt 64 k).toNat := by
  rcases CInteger.eq_of_width hc with rfl | rfl
  · simp only [encode, ht]
    rfl
  · simp only [encode, ht]
    rfl

theorem CType.typeOf_of_isPointerType (h : t.isPointerType = true) : t.typeOf = .pointer := by
  simpa [CType.isPointerType] using h

theorem CType.isScalar_of_isPointerType (h : t.isPointerType = true) :
    t.isScalar = true ∧ t.isFunction = false ∧ t.isArray = false ∧ t.isVoid = false ∧
      t.isInteger = false ∧ t.isArithmetic = false := by
  have hkind := typeOf_of_isPointerType h
  unfold CType.isScalar CType.isFunction CType.isArray CType.isVoid CType.isInteger
    CType.isArithmetic
  rw [hkind]
  decide

theorem CType.wordType_of_isPointerType (h : t.isPointerType = true) :
    t.wordType = some .ulong := by
  rw [CType.wordType, if_pos h]

theorem CType.scalarSize_of_isPointerType (h : t.isPointerType = true) : t.scalarSize = 8 := by
  rw [CType.scalarSize, typeOf_of_isPointerType h]

end Words

/-! ## Pointer operands -/

/-- `char *` -/
def charPointer : CType := { type := .char, isPointer := true }

/-- A pointer operand that holds an address, whatever later temporaries hold. -/
structure PointsTo (env : RunEnv) (n : Nat) (m : Memory) (v : Var) (a : Nat) : Prop where
  pointer : v.type.isPointerType = true
  fieldWidth : v.fieldWidth = 0
  constant : v.kind = .immediate → v.isString = false → v.offset = 0
  value : ∀ m', AgreeBelow env n m m' → operandValue env m' v = some a

/-- The expression has the type of a pointer operand and evaluates to an address.  It is an operand
that refers to the same symbol, or can be evaluated to a temporary. -/
structure ComputesAddress [HostFloat] (env : RunEnv) (l : Var) (a : Nat) (e : Expression)
    (s : EvalState) (m : Memory) : Prop where
  type : e.type = l.type
  value : pureValue env m e = some a
  operand : (∃ v, e = asExpr v ∧ PointsTo env s.symbols.length m v a ∧ v.kind = l.kind ∧
      v.symbol = l.symbol ∧ (l.kind = .direct → v.offset = l.offset)) ∨
    (e.op ≠ .cast ∧ e.op ≠ .call)

section PointerOperands

variable {env : RunEnv} {n n' : Nat} {b : BlockId} {s : EvalState} {m m' : Memory} {v l r : Var}
  {c : CInteger} {a size : Nat} {k : Int} {type : CType}

theorem PointsTo.mono (h : PointsTo env n m v a) (hle : n ≤ n') (hm : AgreeBelow env n m m') :
    PointsTo env n' m' v a :=
  ⟨h.pointer, h.fieldWidth, h.constant, fun m'' hm'' => h.value m'' (hm.trans hle hm'')⟩

theorem PointsTo.operandValue_eq (h : PointsTo env n m v a) : operandValue env m v = some a :=
  h.value m (AgreeBelow.refl env n m)

theorem PointsTo.sizeOf_eq (h : PointsTo env n m v a) (types : TypeTable) :
    sizeOf types v.type = some 8 := by
  rw [sizeOf_of_isScalar (isScalar_of_isPointerType h.pointer).1,
    scalarSize_of_isPointerType h.pointer]

theorem PointsTo.lt (h : PointsTo env n m v a) : a < 2 ^ 64 := by
  have hvalue := h.operandValue_eq
  have hload : ∀ x, m.load x 8 < 2 ^ 64 := fun x => Memory.load_lt m x 8
  have hlocated : ∀ o : Option Nat, (o.map fun x =>
      if v.isField then readField v 8 (m.load x 8) else m.load x 8) = some a → a < 2 ^ 64 := by
    intro o ho
    rcases map_eq_some_iff.mp ho with ⟨x, -, hx⟩
    rw [if_neg (by simp [Var.isField, h.fieldWidth])] at hx
    exact hx ▸ hload x
  rw [operandValue, h.sizeOf_eq, bind_some] at hvalue
  cases hkind : v.kind with
  | immediate =>
    rw [hkind] at hvalue
    rw [← some.inj hvalue, immediateValue]
    have hpos : (0 : Nat) < 256 ^ 8 := by decide
    have harray := (isScalar_of_isPointerType h.pointer).2.2.1
    cases v.symbol with
    | none => exact Nat.mod_lt _ hpos
    | some sym =>
      simp only [harray, Bool.false_eq_true, if_false]
      split
      · exact Nat.mod_lt _ hpos
      · exact Nat.mod_lt _ hpos
  | address =>
    rw [hkind] at hvalue
    rcases map_eq_some_iff.mp hvalue with ⟨sym, -, hsym⟩
    exact hsym ▸ Nat.mod_lt _ (by decide)
  | direct =>
    rw [hkind] at hvalue
    exact hlocated _ hvalue
  | deref =>
    rw [hkind] at hvalue
    exact hlocated _ hvalue

variable [HostFloat]

theorem PointsTo.pureValue_eq (h : PointsTo env n m v a) : pureValue env m (asExpr v) = some a := by
  have hword := wordType_of_isPointerType h.pointer
  rcases decode_address (a := a) hword rfl with ⟨k, hdecode, hk⟩
  have hbits : (BitVec.ofInt 64 (CInteger.ulong.convert k)).toNat = a := by
    have hconvert : CInteger.ulong.convert k = CInteger.ulong.format.wrap k := rfl
    rw [hconvert, ofInt_wrap rfl, hk, BitVec.toNat_ofNat, Nat.mod_eq_of_lt h.lt]
  simp [pureValue, asExpr, h.operandValue_eq, castRaw,
    (isScalar_of_isPointerType h.pointer).1, hdecode, castScalar, hword,
    encode_word hword rfl, hbits]

theorem PointsTo.computes (h : PointsTo env s.symbols.length m v a) (htype : v.type = l.type)
    (hkind : v.kind = l.kind) (hsymbol : v.symbol = l.symbol)
    (hoffset : l.kind = .direct → v.offset = l.offset) :
    ComputesAddress env l a (asExpr v) s m :=
  ⟨htype, h.pureValue_eq, Or.inl ⟨v, rfl, h, hkind, hsymbol, hoffset⟩⟩

/-- The word that an operand holds, whatever later temporaries hold. -/
def HoldsWord (env : RunEnv) (n : Nat) (m : Memory) (v : Var) (a : Nat) : Prop :=
  ∀ m', AgreeBelow env n m m' → operandValue env m' v = some a

omit [HostFloat] in
theorem operandValue_constant (hkind : v.kind = .immediate) (hstring : v.isString = false)
    (hsize : sizeOf env.types v.type = some 8) :
    operandValue env m v = some v.imm.lo.toNat := by
  have hlo := v.imm.lo.isLt
  rw [operandValue, hsize, bind_some, hkind]
  show some (immediateValue env m v 8) = _
  rw [immediateValue_of_not_string hkind hstring]
  congr 1
  norm_num
  omega

omit [HostFloat] in
theorem operandValue_string (hkind : v.kind = .immediate) {sym : Symbol}
    (hsymbol : v.symbol = some sym) (hsymtype : sym.symtype = .stringValue)
    (hsize : sizeOf env.types v.type = some 8) (harray : v.type.isArray = false) :
    operandValue env m v = some ((env.addr sym.id + v.offset.toNat) % 2 ^ 64) := by
  rw [operandValue, hsize, bind_some, hkind]
  show some (immediateValue env m v 8) = _
  simp [immediateValue, hsymbol, hsymtype, harray]

omit [HostFloat] in
theorem Var.exists_symbol_of_isString (h : v.isString = true) :
    v.kind = .immediate ∧ ∃ sym, v.symbol = some sym ∧ sym.symtype = .stringValue := by
  simpa [Var.isString, any_eq_true] using h

omit [HostFloat] in
theorem PointsTo.imm_eq (h : PointsTo env n m v a) (hkind : v.kind = .immediate)
    (hstring : v.isString = false) : v.imm.lo = BitVec.ofNat 64 a := by
  have hvalue := operandValue_constant (m := m) hkind hstring (h.sizeOf_eq env.types)
  rw [h.operandValue_eq, some.injEq] at hvalue
  rw [hvalue, BitVec.ofNat_toNat, BitVec.setWidth_eq]

/-- A pointer operand as a `long`: its bits are kept. -/
theorem PointsTo.evalCast_long (h : PointsTo env s.symbols.length m v a) :
    ∃ w, evalCast (some b) v basicTypeLong = pure w ∧ w.type = basicTypeLong ∧
      HoldsWord env s.symbols.length m w a := by
  rcases isScalar_of_isPointerType h.pointer with ⟨hscalar, -, -, -⟩
  have hword := wordType_of_isPointerType h.pointer
  have hlong : basicTypeLong.isVoid = false ∧ basicTypeLong.isScalar = true ∧
      basicTypeLong.isArray = false ∧ basicTypeLong.scalarSize = 8 := by decide
  have hlongSize : sizeOf env.types basicTypeLong = some 8 := sizeOf_of_isScalar hlong.2.1
  by_cases hkind : v.kind = .immediate
  · cases hstring : v.isString with
    | true =>
      -- A string keeps its representation.
      rcases Var.exists_symbol_of_isString hstring with ⟨-, sym, hsymbol, hsymtype⟩
      refine ⟨{ v with type := basicTypeLong }, ?_, rfl, fun m' hm' => ?_⟩
      · simp [evalCast, cast, hlong, hscalar, hkind, hstring]
      · rw [← h.value m' hm', operandValue_string hkind hsymbol hsymtype (h.sizeOf_eq env.types)
          (isScalar_of_isPointerType h.pointer).2.2.1]
        exact operandValue_string (v := { v with type := basicTypeLong }) hkind hsymbol hsymtype
          hlongSize hlong.2.2.1
    | false =>
      have himm := h.imm_eq hkind hstring
      have hrange : (CInteger.format .ulong).InRange a := by
        rw [IntFormat.InRange, IntFormat.wrap_unsigned rfl]
        exact Int.emod_eq_of_lt (Int.natCast_nonneg a) (by exact_mod_cast h.lt)
      have hrepr : ImmRepr v (.int a) := ⟨.ulong, hword, hrange, himm.trans (by simp)⟩
      have hlongWord : basicTypeLong.wordType = some .long := rfl
      have hconvert : convert v.imm v.type basicTypeLong =
          some (convertInt v.imm v.type (CInteger.format .long)) := by
        rcases convert_word hlongWord (by decide) v.type with ⟨f, rfl, hconvert⟩
        exact hconvert
      have hbits := convertInt_of_repr hrepr (CInteger.format .long)
      rw [ofInt_wrap rfl] at hbits
      have hread : readTable (fun _ => convert v.imm v.type basicTypeLong) =
          (pure (convertInt v.imm v.type (CInteger.format .long)) : EvalM Value) := by
        funext s
        simp only [readTable, hconvert]
        rfl
      refine ⟨varNumeric basicTypeLong (convertInt v.imm v.type (CInteger.format .long)), ?_, rfl,
        fun m' hm' => ?_⟩
      · simp [evalCast, cast, hlong, hscalar, hkind, hstring, h.constant hkind hstring, hread]
      · have hnat := congrArg BitVec.toNat hbits
        rw [BitVec.ofInt_natCast, BitVec.toNat_ofNat, Nat.mod_eq_of_lt h.lt] at hnat
        exact (operandValue_constant rfl rfl hlongSize).trans (congrArg some hnat)
  · refine ⟨{ v with type := basicTypeLong }, ?_, rfl, fun m' hm' => ?_⟩
    · simp [evalCast, cast, hlong, hscalar, hkind, readTable_scalarSize, h.pointer,
        scalarSize_of_isPointerType h.pointer]
    · rw [← h.value m' hm']
      exact operandValue_retype hkind h.fieldWidth (hlongSize.trans (h.sizeOf_eq env.types).symm)

omit [HostFloat] in
theorem PointsTo.shiftOffset (h : PointsTo env n m v a)
    (hkind : v.isString = true ∨ v.kind = .address) (d : Int) :
    PointsTo env n m { v with offset := v.offset + BitVec.ofInt 64 d } (shiftAddress a d) := by
  have hsum : ∀ x : Nat, (x + v.offset.toNat) % 2 ^ 64 = a →
      (x + (v.offset + BitVec.ofInt 64 d).toNat) % 2 ^ 64 = shiftAddress a d := by
    intro x hx
    rw [shiftAddress_eq, ← hx, BitVec.toNat_add, BitVec.toNat_add, BitVec.toNat_ofNat]
    omega
  refine ⟨h.pointer, h.fieldWidth, ?_, fun m' hm' => ?_⟩
  · rintro himm hnot
    rcases hkind with hstring | hkind
    · exact absurd (hnot.symm.trans hstring) Bool.false_ne_true
    · exact absurd (himm.symm.trans hkind) (by decide)
  · have hvalue := h.value m' hm'
    rcases hkind with hstring | hkind
    · rcases Var.exists_symbol_of_isString hstring with ⟨hkind, sym, hsymbol, hsymtype⟩
      have harray := (isScalar_of_isPointerType h.pointer).2.2.1
      rw [operandValue_string hkind hsymbol hsymtype (h.sizeOf_eq env.types) harray,
        some.injEq] at hvalue
      have hnew := operandValue_string (m := m')
        (v := { v with offset := v.offset + BitVec.ofInt 64 d }) hkind hsymbol hsymtype
        (h.sizeOf_eq env.types) harray
      exact hnew.trans (congrArg some (hsum _ hvalue))
    · simp only [operandValue, h.sizeOf_eq, bind_some, hkind, map_eq_some_iff]
        at hvalue ⊢
      rcases hvalue with ⟨sym, hsymbol, hvalue⟩
      exact ⟨sym, hsymbol, hsum _ hvalue⟩

omit [HostFloat] in
theorem PointsTo.shiftConstant (h : PointsTo env n m v a) (hkind : v.kind = .immediate)
    (hstring : v.isString = false) (d : Int) :
    PointsTo env n m { v with imm := { v.imm with lo := v.imm.lo + BitVec.ofInt 64 d } }
      (shiftAddress a d) := by
  refine ⟨h.pointer, h.fieldWidth, fun _ _ => h.constant hkind hstring, fun m' hm' => ?_⟩
  rw [shiftAddress_eq, ← h.imm_eq hkind hstring]
  exact operandValue_constant (m := m')
    (v := { v with imm := { v.imm with lo := v.imm.lo + BitVec.ofInt 64 d } }) hkind hstring
    (h.sizeOf_eq env.types)

theorem createExpr_shift {op : OpType} {t : CType} {c c' : CInteger} {raw : Nat}
    (hop : op = .add ∨ op = .sub) (ht : t.wordType = some c) (hc : c.format.width = 64)
    (hl : operandValue env m l = some a) (hlword : l.type.wordType = some c')
    (hc' : c'.format.width = 64) (hr : operandValue env m r = some raw)
    (hdecode : decode r.type raw = some (.int k)) :
    pureValue env m { createExpr op l r with type := t } =
      some (shiftAddress a (if op = .add then k else -k)) := by
  rcases decode_address (a := a) hlword hc' with ⟨x, hx, hbits⟩
  rcases hop with rfl | rfl
  · simp only [pureValue, createExpr, hl, hr, hx, hdecode, bind_some, binaryScalar, hlword,
      OpType.binaryOp, CInteger.binary, map_some, encode_word ht hc, ofInt_wrap hc', if_true]
    rw [BitVec.ofInt_add, hbits, shiftAddress_eq]
  · simp only [pureValue, createExpr, hl, hr, hx, hdecode, bind_some, binaryScalar, hlword,
      OpType.binaryOp, CInteger.binary, map_some, encode_word ht hc, ofInt_wrap hc',
      reduceCtorEq, if_false]
    rw [Int.sub_eq_add_neg, BitVec.ofInt_add, hbits, shiftAddress_eq]

omit [HostFloat] in
theorem HoldsWord.mono (h : HoldsWord env n m v a) (hle : n ≤ n') (hm : AgreeBelow env n m m') :
    HoldsWord env n' m' v a :=
  fun m'' hm'' => h m'' (hm.trans hle hm'')

omit [HostFloat] in
theorem shiftAddress_congr {d d' : Int} (h : BitVec.ofInt 64 d = BitVec.ofInt 64 d') (a : Nat) :
    shiftAddress a d = shiftAddress a d' := by
  rw [shiftAddress_eq, shiftAddress_eq, h]

/-- The sign that an operator gives its right operand. -/
def OpType.signed (op : OpType) (d : Int) : Int := if op = .add then d else -d

omit [HostFloat] in
theorem OpType.signed_congr {op : OpType} {d d' : Int}
    (h : BitVec.ofInt 64 d = BitVec.ofInt 64 d') :
    BitVec.ofInt 64 (op.signed d) = BitVec.ofInt 64 (op.signed d') := by
  unfold OpType.signed
  split
  · exact h
  · rw [BitVec.ofInt_neg, BitVec.ofInt_neg, h]

theorem HoldsWord.shift_emits {op : OpType} {p : Var} {c1 c2 : CInteger} {d : Int}
    (hop : op = .add ∨ op = .sub) (hp : p.type.wordType = some .ulong)
    (hl : HoldsWord env s.symbols.length m l a) (hlword : l.type.wordType = some c1)
    (hc1 : c1.format.width = 64) (hr : IntegerOperand env s.symbols.length m r c2 k)
    (hd : BitVec.ofInt 64 k = BitVec.ofInt 64 d) :
    Emits env b s m (pure { createExpr op l r with type := p.type })
      (ComputesAddress env p (shiftAddress a (op.signed d))) := by
  rcases hr.operandValue_eq with ⟨raw, hraw, hdecode⟩
  have hvalue := createExpr_shift hop hp rfl (hl m (AgreeBelow.refl _ _ _)) hlword hc1 hraw hdecode
  refine Emits.pure ⟨rfl, hvalue.trans (congrArg some ?_), Or.inr ?_⟩
  · exact shiftAddress_congr (OpType.signed_congr hd) a
  · rcases hop with rfl | rfl
    · exact ⟨by simp [createExpr], by simp [createExpr]⟩
    · exact ⟨by simp [createExpr], by simp [createExpr]⟩

theorem HoldsWord.shiftProduct_emits {op : OpType} {p : Var} {c1 c2 c3 : CInteger} {x d : Int}
    (hop : op = .add ∨ op = .sub) (hp : p.type.wordType = some .ulong)
    (hl : HoldsWord env s.symbols.length m l a) (hlword : l.type.wordType = some c1)
    (hc1 : c1.format.width = 64) (hroom : Room env s.symbols.length)
    (hv : IntegerOperand env s.symbols.length m v c2 x)
    (hr : IntegerOperand env s.symbols.length m r c3 k)
    (hwidth : (CInteger.common c2 c3).format.width = 64)
    (hd : BitVec.ofInt 64 (x * k) = BitVec.ofInt 64 d) :
    Emits env b s m (do
      let expr ← mul (some b) v r
      let r ← eval (some b) expr
      pure { createExpr op l r with type := p.type })
      (ComputesAddress env p (shiftAddress a (op.signed d))) := by
  have hpromoted := isPromoted_common c2 c3
  have hproduct : BitVec.ofInt 64 ((CInteger.common c2 c3).format.wrap
      ((CInteger.common c2 c3).convert x * (CInteger.common c2 c3).convert k)) =
      BitVec.ofInt 64 d := by
    rw [ofInt_wrap hwidth, convert_of_isPromoted hpromoted, convert_of_isPromoted hpromoted,
      BitVec.ofInt_mul, ofInt_wrap hwidth, ofInt_wrap hwidth, ← BitVec.ofInt_mul, hd]
  refine Emits.bind (hv.mul_emits hr hroom) ?_
  intro e s1 m1 hle1 _ hagree1 he
  refine Emits.bind (he.eval_emits (hroom.mono hle1)) ?_
  rintro w s2 m2 hle2 - hagree2 ⟨hstands, hlike⟩
  have hcommon := cInteger_common hv.type hr.type
  have hwtype : w.type.cInteger = some (CInteger.common c2 c3) := by
    rw [← hcommon, CType.cInteger, CType.cInteger, hlike.typeOf, hlike.unsigned]
  have hagree := hagree1.trans hle1 hagree2
  exact (hl.mono (hle1.trans hle2) hagree).shift_emits hop hp hlword hc1
    (hstands.operand hwtype) hproduct

omit [HostFloat] in
theorem size_operand {c : CInteger} {t : CType} (htype : t.cInteger = some c) (hplain : t.Plain)
    (hc : c.format.width = 64) (size : Nat) :
    IntegerOperand env n m (varNumeric t (({} : Value).setI size)) c (c.format.wrap size) :=
  IsInteger.operand ⟨isIntegerWord_varNumeric htype _, IntFormat.inRange_wrap _,
    (ofInt_wrap hc size).symm⟩ hplain

omit [HostFloat] in
theorem shiftAddress_zero {d : Int} (hlt : a < 2 ^ 64) (hd : BitVec.ofInt 64 d = 0#64) :
    shiftAddress a d = a := by
  rw [shiftAddress_eq, hd, BitVec.add_zero, BitVec.toNat_ofNat, Nat.mod_eq_of_lt hlt]

theorem isImmediateFalse_operand (h : IntegerOperand env n m v c k) :
    isImmediateFalse (asExpr v) = pure (decide (v.kind = .immediate) && decide (k = 0)) := by
  rw [isImmediateFalse, isImmediateWith, isImmediate, isIdentity_asExpr]
  by_cases hkind : v.kind = .immediate
  · have hint := h.immediate hkind
    have hzero : isZeroValue v.imm v.type = decide (k = 0) := by
      rw [Bool.eq_iff_iff, hint.isZeroValue_iff, hint.ofWord, decide_eq_true_iff]
    have hscalar : (asExpr v).type.isScalar = true := (isScalar_of_cInteger h.type).1
    have hl : (asExpr v).l = v ∧ (asExpr v).type = v.type := ⟨rfl, rfl⟩
    simp [hl, hkind, (isScalar_of_cInteger h.type).1, hzero]
  · have hl : (asExpr v).l = v := rfl
    simp [hl, hkind]

/-- The operands whose sum or difference is wrong: the number that is added to a dereferenced
constant address changes the address. -/
def MovesAddress (l r : Var) (size : Nat) : Prop :=
  l.kind = .deref ∧ l.symbol = none ∧ r.kind = .immediate ∧
    r.imm.lo * BitVec.ofNat 64 size ≠ 0

theorem PointsTo.folded (hl : PointsTo env s.symbols.length m l a) (d : Int)
    (hgood : l.kind = .deref → l.symbol = none → BitVec.ofInt 64 d = 0#64)
    {rest : EvalM Expression}
    (hrest : l.isConstant = false → l.kind ≠ .address →
      Emits env b s m rest (ComputesAddress env l (shiftAddress a d))) :
    Emits env b s m
      (if l.isString || l.kind = .address then
        pure (asExpr { l with offset := l.offset + BitVec.ofInt 64 d })
      else if l.isConstant then
        pure (asExpr { l with imm := { l.imm with lo := l.imm.lo + BitVec.ofInt 64 d } })
      else rest)
      (ComputesAddress env l (shiftAddress a d)) := by
  by_cases hshift : l.isString = true ∨ l.kind = .address
  · rw [if_pos (by simpa using hshift)]
    refine Emits.pure ((hl.shiftOffset hshift d).computes rfl rfl rfl fun hkind => ?_)
    rcases hshift with hstring | haddress
    · have himm := (Var.exists_symbol_of_isString hstring).1
      exact absurd (hkind.symm.trans himm) (by decide)
    · exact absurd (hkind.symm.trans haddress) (by decide)
  · rw [if_neg (by simpa using hshift)]
    rw [not_or, Bool.not_eq_true] at hshift
    cases hconstant : l.isConstant with
    | false => exact hrest hconstant hshift.2
    | true =>
      rw [if_pos rfl]
      have hcases : l.kind = .immediate ∨ (l.kind = .deref ∧ l.symbol = none) := by
        simpa [Var.isConstant] using hconstant
      rcases hcases with hkind | ⟨hkind, hsymbol⟩
      · exact Emits.pure ((hl.shiftConstant hkind hshift.1 d).computes rfl rfl rfl fun _ => rfl)
      · have hzero := hgood hkind hsymbol
        have hsame : l.imm.lo + BitVec.ofInt 64 d = l.imm.lo := by rw [hzero, BitVec.add_zero]
        rw [hsame, shiftAddress_zero hl.lt hzero]
        exact Emits.pure (hl.computes rfl rfl rfl fun _ => rfl)

omit [HostFloat] in
theorem plain_long : basicTypeLong.Plain :=
  ⟨fun _ => rfl, fun h => absurd rfl h⟩

omit [HostFloat] in
theorem plain_ulong : basicTypeUnsignedLong.Plain :=
  ⟨fun _ => rfl, fun h => absurd rfl h⟩

omit [HostFloat] in
theorem ofInt_convert_long (k : Int) :
    BitVec.ofInt 64 (CInteger.long.convert k) = BitVec.ofInt 64 k :=
  ofInt_wrap (c := .long) rfl k

section

variable (hl : PointsTo env s.symbols.length m l a)
  (hr : IntegerOperand env s.symbols.length m r c k) (hroom : Room env s.symbols.length)
  (htype : typeDeref s.types l.type = some type) (hsize : sizeOf s.types type = some size)
  (hpos : size ≠ 0) (hvla : isVla s.types type = some false) (hgood : ¬ MovesAddress l r size)
include hl hr hroom htype hsize hpos hvla hgood

/-- `add` of a pointer and an integer. -/
theorem addPointer_emits :
    Emits env b s m (addPointer (some b) l r)
      (ComputesAddress env l (shiftAddress a (k * size))) := by
  unfold addPointer
  refine Emits.bindTable htype ?_
  refine Emits.bindTable hsize ?_
  refine Emits.bind (hr.evalCast_emits hroom rfl plain_long) ?_
  rintro r' s1 m1 hle1 htypes1 hagree1 ⟨hr', hrkind, -⟩
  refine Emits.bindTable (htypes1 ▸ hvla) ?_
  rw [if_neg Bool.false_ne_true, if_neg hpos]
  have hl1 := hl.mono hle1 hagree1
  have hroom1 := hroom.mono hle1
  have hword := wordType_of_isPointerType hl.pointer
  have hk : BitVec.ofInt 64 (CInteger.long.convert k) = BitVec.ofInt 64 k := ofInt_convert_long k
  -- The sum at run time.
  have htail : Emits env b s1 m1 (do
      let l' ← evalCast (some b) l basicTypeLong
      if size ≠ 1 then do
        let n ← immSigned basicTypeLong size
        let expr ← mul (some b) n r'
        let r ← eval (some b) expr
        pure { createExpr .add l' r with type := l.type }
      else pure { createExpr .add l' r' with type := l.type })
      (ComputesAddress env l (shiftAddress a (k * size))) := by
    rcases hl1.evalCast_long (b := b) with ⟨l', hcast, hltype, hholds⟩
    have hlword : l'.type.wordType = some .long := hltype ▸ rfl
    rw [hcast, pure_bind]
    by_cases hone : size = 1
    · rw [if_neg (by simpa using hone)]
      refine hholds.shift_emits (Or.inl rfl) hword hlword rfl hr' ?_
      rw [hk, hone, Nat.cast_one, mul_one]
    · rw [if_pos hone]
      have himm : immSigned basicTypeLong size =
          pure (varNumeric basicTypeLong (({} : Value).setI size)) := rfl
      rw [himm, pure_bind]
      refine hholds.shiftProduct_emits (Or.inl rfl) hword hlword rfl hroom1
        (size_operand rfl plain_long rfl size) hr' rfl ?_
      rw [BitVec.ofInt_mul, ofInt_wrap rfl, hk, ← BitVec.ofInt_mul, Int.mul_comm]
  by_cases himm : r'.kind = .immediate
  · have hlo : r'.imm.lo = BitVec.ofInt 64 k := (hr'.immediate himm).word.trans hk
    have hstep : r'.imm.lo * BitVec.ofNat 64 size = BitVec.ofInt 64 (k * size) := by
      rw [hlo, BitVec.ofInt_mul, BitVec.ofInt_natCast]
    simp only [himm, decide_true, Bool.and_true, hstep]
    refine hl1.folded _ ?_ fun _ _ => ?_
    · intro hkind hsymbol
      by_contra hne
      refine hgood ⟨hkind, hsymbol, hrkind.mp himm, ?_⟩
      rwa [(hr.immediate (hrkind.mp himm)).word, ← BitVec.ofInt_natCast, ← BitVec.ofInt_mul]
    · split
      · exact htail
      · rename_i hzero
        have hzero : r'.imm.lo = 0#64 := by simpa using hzero
        have hshift : BitVec.ofInt 64 (k * size) = 0#64 := by
          rw [← hstep, hzero, BitVec.zero_mul]
        rw [shiftAddress_zero hl1.lt hshift]
        exact Emits.pure (hl1.computes rfl rfl rfl fun _ => rfl)
  · simp only [himm, decide_false, Bool.and_false, Bool.false_eq_true, if_false, ne_eq, not_false_eq_true,
      decide_true, Bool.true_or, if_true]
    exact htail

/-- `sub` of an integer from a pointer. -/
theorem subPointer_emits :
    Emits env b s m (subPointer (some b) l r)
      (ComputesAddress env l (shiftAddress a (-(k * size)))) := by
  unfold subPointer
  refine Emits.bindTable htype ?_
  refine Emits.bindTable hsize ?_
  refine Emits.bind (hr.evalCast_emits hroom rfl plain_long) ?_
  rintro r' s1 m1 hle1 htypes1 hagree1 ⟨hr', hrkind, -⟩
  refine Emits.bindTable (htypes1 ▸ hvla) ?_
  rw [if_neg Bool.false_ne_true, if_neg hpos]
  have hl1 := hl.mono hle1 hagree1
  have hroom1 := hroom.mono hle1
  have hword := wordType_of_isPointerType hl.pointer
  have hk : BitVec.ofInt 64 (CInteger.long.convert k) = BitVec.ofInt 64 k := ofInt_convert_long k
  have hholds : HoldsWord env s1.symbols.length m1 l a := hl1.value
  have hshift : ∀ {d : Int}, shiftAddress a (OpType.sub.signed d) = shiftAddress a (-d) := rfl
  -- The difference at run time.
  have htail : (r'.kind = .immediate → BitVec.ofInt 64 k ≠ 0#64) →
      Emits env b s1 m1 (do
      let zero ← isImmediateFalse (asExpr r')
      if zero then pure (asExpr l)
      else if size > 1 then do
        let n ← immUnsigned basicTypeUnsignedLong size
        let expr ← mul (some b) n r'
        let r ← eval (some b) expr
        pure (createExpr .sub l r)
      else pure (createExpr .sub l r'))
      (ComputesAddress env l (shiftAddress a (-(k * size)))) := by
    intro hne
    have hzero : (decide (r'.kind = .immediate) &&
        decide (CInteger.long.convert k = 0)) = false := by
      rw [Bool.and_eq_false_iff, decide_eq_false_iff_not, decide_eq_false_iff_not]
      by_cases himm : r'.kind = .immediate
      · refine Or.inr fun hconvert => hne himm ?_
        rw [← hk, hconvert]
        rfl
      · exact Or.inl himm
    rw [isImmediateFalse_operand hr', pure_bind, hzero, if_neg Bool.false_ne_true]
    by_cases hone : size > 1
    · rw [if_pos hone]
      have himm : immUnsigned basicTypeUnsignedLong size =
          pure (varNumeric basicTypeUnsignedLong (({} : Value).setI size)) := by
        have hunsigned : basicTypeUnsignedLong.isUnsignedType = true ∧
            basicTypeUnsignedLong.isScalar = true ∧
            basicTypeUnsignedLong.scalarSize = 8 := by decide
        simp [immUnsigned, hunsigned, readTable_scalarSize]
        rfl
      rw [himm, pure_bind, ← hshift]
      refine hholds.shiftProduct_emits (Or.inr rfl) hword hword rfl hroom1
        (size_operand rfl plain_ulong rfl size) hr' rfl ?_
      rw [BitVec.ofInt_mul, ofInt_wrap rfl, hk, ← BitVec.ofInt_mul, Int.mul_comm]
    · rw [if_neg hone, ← hshift]
      have hsizeOne : size = 1 := by omega
      refine hholds.shift_emits (Or.inr rfl) hword hword rfl hr' ?_
      rw [hk, hsizeOne, Nat.cast_one, mul_one]
  by_cases himm : r'.kind = .immediate
  · have hlo : r'.imm.lo = BitVec.ofInt 64 k := (hr'.immediate himm).word.trans hk
    have hstep : ∀ x : BitVec 64, x - r'.imm.lo * BitVec.ofNat 64 size =
        x + BitVec.ofInt 64 (-(k * size)) := by
      intro x
      rw [hlo, BitVec.ofInt_neg, BitVec.ofInt_mul, BitVec.ofInt_natCast, BitVec.sub_eq_add_neg]
    simp only [himm, decide_true, Bool.and_true, hstep]
    refine hl1.folded _ ?_ fun hconstant _ => ?_
    · intro hkind hsymbol
      by_contra hne
      refine hgood ⟨hkind, hsymbol, hrkind.mp himm, fun hzero => hne ?_⟩
      rw [(hr.immediate (hrkind.mp himm)).word, ← BitVec.ofInt_natCast, ← BitVec.ofInt_mul] at hzero
      rw [BitVec.ofInt_neg, hzero]
      rfl
    · by_cases hzero : BitVec.ofInt 64 k = 0#64
      · have hconvert : CInteger.long.convert k = 0 := by
          have hint := (hr'.immediate himm).ofWord
          rw [hlo, hzero] at hint
          exact hint.symm
        have hshift0 : BitVec.ofInt 64 (-(k * size)) = 0#64 := by
          rw [BitVec.ofInt_neg, BitVec.ofInt_mul, hzero, BitVec.zero_mul]
          rfl
        rw [isImmediateFalse_operand hr', hconvert, himm, pure_bind, shiftAddress_zero hl1.lt hshift0]
        exact Emits.pure (hl1.computes rfl rfl rfl fun _ => rfl)
      · exact htail fun _ => hzero
  · simp only [himm, decide_false, Bool.and_false, Bool.false_eq_true, if_false]
    exact htail fun h => absurd h himm

end

/-- The symbol of an operand is a variable that exists, whose storage starts with the operand. -/
structure IsTemporary (n : Nat) (w : Var) (type : CType) : Prop where
  kind : w.kind = .direct
  offset : w.offset = 0
  symbol : ∃ sym, w.symbol = some sym ∧ sym.id < n ∧ sym.type = type ∧ sym.symtype = .definition

theorem storeTemporary_run {e : Expression} {res : Var} {sym : Symbol}
    (hroom : Room env s.symbols.length) (hid : sym.id = s.symbols.length)
    (hkind : res.kind = .direct) (hpointer : res.type.isPointerType = true)
    (hsymbol : res.symbol = some sym) (hoffset : res.offset = 0) (hfield : res.fieldWidth = 0)
    (hop : e.op ≠ .call) (hvalue : pureValue env m e = some a) (hlt : a < 2 ^ 64) :
    ∃ m', (∀ params trace, execCode (irMachine env) [{ st := .assign, t := res, expr := e }]
        { mem := m, params := params, trace := trace } =
          some { mem := m', params := params, trace := trace }) ∧
      AgreeBetween env s.symbols.length (s.symbols.length + 1) m m' ∧
      PointsTo env (s.symbols.length + 1) m' { res with lvalue := false } a := by
  have hextent := hroom s.symbols.length le_rfl
  have hsize : sizeOf env.types res.type = some 8 := by
    rw [sizeOf_of_isScalar (isScalar_of_isPointerType hpointer).1,
      scalarSize_of_isPointerType hpointer]
  have hlocate : ∀ m' : Memory, locate env m' res 8 = some (env.addr s.symbols.length) := by
    intro m'
    have hfits : (0 : BitVec 64).toNat + 8 ≤ env.extent s.symbols.length := by simp; omega
    simp only [locate, hkind, hsymbol, bind_some, hid, hoffset]
    rw [if_pos hfits]
    rfl
  have hnofield : res.isField = false := by simp [Var.isField, hfield]
  refine ⟨m.store (env.addr s.symbols.length) 8 a, ?_, agreeBetween_store (by omega), hpointer,
    hfield, fun himm => absurd (hkind.symm.trans himm) (by decide), ?_⟩
  · intro params trace
    simp [irMachine, execStatement, exprValue, hop, hvalue, storeOperand, hsize, hlocate, hnofield]
  · intro m' hm'
    have hload : m'.load (env.addr s.symbols.length) 8 = a := by
      rw [hm'.load_eq (Nat.lt_succ_self _) le_rfl (by omega), Memory.load_store_self]
      exact Nat.mod_eq_of_lt hlt
    have hread : operandValue env m' res = some a := by
      simp [operandValue, hsize, hkind, hlocate, hnofield, hload]
    exact hread

theorem ComputesAddress.eval_emits {e : Expression} (h : ComputesAddress env l a e s m)
    (hroom : Room env s.symbols.length) (hpointer : l.type.isPointerType = true) (hlt : a < 2 ^ 64) :
    Emits env b s m (eval (some b) e) fun w s' m' =>
      PointsTo env s'.symbols.length m' w a ∧ w.type = l.type ∧
        ((w.kind = l.kind ∧ w.symbol = l.symbol ∧ (l.kind = .direct → w.offset = l.offset)) ∨
          IsTemporary s'.symbols.length w l.type) := by
  rcases h.operand with ⟨v, rfl, hv, hshape⟩ | ⟨hcast, hcall⟩
  · rw [eval_asExpr]
    exact Emits.pure ⟨hv, h.type, Or.inl hshape⟩
  · have hidentity : isIdentity e s = .ok (false, s) := by
      simp only [isIdentity, hcast]
      rfl
    have hscalar : e.type.isScalar = true := by
      rw [h.type]
      exact (isScalar_of_isPointerType hpointer).1
    rcases eval_eq_temporary (b := b) hidentity hscalar with
      ⟨sym, res, hid, hsymtype, hdefinition, hkind, htype, hsymbol, hoffset, hfield, heval⟩
    rcases storeTemporary_run (e := e) hroom hid hkind (by rw [htype, h.type]; exact hpointer)
      hsymbol hoffset hfield hcall h.value hlt with ⟨m', hrun, hagree, hpoints⟩
    refine ⟨_, _, _, m', heval, ⟨rfl, by simp, rfl⟩, hrun, by simpa using hagree, ?_, ?_, Or.inr ?_⟩
    · simpa using hpoints
    · exact htype.trans h.type
    · exact ⟨hkind, hoffset, sym, hsymbol, by simp [hid], hsymtype.trans h.type, hdefinition⟩

end PointerOperands

/-! ## Sums and differences -/

section Sums

variable [HostFloat] {s : EvalState} {b : BlockId} {l r : Var} {c : CInteger} {size : Nat} {k : Int}
  {type : CType}

/-- The number that an operand of integer type stands for; a string that was converted to an
integer type stands for its address. -/
inductive NumberOf (env : RunEnv) (n : Nat) (m : Memory) (v : Var) (c : CInteger) (k : Int) : Prop
  | operand (h : IntegerOperand env n m v c k)
  | string (hstring : v.isString = true) (hvalue : ∀ m', AgreeBelow env n m m' →
      ∃ raw, operandValue env m' v = some raw ∧ decode v.type raw = some (.int k))

/-- Sums and differences of the operands are the pointer, shifted by the scaled integer. -/
def ScalesRight (b : BlockId) (s : EvalState) (l r : Var) (c : CInteger) (size : Nat) : Prop :=
  ∀ (env : RunEnv) (m : Memory) (a : Nat) (k : Int), Room env s.symbols.length →
    PointsTo env s.symbols.length m l a → NumberOf env s.symbols.length m r c k →
    Emits env b s m (add (some b) l r) (ComputesAddress env l (shiftAddress a (k * size))) ∧
    Emits env b s m (add (some b) r l) (ComputesAddress env l (shiftAddress a (k * size))) ∧
    Emits env b s m (sub (some b) l r) (ComputesAddress env l (shiftAddress a (-(k * size))))

/-- A pointer operand: its symbol exists, and a number has no offset. -/
structure PointerVar (n : Nat) (l : Var) : Prop where
  pointer : l.type.isPointerType = true
  fieldWidth : l.fieldWidth = 0
  constant : l.kind = .immediate → l.isString = false → l.offset = 0
  symbol : l.symbol = none → l.kind = .deref ∨ l.kind = .immediate
  existing : ∀ sym, l.symbol = some sym → l.kind = .direct → sym.id < n

/-- An operand of integer type: a number is canonical, and a string holds none. -/
structure IntegerVar (r : Var) (c : CInteger) : Prop where
  type : r.type.cInteger = some c
  plain : r.type.Plain
  constant : r.kind = .immediate → r.isString = false → ∃ k, IsInteger r c k
  string : r.isString = true → r.imm.lo = 0

theorem add_eq_addPointer (hl : l.type.isPointerType = true) (hr : r.type.cInteger = some c) :
    add (some b) l r = addPointer (some b) l r ∧ add (some b) r l = addPointer (some b) l r ∧
      sub (some b) l r = subPointer (some b) l r := by
  rcases isScalar_of_isPointerType hl with ⟨-, -, -, -, hinteger, harith⟩
  rcases isScalar_of_cInteger hr with ⟨-, -, -, -, hpointer⟩
  have hrinteger := isInteger_of_cInteger hr
  refine ⟨?_, ?_, ?_⟩
  · simp [add, addOrdered, hl, hinteger, harith, hrinteger]
  · simp [add, addOrdered, hl, harith, hrinteger]
  · simp [sub, hl, harith, hrinteger]

end Sums

/-! ## A memory without values -/

section Empty

variable {n : Nat} {l r : Var} {c : CInteger}

/-- Large objects behind all addresses of 64 bits, with the given address modulo two to the 64. -/
def wideEnv (base : Nat) : RunEnv where
  types := []
  addr id := 2 ^ 66 * (id + 1) + base
  extent _ := 2 ^ 65
  callee _ _ m := (0, m)
  addr_pos _ := by omega
  disjoint (i j : Nat) hne := by
    have hne' : i < j ∨ j < i := Nat.lt_or_gt_of_ne hne
    show 2 ^ 66 * (i + 1) + base + 2 ^ 65 ≤ 2 ^ 66 * (j + 1) + base ∨
      2 ^ 66 * (j + 1) + base + 2 ^ 65 ≤ 2 ^ 66 * (i + 1) + base
    omega

/-- The memory without values. -/
def emptyMemory : Memory := fun _ => 0

theorem room_wideEnv (base n : Nat) : Room (wideEnv base) n :=
  fun _ _ => show 16 ≤ 2 ^ 65 by omega

theorem load_emptyMemory (x k : Nat) : Memory.load emptyMemory x k = 0 := by
  induction k generalizing x with
  | zero => rfl
  | succ k ih =>
    rw [Memory.load, ih]
    rfl

theorem load_of_agreeBelow {base : Nat} {m' : Memory}
    (hm : AgreeBelow (wideEnv base) n emptyMemory m') {x : Nat}
    (hx : x < 2 ^ 64 ∨ ∃ id < n, (wideEnv base).addr id ≤ x ∧
      x + 8 ≤ (wideEnv base).addr id + (wideEnv base).extent id) : m'.load x 8 = 0 := by
  rcases hx with hx | ⟨id, hid, hlo, hhi⟩
  · have hsame : m'.load x 8 = Memory.load emptyMemory x 8 := by
      refine Memory.load_congr fun y _ hy => hm y fun id _ => Or.inl ?_
      show y < 2 ^ 66 * (id + 1) + base
      omega
    rw [hsame, load_emptyMemory]
  · rw [hm.load_eq hid hlo hhi, load_emptyMemory]

/-- Every pointer operand has a value there. -/
theorem PointerVar.pointsTo (h : PointerVar n l) (base : Nat) :
    ∃ a, PointsTo (wideEnv base) n emptyMemory l a ∧ (l.kind = .deref → a = 0) := by
  have hsize : sizeOf (wideEnv base).types l.type = some 8 := by
    rw [sizeOf_of_isScalar (isScalar_of_isPointerType h.pointer).1,
      scalarSize_of_isPointerType h.pointer]
  have hfield : l.isField = false := by simp [Var.isField, h.fieldWidth]
  cases hkind : l.kind with
  | immediate =>
    cases hstring : l.isString with
    | true =>
      rcases Var.exists_symbol_of_isString hstring with ⟨-, sym, hsymbol, hsymtype⟩
      exact ⟨_, ⟨h.pointer, h.fieldWidth, h.constant, fun m' _ => operandValue_string hkind hsymbol
        hsymtype hsize (isScalar_of_isPointerType h.pointer).2.2.1⟩, by rintro ⟨⟩⟩
    | false =>
      exact ⟨_, ⟨h.pointer, h.fieldWidth, h.constant, fun m' _ => operandValue_constant hkind hstring
        hsize⟩, by rintro ⟨⟩⟩
  | address =>
    cases hsymbol : l.symbol with
    | none => rcases h.symbol hsymbol with hno | hno <;> rw [hkind] at hno <;> cases hno
    | some sym =>
      refine ⟨((wideEnv base).addr sym.id + l.offset.toNat) % 2 ^ 64,
        ⟨h.pointer, h.fieldWidth, h.constant, fun m' _ => ?_⟩, by rintro ⟨⟩⟩
      simp [operandValue, hsize, hkind, hsymbol]
  | direct =>
    cases hsymbol : l.symbol with
    | none => rcases h.symbol hsymbol with hno | hno <;> rw [hkind] at hno <;> cases hno
    | some sym =>
      have hoffset := l.offset.isLt
      refine ⟨0, ⟨h.pointer, h.fieldWidth, h.constant, fun m' hm' => ?_⟩, by rintro ⟨⟩⟩
      have hfits : l.offset.toNat + 8 ≤ (wideEnv base).extent sym.id := by
        show l.offset.toNat + 8 ≤ 2 ^ 65
        omega
      have hload : m'.load ((wideEnv base).addr sym.id + l.offset.toNat) 8 = 0 :=
        load_of_agreeBelow hm' (Or.inr ⟨sym.id, h.existing sym hsymbol hkind,
          Nat.le_add_right _ _, by omega⟩)
      simp [operandValue, hsize, hkind, locate, hsymbol, hfits, hfield, hload]
  | deref =>
    refine ⟨0, ⟨h.pointer, h.fieldWidth, h.constant, fun m' hm' => ?_⟩, fun _ => rfl⟩
    have hpointer : ∃ p, pointerOf (wideEnv base) m' l = some p := by
      unfold pointerOf
      cases l.symbol with
      | none => exact ⟨_, rfl⟩
      | some sym =>
        have hfits : 8 ≤ (wideEnv base).extent sym.id := show 8 ≤ 2 ^ 65 by omega
        by_cases hsymtype : sym.symtype = .stringValue
        · exact ⟨(wideEnv base).addr sym.id, by simp [hsymtype]⟩
        · exact ⟨m'.load ((wideEnv base).addr sym.id) 8, by simp [hsymtype, hfits]⟩
    rcases hpointer with ⟨p, hp⟩
    have hload : m'.load ((p + l.offset.toNat) % 2 ^ 64) 8 = 0 :=
      load_of_agreeBelow hm' (Or.inl (Nat.mod_lt _ (by decide)))
    simp only [operandValue, hsize, bind_some, hkind, locate, hp, map_some, hfield,
      Bool.false_eq_true, if_false]
    exact congrArg some hload

/-- The base for which the address of a string at its offset is one, modulo two to the 64. -/
def stringBase (r : Var) : Nat := (1#64 - r.offset).toNat

theorem numberOf_string (hstring : r.isString = true) (htype : r.type.cInteger = some c) :
    NumberOf (wideEnv (stringBase r)) n emptyMemory r c 1 := by
  refine .string hstring fun m' _ => ⟨1, ?_, ?_⟩
  · rcases Var.exists_symbol_of_isString hstring with ⟨hkind, sym, hsymbol, hsymtype⟩
    rcases isScalar_of_cInteger htype with ⟨hscalar, -, harray, -, -⟩
    have hsum : (stringBase r + r.offset.toNat) % 2 ^ 64 = 1 := by
      have hbits : 1#64 - r.offset + r.offset = 1#64 := BitVec.sub_add_cancel _ _
      have hnat := congrArg BitVec.toNat hbits
      rwa [BitVec.toNat_add] at hnat
    have haddr : ((wideEnv (stringBase r)).addr sym.id + r.offset.toNat) % 2 ^ 64 = 1 := by
      have hmultiple : (wideEnv (stringBase r)).addr sym.id + r.offset.toNat =
          stringBase r + r.offset.toNat + 2 ^ 64 * (4 * (sym.id + 1)) := by
        show 2 ^ 66 * (sym.id + 1) + stringBase r + r.offset.toNat = _
        ring
      rw [hmultiple, Nat.add_mul_mod_self_left, hsum]
    have hone : 1 % 256 ^ r.type.scalarSize = 1 := by
      unfold CType.scalarSize
      split <;> decide
    rw [operandValue, sizeOf_of_isScalar hscalar, bind_some, hkind]
    show some (immediateValue _ m' r r.type.scalarSize) = _
    rw [immediateValue, hsymbol]
    simp only [hsymtype, harray, if_true, Bool.false_eq_true, if_false, haddr, hone]
  · rw [decode, wordType_of_cInteger htype]
    cases c <;> rfl

end Empty

/-! ## Correct operands -/

section Correct

variable [HostFloat] {s : EvalState} {b : BlockId} {l r : Var} {c : CInteger} {size : Nat} {k : Int}
  {type : CType}

theorem Emits.of_pure {α : Type} {env : RunEnv} {m : Memory} {x : EvalM α} {y : α}
    {Q : α → EvalState → Memory → Prop} (h : Emits env b s m x Q) (hx : x s = .ok (y, s)) :
    Q y s m := by
  rcases h with ⟨y', s', code, m', hok, -, -, hagree, hQ⟩
  rw [hx] at hok
  cases hok
  have hsame : m' = m := by
    funext z
    exact hagree z fun id hid => absurd (lt_of_le_of_lt hid.1 hid.2) (lt_irrefl _)
  exact hsame ▸ hQ

omit [HostFloat] in
theorem readTable_bind_run {α β : Type} {f : TypeTable → Option α} {x : α} (hx : f s.types = some x)
    (g : α → EvalM β) : (readTable f >>= g) s = g x s := by
  show (readTable f s >>= fun p => g p.1 p.2) = _
  simp only [readTable, hx]
  rfl

theorem addPointer_string (hr : r.type.cInteger = some c) (hstring : r.isString = true)
    (hlo : r.imm.lo = 0) (htype : typeDeref s.types l.type = some type)
    (hsize : sizeOf s.types type = some size) (hpos : size ≠ 0)
    (hvla : isVla s.types type = some false) :
    addPointer (some b) l r s = .ok (asExpr l, s) := by
  rcases Var.exists_symbol_of_isString hstring with ⟨hkind, -⟩
  have hcast : evalCast (some b) r basicTypeLong = pure { r with type := basicTypeLong } := by
    have hconstants : basicTypeLong.isVoid = false ∧ basicTypeLong.isScalar = true := by decide
    simp [evalCast, cast, hconstants, (isScalar_of_cInteger hr).1, hkind, hstring]
  rw [addPointer, readTable_bind_run htype, readTable_bind_run hsize, hcast, pure_bind,
    readTable_bind_run hvla, if_neg Bool.false_ne_true, if_neg hpos]
  simp only [hkind, hlo, decide_true, Bool.and_true]
  have hoffset : l.offset + 0 * BitVec.ofNat 64 size = l.offset := by simp
  have hnumber : l.imm.lo + 0 * BitVec.ofNat 64 size = l.imm.lo := by simp
  rw [hoffset, hnumber]
  split
  · rfl
  · split
    · rfl
    · rfl

theorem addPointer_movesAddress (hr : IsInteger r c k)
    (htype : typeDeref s.types l.type = some type) (hsize : sizeOf s.types type = some size)
    (hpos : size ≠ 0) (hvla : isVla s.types type = some false) (hkind : l.kind = .deref)
    (hsymbol : l.symbol = none) :
    addPointer (some b) l r s =
      .ok (asExpr { l with
        imm := { l.imm with lo := l.imm.lo + BitVec.ofInt 64 (k * size) } }, s) := by
  have hlong : basicTypeLong.cInteger = some .long := rfl
  rcases evalCast_spec (some b) hr hlong with ⟨w, hw, -, hint⟩
  have hlo : w.imm.lo = BitVec.ofInt 64 k := hint.word.trans (ofInt_convert_long k)
  have hstep : w.imm.lo * BitVec.ofNat 64 size = BitVec.ofInt 64 (k * size) := by
    rw [hlo, BitVec.ofInt_mul, BitVec.ofInt_natCast]
  have hconstant : l.isConstant = true := by simp [Var.isConstant, hkind, hsymbol]
  have hshift : (l.isString || decide (l.kind = .address)) = false := by
    simp [Var.isString, hkind]
  rw [addPointer, readTable_bind_run htype, readTable_bind_run hsize, hw, pure_bind,
    readTable_bind_run hvla, if_neg Bool.false_ne_true, if_neg hpos, hshift, Bool.false_and,
    if_neg Bool.false_ne_true, if_pos (by simp [hconstant, hint.kind]), hstep]
  rfl

/-- Pointer arithmetic counts in elements, unless a constant is added to or subtracted from a
pointer that is read from a constant address, where the address is changed and not the pointer, or
the integer is a converted string, which counts as zero. -/
theorem addSub_scales_iff (b : BlockId) (s : EvalState) (l r : Var) (c : CInteger) (type : CType)
    (size : Nat) (hl : PointerVar s.symbols.length l) (hr : IntegerVar r c)
    (htype : typeDeref s.types l.type = some type) (hsize : sizeOf s.types type = some size)
    (hpos : 0 < size) (hlt : size < 2 ^ 64) (hvla : isVla s.types type = some false) :
    ScalesRight b s l r c size ↔ ¬ MovesAddress l r size ∧ r.isString = false := by
  rcases add_eq_addPointer (b := b) hl.pointer hr.type with ⟨hadd, hadd', hsub⟩
  have hne : size ≠ 0 := Nat.ne_of_gt hpos
  constructor
  · intro h
    constructor
    · rintro ⟨hkind, hsymbol, hrkind, hmoved⟩
      have hstring : r.isString = false := by
        by_contra hstring
        rw [Bool.not_eq_false] at hstring
        exact hmoved (by simp [hr.string hstring])
      rcases hr.constant hrkind hstring with ⟨k, hint⟩
      rcases hl.pointsTo 0 with ⟨a, hpoints, hzero⟩
      obtain rfl := hzero hkind
      have hright := (h (wideEnv 0) emptyMemory 0 k (room_wideEnv 0 _) hpoints
        (.operand (hint.operand hr.plain))).1
      rw [hadd] at hright
      have hvalue := (hright.of_pure
        (addPointer_movesAddress hint htype hsize hne hvla hkind hsymbol)).value
      have hl' : PointerVar s.symbols.length
          { l with imm := { l.imm with lo := l.imm.lo + BitVec.ofInt 64 (k * size) } } :=
        ⟨hl.pointer, hl.fieldWidth, hl.constant, hl.symbol, hl.existing⟩
      rcases hl'.pointsTo 0 with ⟨a, hpoints', hzero'⟩
      obtain rfl := hzero' hkind
      rw [hpoints'.pureValue_eq, some.injEq, shiftAddress_eq] at hvalue
      refine hmoved ?_
      rw [hint.word, ← BitVec.ofInt_natCast, ← BitVec.ofInt_mul]
      refine BitVec.eq_of_toNat_eq ?_
      simpa using hvalue.symm
    · by_contra hstring
      rw [Bool.not_eq_false] at hstring
      rcases hl.pointsTo (stringBase r) with ⟨a, hpoints, -⟩
      have hright := (h (wideEnv (stringBase r)) emptyMemory a 1 (room_wideEnv _ _) hpoints
        (numberOf_string hstring hr.type)).1
      rw [hadd] at hright
      have hvalue := (hright.of_pure
        (addPointer_string hr.type hstring (hr.string hstring) htype hsize hne hvla)).value
      have hlta := hpoints.lt
      rw [hpoints.pureValue_eq, some.injEq, shiftAddress] at hvalue
      omega
  · rintro ⟨hgood, hstring⟩ env m a k hroom hpoints hnumber
    have hinteger : IntegerOperand env s.symbols.length m r c k := by
      cases hnumber with
      | operand h => exact h
      | string h => exact absurd (hstring.symm.trans h) Bool.false_ne_true
    rw [hadd, hadd', hsub]
    have hsum := addPointer_emits (b := b) hpoints hinteger hroom htype hsize hne hvla hgood
    exact ⟨hsum, hsum, subPointer_emits hpoints hinteger hroom htype hsize hne hvla hgood⟩

end Correct

/-! ## Examples -/

/-- `*(char **) 4096` -/
def constantPointer : Var :=
  { kind := .deref, type := charPointer, lvalue := true, imm := { lo := 4096 } }

/-- The symbol `p` of type `char *`. -/
def pointerSymbol : Symbol := { id := 0, name := "p", type := charPointer }

/-- A state with that symbol and an empty block. -/
def pointerState : EvalState := { symbols := [pointerSymbol], blocks := [{}] }

theorem integerVar_one : IntegerVar (varInt 1) .int where
  type := rfl
  plain := ⟨fun _ => rfl, fun h => absurd rfl h⟩
  constant := fun _ _ => ⟨1, isInteger_varInt (by decide)⟩
  string := fun h => absurd h (by decide)

theorem pointerVar_constantPointer : PointerVar 1 constantPointer where
  pointer := rfl
  fieldWidth := rfl
  constant := fun _ _ => rfl
  symbol := fun _ => Or.inl rfl
  existing := fun _ h => nomatch h

theorem pointerVar_pointerSymbol : PointerVar 1 (varDirect pointerSymbol) where
  pointer := rfl
  fieldWidth := rfl
  constant := fun _ _ => rfl
  symbol := fun h => nomatch h
  existing := fun _ h _ => some.inj h ▸ Nat.zero_lt_one

/-- `*(char **) 4096 + 1` is the pointer at the address 4097. -/
theorem not_scalesRight_constantPointer :
    ¬ @ScalesRight HostFloat.zero 0 pointerState constantPointer (varInt 1) .int 1 := by
  let _ := HostFloat.zero
  intro h
  have hiff := addSub_scales_iff 0 pointerState constantPointer (varInt 1) .int basicTypeChar 1
    pointerVar_constantPointer integerVar_one rfl rfl (by decide) (by decide) rfl
  exact (hiff.mp h).1 ⟨rfl, rfl, rfl, by decide⟩

/-- `p + 1` -/
theorem scalesRight_pointerSymbol :
    @ScalesRight HostFloat.zero 0 pointerState (varDirect pointerSymbol) (varInt 1) .int 1 := by
  let _ := HostFloat.zero
  have hiff := addSub_scales_iff 0 pointerState (varDirect pointerSymbol) (varInt 1) .int
    basicTypeChar 1 pointerVar_pointerSymbol integerVar_one rfl rfl (by decide) (by decide) rfl
  exact hiff.mpr ⟨fun h => absurd h.1 (by decide), rfl⟩

end Kcs
