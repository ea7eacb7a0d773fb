import Kcs.Eval.Blocks
import Kcs.Eval.Truth
import Kcs.Ir.Steps

/-!
# Pending expressions

The value of an expression that has been parsed is pending: it is held by the last block, as an
operand, an operation or a call that has not been made.  It is evaluated when the block branches on
it, or stored in a temporary by `eval`.

Main results:

- Theorem {lit}`Pending.nonZero_run`: the comparison of a pending value with zero.
-/

namespace Kcs

open Option

section Definitions

variable [HostFloat]

/-- The machine of blocks that test their expression: it is compared with zero in its type. -/
def testMachine (env : RunEnv) : IrMachine RunState where
  exec := execStatement env
  value e s := (exprValue env e s).bind fun (raw, s) =>
    (decode e.type raw).map fun x => (x.isTrue.toNat, s)

/-- The value of an expression at the end of a block.  A call may change the state; any other
expression has the same value whatever later temporaries hold. -/
structure Pending (env : RunEnv) (n : Nat) (e : Expression) (s : RunState) (x : Scalar)
    (s' : RunState) : Prop where
  call : e.op = .call → ∃ raw, exprValue env e s = some (raw, s') ∧ decode e.type raw = some x
  stored : e.op ≠ .call → s' = s ∧ ∀ m', AgreeBelow env n s.mem m' →
    ∃ raw, pureValue env m' e = some raw ∧ decode e.type raw = some x

/-- An expression of scalar type as the parser makes it.  References to operands have the type of
the operand, comparisons have type `int`, constants are canonical, and fields are stored. -/
structure Testable (e : Expression) : Prop where
  scalar : e.type.isScalar = true
  plain : e.type.Plain
  reference : e.op = .cast → e = asExpr e.l ∨ ∀ types, typeEqual types e.type e.l.type = some false
  comparison : e.op.isComparison = true → e.type = basicTypeInt
  constant : e = asExpr e.l → e.l.kind = .immediate → e.l.isString = false →
    e.l.fieldWidth = 0 ∧ e.l.offset = 0 ∧ ∃ x, ImmRepr e.l x
  field : e = asExpr e.l → e.l.fieldWidth ≠ 0 →
    e.l.type.isInteger = true ∧ (e.l.kind = .direct ∨ e.l.kind = .deref)

/-- A reference to a string that has a scalar type. -/
def Expression.IsString (e : Expression) : Prop := e = asExpr e.l ∧ e.l.isString = true

/-- An operand that holds a scalar.  It may be a bit-field. -/
inductive Operand (env : RunEnv) (n : Nat) (m : Memory) (v : Var) (x : Scalar) : Prop
  | scalar (h : StandsFor env n m v x)
  | field (c : CInteger) (a : Int) (hx : x = .int a) (h : IntegerOperand env n m v c a)
      (hkind : v.kind = .direct ∨ v.kind = .deref)

end Definitions

section Pending

variable [HostFloat] {env : RunEnv} {n n' : Nat} {e : Expression} {s : EvalState} {b : BlockId}
  {σ σ' : RunState} {x y : Scalar} {v : Var} {m : Memory}

theorem Pending.value (h : Pending env n e σ x σ') :
    ∃ raw, exprValue env e σ = some (raw, σ') ∧ decode e.type raw = some x := by
  by_cases hop : e.op = .call
  · exact h.call hop
  · rcases h.stored hop with ⟨rfl, hvalue⟩
    rcases hvalue _ (AgreeBelow.refl _ _ _) with ⟨raw, hraw, hdecode⟩
    exact ⟨raw, by simp [exprValue, hop, hraw], hdecode⟩

theorem Pending.test (h : Pending env n e σ x σ') :
    (testMachine env).value e σ = some (x.isTrue.toNat, σ') := by
  rcases h.value with ⟨raw, hraw, hdecode⟩
  simp [testMachine, hraw, hdecode]

theorem Pending.hasType (h : Pending env n e σ x σ') : x.HasType e.type := by
  rcases h.value with ⟨raw, -, hdecode⟩
  exact decode_hasType hdecode

theorem Pending.mono (h : Pending env n e σ x σ') (hle : n ≤ n') : Pending env n' e σ x σ' :=
  ⟨h.call, fun hop => ⟨(h.stored hop).1, fun m' hm' =>
    (h.stored hop).2 m' (hm'.mono fun _ hid => hle.trans hid)⟩⟩

omit [HostFloat] in
theorem ImmRepr.hasType (h : ImmRepr v x) : x.HasType v.type := by
  cases x with
  | int n =>
    rcases h with ⟨c, hword, hrange, -⟩
    exact ⟨c, hword, hrange⟩
  | real k bits => exact ⟨h.1, h.2.1⟩

omit [HostFloat] in
theorem asExpr_ne (hop : e.op ≠ .cast) : e ≠ asExpr e.l := by
  intro h
  rw [h] at hop
  exact hop rfl

omit [HostFloat] in
theorem Testable.isIdentity_eq (he : Testable e) :
    isIdentity e = pure (decide (e = asExpr e.l)) := by
  by_cases hop : e.op = .cast
  · rcases he.reference hop with hsame | hdistinct
    · rw [decide_eq_true hsame]
      rw [hsame]
      exact isIdentity_asExpr e.l
    · have hne : e ≠ asExpr e.l := by
        intro hsame
        have hequal := hdistinct []
        rw [hsame] at hequal
        simp [asExpr, typeEqual_self] at hequal
      funext s
      simp only [isIdentity, hop, if_true, readTable, hdistinct, decide_eq_false hne]
      rfl
  · rw [decide_eq_false (asExpr_ne hop), isIdentity, if_neg hop]

omit [HostFloat] in
theorem Testable.isImmediate_eq (he : Testable e) :
    isImmediate e = pure (decide (e = asExpr e.l ∧ e.l.kind = .immediate)) := by
  rw [isImmediate, he.isIdentity_eq, pure_bind, Bool.decide_and]

omit [HostFloat] in
theorem Testable.standsFor (he : Testable e) (hsame : e = asExpr e.l)
    (hkind : e.l.kind = .immediate) (hstring : ¬ e.IsString) :
    ∃ x, ImmRepr e.l x ∧ ∀ env n m, StandsFor env n m e.l x := by
  have hnot : e.l.isString = false := by
    by_contra h
    exact hstring ⟨hsame, by simpa using h⟩
  have htype : e.type = e.l.type := congrArg Expression.type hsame
  rcases he.constant hsame hkind hnot with ⟨hfield, hoffset, x, hrepr⟩
  exact ⟨x, hrepr, fun env n m => ⟨hfield, htype ▸ he.plain, hrepr.hasType,
    fun _ => ⟨hnot, hoffset, hrepr⟩, fun hne => absurd hkind hne⟩⟩

theorem Testable.cases (he : Testable e) (hstring : ¬ e.IsString) :
    (∃ x, e = asExpr e.l ∧ e.l.kind = .immediate ∧ isImmediateTrue e = pure x.isTrue ∧
        isImmediateFalse e = pure (!x.isTrue) ∧
        ∀ env n σ y σ', Pending env n e σ y σ' → y = x ∧ σ' = σ) ∨
      (¬ (e = asExpr e.l ∧ e.l.kind = .immediate) ∧ isImmediateTrue e = pure false ∧
        isImmediateFalse e = pure false) := by
  by_cases himm : e = asExpr e.l ∧ e.l.kind = .immediate
  · left
    rcases himm with ⟨hsame, hkind⟩
    rcases he.standsFor hsame hkind hstring with ⟨x, hrepr, hstands⟩
    have htype : e.type = e.l.type := congrArg Expression.type hsame
    have hzero : isZeroValue e.l.imm e.type = !x.isTrue := by
      rw [htype]
      exact isZeroValue_isTrue hrepr
    refine ⟨x, hsame, hkind, ?_, ?_, ?_⟩
    · rw [isImmediateTrue, isImmediateWith, he.isImmediate_eq, decide_eq_true ⟨hsame, hkind⟩]
      cases hx : x.isTrue <;> simp [he.scalar, hzero, hx]
    · rw [isImmediateFalse, isImmediateWith, he.isImmediate_eq, decide_eq_true ⟨hsame, hkind⟩]
      cases hx : x.isTrue <;> simp [he.scalar, hzero, hx]
    · intro env n σ y σ' hpending
      have hop : e.op ≠ .call := by
        rw [hsame]
        simp [asExpr]
      rcases hpending.stored hop with ⟨rfl, hvalue⟩
      rcases hvalue _ (AgreeBelow.refl _ _ _) with ⟨raw, hraw, hdecode⟩
      have hbytes := (hstands env n σ'.mem).pureValue_eq
      rcases decode_encode hrepr.hasType with ⟨raw', hencode, -, hdecode'⟩
      rw [← hsame, hraw, hencode, some.injEq] at hbytes
      rw [htype, hbytes, hdecode', some.injEq] at hdecode
      exact ⟨hdecode.symm, rfl⟩
  · right
    refine ⟨himm, ?_, ?_⟩
    · rw [isImmediateTrue, isImmediateWith, he.isImmediate_eq, decide_eq_false himm]
      rfl
    · rw [isImmediateFalse, isImmediateWith, he.isImmediate_eq, decide_eq_false himm]
      rfl

theorem Pending.operand (h : Pending env n e σ x σ') (he : Testable e) (hstring : ¬ e.IsString)
    (hsame : e = asExpr e.l) : σ' = σ ∧ Operand env n σ.mem e.l x := by
  have hop : e.op ≠ .call := by
    rw [hsame]
    simp [asExpr]
  have htype : e.type = e.l.type := congrArg Expression.type hsame
  rcases h.stored hop with ⟨rfl, hvalue⟩
  have hx := h.hasType
  rw [htype] at hx
  -- The value that is converted to its own type is the one that is read.
  have hread : ∀ m', AgreeBelow env n σ'.mem m' →
      ∃ raw, operandValue env m' e.l = some raw ∧ decode e.l.type raw = some x := by
    intro m' hm'
    rcases hvalue m' hm' with ⟨raw, hraw, hdecode⟩
    rw [hsame] at hraw
    rcases bind_eq_some_iff.mp hraw with ⟨raw', hraw', hcast⟩
    simp only [asExpr, castRaw, htype ▸ he.scalar, if_true] at hcast
    rcases bind_eq_some_iff.mp hcast with ⟨y, hy, hcast⟩
    have hyt := decode_hasType hy
    rw [castScalar_like hyt (CType.Like.refl _), bind_some] at hcast
    rcases decode_encode hyt with ⟨raw'', hencode, -, hdecode'⟩
    rw [hencode, some.injEq] at hcast
    rw [htype, ← hcast, hdecode', some.injEq] at hdecode
    exact ⟨raw', hraw', hdecode ▸ hy⟩
  refine ⟨rfl, ?_⟩
  by_cases hfield : e.l.fieldWidth = 0
  · refine .scalar ⟨hfield, htype ▸ he.plain, hx, fun hkind => ?_, fun _ => hread⟩
    rcases he.standsFor hsame hkind hstring with ⟨y, hrepr, hstands⟩
    rcases (hstands env n σ'.mem).operandValue_eq with ⟨raw, hraw, hdecode⟩
    rcases hread _ (AgreeBelow.refl _ _ _) with ⟨raw', hraw', hdecode'⟩
    rw [hraw, some.injEq] at hraw'
    rw [← hraw', hdecode, some.injEq] at hdecode'
    exact hdecode' ▸ (hstands env n σ'.mem).immediate hkind
  · rcases he.field hsame hfield with ⟨hinteger, hkind⟩
    rcases hx.int_of_isInteger hinteger with ⟨c, a, hc, rfl, hrange⟩
    refine .field c a rfl ⟨hc, htype ▸ he.plain, hrange, fun himm => ?_, fun _ => hread⟩ hkind
    rcases hkind with hkind | hkind
    · exact absurd (hkind.symm.trans himm) (by decide)
    · exact absurd (hkind.symm.trans himm) (by decide)

theorem assignTemporary_run {raw : Nat} {res : Var} {sym : Symbol} (hroom : Room env n)
    (hscalar : e.type.isScalar = true) (hplain : e.type.Plain)
    (hvalue : exprValue env e σ = some (raw, σ')) (hdecode : decode e.type raw = some x)
    (hkind : res.kind = .direct) (htype : res.type = e.type) (hsymbol : res.symbol = some sym)
    (hid : sym.id = n) (hoffset : res.offset = 0) (hfield : res.fieldWidth = 0) :
    ∃ m, execStatement env { st := .assign, t := res, expr := e } σ = some { σ' with mem := m } ∧
      AgreeBetween env n (n + 1) σ'.mem m ∧
      StandsFor env (n + 1) m { res with lvalue := false } x := by
  have hx : x.HasType e.type := decode_hasType hdecode
  have hsize : sizeOf env.types res.type = some e.type.scalarSize := by
    rw [htype]
    exact sizeOf_of_isScalar hscalar
  have hle : e.type.scalarSize ≤ env.extent n := by
    have hsixteen : e.type.scalarSize ≤ 16 := by
      unfold CType.scalarSize
      split <;> decide
    exact hsixteen.trans (hroom _ le_rfl)
  have hlocate : locate env σ'.mem res e.type.scalarSize = some (env.addr n) := by
    simp only [locate, hkind, hsymbol, bind_some, hid, hoffset]
    rw [if_pos (by simpa using hle)]
    simp
  have hstore : storeOperand env σ'.mem res raw =
      some (σ'.mem.store (env.addr n) e.type.scalarSize raw) := by
    simp [storeOperand, hsize, hlocate, Var.isField, hfield]
  refine ⟨σ'.mem.store (env.addr n) e.type.scalarSize raw, ?_, agreeBetween_store hle, ?_⟩
  · simp [execStatement, hvalue, hstore]
  · -- Bytes of the result of a call behind those of its type are not stored.
    have hlt : raw % 256 ^ e.type.scalarSize < 256 ^ e.type.scalarSize :=
      Nat.mod_lt _ (by positivity)
    have hstands := standsFor_temporary (m := σ'.mem) (v := { res with lvalue := false })
      (y := x) hroom hkind hsymbol hid hoffset hfield (by rw [htype]; exact hplain)
      (by rw [htype]; exact hx) (by rw [htype]; exact hlt)
      (by rw [htype, decode_mod]; exact hdecode)
    rw [← Memory.store_mod]
    simpa [htype] using hstands

theorem Pending.eval_run (h : Pending env s.symbols.length e σ x σ') (he : Testable e)
    (hstring : ¬ e.IsString) (hroom : Room env s.symbols.length) :
    ∃ w s' code m, eval (some b) e s = .ok (w, s') ∧ EmitsTo b s s' code ∧
      execCode (irMachine env) code σ = some { σ' with mem := m } ∧
      AgreeBetween env s.symbols.length s'.symbols.length σ'.mem m ∧
      Operand env s'.symbols.length m w x ∧ w.type = e.type ∧
      (w.kind = .immediate → e = asExpr e.l ∧ e.l.kind = .immediate) := by
  by_cases hsame : e = asExpr e.l
  · rcases h.operand he hstring hsame with ⟨rfl, hoperand⟩
    refine ⟨e.l, s, [], σ'.mem, ?_, EmitsTo.refl b s, rfl, AgreeOutside.refl env _ _, hoperand,
      (congrArg Expression.type hsame).symm, fun hkind => ⟨hsame, hkind⟩⟩
    rw [hsame]
    exact congrFun (eval_asExpr (some b) e.l) s
  · have hidentity : isIdentity e s = .ok (false, s) := by
      rw [he.isIdentity_eq, decide_eq_false hsame]
      rfl
    rcases h.value with ⟨raw, hraw, hdecode⟩
    rcases eval_eq_temporary (b := b) hidentity he.scalar with
      ⟨sym, res, hid, -, -, hkind, htype, hsymbol, hoffset, hfield, heval⟩
    rcases assignTemporary_run hroom he.scalar he.plain hraw hdecode hkind htype hsymbol hid
      hoffset hfield with ⟨m, hrun, hagree, hstands⟩
    refine ⟨_, _, [{ st := .assign, t := res, expr := e }], m, heval, ⟨rfl, by simp, rfl⟩, ?_,
      by simpa using hagree, .scalar (by simpa using hstands), htype, fun hno => ?_⟩
    · simp [irMachine, hrun]
    · exact absurd (hkind.symm.trans hno) (by decide)

theorem Operand.integer {c : CInteger} {a : Int} (h : Operand env n m v (.int a))
    (htype : v.type.cInteger = some c) :
    IntegerOperand env n m v c a ∧ (v.fieldWidth ≠ 0 → v.kind = .direct ∨ v.kind = .deref) := by
  cases h with
  | scalar h => exact ⟨h.operand htype, fun hno => absurd h.fieldWidth hno⟩
  | field c' a' hx h hkind =>
    have hc := h.type
    rw [htype, some.injEq] at hc
    rw [Scalar.int.injEq] at hx
    exact ⟨hc ▸ hx ▸ h, fun _ => hkind⟩

theorem Operand.nonZero_emits [LawfulHostFloat] (h : Operand env s.symbols.length m v x)
    (hroom : Room env s.symbols.length) :
    Emits env b s m (evalBinary (some b) .ne v (varInt 0)) (Tests env x.isTrue) := by
  cases h with
  | scalar h =>
    cases x with
    | real k bits => exact h.realNonZero_emits hroom
    | int a =>
      rcases h.hasType with ⟨c, hword, -⟩
      by_cases hpointer : v.type.isPointerType = true
      · exact h.pointerNonZero_emits hpointer
      · rw [CType.wordType, if_neg hpointer] at hword
        exact (h.operand hword).nonZero_emits hroom fun hno => absurd h.fieldWidth hno
  | field c a hx h hkind =>
    subst hx
    exact h.nonZero_emits hroom fun _ => hkind

/-- The comparison of a pending value with zero. -/
theorem Pending.nonZero_run [LawfulHostFloat] (h : Pending env s.symbols.length e σ x σ')
    (he : Testable e) (hstring : ¬ e.IsString) (hroom : Room env s.symbols.length) :
    ∃ e' s' code m, (eval (some b) e >>= fun v => evalBinary (some b) .ne v (varInt 0)) s =
        .ok (e', s') ∧ EmitsTo b s s' code ∧
      execCode (irMachine env) code σ = some { σ' with mem := m } ∧
      AgreeBetween env s.symbols.length s'.symbols.length σ'.mem m ∧
      Tests env x.isTrue e' s' m := by
  rcases h.eval_run (b := b) he hstring hroom with
    ⟨w, s1, code1, m1, heval, hemits1, hrun1, hagree1, hw, -, -⟩
  rcases hw.nonZero_emits (b := b) (hroom.mono hemits1.symbols) with
    ⟨e', s2, code2, m2, hne, hemits2, hrun2, hagree2, htests⟩
  refine ⟨e', s2, code1 ++ code2, m2, (bind_of_ok heval).trans hne, hemits1.trans hemits2, ?_,
    hagree1.trans hagree2 hemits1.symbols hemits2.symbols, htests⟩
  rw [execCode_append, hrun1]
  exact hrun2 σ'.params σ'.trace

theorem Tests.pending {p : Bool} (h : Tests env p e s σ.mem) :
    Pending env s.symbols.length e σ (.int (CInteger.ofBool p)) σ := by
  have hop : e.op ≠ .call := by
    rcases h.shape with rfl | hop
    · simp [asExpr]
    · rw [hop]
      decide
  refine ⟨fun hno => absurd hno hop, fun _ => ⟨rfl, fun m' hm' => ⟨_, h.value m' hm', ?_⟩⟩⟩
  rw [h.type]
  exact (encode_ofBool p).2

theorem Tests.testable {p : Bool} (h : Tests env p e s m) : Testable e ∧ ¬ e.IsString := by
  have hscalar : e.type.isScalar = true ∧ e.type.Plain := by
    rw [h.type]
    exact ⟨rfl, plain_int⟩
  rcases h.shape with rfl | hop
  · have hint := isInteger_ofBool p
    refine ⟨⟨hscalar.1, hscalar.2, fun _ => Or.inl rfl, fun _ => h.type,
      fun _ _ _ => ⟨hint.fieldWidth, hint.offset, .int (CInteger.ofBool p), .int, rfl,
        hint.inRange, hint.word⟩, fun _ hno => absurd hint.fieldWidth hno⟩, fun hstring => ?_⟩
    exact absurd (hint.notString.symm.trans hstring.2) Bool.false_ne_true
  · have hne : e ≠ asExpr e.l := asExpr_ne (by rw [hop]; decide)
    refine ⟨⟨hscalar.1, hscalar.2, fun hcast => ?_, fun _ => h.type, fun hno => absurd hno hne,
      fun hno => absurd hno hne⟩, fun hstring => hne hstring.1⟩
    rw [hop] at hcast
    cases hcast

theorem Testable.nonZero_lower [LawfulHostFloat] {blk : Block} (he : Testable e)
    (hstring : ¬ e.IsString) (hroom : Room env s.symbols.length) (hblk : s.blocks[b]? = some blk)
    (hvalue : ∃ σ x σ', Pending env s.symbols.length e σ x σ') :
    ∃ e' s' code, (eval (some b) e >>= fun v => evalBinary (some b) .ne v (varInt 0)) s =
        .ok (e', s') ∧ EmitsTo b s s' code ∧
      ∀ σ x σ', Pending env s.symbols.length e σ x σ' → ∃ m,
        execCode (irMachine env) code σ = some { σ' with mem := m } ∧
        AgreeBetween env s.symbols.length s'.symbols.length σ'.mem m ∧
        Tests env x.isTrue e' s' m := by
  rcases hvalue with ⟨σ, x, σ', hpending⟩
  rcases hpending.nonZero_run (b := b) he hstring hroom with
    ⟨e', s', code, -, hok, hemits, -, -, -⟩
  refine ⟨e', s', code, hok, hemits, fun σ x σ' hpending => ?_⟩
  rcases hpending.nonZero_run (b := b) he hstring hroom with
    ⟨e'', s'', code', m, hok', hemits', hrun, hagree, htests⟩
  rw [hok] at hok'
  cases hok'
  have hcode : code = code' := by
    have hblock := congrArg (·[b]?) (hemits.blocks.symm.trans hemits'.blocks)
    simpa [hblk] using hblock
  subst hcode
  exact ⟨m, hrun, hagree, htests⟩

theorem binaryScalar_isComparison {op : OpType} {t : CType} {z : Scalar}
    (hop : op.isComparison = true) (h : binaryScalar op t x y = some z) :
    ∃ p, z = .int (CInteger.ofBool p) := by
  cases x with
  | int a =>
    cases y with
    | real k bits => cases h
    | int c =>
      simp only [binaryScalar, bind_eq_some_iff, map_eq_some_iff] at h
      rcases h with ⟨c, -, o, ho, n, hn, rfl⟩
      rw [← binaryOp_isComparison ho] at hop
      rcases CInteger.binary_comparison hop hn with ⟨p, rfl⟩
      exact ⟨p, rfl⟩
  | real j bits =>
    cases y with
    | int c => cases h
    | real k bits' =>
      simp only [binaryScalar] at h
      split at h
      · cases op <;> simp only [OpType.isComparison, Bool.false_eq_true] at hop <;>
          simp only [realScalar, some.injEq] at h <;> exact ⟨_, h.symm⟩
      · cases h

theorem Pending.comparison (h : Pending env n e σ x σ') (he : Testable e)
    (hop : e.op.isComparison = true) : x = .int (CInteger.ofBool x.isTrue) := by
  have hcall : e.op ≠ .call := by
    intro hno
    rw [hno] at hop
    cases hop
  rcases (h.stored hcall).2 _ (AgreeBelow.refl _ _ _) with ⟨raw, hraw, hdecode⟩
  have hz : ∃ t a c z, binaryScalar e.op t a c = some z ∧ encode e.type z = some raw := by
    unfold pureValue at hraw
    rcases bind_eq_some_iff.mp hraw with ⟨l, -, hraw⟩
    cases hcases : e.op <;> rw [hcases] at hop <;>
      simp only [OpType.isComparison, Bool.false_eq_true] at hop <;>
      simp only [hcases, bind_eq_some_iff] at hraw <;>
      (rcases hraw with ⟨r, -, a, -, c, -, z, hz, hencode⟩; exact ⟨_, a, c, z, hz, hencode⟩)
  rcases hz with ⟨t, a, c, z, hz, hencode⟩
  rcases binaryScalar_isComparison hop hz with ⟨p, rfl⟩
  rw [he.comparison hop] at hencode hdecode
  rw [(encode_ofBool p).1, some.injEq] at hencode
  rw [← hencode, (encode_ofBool p).2, some.injEq] at hdecode
  rw [← hdecode, isTrue_ofBool]

end Pending

/-! ## A variable -/

/-- A variable of type `int`. -/
def intSymbol : Symbol := { id := 0, name := "x", type := basicTypeInt }

theorem standsFor_intSymbol {m : Memory} {x : Scalar}
    (h : (operandValue spacedEnv m (varDirect intSymbol)).bind (decode basicTypeInt) = some x) :
    StandsFor spacedEnv 1 m (varDirect intSymbol) x where
  fieldWidth := rfl
  plain := plain_int
  hasType := by
    rcases bind_eq_some_iff.mp h with ⟨raw, -, hdecode⟩
    exact decode_hasType hdecode
  immediate := fun hno => nomatch hno
  stored := by
    intro _ m' hm'
    rcases bind_eq_some_iff.mp h with ⟨raw, hraw, hdecode⟩
    have hload : m'.load (spacedEnv.addr 0) 4 = m.load (spacedEnv.addr 0) 4 :=
      hm'.load_eq Nat.zero_lt_one le_rfl (by decide)
    have hread : ∀ m : Memory, operandValue spacedEnv m (varDirect intSymbol) =
        some (m.load (spacedEnv.addr 0) 4) := fun _ => rfl
    refine ⟨raw, ?_, hdecode⟩
    rw [hread, hload, ← hread]
    exact hraw

end Kcs
