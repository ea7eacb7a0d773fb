import Kcs.Eval.Fold
import Kcs.Ir.Semantics

/-!
# Run-time meaning of evaluated expressions

The statements that the evaluator appends to a block are run on a memory.  An
operand stands for a scalar in every memory that differs only in temporaries
yet to be created, so that a value computed early survives the temporaries of
later operations.

Main results:

- Lemma {lit}`Emits.bind`: the code of a sequence of evaluations runs in
  sequence.
- Lemma {lit}`evalCast_emits`: the converted operand stands for the converted
  scalar.
-/

namespace Kcs

open List
open Option hiding bind_assoc

/-! ## Memories and temporaries -/

section Agreement

variable {env : RunEnv} {n n' : Nat} {m m' m'' : Memory}

/-- Two memories agree outside the storage of the given symbols. -/
def AgreeOutside (env : RunEnv) (P : Nat → Prop) (m m' : Memory) : Prop :=
  ∀ x, (∀ id, P id → x < env.addr id ∨ env.addr id + env.extent id ≤ x) → m' x = m x

/-- Two memories agree outside the storage of symbols that are yet to be
created. -/
def AgreeBelow (env : RunEnv) (n : Nat) (m m' : Memory) : Prop :=
  AgreeOutside env (n ≤ ·) m m'

/-- Every symbol yet to be created has room for a scalar. -/
def Room (env : RunEnv) (n : Nat) : Prop :=
  ∀ id, n ≤ id → 16 ≤ env.extent id

theorem AgreeOutside.refl (env : RunEnv) (P : Nat → Prop) (m : Memory) :
    AgreeOutside env P m m :=
  fun _ _ => rfl

theorem AgreeOutside.mono {P Q : Nat → Prop} (h : AgreeOutside env P m m')
    (hPQ : ∀ id, P id → Q id) : AgreeOutside env Q m m' :=
  fun x hx => h x fun id hid => hx id (hPQ id hid)

theorem AgreeOutside.trans {P : Nat → Prop} (h : AgreeOutside env P m m')
    (h' : AgreeOutside env P m' m'') : AgreeOutside env P m m'' := by
  intro x hx
  rw [h' x hx, h x hx]

theorem AgreeOutside.load_eq {P : Nat → Prop} (h : AgreeOutside env P m m') {id a k : Nat}
    (hid : ¬ P id) (hlo : env.addr id ≤ a) (hhi : a + k ≤ env.addr id + env.extent id) :
    m'.load a k = m.load a k := by
  apply Memory.load_congr
  intro x hxlo hxhi
  apply h
  intro id' hid'
  have hne : id ≠ id' := fun heq => hid (heq ▸ hid')
  have hdisjoint := env.disjoint id id' hne
  omega

theorem AgreeBelow.refl (env : RunEnv) (n : Nat) (m : Memory) : AgreeBelow env n m m :=
  AgreeOutside.refl env _ m

theorem AgreeBelow.trans (h : AgreeBelow env n m m') (hle : n ≤ n')
    (h' : AgreeBelow env n' m' m'') : AgreeBelow env n m m'' :=
  AgreeOutside.trans h (h'.mono fun _ hid => hle.trans hid)

theorem Room.mono (h : Room env n) (hle : n ≤ n') : Room env n' :=
  fun id hid => h id (hle.trans hid)

theorem AgreeBelow.load_eq (h : AgreeBelow env n m m') {id a k : Nat} (hid : id < n)
    (hlo : env.addr id ≤ a) (hhi : a + k ≤ env.addr id + env.extent id) :
    m'.load a k = m.load a k :=
  AgreeOutside.load_eq h (Nat.not_le.mpr hid) hlo hhi

/-- Changes of the symbols created between two moments. -/
def AgreeBetween (env : RunEnv) (lo hi : Nat) (m m' : Memory) : Prop :=
  AgreeOutside env (fun id => lo ≤ id ∧ id < hi) m m'

theorem AgreeBetween.agreeBelow {lo hi : Nat} (h : AgreeBetween env lo hi m m') :
    AgreeBelow env lo m m' :=
  h.mono fun _ hid => hid.1

theorem AgreeBetween.trans {lo mid hi : Nat} (h : AgreeBetween env lo mid m m')
    (h' : AgreeBetween env mid hi m' m'') (hlo : lo ≤ mid) (hhi : mid ≤ hi) :
    AgreeBetween env lo hi m m'' :=
  AgreeOutside.trans (h.mono fun _ hid => ⟨hid.1, lt_of_lt_of_le hid.2 hhi⟩)
    (h'.mono fun _ hid => ⟨hlo.trans hid.1, hid.2⟩)

end Agreement

/-! ## A layout of objects -/

/-- Objects of sixteen bytes, one behind the other. -/
def spacedEnv : RunEnv where
  types := []
  addr id := 16 * (id + 1)
  extent _ := 16
  callee _ _ m := (0, m)
  addr_pos _ := by omega
  disjoint (i j : Nat) hne := by
    have hne' : i < j ∨ j < i := Nat.lt_or_gt_of_ne hne
    show 16 * (i + 1) + 16 ≤ 16 * (j + 1) ∨ 16 * (j + 1) + 16 ≤ 16 * (i + 1)
    omega

theorem room_spacedEnv (n : Nat) : Room spacedEnv n := fun _ _ => le_refl _

/-! ## Operands that stand for scalars -/

/-- The constant that an immediate holds. -/
def ImmRepr (v : Var) : Scalar → Prop
  | .int n => ∃ t, v.type.wordType = some t ∧ t.format.InRange n ∧ v.imm.lo = BitVec.ofInt 64 n
  | .real k x => v.type.wordType = none ∧ v.type.realKind = some k ∧ v.imm.real k = x

/-- Handles of scalar types as the constructors make them: only pointers refer to
the type table, and floating types are not marked as unsigned. -/
structure CType.Plain (t : CType) : Prop where
  ref : t.isPointerType = false → t.ref = 0
  unsigned : t.realKind ≠ none → t.isUnsignedType = false

/-- An operand stands for a scalar, whatever later temporaries hold. -/
structure StandsFor (env : RunEnv) (n : Nat) (m : Memory) (v : Var) (x : Scalar) : Prop where
  fieldWidth : v.fieldWidth = 0
  plain : v.type.Plain
  hasType : x.HasType v.type
  immediate : v.kind = .immediate → v.isString = false ∧ v.offset = 0 ∧ ImmRepr v x
  stored : v.kind ≠ .immediate → ∀ m', AgreeBelow env n m m' →
    ∃ raw, operandValue env m' v = some raw ∧ decode v.type raw = some x

section Operands

variable {env : RunEnv} {n n' : Nat} {m m' : Memory} {v : Var} {x : Scalar}

theorem StandsFor.mono (h : StandsFor env n m v x) (hle : n ≤ n') (hm : AgreeBelow env n m m') :
    StandsFor env n' m' v x where
  fieldWidth := h.fieldWidth
  plain := h.plain
  hasType := h.hasType
  immediate := h.immediate
  stored := fun hkind m'' hm'' => h.stored hkind m'' (hm.trans hle hm'')

theorem immediateValue_of_not_string (hkind : v.kind = .immediate) (hstring : v.isString = false)
    (size : Nat) : immediateValue env m v size =
      (v.imm.lo.toNat + 2 ^ 64 * v.imm.hi.toNat) % 256 ^ size := by
  unfold immediateValue
  cases hsymbol : v.symbol with
  | none => rfl
  | some sym =>
    have hsym : sym.symtype ≠ .stringValue := by
      simpa [Var.isString, hkind, hsymbol] using hstring
    simp [hsym]

theorem ofNat_union (w size lo hi : Nat) (hw : w ≤ 64) (hsize : w ≤ 8 * size) :
    BitVec.ofNat w ((lo + 2 ^ 64 * hi) % 256 ^ size) = BitVec.ofNat w lo := by
  have hpow : (256 : Nat) ^ size = 2 ^ (8 * size) := by
    rw [pow_mul]
    norm_num
  have hdvd : (2 : Nat) ^ w ∣ 2 ^ 64 * hi := (pow_dvd_pow 2 hw).mul_right hi
  apply BitVec.eq_of_toNat_eq
  rw [BitVec.toNat_ofNat, BitVec.toNat_ofNat, hpow, Nat.mod_mod_of_dvd _ (pow_dvd_pow 2 hsize),
    Nat.add_mod, Nat.mod_eq_zero_of_dvd hdvd, Nat.add_zero, Nat.mod_mod]

theorem operandValue_of_immRepr (hkind : v.kind = .immediate) (hstring : v.isString = false)
    (hx : x.HasType v.type) (hrepr : ImmRepr v x) :
    ∃ raw, operandValue env m v = some raw ∧ decode v.type raw = some x := by
  have hsize : sizeOf env.types v.type = some v.type.scalarSize := sizeOf_of_isScalar hx.isScalar
  refine ⟨_, by simp only [operandValue, hsize, bind_some, hkind]; rfl, ?_⟩
  rw [immediateValue_of_not_string hkind hstring]
  cases x with
  | int k =>
    rcases hrepr with ⟨t, hword, hrange, hlo⟩
    have hbits : BitVec.ofNat t.format.width v.imm.lo.toNat = BitVec.ofInt t.format.width k := by
      rw [hlo, ← IntFormat.setWidth_ofInt]
      apply BitVec.eq_of_toNat_eq
      simp
    simp only [decode, hword]
    rw [ofNat_union _ _ _ _ t.format.width_le (CType.width_le_scalarSize hword), hbits]
    exact congrArg _ (congrArg _ hrange)
  | real k b =>
    rcases hrepr with ⟨hword, hreal, hbits⟩
    have hwidth := CType.realWidth hreal
    simp only [decode, hword, hreal, map_some]
    rw [← hbits]
    congr 2
    cases k with
    | float =>
      rw [ofNat_union _ _ _ _ (by decide) hwidth.le]
      apply BitVec.eq_of_toNat_eq
      simp [Value.real]
      rfl
    | double =>
      rw [ofNat_union _ _ _ _ (by decide) hwidth.le]
      exact BitVec.ofNat_toNat 64 v.imm.lo
    | ldouble =>
      apply BitVec.eq_of_toNat_eq
      have hlo := v.imm.lo.isLt
      have hhi := v.imm.hi.isLt
      have hsixteen : v.type.scalarSize = 16 := by
        have h128 : 8 * v.type.scalarSize = 128 := hwidth.symm
        omega
      have happend : (v.imm.real .ldouble).toNat = v.imm.hi.toNat * 2 ^ 64 + v.imm.lo.toNat := by
        show (v.imm.hi ++ v.imm.lo).toNat = _
        rw [BitVec.toNat_append, ← Nat.shiftLeft_add_eq_or_of_lt hlo, Nat.shiftLeft_eq]
      rw [happend, hsixteen, BitVec.toNat_ofNat, show RealKind.ldouble.width = 128 from rfl]
      norm_num
      omega

theorem StandsFor.operandValue_eq (h : StandsFor env n m v x) :
    ∃ raw, operandValue env m v = some raw ∧ decode v.type raw = some x := by
  by_cases hkind : v.kind = .immediate
  · rcases h.immediate hkind with ⟨hstring, -, hrepr⟩
    exact operandValue_of_immRepr hkind hstring h.hasType hrepr
  · exact h.stored hkind m (AgreeBelow.refl env n m)

end Operands

/-! ## Emitted code -/

/-- An evaluation appended code to a block and left the rest as it was, but for
new symbols. -/
structure EmitsTo (b : BlockId) (s s' : EvalState) (code : List Statement) : Prop where
  types : s'.types = s.types
  symbols : s.symbols.length ≤ s'.symbols.length
  blocks : s'.blocks = s.blocks.modify b fun blk => { blk with code := blk.code ++ code }

/-- The evaluation succeeds, its code runs from the memory, and the result
satisfies the postcondition in the memory after that code. -/
def Emits [HostFloat] {α : Type} (env : RunEnv) (b : BlockId) (s : EvalState) (m : Memory)
    (c : EvalM α) (Q : α → EvalState → Memory → Prop) : Prop :=
  ∃ a s' code m', c s = .ok (a, s') ∧ EmitsTo b s s' code ∧
    (∀ params trace, execCode (irMachine env) code { mem := m, params := params, trace := trace } =
      some { mem := m', params := params, trace := trace }) ∧
    AgreeBetween env s.symbols.length s'.symbols.length m m' ∧ Q a s' m'

section Triples

variable [HostFloat] {α β : Type} {env : RunEnv} {b : BlockId} {s : EvalState} {m : Memory}

omit [HostFloat] in
theorem EmitsTo.refl (b : BlockId) (s : EvalState) : EmitsTo b s s [] where
  types := rfl
  symbols := le_rfl
  blocks := by
    apply ext_getElem?
    intro i
    rw [getElem?_modify]
    split <;> simp

omit [HostFloat] in
theorem EmitsTo.trans {s' s'' : EvalState} {code code' : List Statement}
    (h : EmitsTo b s s' code) (h' : EmitsTo b s' s'' code') :
    EmitsTo b s s'' (code ++ code') where
  types := h'.types.trans h.types
  symbols := h.symbols.trans h'.symbols
  blocks := by
    rw [h'.blocks, h.blocks]
    apply ext_getElem?
    intro i
    rw [getElem?_modify, getElem?_modify, getElem?_modify]
    split
    · cases s.blocks[i]? <;> simp
    · cases s.blocks[i]? <;> simp

variable {Q : α → EvalState → Memory → Prop}

theorem Emits.pure {a : α} (h : Q a s m) :
    Emits env b s m (pure a) Q :=
  ⟨a, s, [], m, rfl, EmitsTo.refl b s, fun _ _ => rfl, AgreeOutside.refl env _ m, h⟩

/-- The code of a sequence runs in sequence. -/
theorem Emits.bind {R : β → EvalState → Memory → Prop}
    {c : EvalM α} {f : α → EvalM β} (hc : Emits env b s m c Q)
    (hf : ∀ a s' m', s.symbols.length ≤ s'.symbols.length → s'.types = s.types →
      AgreeBelow env s.symbols.length m m' → Q a s' m' → Emits env b s' m' (f a) R) :
    Emits env b s m (c >>= f) R := by
  rcases hc with ⟨a, s', code, m', hok, hemit, hrun, hagree, hQ⟩
  rcases hf a s' m' hemit.symbols hemit.types hagree.agreeBelow hQ with
    ⟨a', s'', code', m'', hok', hemit', hrun', hagree', hR⟩
  refine ⟨a', s'', code ++ code', m'', ?_, hemit.trans hemit', ?_,
    hagree.trans hagree' hemit.symbols hemit'.symbols, hR⟩
  · show (c s >>= fun p => f p.1 p.2) = _
    rw [hok]
    exact hok'
  · intro params trace
    rw [execCode_append, hrun params trace]
    exact hrun' params trace

theorem Emits.bindTable {f : TypeTable → Option α} {g : α → EvalM β} {a : α}
    {Q : β → EvalState → Memory → Prop} (hf : f s.types = some a) (h : Emits env b s m (g a) Q) :
    Emits env b s m (Kcs.readTable f >>= g) Q := by
  rcases h with ⟨x, s', code, m', hrun, hrest⟩
  have hread : Kcs.readTable f s = .ok (a, s) := by simp [Kcs.readTable, hf]
  refine ⟨x, s', code, m', ?_, hrest⟩
  show (Kcs.readTable f s >>= fun p => g p.1 p.2) = _
  rw [hread]
  exact hrun

theorem Emits.mono {Q R : α → EvalState → Memory → Prop} {c : EvalM α}
    (hc : Emits env b s m c Q) (h : ∀ a s' m', Q a s' m' → R a s' m') : Emits env b s m c R := by
  rcases hc with ⟨a, s', code, m', hok, hemit, hrun, hagree, hQ⟩
  exact ⟨a, s', code, m', hok, hemit, hrun, hagree, h a s' m' hQ⟩

end Triples

/-! ## Conversion of constants -/

section Conversion

variable [HostFloat] {v : Var} {type : CType} {x y : Scalar}

theorem immediateInt_of_repr {n : Int} (h : ImmRepr v (.int n)) :
    immediateInt v.imm v.type = n := by
  rcases h with ⟨t, hword, hrange, hlo⟩
  have hvalue := IntFormat.ofWord_ofInt hrange
  rw [← hlo, IntFormat.ofWord] at hvalue
  unfold immediateInt
  rcases CType.wordType_cases hword with ⟨hkind, rfl⟩ | hint
  · have hsigned : v.type.isSigned = false := by
      rw [CType.isSigned, CType.isInteger, hkind]
      cases v.type.isUnsignedType <;> rfl
    have hpointer : v.type.isPointerType = true := by
      rw [CType.isPointerType, hkind]
      rfl
    rw [if_neg (by simp [hsigned]), if_pos (by simp [hpointer])]
    exact hvalue
  · have hsigned := CType.isSigned_of_cInteger hint
    have hunsigned := (CType.cInteger_eq_some_iff.mp hint).2
    by_cases hs : t.format.signed = true
    · rw [if_pos (hsigned.trans hs)]
      rwa [if_pos hs] at hvalue
    · have hs' : v.type.isSigned = false := by rw [hsigned]; simpa using hs
      have hu : v.type.isUnsignedType = true := by
        simpa [CType.isSigned, CType.isInteger_of_cInteger hint] using hs'
      rw [if_neg (by simp [hs']), if_pos (by simp [hu])]
      rwa [if_neg hs] at hvalue

omit [HostFloat] in
theorem CType.realKind_of_wordType {t : CType} {c : CInteger} (h : t.wordType = some c) :
    t.realKind = none := by
  rcases CType.wordType_cases h with ⟨hkind, -⟩ | hint
  · rw [CType.realKind, hkind]
  · exact CType.realKind_of_cInteger hint

theorem isZeroValue_of_repr {n : Int} (h : ImmRepr v (.int n)) :
    isZeroValue v.imm v.type = decide (n = 0) := by
  rcases h with ⟨t, hword, hrange, hlo⟩
  rw [isZeroValue, CType.realKind_of_wordType hword]
  simp only [Value.u, hlo]
  by_cases hn : n = 0
  · subst hn
    simp
  · have hne := ofInt_ne_zero hrange hn
    have hnat : (BitVec.ofInt 64 n).toNat ≠ 0 := fun hzero =>
      hne (BitVec.eq_of_toNat_eq (by simpa using hzero))
    rw [decide_eq_false hn]
    exact decide_eq_false hnat

variable {val : Value}

theorem convert_word {c : CInteger} (htype : type.wordType = some c)
    (hbool : c ≠ .bool) (t : CType) : ∃ f : IntFormat, f = c.format ∧
      convert val t type = some (convertInt val t f) := by
  refine ⟨c.format, rfl, ?_⟩
  rcases CType.wordType_cases htype with ⟨hkind, rfl⟩ | hint
  · rw [convert, hkind]
    rfl
  · rw [convert, (CType.cInteger_eq_some_iff.mp hint).1, CType.isSigned_of_cInteger hint]
    cases c <;> first | exact absurd rfl hbool | rfl

theorem convert_bool (htype : type.wordType = some .bool) (t : CType) :
    convert val t type = some (val.setU (if isZeroValue val t then 0 else 1)) := by
  rcases CType.wordType_cases htype with ⟨-, h⟩ | hint
  · cases h
  · rw [convert, (CType.cInteger_eq_some_iff.mp hint).1]
    rfl

variable {k : RealKind}

theorem convert_real (htype : type.realKind = some k) (t : CType) :
    convert val t type = some (convertReal val t k) := by
  unfold CType.realKind at htype
  unfold convert
  split at htype <;> simp_all

theorem convertInt_of_repr {n : Int} (h : ImmRepr v (.int n)) (f : IntFormat) :
    (convertInt v.imm v.type f).lo = BitVec.ofInt 64 (f.wrap n) := by
  rcases h with ⟨t, hword, hrange, hlo⟩
  have hreal := CType.realKind_of_wordType hword
  have hvalue : immediateInt v.imm v.type = n := immediateInt_of_repr ⟨t, hword, hrange, hlo⟩
  simp only [convertInt, isFloatBelow, isFloatAbove, hreal, hvalue, Bool.false_eq_true, if_false]
  split <;> rfl

omit [HostFloat] in
theorem CType.not_word_of_realKind {t : CType} (h : t.realKind = some k) :
    t.isSigned = false ∧ t.isPointerType = false := by
  unfold CType.realKind at h
  unfold CType.isSigned CType.isInteger CType.isPointerType
  cases hkind : t.typeOf <;> rw [hkind] at h <;>
    first | (cases h; done) | (cases t.isUnsignedType <;> decide)

theorem convertInt_of_real [LawfulHostFloat] {b : BitVec k.width}
    (h : ImmRepr v (.real k b)) (hunsigned : v.type.isUnsignedType = false) {f : IntFormat}
    (hrange : f.InRange (HostFloat.truncate k b)) :
    (convertInt v.imm v.type f).lo = BitVec.ofInt 64 (HostFloat.truncate k b) := by
  rcases h with ⟨-, hreal, hbits⟩
  rcases CType.not_word_of_realKind hreal with ⟨hsigned, hpointer⟩
  have hvalue : immediateInt v.imm v.type = HostFloat.truncate k b := by
    simp only [immediateInt, hsigned, hunsigned, hpointer, Bool.or_self, Bool.false_eq_true,
      if_false]
    generalize v.type.realKind = kind at hreal
    subst hreal
    rw [getD_some, hbits]
  rcases hrange.bounds with ⟨hmin, hmax⟩
  rcases f.bounds_word with ⟨hmin1, hmin2, hmax1, hmax2⟩
  have hchosen : (if isFloatBelow v.imm v.type f.minValue then f.minValue
      else if isFloatAbove v.imm v.type f.maxValue then f.maxValue
      else f.wrap (immediateInt v.imm v.type)) = HostFloat.truncate k b := by
    simp only [isFloatBelow, isFloatAbove, hreal, hbits, hvalue]
    split
    · rename_i hbelow
      have := LawfulHostFloat.truncate_le k b _ hmin1 hmin2 hbelow
      omega
    · split
      · rename_i _ habove
        have := LawfulHostFloat.le_truncate k b _ hmax1 hmax2 habove
        omega
      · exact hrange
  simp only [convertInt, hchosen]
  split <;> rfl

theorem convertReal_of_repr {n : Int} (h : ImmRepr v (.int n))
    (hpointer : v.type.isPointerType = false) (k : RealKind) :
    (convertReal v.imm v.type k).real k = HostFloat.ofInt k n := by
  have hvalue := immediateInt_of_repr h
  rcases h with ⟨t, hword, -, -⟩
  have hint := (CType.wordType_cases hword).resolve_left fun hkind => by
    rw [CType.isPointerType, hkind.1] at hpointer
    cases hpointer
  unfold convertReal
  rw [CType.realKind_of_wordType hword]
  unfold immediateInt at hvalue
  by_cases hs : v.type.isSigned = true
  · rw [if_pos hs] at hvalue
    simp only [hs, if_true]
    rw [Value.real_setReal, hvalue]
  · have hu : v.type.isUnsignedType = true := by
      simpa [CType.isSigned, CType.isInteger_of_cInteger hint] using hs
    rw [if_neg hs, if_pos (by simp [hu])] at hvalue
    simp only [hs, hu, if_true]
    rw [← hvalue]
    simp [Value.real_setReal]

/-- The number that a constant is converted to. -/
theorem convert_repr [LawfulHostFloat] (hrepr : ImmRepr v x)
    (hunsigned : v.type.realKind ≠ none → v.type.isUnsignedType = false)
    (hcast : castScalar v.type type x = some y) :
    ∃ val, convert v.imm v.type type = some val ∧ ImmRepr (varNumeric type val) y := by
  cases x with
  | int n =>
    simp only [castScalar] at hcast
    cases htype : type.wordType with
    | some c =>
      simp only [htype, some.injEq] at hcast
      subst hcast
      by_cases hbool : c = .bool
      · subst hbool
        refine ⟨_, convert_bool htype v.type, _, htype, CInteger.inRange_convert _ n, ?_⟩
        simp only [varNumeric, Value.lo_setU, CInteger.convert, isZeroValue_of_repr hrepr]
        by_cases hn : n = 0 <;> simp [hn]
      · rcases convert_word htype hbool v.type with ⟨f, rfl, hconvert⟩
        refine ⟨_, hconvert, _, htype, CInteger.inRange_convert _ n, ?_⟩
        rw [CInteger.convert, if_neg hbool]
        exact convertInt_of_repr hrepr _
    | none =>
      simp only [htype] at hcast
      split at hcast
      · cases hcast
      · rename_i hpointer
        simp only [map_eq_some_iff] at hcast
        rcases hcast with ⟨k, hreal, rfl⟩
        refine ⟨_, convert_real hreal v.type, htype, hreal, ?_⟩
        exact convertReal_of_repr hrepr (by simpa using hpointer) k
  | real j b =>
    have hrepr' := hrepr
    rcases hrepr' with ⟨-, hreal, hbits⟩
    have hu := hunsigned (by simp [hreal])
    simp only [castScalar] at hcast
    split at hcast
    · rename_i htype
      simp only [some.injEq] at hcast
      subst hcast
      refine ⟨_, convert_bool htype v.type, _, htype, by split <;> decide, ?_⟩
      simp only [varNumeric, Value.lo_setU, isZeroValue, hreal, hbits]
    · rename_i c hbool htype
      split at hcast
      · cases hcast
      · split at hcast
        · rename_i hrange
          simp only [some.injEq] at hcast
          subst hcast
          rcases convert_word htype hbool v.type with ⟨f, rfl, hconvert⟩
          exact ⟨_, hconvert, _, htype, hrange, convertInt_of_real hrepr hu hrange⟩
        · cases hcast
    · rename_i htype
      simp only [map_eq_some_iff] at hcast
      rcases hcast with ⟨k, hreal', rfl⟩
      refine ⟨_, convert_real hreal' v.type, htype, hreal', ?_⟩
      simp only [varNumeric, convertReal, hreal]
      by_cases hjk : j = k
      · subst hjk
        simpa using hbits
      · rw [if_neg hjk, dif_neg hjk, Value.real_setReal, hbits]

end Conversion

/-! ## Temporaries -/

section Temporaries

variable {env : RunEnv} {b : BlockId} {s : EvalState} {m : Memory}

theorem agreeBetween_store {n size raw : Nat} (hsize : size ≤ env.extent n) :
    AgreeBetween env n (n + 1) m (m.store (env.addr n) size raw) := by
  intro x hx
  exact Memory.store_outside (by have := hx n ⟨le_rfl, Nat.lt_succ_self n⟩; omega)

theorem standsFor_temporary {n raw : Nat} {v : Var} {y : Scalar} {sym : Symbol}
    (hroom : Room env n) (hkind : v.kind = .direct) (hsymbol : v.symbol = some sym)
    (hid : sym.id = n) (hoffset : v.offset = 0) (hfield : v.fieldWidth = 0)
    (hplain : v.type.Plain) (hy : y.HasType v.type) (hraw : raw < 256 ^ v.type.scalarSize)
    (hdecode : decode v.type raw = some y) :
    StandsFor env (n + 1) (m.store (env.addr n) v.type.scalarSize raw) v y where
  fieldWidth := hfield
  plain := hplain
  hasType := hy
  immediate := fun himm => by rw [hkind] at himm; cases himm
  stored := by
    intro _ m' hm'
    have hsize : sizeOf env.types v.type = some v.type.scalarSize :=
      sizeOf_of_isScalar hy.isScalar
    have hle : v.type.scalarSize ≤ 16 := by
      unfold CType.scalarSize
      split <;> decide
    have hextent : 16 ≤ env.extent n := hroom n le_rfl
    have hload : m'.load (env.addr n) v.type.scalarSize = raw := by
      rw [hm'.load_eq (Nat.lt_succ_self n) le_rfl (by omega), Memory.load_store_self,
        Nat.mod_eq_of_lt hraw]
    refine ⟨raw, ?_, hdecode⟩
    have hlocate : locate env m' v v.type.scalarSize = some (env.addr n) := by
      simp only [locate, hkind, hsymbol, bind_some, hid, hoffset]
      rw [if_pos (by simp; omega)]
      simp
    simp only [operandValue, hsize, bind_some, hkind, hlocate, map_some]
    simp [Var.isField, hfield, hload]

variable [HostFloat]

omit [HostFloat] in
theorem eval_eq_temporary {e : Expression} (hidentity : isIdentity e s = .ok (false, s))
    (hscalar : e.type.isScalar = true) :
    ∃ (sym : Symbol) (res : Var), sym.id = s.symbols.length ∧ sym.type = e.type ∧
      sym.symtype = .definition ∧ res.kind = .direct ∧ res.type = e.type ∧
      res.symbol = some sym ∧ res.offset = 0 ∧ res.fieldWidth = 0 ∧
      eval (some b) e s = .ok ({ res with lvalue := false },
        { s with
          symbols := s.symbols ++ [sym]
          locals := s.locals ++ [sym.id]
          blocks := s.blocks.modify b fun blk =>
            { blk with code := blk.code ++ [{ st := .assign, t := res, expr := e }] } }) := by
  have hvoid : e.type.isVoid = false := by
    unfold CType.isScalar at hscalar
    unfold CType.isVoid
    cases hkind : e.type.typeOf <;> first | rfl | (rw [hkind] at hscalar; cases hscalar)
  let sym : Symbol := { id := s.symbols.length, name := prefixTemporary, type := e.type }
  refine ⟨sym, { varDirect sym with lvalue := true }, rfl, rfl, rfl, rfl, rfl, rfl, rfl, rfl, ?_⟩
  show (isIdentity e s >>= _) = _
  rw [hidentity]
  simp only [Except.ok_bind, Bool.false_eq_true, if_false, hvoid, createVar]
  rfl

theorem eval_emits {e : Expression} {raw : Nat} {y : Scalar}
    (hroom : Room env s.symbols.length)
    (hidentity : isIdentity e s = .ok (false, s)) (hop : e.op ≠ .call)
    (hplain : e.type.Plain) (hy : y.HasType e.type) (hvalue : pureValue env m e = some raw)
    (hraw : raw < 256 ^ e.type.scalarSize) (hdecode : decode e.type raw = some y) :
    Emits env b s m (eval (some b) e) fun w s' m' =>
      StandsFor env s'.symbols.length m' w y ∧ w.type = e.type ∧ w.kind ≠ .immediate := by
  have hscalar := hy.isScalar
  rcases eval_eq_temporary (b := b) hidentity hscalar with
    ⟨sym, res, hid, -, -, hkind, htype, hsymbol, hoffset, hfield, heval⟩
  have hsize : sizeOf env.types res.type = some e.type.scalarSize := by
    rw [htype]
    exact sizeOf_of_isScalar hscalar
  have hle : e.type.scalarSize ≤ env.extent s.symbols.length := by
    have hsixteen : e.type.scalarSize ≤ 16 := by
      unfold CType.scalarSize
      split <;> decide
    exact hsixteen.trans (hroom _ le_rfl)
  have hlocate : locate env m res e.type.scalarSize = some (env.addr s.symbols.length) := by
    simp only [locate, hkind, hsymbol, bind_some, hid, hoffset]
    rw [if_pos (by simpa using hle)]
    simp
  have hstore : storeOperand env m res raw =
      some (m.store (env.addr s.symbols.length) e.type.scalarSize raw) := by
    simp [storeOperand, hsize, hlocate, Var.isField, hfield]
  refine ⟨_, _, [{ st := .assign, t := res, expr := e }],
    m.store (env.addr s.symbols.length) e.type.scalarSize raw, heval, ⟨rfl, by simp, rfl⟩, ?_,
    by simpa using agreeBetween_store hle, ?_, htype, ?_⟩
  · intro params trace
    simp [irMachine, execStatement, exprValue, hop, hvalue, hstore]
  · have hstands := standsFor_temporary (m := m) (v := { res with lvalue := false })
      (y := y) hroom hkind hsymbol hid hoffset hfield (by rw [htype]; exact hplain)
      (by rw [htype]; exact hy) (by rw [htype]; exact hraw) (by rw [htype]; exact hdecode)
    simpa [htype] using hstands
  · simp [hkind]

end Temporaries

/-! ## Conversions at run time -/

/-- Two handles of the same kind and signedness, up to qualifiers and the type
pointed to. -/
structure CType.Like (t t' : CType) : Prop where
  typeOf : t.typeOf = t'.typeOf
  unsigned : t.isUnsignedType = t'.isUnsignedType

section Conversions

variable {t t' : CType}

theorem CType.Like.refl (t : CType) : t.Like t := ⟨rfl, rfl⟩

theorem CType.Like.trans {t'' : CType} (h : t.Like t') (h' : t'.Like t'') : t.Like t'' :=
  ⟨h.typeOf.trans h'.typeOf, h.unsigned.trans h'.unsigned⟩

theorem CType.Like.wordType (h : t.Like t') : t.wordType = t'.wordType := by
  rw [CType.wordType, CType.wordType, CType.isPointerType, CType.isPointerType, CType.cInteger,
    CType.cInteger, h.typeOf, h.unsigned]

theorem CType.Like.realKind (h : t.Like t') : t.realKind = t'.realKind := by
  rw [CType.realKind, CType.realKind, h.typeOf]

theorem CType.Like.encode (h : t.Like t') (x : Scalar) : Kcs.encode t x = Kcs.encode t' x := by
  cases x <;> simp only [Kcs.encode, h.wordType, h.realKind]

theorem CType.Like.of_typeEqual {types : TypeTable} (h : typeEqual types t t' = some true)
    (hp : t.isPointerType = false) (hp' : t'.isPointerType = false) : t.Like t' := by
  have hflag : ∀ u : CType, u.isPointerType = false → u.isPointer = false := by
    intro u hu
    by_contra hne
    rw [Bool.not_eq_false] at hne
    rw [CType.isPointerType, CType.typeOf, if_pos hne] at hu
    cases hu
  unfold typeEqual typeEqualAux at h
  split at h
  · rename_i heq
    rw [heq]
    exact CType.Like.refl t'
  · split at h
    · cases h
    · rename_i hkinds
      simp only [not_or, not_not] at hkinds
      have htypeOf : t.typeOf = t'.typeOf := by
        simp [CType.typeOf, hflag t hp, hflag t' hp', hkinds.1]
      refine ⟨htypeOf, ?_⟩
      rw [CType.isUnsignedType, CType.isUnsignedType, CType.isBool, CType.isBool, htypeOf,
        hflag t hp, hflag t' hp', hkinds.2]

theorem typeEqual_of_ref (types : TypeTable) (h : t.ref = 0 ∨ t'.ref = 0) :
    ∃ equal, typeEqual types t t' = some equal := by
  unfold typeEqual typeEqualAux
  by_cases h1 : t = t'
  · exact ⟨_, if_pos h1⟩
  rw [if_neg h1]
  by_cases h2 : t.type ≠ t'.type ∨ t.isUnsigned ≠ t'.isUnsigned
  · exact ⟨_, if_pos h2⟩
  rw [if_neg h2]
  by_cases h3 : (t.ref = 0) ≠ (t'.ref = 0)
  · exact ⟨_, if_pos h3⟩
  rw [if_neg h3, if_neg]
  · exact ⟨_, rfl⟩
  · rintro ⟨href, href'⟩
    exact h.elim href href'

theorem CInteger.eq_of_width {c : CInteger} (h : c.format.width = 64) : c = .long ∨ c = .ulong := by
  revert h
  cases c <;> decide

theorem decode_convert {c c' : CInteger} {raw : Nat} {n : Int} (hc : t.wordType = some c)
    (hc' : t'.wordType = some c') (hsize : c.format.width = 64) (hsize' : c'.format.width = 64)
    (hn : decode t raw = some (.int n)) : decode t' raw = some (.int (c'.convert n)) := by
  simp only [decode, hc, some.injEq, Scalar.int.injEq] at hn
  simp only [decode, hc', some.injEq, Scalar.int.injEq]
  have hbits : BitVec.ofInt 64 n = BitVec.ofNat 64 raw := by
    rcases CInteger.eq_of_width hsize with rfl | rfl
    · rw [← hn]
      exact BitVec.ofInt_toInt
    · rw [← hn]
      exact BitVec.ofInt_natCast 64 _ |>.trans (BitVec.ofNat_toNat 64 _)
  rcases CInteger.eq_of_width hsize' with rfl | rfl
  · show (BitVec.ofNat 64 raw).toInt = (BitVec.ofInt 64 n).toInt
    rw [hbits]
  · show ((BitVec.ofNat 64 raw).toNat : Int) = (BitVec.ofInt 64 n).toNat
    rw [hbits]

variable [HostFloat] [LawfulHostFloat] {env : RunEnv} {b : BlockId} {s : EvalState} {m : Memory}
  {v : Var} {x y : Scalar} {type : CType}

theorem cast_immediate (hkind : v.kind = .immediate) (hstring : v.isString = false)
    (hoffset : v.offset = 0) (hplain : v.type.Plain) (hx : x.HasType v.type) (hrepr : ImmRepr v x)
    (hcast : castScalar v.type type x = some y) :
    ∃ w, cast v type = pure (asExpr w) ∧ w.type = type ∧ w.kind = .immediate ∧
      w.isString = false ∧ w.offset = 0 ∧ w.fieldWidth = 0 ∧ ImmRepr w y := by
  have hy := castScalar_hasType hcast
  rcases convert_repr hrepr hplain.unsigned hcast with ⟨val, hval, hrepr'⟩
  refine ⟨varNumeric type val, ?_, rfl, rfl, rfl, rfl, rfl, hrepr'⟩
  have hvoid : type.isVoid = false := by
    have hscalar := hy.isScalar
    unfold CType.isScalar at hscalar
    unfold CType.isVoid
    cases hk : type.typeOf <;> first | rfl | (rw [hk] at hscalar; cases hscalar)
  have hread : readTable (fun _ => convert v.imm v.type type) = pure val := by
    funext s
    simp [readTable, hval]
    rfl
  simp [cast, hvoid, hx.isScalar, hy.isScalar, hkind, hstring, hoffset, hread]

theorem StandsFor.evalCast_immediate {n : Nat} (block : BlockRef) (h : StandsFor env n m v x)
    (hkind : v.kind = .immediate) (hplain : type.Plain)
    (hcast : castScalar v.type type x = some y) :
    ∃ w, evalCast block v type = pure w ∧ StandsFor env n m w y ∧ w.type = type ∧
      w.kind = .immediate := by
  rcases h.immediate hkind with ⟨hstring, hoffset, hrepr⟩
  rcases cast_immediate hkind hstring hoffset h.plain h.hasType hrepr hcast with
    ⟨w, hw, hwtype, hwkind, hwstring, hwoffset, hwfield, hwrepr⟩
  refine ⟨w, ?_, ⟨hwfield, hwtype ▸ hplain, hwtype ▸ castScalar_hasType hcast,
    fun _ => ⟨hwstring, hwoffset, hwrepr⟩, fun h => absurd hwkind h⟩, hwtype, hwkind⟩
  rw [evalCast, hw, pure_bind, eval_asExpr]

omit [HostFloat] [LawfulHostFloat] in
theorem operandValue_retype (hkind : v.kind ≠ .immediate) (hfield : v.fieldWidth = 0)
    (hsize : sizeOf env.types type = sizeOf env.types v.type) :
    operandValue env m { v with type := type } = operandValue env m v := by
  unfold operandValue
  rw [show ({ v with type := type } : Var).type = type from rfl, hsize]
  cases hv : v.kind with
  | immediate => exact absurd hv hkind
  | address => simp
  | direct => simp [hv, Var.isField, hfield, locate]
  | deref => simp [hv, Var.isField, hfield, locate, pointerOf]

omit [HostFloat] [LawfulHostFloat] in
theorem CType.width_of_scalarSize {t : CType} {c : CInteger} (h : t.wordType = some c)
    (hsize : t.scalarSize = 8) : c.format.width = 64 := by
  rcases CType.wordType_cases h with ⟨-, rfl⟩ | hint
  · rfl
  · rw [CType.scalarSize, (CType.cInteger_eq_some_iff.mp hint).1] at hsize
    revert hsize
    cases c <;> decide

omit [LawfulHostFloat] in
theorem castScalar_like (hx : x.HasType t) (hlike : t.Like t') :
    castScalar t t' x = some x := by
  cases x with
  | int n =>
    rcases hx with ⟨c, hword, hrange⟩
    have hword' : t'.wordType = some c := hlike.wordType ▸ hword
    simp only [castScalar, hword', CInteger.convert_of_inRange hrange]
  | real k bits =>
    have hword' : t'.wordType = none := hlike.wordType ▸ hx.1
    have hreal' : t'.realKind = some k := hlike.realKind ▸ hx.2
    simp [castScalar, hword', hreal']

omit [LawfulHostFloat] in
/-- Reinterpreting a pointer or a word of its size. -/
theorem StandsFor.reinterpret {n : Nat} (h : StandsFor env n m v x) (hkind : v.kind ≠ .immediate)
    (hplain : type.Plain) (hcast : castScalar v.type type x = some y)
    (hsize : v.type.scalarSize = type.scalarSize)
    (hpointer : v.type.isPointerType = true ∨ type.isPointerType = true) :
    StandsFor env n m { v with type := type } y := by
  have hy := castScalar_hasType hcast
  have height : v.type.scalarSize = 8 := by
    rcases hpointer with hp | hp
    · rw [CType.isPointerType, decide_eq_true_iff] at hp
      rw [CType.scalarSize, hp]
    · rw [CType.isPointerType, decide_eq_true_iff] at hp
      rw [hsize, CType.scalarSize, hp]
  have hword : ∃ c c' k, v.type.wordType = some c ∧ type.wordType = some c' ∧ x = .int k ∧
      y = .int (c'.convert k) := by
    cases x with
    | int k =>
      rcases h.hasType with ⟨c, hc, -⟩
      simp only [castScalar] at hcast
      cases hc' : type.wordType with
      | some c' =>
        simp only [hc', some.injEq] at hcast
        exact ⟨c, c', k, hc, rfl, rfl, hcast.symm⟩
      | none =>
        have hp : v.type.isPointerType = true := by
          rcases hpointer with hp | hp
          · exact hp
          · rw [CType.wordType, if_pos hp] at hc'
            cases hc'
        simp [hc', hp] at hcast
    | real j bits =>
      have hp : type.isPointerType = true := by
        rcases hpointer with hp | hp
        · have hnone := h.hasType.1
          rw [CType.wordType, if_pos hp] at hnone
          cases hnone
        · exact hp
      simp [castScalar, CType.wordType, hp] at hcast
  rcases hword with ⟨c, c', k, hc, hc', rfl, rfl⟩
  refine ⟨h.fieldWidth, hplain, hy, fun himm => absurd himm hkind, ?_⟩
  intro _ m' hm'
  rcases h.stored hkind m' hm' with ⟨raw, hraw, hdecode⟩
  refine ⟨raw, ?_, ?_⟩
  · rw [operandValue_retype hkind h.fieldWidth, hraw]
    rw [sizeOf_of_isScalar hy.isScalar, sizeOf_of_isScalar h.hasType.isScalar, hsize]
  · exact decode_convert hc hc' (CType.width_of_scalarSize hc height)
      (CType.width_of_scalarSize hc' (hsize ▸ height)) hdecode

/-- A pair of types whose conversion `cast` does not mistake for none: a type and
a pointer to it are equal handles for `type_equal`. -/
def CType.Distinct (types : TypeTable) (t t' : CType) : Prop :=
  typeEqual types t t' = some true → t.isPointerType = t'.isPointerType

/-- What `eval_cast` leaves: an operand of the target type for the converted
scalar, which is a constant exactly when it was one. -/
structure CastTo (env : RunEnv) (v : Var) (type : CType) (y : Scalar) (w : Var) (s : EvalState)
    (m : Memory) : Prop where
  standsFor : StandsFor env s.symbols.length m w y
  like : w.type.Like type
  kind : w.kind = .immediate ↔ v.kind = .immediate

/-- `eval_cast` at run time. -/
theorem StandsFor.evalCast_emits (h : StandsFor env s.symbols.length m v x)
    (hroom : Room env s.symbols.length) (hplain : type.Plain)
    (hcast : castScalar v.type type x = some y) (hdistinct : CType.Distinct s.types v.type type) :
    Emits env b s m (evalCast (some b) v type) (CastTo env v type y) := by
  by_cases hkind : v.kind = .immediate
  · rcases h.evalCast_immediate (some b) hkind hplain hcast with ⟨w, hw, hstands, hwtype, hwkind⟩
    rw [hw]
    exact Emits.pure ⟨hstands, hwtype ▸ CType.Like.refl _, by simp [hwkind, hkind]⟩
  have hx := h.hasType
  have hy := castScalar_hasType hcast
  have hvoid : type.isVoid = false := by
    have hscalar := hy.isScalar
    unfold CType.isScalar at hscalar
    unfold CType.isVoid
    cases hk : type.typeOf <;> first | rfl | (rw [hk] at hscalar; cases hscalar)
  unfold evalCast cast
  simp only [hvoid, hx.isScalar, hy.isScalar, hkind, Bool.not_true, Bool.or_self,
    Bool.false_eq_true, if_false, bind_assoc]
  refine Emits.bindTable (sizeOf_of_isScalar hx.isScalar) ?_
  refine Emits.bindTable (sizeOf_of_isScalar hy.isScalar) ?_
  by_cases hpointer : v.type.scalarSize = type.scalarSize ∧
      (v.type.isPointerType = true ∨ type.isPointerType = true)
  · -- A pointer is reinterpreted.
    rw [if_pos (by simpa using hpointer), pure_bind, eval_asExpr]
    refine Emits.pure ⟨h.reinterpret hkind hplain hcast hpointer.1 hpointer.2, ?_, by simp⟩
    exact CType.Like.refl type
  · rw [if_neg (by simpa using hpointer)]
    have hone : v.type.isPointerType = false ∨ type.isPointerType = false := by
      by_contra hboth
      simp only [not_or, Bool.not_eq_false] at hboth
      refine hpointer ⟨?_, Or.inl hboth.1⟩
      rw [CType.isPointerType, decide_eq_true_iff, CType.isPointerType, decide_eq_true_iff] at hboth
      rw [CType.scalarSize, CType.scalarSize, hboth.1, hboth.2]
    have href : v.type.ref = 0 ∨ type.ref = 0 := hone.imp h.plain.ref hplain.ref
    rcases typeEqual_of_ref s.types href with ⟨equal, hequal⟩
    rw [bind_assoc]
    refine Emits.bindTable hequal ?_
    cases equal with
    | true =>
      -- Equal handles: the operand has the type already.
      have hp : v.type.isPointerType = type.isPointerType := hdistinct hequal
      have hlike : v.type.Like type := by
        rcases hone with hv | ht
        · exact CType.Like.of_typeEqual hequal hv (hp ▸ hv)
        · exact CType.Like.of_typeEqual hequal (hp ▸ ht) ht
      have hsame : y = x := by
        rw [castScalar_like hx hlike, some.injEq] at hcast
        exact hcast.symm
      rw [if_pos rfl, pure_bind, eval_asExpr, hsame]
      exact Emits.pure ⟨h, hlike, Iff.rfl⟩
    | false =>
      rw [if_neg Bool.false_ne_true, pure_bind]
      rcases h.stored hkind m (AgreeBelow.refl _ _ _) with ⟨raw, hraw, hdecode⟩
      rcases decode_encode hy with ⟨raw', hencode, hlt, hdecode'⟩
      have hidentity : isIdentity { op := .cast, type := type, l := v } s = .ok (false, s) := by
        simp [isIdentity, readTable, typeEqual_comm s.types type v.type, hequal]
      have hvalue : pureValue env m { op := .cast, type := type, l := v } = some raw' := by
        simp [pureValue, hraw, castRaw, hx.isScalar, hdecode, hcast, hencode]
      refine Emits.mono (eval_emits (y := y) hroom hidentity (by simp) hplain hy hvalue hlt hdecode')
        ?_
      · rintro w s' m' ⟨hstands, hwtype, hwkind⟩
        exact ⟨hstands, hwtype ▸ CType.Like.refl type, by simp [hwkind, hkind]⟩

end Conversions

end Kcs
