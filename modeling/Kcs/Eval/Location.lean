import Kcs.Eval.Assignment
import Kcs.Eval.Emission
import Kcs.Types.Pointer

/-!
# Addresses and locations

`eval_addr` gives the address of a location and `eval_deref` the location at an address.  Both may
create types, and the pointer behind an offset is computed by emitted code.

Main results:

- Theorem {lit}`evalAddr_evalDeref_iff`: when they are inverse to each other.
-/

namespace Kcs

open Option CType

/-! ## Evaluations that create types -/

/-- An evaluation appended code to a block and left the rest of the blocks as it was.  It may have
created symbols and types. -/
structure AppendsTo (b : BlockId) (s s' : EvalState) (code : List Statement) : Prop where
  symbols : s.symbols.length ≤ s'.symbols.length
  blocks : s'.blocks = s.blocks.modify b fun blk => { blk with code := blk.code ++ code }

/-- The evaluation succeeds, its code runs from the memory, and the result satisfies the
postcondition in the memory after that code. -/
def Evaluates [HostFloat] {α : Type} (env : RunEnv) (b : BlockId) (s : EvalState) (m : Memory)
    (c : EvalM α) (Q : α → EvalState → Memory → Prop) : Prop :=
  ∃ a s' code m', c s = .ok (a, s') ∧ AppendsTo b s s' code ∧
    (∀ params trace, execCode (irMachine env) code { mem := m, params := params, trace := trace } =
      some { mem := m', params := params, trace := trace }) ∧
    AgreeBetween env s.symbols.length s'.symbols.length m m' ∧ Q a s' m'

section Evaluations

variable [HostFloat] {α β : Type} {env : RunEnv} {b : BlockId} {s : EvalState} {m : Memory}
  {Q : α → EvalState → Memory → Prop} {R : β → EvalState → Memory → Prop}

theorem Emits.evaluates {c : EvalM α} (h : Emits env b s m c Q) :
    Evaluates env b s m c fun a s' m' => s'.types = s.types ∧ Q a s' m' := by
  rcases h with ⟨a, s', code, m', hok, hemits, hrun, hagree, hQ⟩
  exact ⟨a, s', code, m', hok, ⟨hemits.symbols, hemits.blocks⟩, hrun, hagree, hemits.types, hQ⟩

theorem Evaluates.pure {a : α} (h : Q a s m) : Evaluates env b s m (pure a) Q :=
  ⟨a, s, [], m, rfl, ⟨le_rfl, (EmitsTo.refl b s).blocks⟩, fun _ _ => rfl,
    AgreeOutside.refl env _ m, h⟩

theorem Evaluates.bind {c : EvalM α} {f : α → EvalM β} (hc : Evaluates env b s m c Q)
    (hf : ∀ a s' m', s.symbols.length ≤ s'.symbols.length →
      AgreeBelow env s.symbols.length m m' → Q a s' m' → Evaluates env b s' m' (f a) R) :
    Evaluates env b s m (c >>= f) R := by
  rcases hc with ⟨a, s', code, m', hok, happends, hrun, hagree, hQ⟩
  rcases hf a s' m' happends.symbols hagree.agreeBelow hQ with
    ⟨a', s'', code', m'', hok', happends', hrun', hagree', hR⟩
  refine ⟨a', s'', code ++ code', m'', ?_, ⟨happends.symbols.trans happends'.symbols, ?_⟩, ?_,
    hagree.trans hagree' happends.symbols happends'.symbols, hR⟩
  · show (c s >>= fun p => f p.1 p.2) = _
    rw [hok]
    exact hok'
  · rw [happends'.blocks, happends.blocks]
    exact modify_append_append s.blocks b code code'
  · intro params trace
    rw [execCode_append, hrun params trace]
    exact hrun' params trace

theorem Evaluates.mono {Q' : α → EvalState → Memory → Prop} {c : EvalM α}
    (hc : Evaluates env b s m c Q) (h : ∀ a s' m', Q a s' m' → Q' a s' m') :
    Evaluates env b s m c Q' := by
  rcases hc with ⟨a, s', code, m', hok, happends, hrun, hagree, hQ⟩
  exact ⟨a, s', code, m', hok, happends, hrun, hagree, h a s' m' hQ⟩

theorem Evaluates.newType {f : TypeTable → Option (CType × TypeTable)} {type : CType}
    {types : TypeTable} {R : CType → EvalState → Memory → Prop}
    (hf : f s.types = some (type, types)) (h : R type { s with types := types } m) :
    Evaluates env b s m (newType f) R := by
  refine ⟨type, { s with types := types }, [], m, ?_, ⟨le_rfl, (EmitsTo.refl b s).blocks⟩,
    fun _ _ => rfl, AgreeOutside.refl env _ m, h⟩
  simp [Kcs.newType, hf]

theorem Evaluates.congr {c c' : EvalM α} (h : c s = c' s) (hc : Evaluates env b s m c' Q) :
    Evaluates env b s m c Q := by
  unfold Evaluates at hc ⊢
  rwa [h]

theorem Evaluates.and {Q' : α → EvalState → Memory → Prop} {c : EvalM α}
    (hb : b < s.blocks.length) (h : Evaluates env b s m c Q) (h' : Evaluates env b s m c Q') :
    Evaluates env b s m c fun a s' m' => Q a s' m' ∧ Q' a s' m' := by
  rcases h with ⟨a, s', code, m', hok, happends, hrun, hagree, hQ⟩
  rcases h' with ⟨a', s'', code', m'', hok', happends', hrun', -, hQ'⟩
  rw [hok] at hok'
  cases hok'
  have hcode : code = code' := by
    have hblock := congrArg (·[b]?) (happends.blocks.symm.trans happends'.blocks)
    simpa [List.getElem?_eq_getElem hb] using hblock
  subst hcode
  have hmem := (hrun [] []).symm.trans (hrun' [] [])
  rw [some.injEq, RunState.mk.injEq] at hmem
  rw [← hmem.1] at hQ'
  exact ⟨a, s', code, m', hok, happends, hrun, hagree, hQ, hQ'⟩

theorem Evaluates.of_bind {c : EvalM α} {f : α → EvalM β} (h : Evaluates env b s m (c >>= f) R) :
    ∃ a s' r s'' m'', c s = .ok (a, s') ∧ f a s' = .ok (r, s'') ∧ R r s'' m'' := by
  rcases h with ⟨r, s'', -, m'', hok, -, -, -, hR⟩
  have hseq : (c s >>= fun p => f p.1 p.2) = .ok (r, s'') := hok
  cases hc : c s with
  | error e =>
    rw [hc] at hseq
    cases hseq
  | ok p =>
    rw [hc] at hseq
    exact ⟨p.1, p.2, r, s'', m'', rfl, hseq, hR⟩

end Evaluations

/-! ## Places -/

/-- The 64-bit address of the storage that an operand designates. -/
def placeOf (env : RunEnv) (m : Memory) (v : Var) : Option Nat :=
  match v.kind with
  | .direct => v.symbol.map fun sym => (env.addr sym.id + v.offset.toNat) % 2 ^ 64
  | .deref => (pointerOf env m v).map fun p => (p + v.offset.toNat) % 2 ^ 64
  | _ => none

/-- The operand designates the storage at an address, whatever later temporaries hold. -/
def IsAt (env : RunEnv) (n : Nat) (m : Memory) (v : Var) (a : Nat) : Prop :=
  ∀ m', AgreeBelow env n m m' → placeOf env m' v = some a

/-- Operands with the symbol are the storage of the symbol. -/
def Symbol.IsStored (sym : Symbol) : Prop := (varDirect sym).kind = .direct

section Places

variable {env : RunEnv} {n n' size : Nat} {m m' : Memory} {v p : Var} {a : Nat} {sym : Symbol}
  {type : CType}

theorem IsAt.placeOf_eq (h : IsAt env n m v a) : placeOf env m v = some a :=
  h m (AgreeBelow.refl env n m)

theorem Symbol.IsStored.symtype_ne (h : sym.IsStored) : sym.symtype ≠ .stringValue := by
  intro hsymtype
  simp [Symbol.IsStored, varDirect, hsymtype] at h

theorem Symbol.IsStored.varDirect_eq (h : sym.IsStored) :
    varDirect sym =
      { kind := .direct, type := sym.type, symbol := some sym, lvalue := !isTemporary sym } := by
  unfold Symbol.IsStored at h
  unfold varDirect at h ⊢
  cases hsymtype : sym.symtype <;> simp [hsymtype] at h ⊢

theorem pointsTo_of_pointerOf (hkind : p.kind = .direct) (hsymbol : p.symbol = some sym)
    (hoffset : p.offset = 0) (hfield : p.fieldWidth = 0) (hpointer : p.type.isPointerType = true)
    (hstored : sym.symtype ≠ .stringValue) (hvsymbol : v.symbol = some sym)
    (hvalue : ∀ m', AgreeBelow env n m m' → pointerOf env m' v = some a) :
    PointsTo env n m p a := by
  refine ⟨hpointer, hfield, fun himm => absurd (hkind.symm.trans himm) (by decide),
    fun m' hm' => ?_⟩
  have hsize : sizeOf env.types p.type = some 8 := by
    rw [sizeOf_of_isScalar (isScalar_of_isPointerType hpointer).1,
      scalarSize_of_isPointerType hpointer]
  have hload := hvalue m' hm'
  simp only [pointerOf, hvsymbol, hstored, if_false] at hload
  split at hload
  · rename_i hfits
    rw [some.injEq] at hload
    simp [operandValue, hsize, hkind, locate, hsymbol, hoffset, hfits, Var.isField, hfield, hload]
  · cases hload

theorem PointsTo.isAt_deref (h : PointsTo env n m p a) (hkind : p.kind = .direct)
    (hoffset : p.offset = 0) (hstored : ∀ sym, p.symbol = some sym → sym.symtype ≠ .stringValue)
    (hvkind : v.kind = .deref) (hvsymbol : v.symbol = p.symbol) (hvoffset : v.offset = 0) :
    IsAt env n m v a := by
  intro m' hm'
  have hvalue := h.value m' hm'
  rw [operandValue, h.sizeOf_eq, bind_some, hkind] at hvalue
  rcases map_eq_some_iff.mp hvalue with ⟨x, hx, hload⟩
  rw [if_neg (by simp [Var.isField, h.fieldWidth])] at hload
  simp only [locate, hkind] at hx
  rcases bind_eq_some_iff.mp hx with ⟨sym, hsymbol, hfits⟩
  rw [hoffset] at hfits
  split at hfits
  · rename_i hle
    rw [some.injEq] at hfits
    have hle8 : 8 ≤ env.extent sym.id := by simpa using hle
    have haddr : x = env.addr sym.id := by simpa using hfits.symm
    subst haddr
    have hlt := h.lt
    simp only [placeOf, hvkind, pointerOf, hvsymbol, hsymbol, hstored sym hsymbol, if_false, hle8,
      if_true, hload, hvoffset, map_some]
    exact congrArg some (Nat.mod_eq_of_lt hlt)
  · cases hfits

end Places

/-! ## Addresses -/

/-- What `eval_deref` relies on: a number has no symbol, and a variable is stored. -/
structure Dereferenceable (p : Var) : Prop where
  immediate : p.kind = .immediate → p.symbol = none
  direct : p.kind = .direct → ∀ sym, p.symbol = some sym → sym.IsStored

/-- The offset of a dereferenced pointer as an `int`. -/
def narrowOffset (v : Var) : Int := (IntFormat.bits32 true).wrap v.offset.toNat

/-- The offset survives in `eval_addr`: that of a dereferenced symbol is passed as an `int`. -/
def KeepsOffset (v : Var) : Prop :=
  v.kind = .deref → v.symbol ≠ none → BitVec.ofInt 64 (narrowOffset v) = v.offset

/-- The address that `eval_addr` computes for a location. -/
def narrowedAddress (v : Var) (a : Nat) : Nat :=
  if v.kind = .deref ∧ v.symbol ≠ none then
    shiftAddress a (narrowOffset v - v.offset.toNat)
  else a

section Addresses

variable [HostFloat]

/-- `eval_addr` of a location, before the result gets its type. -/
def addressOperand (block : BlockRef) (v : Var) : EvalM Var :=
  match v.kind, v.symbol with
  | .deref, none => pure { v with
      kind := .immediate, offset := 0, lvalue := false,
      imm := { v.imm with lo := v.imm.lo + v.offset } }
  | .deref, some sym => pointerOfDeref block v sym
  | _, _ => pure { v with kind := .address }

variable {env : RunEnv} {b : BlockId} {s : EvalState} {m : Memory} {v p : Var} {a : Nat}
  {sym : Symbol} {type : CType}

theorem evalAddr_run (hfield : v.fieldWidth = 0) (hlvalue : v.lvalue = true)
    (hkind : v.kind = .direct ∨ v.kind = .deref) {vla : Bool}
    (hvla : isVla s.types v.type = some vla) (hdirect : v.kind = .direct → vla = false)
    (hderef : v.kind = .deref → ∀ sym, v.symbol = some sym → sym.type.isPointerType = true) :
    evalAddr (some b) v s = (do
      let tmp ← addressOperand (some b) v
      let type ← newType (typeCreatePointer · v.type)
      pure { tmp with type := type }) s := by
  have hnofield : v.isField = false := by simp [Var.isField, hfield]
  unfold evalAddr addressOperand
  simp only [hnofield, Bool.false_eq_true, if_false]
  rw [readTable_bind_run hvla]
  rcases hkind with hkind | hkind
  · simp only [hdirect hkind, hkind, hlvalue, Bool.false_and, Bool.false_eq_true, if_false, if_true,
      pure_bind]
  · simp only [hkind, reduceCtorEq, decide_false, Bool.and_false, Bool.false_eq_true, if_false]
    cases hsymbol : v.symbol with
    | none => simp only [pure_bind]
    | some sym =>
      simp [addrOfDeref, hderef hkind sym hsymbol]

omit [HostFloat] in
theorem shiftAddress_narrow (base : Nat) (offset : BitVec 64) (d : Int) :
    shiftAddress ((base + offset.toNat) % 2 ^ 64) (d - offset.toNat) = shiftAddress base d := by
  unfold shiftAddress
  congr 1
  push_cast
  omega

omit [HostFloat] in
theorem narrowedAddress_eq_iff (ha : a < 2 ^ 64) : narrowedAddress v a = a ↔ KeepsOffset v := by
  unfold narrowedAddress KeepsOffset
  split
  · rename_i hcases
    have hbits : shiftAddress a (narrowOffset v - v.offset.toNat) = a ↔
        BitVec.ofInt 64 (narrowOffset v) = v.offset := by
      have hsub : BitVec.ofInt 64 (narrowOffset v - v.offset.toNat) =
          BitVec.ofInt 64 (narrowOffset v) - v.offset := by
        rw [Int.sub_eq_add_neg, BitVec.ofInt_add, BitVec.ofInt_neg, BitVec.ofInt_natCast,
          BitVec.ofNat_toNat, BitVec.setWidth_eq, BitVec.sub_eq_add_neg]
      rw [shiftAddress_eq, hsub]
      constructor
      · intro h
        have hsame : BitVec.ofNat 64 a + (BitVec.ofInt 64 (narrowOffset v) - v.offset) =
            BitVec.ofNat 64 a + 0#64 := by
          apply BitVec.eq_of_toNat_eq
          rw [h, BitVec.add_zero, BitVec.toNat_ofNat, Nat.mod_eq_of_lt ha]
        have hzero := (BitVec.add_right_inj _).mp hsame
        have hback := BitVec.sub_add_cancel (BitVec.ofInt 64 (narrowOffset v)) v.offset
        rw [hzero, BitVec.zero_add] at hback
        exact hback.symm
      · intro h
        rw [h, BitVec.sub_self, BitVec.add_zero, BitVec.toNat_ofNat, Nat.mod_eq_of_lt ha]
    rw [hbits]
    exact ⟨fun h _ _ => h, fun h => h hcases.1 hcases.2⟩
  · rename_i hcases
    exact ⟨fun _ hkind hsymbol => absurd ⟨hkind, hsymbol⟩ hcases, fun _ => rfl⟩

omit [HostFloat] in
theorem PointsTo.retype (h : PointsTo env s.symbols.length m p a) (hkind : p.kind = .direct)
    (htype : type.isPointerType = true) :
    PointsTo env s.symbols.length m { p with type := type } a := by
  refine ⟨htype, h.fieldWidth, fun himm => absurd (hkind.symm.trans himm) (by decide),
    fun m' hm' => ?_⟩
  have hsize : sizeOf env.types type = some 8 := by
    rw [sizeOf_of_isScalar (isScalar_of_isPointerType htype).1, scalarSize_of_isPointerType htype]
  rw [← h.value m' hm']
  exact operandValue_retype (by rw [hkind]; decide) h.fieldWidth
    (hsize.trans (h.sizeOf_eq env.types).symm)

theorem PointsTo.evalCast_charPointer (h : PointsTo env s.symbols.length m p a)
    (hkind : p.kind = .direct) :
    evalCast (some b) p charPointer = pure { p with type := charPointer } ∧
      PointsTo env s.symbols.length m { p with type := charPointer } a := by
  rcases isScalar_of_isPointerType h.pointer with ⟨hscalar, -, -, -⟩
  have hchar : charPointer.isVoid = false ∧ charPointer.isScalar = true ∧
      charPointer.isPointerType = true ∧ charPointer.scalarSize = 8 := by decide
  refine ⟨?_, h.retype hkind hchar.2.2.1⟩
  simp [evalCast, cast, hchar, hscalar, hkind, readTable_scalarSize, h.pointer,
    scalarSize_of_isPointerType h.pointer]

/-- The pointer behind a symbol and an offset. -/
theorem pointerOfDeref_emits (h : PointsTo env s.symbols.length m (varDirect sym) a)
    (hstored : sym.IsStored) (hroom : Room env s.symbols.length) :
    Emits env b s m (pointerOfDeref (some b) v sym) fun w s' m' =>
      PointsTo env s'.symbols.length m' w (shiftAddress a (narrowOffset v)) ∧
        w.kind = .direct ∧ Dereferenceable w := by
  have hdirect := hstored.varDirect_eq
  have hsame : ∀ w : Var, w.symbol = some sym → w.kind = .direct → Dereferenceable w := by
    intro w hsymbol hkind
    refine ⟨fun himm => absurd (hkind.symm.trans himm) (by decide), fun _ sym' hsym' => ?_⟩
    rw [hsymbol, some.injEq] at hsym'
    exact hsym' ▸ hstored
  unfold pointerOfDeref
  by_cases hoffset : v.offset = 0
  · rw [if_neg (by simpa using hoffset)]
    have hzero : shiftAddress a (narrowOffset v) = a := by
      refine shiftAddress_zero h.lt ?_
      rw [narrowOffset, hoffset]
      decide
    rw [hzero]
    exact Emits.pure ⟨h, hstored, hsame _ (by rw [hdirect]) hstored⟩
  · rw [if_pos (by simpa using hoffset)]
    have hchar : newType (typeCreatePointer · basicTypeChar) =
        (pure charPointer : EvalM CType) := rfl
    rcases h.evalCast_charPointer (b := b) hstored with ⟨hcast, hpoints⟩
    rw [hchar, pure_bind, hcast, pure_bind]
    have hnumber : IsInteger (varInt (narrowOffset v)) .int (narrowOffset v) :=
      ⟨isIntegerWord_varNumeric rfl _, IntFormat.inRange_wrap _, rfl⟩
    have hint : IntegerOperand env s.symbols.length m (varInt (narrowOffset v)) .int
        (narrowOffset v) := hnumber.operand ⟨fun _ => rfl, fun h => absurd rfl h⟩
    have hadd : add (some b) { varDirect sym with type := charPointer } (varInt (narrowOffset v)) =
        addPointer (some b) { varDirect sym with type := charPointer }
          (varInt (narrowOffset v)) := (add_eq_addPointer hpoints.pointer hint.type).1
    have hderef : typeDeref s.types charPointer = some basicTypeChar := rfl
    have hsize : sizeOf s.types basicTypeChar = some 1 := sizeOf_of_isScalar rfl
    have hvla : isVla s.types basicTypeChar = some false := by
      unfold isVla
      cases s.types.length <;> rfl
    rw [← narrowOffset, hadd]
    refine Emits.bind (addPointer_emits hpoints hint hroom hderef hsize one_ne_zero hvla ?_) ?_
    · rintro ⟨hno, -⟩
      exact absurd (hstored.symm.trans hno) (by decide)
    rintro e s' m' hle - hagree he
    rw [Nat.cast_one, mul_one] at he
    refine Emits.mono (he.eval_emits (hroom.mono hle) hpoints.pointer (shiftAddress_lt _ _)) ?_
    rintro w s'' m'' ⟨hw, -, hshape⟩
    rcases hshape with ⟨hkind, hsymbol, -⟩ | htemp
    · have hkind' : w.kind = .direct := hkind.trans hstored
      refine ⟨hw, hkind', hsame w (hsymbol.trans ?_) hkind'⟩
      show (varDirect sym).symbol = _
      rw [hdirect]
    · rcases htemp.symbol with ⟨sym', hsymbol, -, -, hdefinition⟩
      refine ⟨hw, htemp.kind, fun himm => absurd (htemp.kind.symm.trans himm) (by decide),
        fun _ sym'' hsym'' => ?_⟩
      rw [hsymbol, some.injEq] at hsym''
      subst hsym''
      simp [Symbol.IsStored, varDirect, hdefinition]

/-- The address of a location, of whatever pointer type. -/
theorem addressOperand_emits (hat : IsAt env s.symbols.length m v a) (hfield : v.fieldWidth = 0)
    (hroom : Room env s.symbols.length)
    (hderef : v.kind = .deref → ∀ sym, v.symbol = some sym →
      sym.type.isPointerType = true ∧ sym.IsStored) :
    Emits env b s m (addressOperand (some b) v) fun w s' m' =>
      (∀ t : CType, t.isPointerType = true →
        PointsTo env s'.symbols.length m' { w with type := t } (narrowedAddress v a)) ∧
      Dereferenceable w := by
  have hplace := hat.placeOf_eq
  unfold addressOperand
  cases hkind : v.kind with
  | immediate => simp [placeOf, hkind] at hplace
  | address => simp [placeOf, hkind] at hplace
  | direct =>
    have hsame : narrowedAddress v a = a := if_neg (by simp [hkind])
    refine Emits.pure ⟨fun t ht => ?_, ⟨(by rintro ⟨⟩), (by rintro ⟨⟩)⟩⟩
    rw [hsame]
    refine ⟨ht, hfield, (by rintro ⟨⟩), fun m' hm' => ?_⟩
    have hvalue := hat m' hm'
    simp only [placeOf, hkind] at hvalue
    have hsize : sizeOf env.types t = some 8 := by
      rw [sizeOf_of_isScalar (isScalar_of_isPointerType ht).1, scalarSize_of_isPointerType ht]
    simpa [operandValue, hsize] using hvalue
  | deref =>
    cases hsymbol : v.symbol with
    | none =>
      have hsame : narrowedAddress v a = a := if_neg (by simp [hsymbol])
      refine Emits.pure ⟨fun t ht => ?_, ⟨fun _ => rfl, (by rintro ⟨⟩)⟩⟩
      rw [hsame]
      refine ⟨ht, hfield, fun _ _ => rfl, fun m' _ => ?_⟩
      have hsize : sizeOf env.types t = some 8 := by
        rw [sizeOf_of_isScalar (isScalar_of_isPointerType ht).1, scalarSize_of_isPointerType ht]
      have hnumber : ∀ w : Var, w.kind = .immediate → w.isString = false → w.type = t →
          operandValue env m' w = some w.imm.lo.toNat := fun w hkind hstring htype =>
        operandValue_constant hkind hstring (htype ▸ hsize)
      have hstring : ∀ w : Var, w.symbol = none → w.isString = false := by
        intro w hw
        simp [Var.isString, hw]
      refine (hnumber _ rfl (hstring _ rfl) rfl).trans ?_
      simp only [placeOf, hkind, pointerOf, hsymbol, map_some] at hplace
      rw [← hplace, BitVec.toNat_add]
      rfl
    | some sym =>
      rcases hderef hkind sym hsymbol with ⟨hpointer, hstored⟩
      have hdirect := hstored.varDirect_eq
      -- The pointer in the symbol is the same, whatever later temporaries hold.
      have hpointers : ∀ m', AgreeBelow env s.symbols.length m m' →
          ∃ base, pointerOf env m' v = some base ∧ base < 2 ^ 64 ∧
            (base + v.offset.toNat) % 2 ^ 64 = a := by
        intro m' hm'
        have hvalue := hat m' hm'
        simp only [placeOf, hkind] at hvalue
        rcases map_eq_some_iff.mp hvalue with ⟨base, hbase, hsum⟩
        refine ⟨base, hbase, ?_, hsum⟩
        simp only [pointerOf, hsymbol, hstored.symtype_ne, if_false] at hbase
        split at hbase
        · exact some.inj hbase ▸ Memory.load_lt m' _ 8
        · cases hbase
      rcases hpointers m (AgreeBelow.refl env _ m) with ⟨base, -, hlt, hsum⟩
      have hpoints : PointsTo env s.symbols.length m (varDirect sym) base := by
        refine pointsTo_of_pointerOf (v := v) hstored (by rw [hdirect]) (by rw [hdirect])
          (by rw [hdirect]) (by rw [hdirect]; exact hpointer) hstored.symtype_ne hsymbol ?_
        intro m' hm'
        rcases hpointers m' hm' with ⟨base', hbase', hlt', hsum'⟩
        have hsame : base' = base := by
          have hoffset := v.offset.isLt
          omega
        exact hsame ▸ hbase'
      have hmoved : narrowedAddress v a = shiftAddress base (narrowOffset v) := by
        rw [narrowedAddress, if_pos ⟨hkind, by simp [hsymbol]⟩, ← hsum]
        exact shiftAddress_narrow base v.offset (narrowOffset v)
      refine Emits.mono (pointerOfDeref_emits hpoints hstored hroom) ?_
      rintro w s' m' ⟨hw, hwkind, hready⟩
      rw [hmoved]
      exact ⟨fun t ht => hw.retype hwkind ht, hready⟩

end Addresses

/-! ## Locations -/

section Locations

variable [HostFloat] {env : RunEnv} {b : BlockId} {s s' : EvalState} {m : Memory} {v w p : Var}
  {a : Nat} {type : CType}

/-- How the location at an address refers to it. -/
structure RefersTo (p w : Var) (type : CType) : Prop where
  type : w.type = type
  lvalue : w.lvalue = true
  fieldWidth : w.fieldWidth = 0
  kind : (w.kind = .direct ∧ p.kind = .address ∧ w.symbol = p.symbol) ∨
    (w.kind = .deref ∧ p.kind ≠ .address ∧ w.offset = 0 ∧
      ∀ sym, w.symbol = some sym → sym.type.isPointerType = true ∧ sym.IsStored)

theorem rvalue_pointer (hpointer : p.type.isPointerType = true) (hfield : p.fieldWidth = 0) :
    rvalue (some b) p = pure p := by
  rcases isScalar_of_isPointerType hpointer with ⟨-, hfunction, harray, -⟩
  exact rvalue_of_scalar (some b) (by simp [Var.isField, hfield]) hfunction harray

theorem derefDirect_emits (h : PointsTo env s.symbols.length m p a) (hkind : p.kind = .direct)
    (hoffset : p.offset = 0)
    (hsymbol : ∀ sym, p.symbol = some sym → sym.type.isPointerType = true ∧ sym.IsStored)
    (htype : typeDeref s.types p.type = some type) :
    Emits env b s m (derefDirect p) fun w s' m' =>
      RefersTo p w type ∧ IsAt env s'.symbols.length m' w a := by
  unfold derefDirect
  simp only [hkind, hoffset, h.pointer, ne_eq, not_true_eq_false, decide_false, Bool.not_true,
    Bool.or_self, Bool.false_eq_true, if_false]
  refine Emits.bindTable htype ?_
  have hnaddress : p.kind ≠ .address := by
    rw [hkind]
    decide
  refine Emits.pure ⟨⟨rfl, rfl, h.fieldWidth, Or.inr ⟨rfl, hnaddress, rfl, hsymbol⟩⟩, ?_⟩
  exact h.isAt_deref hkind hoffset (fun sym hsym => (hsymbol sym hsym).2.symtype_ne) rfl rfl rfl

theorem derefTemporary_emits (h : PointsTo env s.symbols.length m p a) (hkind : p.kind ≠ .immediate)
    (hnaddress : p.kind ≠ .address) (hroom : Room env s.symbols.length)
    (htype : typeDeref s.types p.type = some type) :
    Emits env b s m (evalTemporary (some b) p >>= derefDirect) fun w s' m' =>
      RefersTo p w type ∧ IsAt env s'.symbols.length m' w a := by
  refine Emits.bind (evalTemporary_emits h hroom hkind) ?_
  rintro t s' m' - htypes - ⟨ht, htt, htemp⟩
  rcases htemp.symbol with ⟨sym, hsymbol, -, hsymtype, hdefinition⟩
  refine Emits.mono (derefDirect_emits ht htemp.kind htemp.offset (fun sym' hsym' => ?_)
    (by rw [htypes, htt]; exact htype)) ?_
  · rw [hsymbol, some.injEq] at hsym'
    subst hsym'
    exact ⟨hsymtype ▸ h.pointer, by simp [Symbol.IsStored, varDirect, hdefinition]⟩
  · rintro w s'' m'' ⟨hw, hat⟩
    refine ⟨⟨hw.type, hw.lvalue, hw.fieldWidth, ?_⟩, hat⟩
    rcases hw.kind with ⟨-, hno, -⟩ | hderef
    · exact absurd (htemp.kind.symm.trans hno) (by decide)
    · exact Or.inr ⟨hderef.1, hnaddress, hderef.2.2⟩

/-- `eval_deref` of a pointer operand that is no string. -/
theorem evalDeref_emits (h : PointsTo env s.symbols.length m p a) (hready : Dereferenceable p)
    (hroom : Room env s.symbols.length) (htype : typeDeref s.types p.type = some type) :
    Emits env b s m (evalDeref (some b) p) fun w s' m' =>
      RefersTo p w type ∧ IsAt env s'.symbols.length m' w a := by
  unfold evalDeref
  rw [rvalue_pointer h.pointer h.fieldWidth, pure_bind]
  simp only [h.pointer, Bool.not_true, Bool.false_eq_true, if_false]
  cases hkind : p.kind with
  | deref =>
    exact derefTemporary_emits h (by rw [hkind]; decide) (by rw [hkind]; decide) hroom htype
  | direct =>
    simp only
    split
    · exact derefTemporary_emits h (by rw [hkind]; decide) (by rw [hkind]; decide) hroom htype
    · rename_i hcases
      simp only [ne_eq, decide_not, Bool.or_eq_true, Bool.not_eq_eq_eq_not, Bool.not_true,
        decide_eq_false_iff_not, not_or, not_not, Bool.not_eq_false] at hcases
      refine derefDirect_emits h hkind hcases.1 (fun sym hsym => ⟨?_, hready.direct hkind sym hsym⟩)
        htype
      have hany := hcases.2
      rw [hsym] at hany
      exact hany
  | address =>
    refine Emits.bindTable htype ?_
    refine Emits.pure ⟨⟨rfl, rfl, h.fieldWidth, Or.inl ⟨rfl, hkind, rfl⟩⟩, fun m' hm' => ?_⟩
    have hvalue := h.value m' hm'
    rw [operandValue, h.sizeOf_eq, bind_some, hkind] at hvalue
    exact hvalue
  | immediate =>
    have hsymbol := hready.immediate hkind
    refine Emits.bindTable htype ?_
    have hstring : p.isString = false := by simp [Var.isString, hsymbol]
    have hoffset := h.constant hkind hstring
    rw [hsymbol]
    have hnaddress : p.kind ≠ .address := by
      rw [hkind]
      decide
    refine Emits.pure ⟨⟨rfl, rfl, h.fieldWidth, Or.inr ⟨rfl, hnaddress, hoffset, ?_⟩⟩,
      fun m' _ => ?_⟩
    · intro sym hsym
      cases hsym
    · have himm := h.imm_eq hkind hstring
      have hlt := h.lt
      have hplace : (a % 2 ^ 64 + 0) % 2 ^ 64 = a := by
        rw [Nat.add_zero, Nat.mod_mod, Nat.mod_eq_of_lt hlt]
      simpa [placeOf, pointerOf, hoffset, Value.u, himm] using hplace

omit [HostFloat] in
theorem derefDirect_type :
    Ensures (derefDirect p) s fun w _ => typeDeref s.types p.type = some w.type := by
  unfold derefDirect
  refine Ensures.ite (fun _ => ?_) (fun _ => ?_)
  · exact Ensures.bind (Q := fun _ _ => False) (Ensures.throw _) (fun _ _ h => h.elim)
  · refine Ensures.bind (Q := fun t _ => typeDeref s.types p.type = some t)
      (Ensures.readTable fun _ h => h) fun t _ h => Ensures.pure h

theorem evalDeref_type (hpointer : p.type.isPointerType = true) (hfield : p.fieldWidth = 0) :
    Ensures (evalDeref (some b) p) s fun w _ => typeDeref s.types p.type = some w.type := by
  have htemp : p.kind ≠ .immediate → Ensures (evalTemporary (some b) p >>= derefDirect) s
      fun w _ => typeDeref s.types p.type = some w.type := by
    intro hkind
    rcases evalTemporary_eq (b := b) (s := s) hpointer hfield hkind with
      ⟨sym, res, -, -, -, -, htype, -, -, -, heval⟩
    refine Ensures.bind (Q := fun w s' => w.type = p.type ∧ s'.types = s.types) ?_ ?_
    · intro w s' hok
      rw [heval] at hok
      cases hok
      exact ⟨htype, rfl⟩
    · rintro w s' ⟨hw, htypes⟩
      exact (derefDirect_type (s := s')).mono fun _ _ h => by rw [htypes, hw] at h; exact h
  have hread : ∀ f : CType → EvalM Var, (∀ t, Ensures (f t) s fun w _ => w.type = t) →
      Ensures (readTable (typeDeref · p.type) >>= f) s
        fun w _ => typeDeref s.types p.type = some w.type := by
    intro f hf
    refine Ensures.bind (Q := fun t s' => typeDeref s.types p.type = some t ∧ s' = s)
      (Ensures.readTable fun _ h => ⟨h, rfl⟩) ?_
    rintro t s' ⟨ht, rfl⟩
    exact (hf t).mono fun w _ hw => hw ▸ ht
  unfold evalDeref
  rw [rvalue_pointer hpointer hfield, pure_bind]
  simp only [hpointer, Bool.not_true, Bool.false_eq_true, if_false]
  cases hkind : p.kind with
  | deref => exact htemp (by rw [hkind]; decide)
  | direct => exact Ensures.ite (fun _ => htemp (by rw [hkind]; decide)) (fun _ => derefDirect_type)
  | address => exact hread _ fun t => Ensures.pure rfl
  | immediate =>
    exact hread _ fun t => Ensures.ite (fun _ => Ensures.pure rfl) (fun _ => Ensures.throw _)

end Locations

/-! ## Round trips -/

/-- A location as the parser makes it: storage of a symbol, or storage behind a pointer symbol, a
string or a constant address.  The type table is that of handles with references of 16 bits, and the
address of a variable length array is kept in a pointer to another type than the array. -/
structure LValue (s : EvalState) (v : Var) : Prop where
  lvalue : v.lvalue = true
  fieldWidth : v.fieldWidth = 0
  kind : v.kind = .direct ∨ v.kind = .deref
  proper : v.type.Proper
  table : s.types.length < 65536
  complete : ∃ vla, isVla s.types v.type = some vla
  string : v.kind = .deref → ∀ sym, v.symbol = some sym → sym.symtype = .stringValue →
    sym.type.isPointerType = false
  pointer : v.kind = .deref → ∀ sym, v.symbol = some sym → sym.symtype ≠ .stringValue →
    sym.type.isPointerType = true ∧ sym.IsStored
  vlaAddress : v.kind = .direct → isVla s.types v.type = some true → ∀ sym id addr,
    v.symbol = some sym → sym.vlaAddress = some id → s.symbols[id]? = some addr →
      addr.IsStored ∧ addr.type.isPointerType = true ∧
        typeDeref s.types addr.type ≠ some v.type

/-- A pointer operand as the parser makes it. -/
structure PointerValue (s : EvalState) (p : Var) (type : CType) : Prop where
  pointee : typeDeref s.types p.type = some type
  table : s.types.length < 65536
  complete : ∃ vla, isVla s.types type = some vla
  number : p.kind = .immediate → p.isString = false → p.symbol = none
  string : ∀ sym, p.symbol = some sym → sym.symtype = .stringValue → sym.type.isPointerType = false
  direct : p.kind = .direct → ∀ sym, p.symbol = some sym → sym.IsStored
  address : p.kind = .address → ∀ sym, p.symbol = some sym → sym.vlaAddress = none

section RoundTrips

variable [HostFloat]

/-- The address of the location is computed, and its location is of the same type at the same
place. -/
def AddressLeadsBack (env : RunEnv) (b : BlockId) (s : EvalState) (m : Memory) (v : Var) (a : Nat) :
    Prop :=
  Evaluates env b s m (evalAddr (some b) v)
    (fun q s' m' => PointsTo env s'.symbols.length m' q a) ∧
  Evaluates env b s m (evalAddr (some b) v >>= evalDeref (some b)) fun w s' m' =>
    w.type = v.type ∧ IsAt env s'.symbols.length m' w a

/-- The address of the location behind the pointer is the pointer. -/
def LocationLeadsBack (env : RunEnv) (b : BlockId) (s : EvalState) (m : Memory) (p : Var)
    (a : Nat) : Prop :=
  Evaluates env b s m (evalDeref (some b) p >>= evalAddr (some b)) fun q s' m' =>
    PointsTo env s'.symbols.length m' q a

/-- The locations that `eval_addr` and `eval_deref` keep. -/
def KeepsLocation (s : EvalState) (v : Var) : Prop :=
  (v.kind = .direct → isVla s.types v.type = some false) ∧
  (v.kind = .deref → ∀ sym, v.symbol = some sym → sym.symtype ≠ .stringValue) ∧
  KeepsOffset v ∧
  RoomForPointer s.types v.type ∧ (v.type.isPointer = true → v.type.isPointerRestrict = false)

/-- The pointers that `eval_deref` and `eval_addr` keep. -/
def KeepsPointer (s : EvalState) (p : Var) (type : CType) : Prop :=
  p.isString = false ∧ (p.kind = .address → isVla s.types type = some false) ∧
    RoomForPointer s.types type

variable {env : RunEnv} {b : BlockId} {s s' : EvalState} {m : Memory} {v w p : Var} {a : Nat}
  {sym : Symbol} {type : CType} {Q : Var → EvalState → Memory → Prop}

omit [HostFloat] in
theorem vlaAddress_ensures :
    Ensures (vlaAddress v) s fun q s' => s' = s ∧ ∃ sym id addr, v.symbol = some sym ∧
      sym.vlaAddress = some id ∧ s.symbols[id]? = some addr ∧ q = varDirect addr := by
  unfold vlaAddress
  cases hvla : v.symbol.bind (·.vlaAddress) with
  | none => exact Ensures.throw _
  | some id =>
    rcases bind_eq_some_iff.mp hvla with ⟨sym, hsymbol, hid⟩
    refine Ensures.bind (Q := fun t s' => t = s ∧ s' = s) ?_ ?_
    · rintro t s' ⟨⟩
      exact ⟨rfl, rfl⟩
    · rintro _ s ⟨rfl, rfl⟩
      cases haddr : s.symbols[id]? with
      | none => exact Ensures.throw _
      | some addr => exact Ensures.pure ⟨rfl, sym, id, addr, hsymbol, hid, haddr, rfl⟩

theorem evalAddr_vla (hfield : v.fieldWidth = 0) (hkind : v.kind = .direct)
    (hvla : isVla s.types v.type = some true) : evalAddr (some b) v s = vlaAddress v s := by
  have hnofield : v.isField = false := by simp [Var.isField, hfield]
  unfold evalAddr
  simp only [hnofield, Bool.false_eq_true, if_false]
  rw [readTable_bind_run hvla]
  simp [hkind]

theorem evalAddr_aborts (hkind : v.kind = .deref) (hsymbol : v.symbol = some sym)
    (hpointer : sym.type.isPointerType = false) :
    Ensures (evalAddr (some b) v) s fun _ _ => False := by
  unfold evalAddr
  refine Ensures.ite (fun _ => ?_) (fun _ => ?_)
  · exact Ensures.bind (Q := fun _ _ => False) (Ensures.throw _) (fun _ _ h => h.elim)
  refine Ensures.bind (Q := fun _ _ => True) (Ensures.readTable fun _ _ => trivial) ?_
  intro vla s' _
  simp only [hkind, hsymbol, reduceCtorEq, decide_false, Bool.and_false, Bool.false_eq_true,
    if_false, addrOfDeref, hpointer, Bool.not_false, if_true]
  exact Ensures.bind (Q := fun _ _ => False) (Ensures.throw _) (fun _ _ h => h.elim)

/-- What `eval_addr` needs of a location whose address it computes. -/
structure Addressable (s : EvalState) (v : Var) : Prop where
  lvalue : v.lvalue = true
  fieldWidth : v.fieldWidth = 0
  kind : v.kind = .direct ∨ v.kind = .deref
  vla : ∃ vla, isVla s.types v.type = some vla ∧ (v.kind = .direct → vla = false)
  pointer : v.kind = .deref → ∀ sym, v.symbol = some sym →
    sym.type.isPointerType = true ∧ sym.IsStored

theorem Addressable.run (h : Addressable s v) :
    evalAddr (some b) v s = (do
      let tmp ← addressOperand (some b) v
      let type ← newType (typeCreatePointer · v.type)
      pure { tmp with type := type }) s := by
  rcases h.vla with ⟨vla, hvla, hdirect⟩
  exact evalAddr_run h.fieldWidth h.lvalue h.kind hvla hdirect
    fun hkind sym hsymbol => (h.pointer hkind sym hsymbol).1

theorem Addressable.evaluates (h : Addressable s v) (hat : IsAt env s.symbols.length m v a)
    (hroom : Room env s.symbols.length) {types : TypeTable}
    (hcreate : typeCreatePointer s.types v.type = some (type, types)) :
    Evaluates env b s m (evalAddr (some b) v) fun q s' m' =>
      (q.type = type ∧ s'.types = types) ∧
        PointsTo env s'.symbols.length m' q (narrowedAddress v a) ∧ Dereferenceable q := by
  refine Evaluates.congr h.run ?_
  refine Evaluates.bind (addressOperand_emits hat h.fieldWidth hroom h.pointer).evaluates ?_
  rintro tmp s' m' - - ⟨htypes, hpoints, hready⟩
  have hcreate' : typeCreatePointer s'.types v.type = some (type, types) := by
    rw [htypes]
    exact hcreate
  refine Evaluates.bind (Evaluates.newType
    (R := fun t s'' m'' => t = type ∧ s'' = { s' with types := types } ∧ m'' = m')
    hcreate' ⟨rfl, rfl, rfl⟩) ?_
  rintro _ _ _ - - ⟨rfl, rfl, rfl⟩
  exact Evaluates.pure ⟨⟨rfl, rfl⟩, hpoints _ (isPointerType_of_typeCreatePointer hcreate),
    hready.immediate, hready.direct⟩

theorem Addressable.aborts (h : Addressable s v) (hat : IsAt env s.symbols.length m v a)
    (hroom : Room env s.symbols.length) (hcreate : typeCreatePointer s.types v.type = none) :
    Ensures (evalAddr (some b) v) s fun _ _ => False := by
  intro q s' hok
  rw [h.run] at hok
  refine Ensures.bind (Q := fun _ s'' => s''.types = s.types) (R := fun _ _ => False) ?_ ?_ q s' hok
  · rcases addressOperand_emits (b := b) hat h.fieldWidth hroom h.pointer with
      ⟨tmp, s'', code, m'', hrun, hemits, -⟩
    intro tmp' s3 hok'
    rw [hrun] at hok'
    cases hok'
    exact hemits.types
  · intro tmp s'' htypes
    refine Ensures.bind (Q := fun _ _ => False) ?_ (fun _ _ h => h.elim)
    intro t s3 hok'
    simp [newType, htypes, hcreate] at hok'

omit [HostFloat] in
theorem LValue.addressable (hv : LValue s v)
    (hvla : v.kind = .direct → isVla s.types v.type = some false)
    (hstring : v.kind = .deref → ∀ sym, v.symbol = some sym → sym.symtype ≠ .stringValue) :
    Addressable s v := by
  rcases hv.complete with ⟨vla, hcomplete⟩
  refine ⟨hv.lvalue, hv.fieldWidth, hv.kind, ⟨vla, hcomplete, fun hkind => ?_⟩,
    fun hkind sym hsymbol => hv.pointer hkind sym hsymbol (hstring hkind sym hsymbol)⟩
  rw [hvla hkind, some.injEq] at hcomplete
  exact hcomplete.symm

theorem LValue.not_vla (hv : LValue s v) (hkind : v.kind = .direct)
    (h : Evaluates env b s m (evalAddr (some b) v >>= evalDeref (some b)) fun w s' m' =>
      w.type = v.type ∧ IsAt env s'.symbols.length m' w a) :
    isVla s.types v.type = some false := by
  rcases hv.complete with ⟨vla, hcomplete⟩
  cases vla with
  | false => exact hcomplete
  | true =>
    exfalso
    rcases h.of_bind with ⟨q, s', w, s'', m'', haddr, hderef, htype, -⟩
    rw [evalAddr_vla hv.fieldWidth hkind hcomplete] at haddr
    rcases vlaAddress_ensures q s' haddr with ⟨rfl, sym, id, addr, hsymbol, hid, hentry, rfl⟩
    rcases hv.vlaAddress hkind hcomplete sym id addr hsymbol hid hentry with
      ⟨hstored, hpointer, hne⟩
    have hdirect := hstored.varDirect_eq
    have hpointee := evalDeref_type (by rw [hdirect]; exact hpointer) (by rw [hdirect]) w s'' hderef
    rw [hdirect, htype] at hpointee
    exact hne hpointee

/-- The location of the address of a location. -/
theorem addressLeadsBack_iff (hv : LValue s v) (hb : b < s.blocks.length)
    (hroom : Room env s.symbols.length) (hat : IsAt env s.symbols.length m v a) :
    AddressLeadsBack env b s m v a ↔ KeepsLocation s v := by
  have hlt : a < 2 ^ 64 := by
    have hplace := hat.placeOf_eq
    rcases hv.kind with hkind | hkind
    · simp only [placeOf, hkind] at hplace
      rcases map_eq_some_iff.mp hplace with ⟨sym, -, rfl⟩
      exact Nat.mod_lt _ (by decide)
    · simp only [placeOf, hkind] at hplace
      rcases map_eq_some_iff.mp hplace with ⟨x, -, rfl⟩
      exact Nat.mod_lt _ (by decide)
  constructor
  · rintro ⟨haddr, hback⟩
    have hvla := fun hkind => hv.not_vla hkind hback
    have hstring : v.kind = .deref → ∀ sym, v.symbol = some sym → sym.symtype ≠ .stringValue := by
      intro hkind sym hsymbol hsymtype
      rcases haddr with ⟨q, s', -, -, hok, -⟩
      exact evalAddr_aborts hkind hsymbol (hv.string hkind sym hsymbol hsymtype) q s' hok
    have hready := hv.addressable hvla hstring
    have hsome : typeCreatePointer s.types v.type ≠ none := by
      intro hnone
      rcases haddr with ⟨q, s', -, -, hok, -⟩
      exact hready.aborts hat hroom hnone q s' hok
    rcases ne_none_iff_exists'.mp hsome with ⟨⟨t, types⟩, hcreate⟩
    have hrun := hready.evaluates (b := b) hat hroom hcreate
    refine ⟨hvla, hstring, ?_, ?_⟩
    · -- The address that is computed is unique.
      rcases haddr.and hb hrun with ⟨q, s', -, m', -, -, -, -, hpoints, -, hnarrow, -⟩
      have hsame := hnarrow.operandValue_eq.symm.trans hpoints.operandValue_eq
      exact (narrowedAddress_eq_iff hlt).mp (some.inj hsame)
    · rw [← keepsType_iff hv.proper hv.table]
      rcases hrun with ⟨q, s', -, m', hok, -, -, -, ⟨hq, htypes⟩, hpoints, -⟩
      rcases hback.of_bind with ⟨q', s1, w, s2, -, hok', hderef, htype, -⟩
      rw [hok] at hok'
      cases hok'
      have hpointee := evalDeref_type hpoints.pointer hpoints.fieldWidth w s2 hderef
      rw [hq, htypes, htype] at hpointee
      exact ⟨t, types, hcreate, hpointee⟩
  · rintro ⟨hvla, hstring, hoffset, htype⟩
    rcases (keepsType_iff hv.proper hv.table).mpr htype with ⟨t, types, hcreate, hpointee⟩
    have hrun := (hv.addressable hvla hstring).evaluates (b := b) hat hroom hcreate
    rw [(narrowedAddress_eq_iff hlt).mpr hoffset] at hrun
    refine ⟨hrun.mono fun q s' m' h => h.2.1, Evaluates.bind hrun ?_⟩
    rintro q s' m' hle - ⟨⟨rfl, rfl⟩, hpoints, hderef⟩
    refine Evaluates.mono (evalDeref_emits hpoints hderef (hroom.mono hle) hpointee).evaluates ?_
    rintro w s'' m'' ⟨-, hw, hat'⟩
    exact ⟨hw.type, hat'⟩

omit [HostFloat] in
theorem RefersTo.addressable (hw : RefersTo p w type) {vla : Bool}
    (hvla : isVla s.types type = some vla) (haddress : p.kind = .address → vla = false) :
    Addressable s w := by
  refine ⟨hw.lvalue, hw.fieldWidth, ?_, ⟨vla, hw.type ▸ hvla, fun hkind => ?_⟩,
    fun hkind sym hsymbol => ?_⟩
  · rcases hw.kind with h | h
    · exact Or.inl h.1
    · exact Or.inr h.1
  · rcases hw.kind with h | h
    · exact haddress h.2.1
    · exact absurd (hkind.symm.trans h.1) (by decide)
  · rcases hw.kind with h | h
    · exact absurd (hkind.symm.trans h.1) (by decide)
    · exact h.2.2.2 sym hsymbol

omit [HostFloat] in
theorem RefersTo.narrowedAddress_eq (hw : RefersTo p w type) (hlt : a < 2 ^ 64) :
    narrowedAddress w a = a := by
  rw [narrowedAddress_eq_iff hlt]
  intro hkind _
  rcases hw.kind with h | h
  · exact absurd (hkind.symm.trans h.1) (by decide)
  · rw [narrowOffset, h.2.2.1]
    decide

theorem evalDeref_string (hpointer : p.type.isPointerType = true) (hfield : p.fieldWidth = 0)
    (hkind : p.kind = .immediate) :
    Ensures (evalDeref (some b) p) s fun w _ => w.kind = .deref ∧ w.symbol = p.symbol := by
  unfold evalDeref
  rw [rvalue_pointer hpointer hfield, pure_bind]
  simp only [hpointer, Bool.not_true, Bool.false_eq_true, if_false, hkind]
  refine Ensures.bind (Q := fun _ _ => True) (Ensures.readTable fun _ _ => trivial) ?_
  exact fun _ _ _ => Ensures.ite (fun _ => Ensures.pure ⟨rfl, rfl⟩) (fun _ => Ensures.throw _)

/-- The address of the location behind a pointer. -/
theorem locationLeadsBack_iff (hp : PointerValue s p type)
    (hpoints : PointsTo env s.symbols.length m p a) (hroom : Room env s.symbols.length) :
    LocationLeadsBack env b s m p a ↔ KeepsPointer s p type := by
  rcases hp.complete with ⟨vla, hvla⟩
  have hready : p.isString = false → Dereferenceable p := fun hstring =>
    ⟨fun hkind => hp.number hkind hstring, hp.direct⟩
  constructor
  · intro hback
    have hstring : p.isString = false := by
      by_contra hstring
      rw [Bool.not_eq_false] at hstring
      rcases Var.exists_symbol_of_isString hstring with ⟨hkind, sym, hsymbol, hsymtype⟩
      rcases hback.of_bind with ⟨w, s', q, s'', -, hderef, haddr, -⟩
      rcases evalDeref_string hpoints.pointer hpoints.fieldWidth hkind w s' hderef with
        ⟨hwkind, hwsymbol⟩
      exact evalAddr_aborts hwkind (hwsymbol.trans hsymbol) (hp.string sym hsymbol hsymtype) q s''
        haddr
    rcases evalDeref_emits (b := b) hpoints (hready hstring) hroom hp.pointee with
      ⟨w, s', code, m', hok, hemits, -, -, hw, hat⟩
    rcases hback.of_bind with ⟨w', s1, q, s2, -, hok', haddr, -⟩
    rw [hok] at hok'
    cases hok'
    have hvla' : isVla s'.types type = some vla := by rw [hemits.types]; exact hvla
    have hnovla : p.kind = .address → vla = false := by
      intro hkind
      cases hcases : vla with
      | false => rfl
      | true =>
        exfalso
        rcases hw.kind with ⟨hwkind, -, hwsymbol⟩ | ⟨-, hno, -⟩
        · rw [evalAddr_vla hw.fieldWidth hwkind (by rw [hw.type, ← hcases]; exact hvla')] at haddr
          rcases vlaAddress_ensures q s2 haddr with ⟨-, sym, id, -, hsymbol, hid, -⟩
          rw [hp.address hkind sym (hwsymbol ▸ hsymbol)] at hid
          cases hid
        · exact absurd hkind hno
    refine ⟨hstring, fun hkind => hnovla hkind ▸ hvla, ?_⟩
    rw [← typeCreatePointer_ne_none_iff hp.table]
    intro hnone
    have hlen : s.symbols.length ≤ s'.symbols.length := hemits.symbols
    exact (hw.addressable hvla' hnovla).aborts hat (hroom.mono hlen)
      (by rw [hemits.types, hw.type]; exact hnone) q s2 haddr
  · rintro ⟨hstring, hnovla, hspace⟩
    rcases ne_none_iff_exists'.mp ((typeCreatePointer_ne_none_iff hp.table).mpr hspace) with
      ⟨⟨t, types⟩, hcreate⟩
    refine Evaluates.bind (evalDeref_emits hpoints (hready hstring) hroom hp.pointee).evaluates ?_
    rintro w s' m' hle - ⟨htypes, hw, hat⟩
    have hplain := hw.addressable (s := s') (htypes ▸ hvla) fun hkind => by
      have hfalse := hnovla hkind
      rw [hvla, some.injEq] at hfalse
      exact hfalse
    refine Evaluates.mono (hplain.evaluates hat (hroom.mono hle)
      (by rw [htypes, hw.type]; exact hcreate)) ?_
    rintro q s'' m'' ⟨-, hq, -⟩
    exact hw.narrowedAddress_eq hpoints.lt ▸ hq

/-- `eval_addr` and `eval_deref` are inverse on the locations and pointers that they keep. -/
theorem evalAddr_evalDeref_iff (b : BlockId) (s : EvalState) (hb : b < s.blocks.length) :
    (∀ v, LValue s v → ∀ env m a, Room env s.symbols.length → IsAt env s.symbols.length m v a →
      (AddressLeadsBack env b s m v a ↔ KeepsLocation s v)) ∧
    ∀ p type, PointerValue s p type → ∀ env m a, Room env s.symbols.length →
      PointsTo env s.symbols.length m p a →
      (LocationLeadsBack env b s m p a ↔ KeepsPointer s p type) :=
  ⟨fun _ hv _ _ _ hroom hat => addressLeadsBack_iff hv hb hroom hat,
    fun _ _ hp _ _ _ hroom hpoints => locationLeadsBack_iff hp hpoints hroom⟩

end RoundTrips

/-! ## Examples -/

/-- `p[offset]`, for the pointer `p`. -/
def indexedPointer (offset : BitVec 64) : Var :=
  { kind := .deref, type := basicTypeChar, symbol := some pointerSymbol, offset := offset,
    lvalue := true }

/-- The symbol of a string literal. -/
def stringSymbol : Symbol :=
  { id := 0, name := ".LC", type := { type := .array, ref := 1 }, symtype := .stringValue }

/-- A state with the type of three characters, and an empty block. -/
def stringState : EvalState :=
  { types := [{ type := .array, size := 3, next := basicTypeChar }], symbols := [stringSymbol],
    blocks := [{}] }

/-- `"ab"[1]` -/
def indexedString : Var :=
  { kind := .deref, type := basicTypeChar, symbol := some stringSymbol, offset := 1,
    lvalue := true }

theorem isAt_indexedPointer (offset : BitVec 64) :
    IsAt (wideEnv 0) 1 emptyMemory (indexedPointer offset) offset.toNat := by
  intro m' hm'
  have hload : m'.load ((wideEnv 0).addr 0) 8 = 0 :=
    load_of_agreeBelow hm' (Or.inr ⟨0, Nat.zero_lt_one, le_rfl, by show _ + 8 ≤ _ + 2 ^ 65; omega⟩)
  have hfits : 8 ≤ (wideEnv 0).extent 0 := show 8 ≤ 2 ^ 65 by omega
  have hid : pointerSymbol.id = 0 ∧ pointerSymbol.symtype ≠ .stringValue := by decide
  have hlt := offset.isLt
  simp only [placeOf, indexedPointer, pointerOf, hid, if_false, hfits, if_true, hload,
    map_some, Nat.zero_add, Nat.mod_eq_of_lt hlt]

theorem lvalue_indexedPointer (offset : BitVec 64) :
    LValue pointerState (indexedPointer offset) where
  lvalue := rfl
  fieldWidth := rfl
  kind := Or.inr rfl
  proper := ⟨fun _ => rfl, fun _ => rfl, fun _ => rfl⟩
  table := by decide
  complete := ⟨false, rfl⟩
  string := fun _ sym hsym hno => by cases hsym; cases hno
  pointer := fun _ sym hsym _ => by cases hsym; exact ⟨rfl, rfl⟩
  vlaAddress := fun hno => nomatch hno

/-- `&p[4]`, `*&p[4]` and `&*p` -/
theorem evalAddr_evalDeref_pointerSymbol :
    @AddressLeadsBack HostFloat.zero (wideEnv 0) 0 pointerState emptyMemory (indexedPointer 4) 4 ∧
      ∃ a, @LocationLeadsBack HostFloat.zero (wideEnv 0) 0 pointerState emptyMemory
        (varDirect pointerSymbol) a := by
  let _ := HostFloat.zero
  have hiff := evalAddr_evalDeref_iff 0 pointerState (by decide)
  constructor
  · refine (hiff.1 _ (lvalue_indexedPointer 4) _ _ _ (room_wideEnv 0 _)
      (isAt_indexedPointer 4)).mpr ⟨(by rintro ⟨⟩), fun _ sym hsym => ?_,
        fun _ _ => ?_, (by rintro ⟨⟩), (by rintro ⟨⟩)⟩
    · cases hsym
      decide
    · decide
  · rcases pointerVar_pointerSymbol.pointsTo 0 with ⟨a, hpoints, -⟩
    refine ⟨a, (hiff.2 _ basicTypeChar ?_ _ _ _ (room_wideEnv 0 _) hpoints).mpr
      ⟨rfl, (by rintro ⟨⟩), (by rintro ⟨⟩)⟩⟩
    exact {
      pointee := rfl
      table := by decide
      complete := ⟨false, rfl⟩
      number := fun hno => nomatch hno
      string := fun sym hsym hno => by cases hsym; cases hno
      direct := fun _ sym hsym => by cases hsym; rfl
      address := fun hno => nomatch hno }

theorem isAt_indexedString : IsAt (wideEnv 0) 1 emptyMemory indexedString 1 := by
  intro m' _
  have hsymtype : stringSymbol.symtype = .stringValue := rfl
  simp only [placeOf, indexedString, pointerOf, hsymtype, if_true, map_some]
  rfl

theorem lvalue_indexedString : LValue stringState indexedString where
  lvalue := rfl
  fieldWidth := rfl
  kind := Or.inr rfl
  proper := ⟨fun _ => rfl, fun _ => rfl, fun _ => rfl⟩
  table := by decide
  complete := ⟨false, rfl⟩
  string := fun _ sym hsym _ => by cases hsym; rfl
  pointer := fun _ sym hsym hno => by cases hsym; exact absurd rfl hno
  vlaAddress := fun hno => nomatch hno

/-- The address of `p[0x80000000]` is in front of `p`, and `"ab"[1]` has none. -/
theorem not_addressLeadsBack :
    (¬ ∀ v, LValue pointerState v → ∀ env m a, Room env 1 → IsAt env 1 m v a →
      @AddressLeadsBack HostFloat.zero env 0 pointerState m v a) ∧
    ¬ ∀ v, LValue stringState v → ∀ env m a, Room env 1 → IsAt env 1 m v a →
      @AddressLeadsBack HostFloat.zero env 0 stringState m v a := by
  let _ := HostFloat.zero
  constructor
  · intro h
    have hat := isAt_indexedPointer 0x80000000
    have hback := h _ (lvalue_indexedPointer 0x80000000) _ _ _ (room_wideEnv 0 1) hat
    have hkeeps := (addressLeadsBack_iff (lvalue_indexedPointer 0x80000000) (by decide)
      (room_wideEnv 0 1) hat).mp hback
    exact absurd (hkeeps.2.2.1 rfl (some_ne_none _)) (by decide)
  · intro h
    rcases h _ lvalue_indexedString _ _ _ (room_wideEnv 0 1) isAt_indexedString with
      ⟨⟨q, s', -, -, hok, -⟩, -⟩
    exact evalAddr_aborts rfl rfl rfl q s' hok

end Kcs
