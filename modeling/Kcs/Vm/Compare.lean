import Kcs.Vm.Reload

/-!
# Comparisons on the virtual machine

The code of `==`, `!=`, `>=` and `>` on integers and pointers.  Equality is
emitted with the type of its result, so that it compares 32 bits whatever the
operands are.  The order of operands is that of their own type, where pointers
count as signed.

Main results:

- Theorem {lit}`binaryCode_pushes`: the code of a binary operator computes the
  operator on the slots of its operands.
- Theorem {lit}`comparison_exact_iff`: exactly when a comparison is right.
-/

namespace Kcs.Vm

open Option

/-! ## Binary operators -/

section Binary

variable (env : GenEnv) (L : Layout)

/-- The slots of the operands of a binary operator.  The operand that is in the
last store is loaded first when the operator allows it. -/
def pairSlots (swap : Bool) (g : GenState) (c : VmCode) (s t : State) (e : Expression) :
    Option (Nat × Nat) :=
  if swap then
    (firstSlot env L g s t e.r).bind fun y =>
      (operandSlot env L (secondContext env g e.r) (secondState env L g c s t e.r) e.l).map
        fun x => (x, y)
  else
    (firstSlot env L g s t e.l).bind fun x =>
      (operandSlot env L (secondContext env g e.l) (secondState env L g c s t e.l) e.r).map
        fun y => (x, y)

/-- The values of the operands of a binary operator. -/
def pairValues (swap : Bool) (g : GenState) (t : State) (e : Expression) : Option (Int × Int) :=
  let kl := if swap then secondContext env g e.r else g.context
  let kr := if swap then g.context else secondContext env g e.l
  (operandInt env L kl t e.l).bind fun a => (operandInt env L kr t e.r).map fun b => (a, b)

/-- The operands are not in the free part of the stack. -/
def PairClear (swap : Bool) (g : GenState) (c : VmCode) (s t : State) (e : Expression) : Prop :=
  let first := if swap then e.r else e.l
  let second := if swap then e.l else e.r
  (∀ r ∈ operandReads env L g.context t first, Clear L t r.1 r.2) ∧
    ∀ r ∈ operandReads env L (secondContext env g first) (secondState env L g c s t first) second,
      Clear L t r.1 r.2

end Binary

variable {env : GenEnv} {L : Layout} {g g' : GenState} {base : List VmCode} {c : VmCode}
  {s t : State} {e : Expression} {i : CInteger} {x y : Nat}

theorem loadPair_pushes {v w : Var} {g'' : GenState} (h : AtPoint L g base c s t)
    (hv : wordOf v.type = some i) {j : CInteger} (hw : wordOf w.type = some j)
    (hx : firstSlot env L g s t v = some x)
    (hy : operandSlot env L (secondContext env g v) (secondState env L g c s t v) w = some y)
    (hclear : ∀ r ∈ operandReads env L g.context t v, Clear L t r.1 r.2)
    (hclear' : ∀ r ∈ operandReads env L (secondContext env g v) (secondState env L g c s t v) w,
      Clear L t r.1 r.2)
    (hgen : vmLoadVar env v g = some g') (hgen' : vmLoadVar env w g' = some g'') :
    g''.isGlobalMode = false ∧ ∃ code u1 u2, g''.prog = base ++ code ∧
      execCode L code s = some u2 ∧ Pushed L (secondState env L g c s t v) u1 x ∧
      Pushed L u1 u2 y := by
  have hloaded := firstLoad_pushes h hv hx hclear hgen
  have hroom := h.room
  have hfree : (secondState env L g c s t v).free L = t.free L := by
    simp only [State.free, (h.secondState_frame hv).1]
  have hclear'' : ∀ r ∈ operandReads env L (secondContext env g v)
      (secondState env L g c s t v) w, Clear L (secondState env L g c s t v) r.1 r.2 := by
    intro r hr
    have := hclear' r hr
    rwa [Clear, ← hfree] at this
  exact secondLoad_pushes hloaded hw (by omega) hclear'' hy hgen'

theorem execData_binary {opcode : VmOpcode} {o : CInteger.BinaryOp} {mirror : Bool}
    {type : VmOptype} {k : CInteger} (hop : binaryOpcode opcode = some (o, mirror))
    (htype : optypeInteger type = some k) (u : State) :
    execData L { opcode := opcode, type := type } u = execBinary L o mirror k u := by
  cases opcode <;> simp_all [execData, binaryOpcode]

theorem pairCode_pushes {v w : Var} {g'' : GenState} {d : VmCode} {z : Nat} {j : CInteger}
    (h : AtPoint L g base c s t) (hv : wordOf v.type = some i) (hw : wordOf w.type = some j)
    (hx : firstSlot env L g s t v = some x)
    (hy : operandSlot env L (secondContext env g v) (secondState env L g c s t v) w = some y)
    (hclear : ∀ r ∈ operandReads env L g.context t v, Clear L t r.1 r.2)
    (hclear' : ∀ r ∈ operandReads env L (secondContext env g v) (secondState env L g c s t v) w,
      Clear L t r.1 r.2)
    (hgen : vmLoadVar env v g = some g') (hgen' : vmLoadVar env w g' = some g'')
    (hexec : ∀ below u1 u2, Pushed L below u1 x → Pushed L u1 u2 y →
      below.free L + 8 ≤ L.limit → ∃ u, execData L d u2 = some u ∧ Pushed L below u z) :
    (emitVmCode d g'').isGlobalMode = false ∧
      ∃ code u, code ≠ [] ∧ (emitVmCode d g'').prog = base ++ code ∧
        execCode L code s = some u ∧ Pushed L (secondState env L g c s t v) u z := by
  have hroom := h.room
  rcases loadPair_pushes h hv hw hx hy hclear hclear' hgen hgen' with
    ⟨hmode, code, u1, u2, hprog, hrun, hp1, hp2⟩
  have hbelow : (secondState env L g c s t v).free L = t.free L := by
    simp only [State.free, (h.secondState_frame hv).1]
  rcases hexec _ u1 u2 hp1 hp2 (by omega) with ⟨u, hu, hpushed⟩
  refine ⟨(Emits.code hmode _).mode, code ++ [d], u, by simp, ?_, ?_, hpushed⟩
  · rw [(Emits.code hmode _).prog, hprog, List.append_assoc]
  · rw [execCode_append, hrun]
    simp [hu]

/-- The code of a binary operator computes the operator on the slots of its
operands, exchanged when they are loaded in the other order and the operator is
not mirrored. -/
theorem binaryCode_pushes {opcode : VmOpcode} {o : CInteger.BinaryOp} {type : VmOptype} {n : Int}
    {j k : CInteger} (swap mirror : Bool) (h : AtPoint L g base c s t)
    (hl : wordOf e.l.type = some i) (hr : wordOf e.r.type = some j)
    (hclear : PairClear env L swap g c s t e)
    (hslots : pairSlots env L swap g c s t e = some (x, y))
    (hop : binaryOpcode opcode = some (o, mirror)) (htype : optypeInteger type = some k)
    (hn : (if swap = mirror then CInteger.binary o k.promote (slotInt k x) (slotInt k y)
      else CInteger.binary o k.promote (slotInt k y) (slotInt k x)) = some n)
    (hgen : (if swap then (vmLoadVar env e.r g).bind fun g =>
        (vmLoadVar env e.l g).map (emitVmOp opcode type)
      else (vmLoadVar env e.l g).bind fun g =>
        (vmLoadVar env e.r g).map (emitVmOp opcode type)) = some g') :
    g'.isGlobalMode = false ∧ ∃ code u, code ≠ [] ∧ g'.prog = base ++ code ∧
      execCode L code s = some u ∧
      Pushed L (secondState env L g c s t (if swap then e.r else e.l)) u (toSlot n) := by
  cases swap with
  | true =>
    simp only [pairSlots, if_true, bind_eq_some_iff, map_eq_some_iff, Prod.mk.injEq] at hslots hgen
    rcases hslots with ⟨y', hy, x', hx, rfl, rfl⟩
    rcases hgen with ⟨g1, hgen1, g2, hgen2, rfl⟩
    apply pairCode_pushes h hr hl hy hx hclear.1 hclear.2 hgen1 hgen2
    intro below u1 u2 hp1 hp2 hroom
    rw [execData_binary hop htype]
    apply execBinary_pushed mirror hp1 hp2 hroom
    cases mirror <;> simpa using hn
  | false =>
    simp only [pairSlots, Bool.false_eq_true, if_false, bind_eq_some_iff,
      map_eq_some_iff, Prod.mk.injEq] at hslots hgen
    rcases hslots with ⟨x', hx, y', hy, rfl, rfl⟩
    rcases hgen with ⟨g1, hgen1, g2, hgen2, rfl⟩
    apply pairCode_pushes h hl hr hx hy hclear.1 hclear.2 hgen1 hgen2
    intro below u1 u2 hp1 hp2 hroom
    rw [execData_binary hop htype]
    apply execBinary_pushed mirror hp1 hp2 hroom
    cases mirror <;> simpa using hn

/-! ## Comparisons -/

/-- The relation of a comparison operator. -/
def holds (op : OpType) (a b : Int) : Bool :=
  match op with
  | .eq => a = b
  | .ne => a ≠ b
  | .ge => a ≥ b
  | .gt => a > b
  | _ => false

/-- The comparison operators. -/
def isComparison (op : OpType) : Bool := op = .eq || op = .ne || op = .ge || op = .gt

/-- The integer type in which the emitted instruction compares. -/
def compareType (e : Expression) : Option CInteger :=
  if e.op = .eq || e.op = .ne then some .int else optypeInteger (getVmOptype e.l.type)

/-- When the slots of the operands compare as their values do.  Equality looks at
32 bits of the slots; the order is that of the type of the left operand, in
which pointers are signed. -/
def CompareOk (e : Expression) (x y : Nat) (a b : Int) : Prop :=
  match e.op with
  | .eq | .ne => x % 2 ^ 32 = y % 2 ^ 32 ↔ a = b
  | .ge => ∀ k, optypeInteger (getVmOptype e.l.type) = some k →
      (slotInt k y ≤ slotInt k x ↔ b ≤ a)
  | .gt => ∀ k, optypeInteger (getVmOptype e.l.type) = some k →
      (slotInt k y < slotInt k x ↔ b < a)
  | _ => False

theorem slotInt_int_eq_iff : slotInt .int x = slotInt .int y ↔ x % 2 ^ 32 = y % 2 ^ 32 := by
  have hwidth : CInteger.int.format.width = 32 := rfl
  rw [slotInt, slotInt, IntFormat.wrap_eq_wrap_iff, hwidth]
  omega

theorem compareOk_iff {k : CInteger} {a b : Int} (hop : isComparison e.op = true)
    (hk : compareType e = some k) :
    CompareOk e x y a b ↔ holds e.op (slotInt k x) (slotInt k y) = holds e.op a b := by
  unfold compareType at hk
  unfold CompareOk holds
  unfold isComparison at hop
  cases hcase : e.op <;> simp_all
  all_goals
    subst hk
    rw [slotInt_int_eq_iff]
    omega

theorem optypeInteger_wordOf {type : CType} (h : wordOf type = some i) :
    ∃ k, optypeInteger (getVmOptype type) = some k ∧ k.format.width = i.format.width := by
  rcases wordOf_cases h with ⟨hp, rfl⟩ | ⟨-, hop, -⟩
  · have hkind : type.typeOf = .pointer := by simpa [CType.isPointerType] using hp
    cases hu : type.isUnsignedType with
    | true => exact ⟨.ulong, by simp [getVmOptype, hkind, hu, optypeInteger], rfl⟩
    | false => exact ⟨.long, by simp [getVmOptype, hkind, hu, optypeInteger], rfl⟩
  · exact ⟨i, hop, rfl⟩

theorem equalityOptype_eq (hl : wordOf e.l.type = some i) (htype : e.type.cInteger = some .int) :
    equalityOptype e = .int32 := by
  rcases CType.cInteger_eq_some_iff.mp htype with ⟨hkind, hsign⟩
  have hint : e.type.typeOf = .int := hkind
  have hsigned : e.type.isUnsignedType = false := hsign
  simp [equalityOptype, (wordOf_kinds hl).2, getVmOptype, hint, hsigned]

/-- The code of a comparison, by the order in which the operands are loaded. -/
theorem vmGenExpr_comparison (env : GenEnv) (g : GenState) (hop : isComparison e.op = true)
    (hl : wordOf e.l.type = some i) (htype : e.type.cInteger = some .int) :
    ∃ opcode type k o, ∃ mirror : Bool, binaryOpcode opcode = some (o, mirror) ∧
      optypeInteger type = some k ∧ compareType e = some k ∧
      (∀ a b, (if isSwapAvailable env e.r g = mirror then CInteger.binary o k.promote a b
        else CInteger.binary o k.promote b a) = some (CInteger.ofBool (holds e.op a b))) ∧
      vmGenExpr env e g =
        if isSwapAvailable env e.r g then (vmLoadVar env e.r g).bind fun g =>
          (vmLoadVar env e.l g).map (emitVmOp opcode type)
        else (vmLoadVar env e.l g).bind fun g =>
          (vmLoadVar env e.r g).map (emitVmOp opcode type) := by
  have hequality := equalityOptype_eq hl htype
  rcases optypeInteger_wordOf hl with ⟨k, hk, -⟩
  cases hcase : e.op with
  | eq =>
    refine ⟨.eq, .int32, .int, .eq, false, rfl, rfl, by simp [compareType, hcase], ?_, ?_⟩
    · intro a b
      simp only [CInteger.binary, holds, eq_comm, ite_self]
    · simp [vmGenExpr, hcase, hequality, vmGenSwapped]
  | ne =>
    refine ⟨.ne, .int32, .int, .ne, false, rfl, rfl, by simp [compareType, hcase], ?_, ?_⟩
    · intro a b
      simp only [CInteger.binary, holds, ne_comm, ite_self]
    · simp [vmGenExpr, hcase, hequality, vmGenSwapped]
  | ge =>
    cases hswap : isSwapAvailable env e.r g with
    | true =>
      refine ⟨.le, getVmOptype e.l.type, k, .ge, true, rfl, hk,
        by simp [compareType, hcase, hk], ?_, ?_⟩
      · intro a b
        simp [CInteger.binary, holds]
      · simp [vmGenExpr, hcase, vmGenSwapped, hswap]
    | false =>
      refine ⟨.ge, getVmOptype e.l.type, k, .ge, false, rfl, hk,
        by simp [compareType, hcase, hk], ?_, ?_⟩
      · intro a b
        simp [CInteger.binary, holds]
      · simp [vmGenExpr, hcase, vmGenSwapped, hswap]
  | gt =>
    cases hswap : isSwapAvailable env e.r g with
    | true =>
      refine ⟨.lt, getVmOptype e.l.type, k, .gt, true, rfl, hk,
        by simp [compareType, hcase, hk], ?_, ?_⟩
      · intro a b
        simp [CInteger.binary, holds]
      · simp [vmGenExpr, hcase, vmGenSwapped, hswap]
    | false =>
      refine ⟨.gt, getVmOptype e.l.type, k, .gt, false, rfl, hk,
        by simp [compareType, hcase, hk], ?_, ?_⟩
      · intro a b
        simp [CInteger.binary, holds]
      · simp [vmGenExpr, hcase, vmGenSwapped, hswap]
  | _ => simp [isComparison, hcase] at hop

/-- A comparison is right: its code pushes the truth value of the relation between
the values of the operands. -/
def ComparesRight (env : GenEnv) (L : Layout) (base : List VmCode) (s t : State) (e : Expression)
    (g g' : GenState) : Prop :=
  ∃ a b code u, pairValues env L (isSwapAvailable env e.r g) g t e = some (a, b) ∧
    g'.prog = base ++ code ∧ execCode L code s = some u ∧ u.sp = t.sp + 8 ∧
    u.top L = if holds e.op a b then 1 else 0

/-- Exactly when a comparison is right: when the slots of the operands, read as the
emitted instruction does, compare as the values of the operands. -/
theorem comparison_exact_iff (env : GenEnv) (L : Layout) (e : Expression) (g g' : GenState)
    (base : List VmCode) (c : VmCode) (s t : State) (i : CInteger) (x y : Nat) (a b : Int)
    (hop : isComparison e.op = true) (htype : e.type.cInteger = some .int)
    (hl : wordOf e.l.type = some i) (hr : wordOf e.r.type = some i)
    (hpoint : AtPoint L g base c s t)
    (hclear : PairClear env L (isSwapAvailable env e.r g) g c s t e)
    (hslots : pairSlots env L (isSwapAvailable env e.r g) g c s t e = some (x, y))
    (hvalues : pairValues env L (isSwapAvailable env e.r g) g t e = some (a, b))
    (hgen : vmGenExpr env e g = some g') :
    ComparesRight env L base s t e g g' ↔ CompareOk e x y a b := by
  rcases vmGenExpr_comparison env g hop hl htype with
    ⟨opcode, type, k, o, mirror, hopcode, hoptype, hk, hbinary, hcode⟩
  rw [hcode] at hgen
  rcases binaryCode_pushes _ mirror hpoint hl hr hclear hslots hopcode hoptype (hbinary _ _)
    hgen with ⟨-, code, u, -, hprog, hrun, hpushed⟩
  have htop := hpushed.top
  have hsp : u.sp = t.sp + 8 := by
    rw [hpushed.sp]
    split
    · rw [(hpoint.secondState_frame hr).1]
    · rw [(hpoint.secondState_frame hl).1]
  have hslot : ∀ p q : Bool, (toSlot (CInteger.ofBool p) = if q then 1 else 0) ↔ p = q := by decide
  rw [compareOk_iff hop hk]
  constructor
  · rintro ⟨a', b', code', u', hvalues', hprog', hrun', -, htop'⟩
    rw [hvalues, some.injEq, Prod.mk.injEq] at hvalues'
    rcases hvalues' with ⟨rfl, rfl⟩
    have hsame : code' = code := List.append_cancel_left (hprog'.symm.trans hprog)
    rw [hsame, hrun, some.injEq] at hrun'
    rw [← hrun', htop] at htop'
    exact (hslot _ _).mp htop'
  · intro hsame
    exact ⟨a, b, code, u, hvalues, hprog, hrun, hsp, htop.trans ((hslot _ _).mpr hsame)⟩

/-- Comparison of two local variables of type `long`. -/
def longEquality : Expression where
  op := .eq
  type := basicTypeInt
  l := sampleVar 0 basicTypeLong
  r := sampleVar 1 basicTypeLong

/-- The two variables, the second of which is zero. -/
def longMemory (n : Nat) : Memory := Memory.store (fun _ => 0) 4160 8 n

/-- Equal variables compare as equal. -/
theorem comparison_exact_longs :
    ComparesRight sampleEnv sampleLayout [] (sampleState (longMemory 0))
      (sampleState (longMemory 0)) longEquality sampleGen
      ((vmGenExpr sampleEnv longEquality sampleGen).getD {}) :=
  (comparison_exact_iff sampleEnv sampleLayout longEquality sampleGen _ [] _ _ _ .long 0 0 0 0
    rfl rfl rfl rfl (sample_atPoint (longMemory 0)) ⟨by decide, by decide⟩ rfl rfl rfl).mpr
    (by simp [CompareOk, longEquality])

/-- Two variables of type `long` that differ in bit 32 only compare as equal. -/
theorem long_equality_wrong :
    ¬ ComparesRight sampleEnv sampleLayout [] (sampleState (longMemory 4294967296))
      (sampleState (longMemory 4294967296)) longEquality sampleGen
      ((vmGenExpr sampleEnv longEquality sampleGen).getD {}) := by
  rintro ⟨a, b, code, u, hvalues, hprog, hrun, -, htop⟩
  have hvalues' : (a, b) = (4294967296, 0) := by
    rw [← some.injEq, ← hvalues]
    rfl
  have hcode : (execCode sampleLayout code (sampleState (longMemory 4294967296))).map
      (State.top sampleLayout) = some 1 := by
    rw [List.nil_append] at hprog
    rw [← hprog]
    rfl
  rw [Prod.mk.injEq] at hvalues'
  rw [hvalues'.1, hvalues'.2] at htop
  rw [hrun, map_some, htop] at hcode
  exact absurd hcode (by decide)

end Kcs.Vm
