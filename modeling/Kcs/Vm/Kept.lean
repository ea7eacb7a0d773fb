import Kcs.Vm.LowBytes
import Kcs.Vm.Straight

/-!
# Slots that are kept

A load of what has just been stored takes the store back: the slot stays on the
stack, and the store of a temporary is dropped.  Operands are exchanged when the
right one can be taken back.  The operands of an expression then have the low
bytes that they have without elision, and so has its value when no instruction
looks at bytes of a kept slot above those of its type.

Main results:

- Theorem {lit}`OperandSlots.exprSlot`: the value has the same low bytes.
- Theorem {lit}`vmGenExpr_elided`: what the code of an expression leaves.
-/

namespace Kcs.Vm

open Option List

/-! ## States that agree -/

/-- Bytes that are in none of some ranges of bytes. -/
def ApartFrom (D : List (Nat × Nat)) (a n : Nat) : Prop :=
  ∀ d ∈ D, a + n ≤ d.1 ∨ d.1 + d.2 ≤ a

instance (D : List (Nat × Nat)) (a n : Nat) : Decidable (ApartFrom D a n) :=
  inferInstanceAs (Decidable (∀ d ∈ D, a + n ≤ d.1 ∨ d.1 + d.2 ≤ a))

/-- Two states have the same registers, and the same memory outside the free part of the stack and
given bytes. -/
structure Agree (L : Layout) (D : List (Nat × Nat)) (t u : State) : Prop where
  sp : t.sp = u.sp
  bp : t.bp = u.bp
  gp : t.gp = u.gp
  mem : ∀ b, b < u.free L ∨ L.limit ≤ b → ApartFrom D b 1 → t.mem b = u.mem b

variable {env : GenEnv} {L : Layout} {g g' p p' : GenState} {base code pcode : List VmCode}
  {c d : VmCode} {s s₀ t u u₀ w w' : State} {D D' : List (Nat × Nat)} {k k' : LoadContext}
  {v : Var} {e : Expression} {i : CInteger} {a n m x x' y y' z z' : Nat}

theorem Agree.refl (L : Layout) (D : List (Nat × Nat)) (t : State) : Agree L D t t :=
  ⟨rfl, rfl, rfl, fun _ _ _ => rfl⟩

theorem Agree.mono (h : Agree L D t u) (hsub : ∀ d ∈ D, d ∈ D') : Agree L D' t u :=
  ⟨h.sp, h.bp, h.gp, fun b hb hapart => h.mem b hb fun d hd => hapart d (hsub d hd)⟩

theorem Agree.trans (h : Agree L D t u) (h' : Agree L D' u w) : Agree L (D ++ D') t w where
  sp := h.sp.trans h'.sp
  bp := h.bp.trans h'.bp
  gp := h.gp.trans h'.gp
  mem := by
    intro b hb hapart
    have hfree : u.free L = w.free L := by simp only [State.free, h'.sp]
    rw [h.mem b (hfree ▸ hb) fun d hd => hapart d (mem_append_left _ hd)]
    exact h'.mem b hb fun d hd => hapart d (mem_append_right _ hd)

theorem Agree.load (h : Agree L D t u) (hclear : Clear L u a n) (hapart : ApartFrom D a n) :
    t.mem.load a n = u.mem.load a n := by
  apply Memory.load_congr
  intro b hlo hhi
  apply h.mem
  · rcases hclear with hbelow | habove
    · left
      omega
    · right
      omega
  · intro d hd
    rcases hapart d hd with hbelow | habove
    · left
      omega
    · right
      omega

theorem Agree.operandSlot_eq (h : Agree L D t u)
    (hclear : ∀ r ∈ operandReads env L k u v, Clear L u r.1 r.2)
    (hapart : ∀ r ∈ operandReads env L k u v, ApartFrom D r.1 r.2) :
    operandSlot env L k t v = operandSlot env L k u v ∧
      operandReads env L k t v = operandReads env L k u v :=
  operandSlot_congr h.bp h.gp fun r hr => h.load (hclear r hr) (hapart r hr)

theorem Agree.varAddr_eq (h : Agree L D t u) (a : VmAddress) : varAddr L t a = varAddr L u a := by
  simp only [varAddr, h.bp, h.gp]

/-! ## Temporaries -/

/-- Bytes of a type of integers or pointers. -/
def wordBytes (type : CType) : Nat := ((wordOf type).map byteSize).getD 0

section Temporaries

variable (env : GenEnv) (L : Layout)

/-- The bytes of an operand that is a temporary. -/
def tempBytes (s : State) (v : Var) : List (Nat × Nat) :=
  if v.kind = .direct ∧ isTemporaryVar v = true then
    (v.symbol.map fun sym => (varAddr L s (vmAddress env v sym 0), wordBytes v.type)).toList
  else []

/-- The bytes of the temporaries that an expression reads. -/
def exprTemps (s : State) (e : Expression) : List (Nat × Nat) :=
  tempBytes env L s e.l ++ if loadsTwo e then tempBytes env L s e.r else []

/-- The bytes of the temporaries that assignments read. -/
def readTemps (s : State) (code : List Statement) : List (Nat × Nat) :=
  code.flatMap fun st => exprTemps env L s st.expr

end Temporaries

theorem Agree.tempBytes_eq (h : Agree L D t u) (v : Var) :
    tempBytes env L t v = tempBytes env L u v := by
  simp only [tempBytes, h.varAddr_eq]

/-! ## Taking back a store -/

theorem AtPoint.afterReload_agree (h : AtPoint L g base c s t) (hword : wordOf v.type = some i)
    (hstore : c.opcode = .pop → (storeBytes c.type).isSome = true)
    (hre : reloads env g v = true) :
    Agree L (tempBytes env L t v) (afterReload L c s v) t := by
  rcases h.reloads_iff hword hre with
    ⟨sym, a, hsym, hkind, -, hop, htype, hd, hsize, haddr, -, -⟩
  rcases isSome_iff_exists.mp (hstore hop) with ⟨n, hn⟩
  rcases h.pop hop htype with ⟨a', hd', -, hbytes, -⟩
  rw [hd, VmOperand.addr.injEq] at hd'
  subst hd'
  have hpop : t = { s with
      mem := s.mem.store (varAddr L s a) n (s.top L)
      sp := s.sp - 8 } := by
    have hstep := h.step
    simp only [execData, hop, execPop, hd, hn] at hstep
    exact (some.inj hstep).symm
  have hregisters : s.bp = t.bp ∧ s.gp = t.gp ∧ s.sp - 8 = t.sp := by
    rw [hpop]
    exact ⟨rfl, rfl, rfl⟩
  by_cases htemp : isTemporaryVar v = true
  · simp only [afterReload, htemp, if_true]
    refine ⟨hregisters.2.2, hregisters.1, hregisters.2.1, ?_⟩
    intro b _ hapart
    have hplace : varAddr L t (vmAddress env v sym 0) = varAddr L s a := by
      rw [← haddr t]
      simp only [varAddr, hregisters.1, hregisters.2.1]
    have hn' : wordBytes v.type = n := by
      have := hbytes n hn
      simp only [wordBytes, hword, map_some, getD_some]
      omega
    have hout := hapart (varAddr L s a, n) (by simp [tempBytes, hkind, htemp, hsym, hplace, hn'])
    rw [hpop]
    exact (Memory.store_outside (by omega)).symm
  · have hkept : execStore L c s =
        some { s with mem := s.mem.store (varAddr L s a) n (s.top L) } := by
      simp [execStore, hd, hn]
    have hafter : afterReload L c s v = t := by
      simp only [afterReload, htemp, hkept, hpop]
      rfl
    rw [hafter]
    exact Agree.refl _ _ _

theorem AtPoint.secondState_agree (env : GenEnv) (h : AtPoint L g base c s t)
    (hword : wordOf v.type = some i)
    (hstore : c.opcode = .pop → (storeBytes c.type).isSome = true) :
    Agree L (tempBytes env L t v) (secondState env L g c s t v) t := by
  unfold secondState
  split
  · rename_i hre
    exact h.afterReload_agree hword hstore hre
  · exact Agree.refl _ _ _

theorem AtPoint.firstSlot_kept (h : AtPoint L g base c s t) (hv : WordOperand v)
    (hword : wordOf v.type = some i) (hx : operandSlot env L g.context t v = some x') :
    ∃ x, firstSlot env L g s t v = some x ∧ x < 2 ^ 64 ∧
      (x = x' ∨ reloads env g v = true ∧ x = s.top L ∧ x' = toSlot (slotInt i x)) := by
  cases hre : reloads env g v with
  | false =>
    refine ⟨x', by simpa [firstSlot, hre] using hx, operandSlot_lt hx, Or.inl rfl⟩
  | true =>
    rcases h.reloads_iff hword hre with
      ⟨sym, a, hsym, hkind, -, hop, htype, hd, hsize, haddr, -, -⟩
    have hne := (byteSize_wordOf hword).1
    rcases execPop_eq hd htype h.pop hop hsize (byteSize_cases hne) h.step with
      ⟨-, hbp, hgp, -, hload⟩
    have hplace : varAddr L t (vmAddress env v sym 0) = varAddr L s a := by
      rw [← haddr t]
      simp only [varAddr, hbp, hgp]
    have hlt : s.top L < 2 ^ 64 := by
      rw [show (2 : Nat) ^ 64 = 256 ^ 8 by norm_num]
      exact Memory.load_lt _ _ _
    refine ⟨s.top L, by simp [firstSlot, hre], hlt, Or.inr ⟨rfl, rfl, ?_⟩⟩
    rw [operandSlot_direct hkind hsym hword hv.plain, some.injEq, hplace, hload h.sp] at hx
    have hlow : SameLow (byteSize i) (s.top L % 256 ^ byteSize i) (s.top L) := Nat.mod_mod _ _
    rw [← hx]
    exact congrArg toSlot (hlow.slotInt_eq hne le_rfl)

/-! ## Operands of an assignment -/

theorem operandSlot_context (hstring : loadedString env v = []) (hlabels : k.labels = k'.labels) :
    operandSlot env L k s v = operandSlot env L k' s v ∧
      operandReads env L k s v = operandReads env L k' s v := by
  have haddr : operandAddr env L k s v = operandAddr env L k' s v := by
    unfold operandAddr
    cases hkind : v.kind with
    | deref =>
      cases hsym : v.symbol with
      | none => simp
      | some sym =>
        have hno : (varDirect sym).isString = false := by
          simpa [loadedString, hkind, hsym] using hstring
        simp [pointerValue, hno]
    | _ => rfl
  constructor
  · cases hkind : v.kind with
    | immediate =>
      by_cases hp : v.type.isPointerType = true
      · have hsym : v.symbol = none := by
          cases hsym : v.symbol with
          | none => rfl
          | some sym => simp [loadedString, hkind, hp, hsym] at hstring
        simp [operandSlot, operandInt, hkind, hp, hsym]
      · simp [operandSlot, operandInt, hkind, hp]
    | address => simp [operandSlot, hkind, addressValue, hlabels]
    | direct | deref => simp [operandSlot, operandInt, hkind, haddr]
  · simp only [operandReads, haddr]

section Conditions

variable (env : GenEnv) (L : Layout)

/-- The operand that is loaded second. -/
def secondOperand (g : GenState) (e : Expression) : Var :=
  if exprSwap env g e then e.l else e.r

/-- Bytes of an assignment that matter: those of the target and those of the value. -/
def valueBytes (v : Var) (e : Expression) : Nat := max (wordBytes v.type) (wordBytes e.type)

/-- The slot that is kept when a store is taken back serves as the operand: the bytes above those
of its type are not read, or they extend the value. -/
def KeptRight (g : GenState) (s : State) (v : Var) (e : Expression) : Prop :=
  ∀ i, reloads env g (firstOperand env g e) = true →
    wordOf (firstOperand env g e).type = some i →
    bytesRead env e (valueBytes v e) ≤ byteSize i ∨ toSlot (slotInt i (s.top L)) = s.top L

/-- The operands of an expression may be loaded with elision, from a state of the generator with
the state of the machine before its last instruction, the context and the state that the code
without elision has reached, and the bytes of temporaries that have been read.

The operands have values and lie outside the free part of the stack.  What a temporary held is not
read again, neither by name nor through a pointer.  Operands that are exchanged do not both push a
string. -/
structure OperandsOk (g : GenState) (k : LoadContext) (u : State) (D : List (Nat × Nat))
    (e : Expression) : Prop where
  value : ∃ z, plainSlot env L k u e = some z
  clear : ∀ r ∈ exprReads env L k u e, Clear L u r.1 r.2
  apart : ∀ r ∈ exprReads env L k u e, ApartFrom D r.1 r.2
  once : loadsTwo e = true →
    ∀ r ∈ operandReads env L (k.behind env (firstOperand env g e)) u (secondOperand env g e),
      ApartFrom (tempBytes env L u (firstOperand env g e)) r.1 r.2
  strings : loadsTwo e = true → exprSwap env g e = true →
    loadedString env e.l = [] ∨ loadedString env e.r = []

end Conditions

theorem firstOperand_eq (g : GenState) (e : Expression) :
    firstOperand env g e = if loadsTwo e && exprSwap env g e then e.r else e.l := rfl

theorem isShift_of_exprSwap {o : CInteger.BinaryOp} (hswap : exprSwap env g e = true)
    (hop : e.op.binaryOp = some o) : o.isShift = false := by
  cases hcase : e.op <;> simp [hcase, OpType.binaryOp] at hop <;> subst hop <;>
    first
      | rfl
      | simp [exprSwap, hcase] at hswap

/-- The operands as the code with elision loads them: the slots that the operator sees, and those
that it would see without elision. -/
structure OperandSlots (env : GenEnv) (L : Layout) (g : GenState) (c : VmCode) (s t : State)
    (e : Expression) (x y x' y' : Nat) : Prop where
  two : loadsTwo e = true → pairSlots env L (exprSwap env g e) g c s t e = some (x, y) ∧
    PairClear env L (exprSwap env g e) g c s t e
  one : loadsTwo e = false → firstSlot env L g s t e.l = some x ∧ y = 0 ∧
    ∀ r ∈ operandReads env L g.context t e.l, Clear L t r.1 r.2
  left : x < 2 ^ 64 ∧ x' < 2 ^ 64 ∧ SameLow (wordBytes e.l.type) x x'
  right : loadsTwo e = true → y < 2 ^ 64 ∧ y' < 2 ^ 64 ∧ SameLow (wordBytes e.r.type) y y'
  kept : ∀ v : Var, KeptRight env L g s v e → ∀ z', operatorSlot env e x' y' = some z' →
    ∃ z, operatorSlot env e x y = some z ∧ SameLow (valueBytes v e) z z'

theorem operandSlot_behind {v w : Var} (h : loadedString env v = [] ∨ loadedString env w = []) :
    operandSlot env L (k.behind env v) s w = operandSlot env L k s w ∧
      operandReads env L (k.behind env v) s w = operandReads env L k s w := by
  rcases h with h | h
  · have hcontext : k.behind env v = k := by simp [LoadContext.behind, h]
    rw [hcontext]
    exact ⟨rfl, rfl⟩
  · exact operandSlot_context h rfl

theorem sameLow_of_kept (hword : wordOf v.type = some i) (hx : x < 2 ^ 64)
    (h : x = x' ∨ reloads env g v = true ∧ x = s.top L ∧ x' = toSlot (slotInt i x)) :
    x' < 2 ^ 64 ∧ SameLow (wordBytes v.type) x x' := by
  have hbytes : wordBytes v.type = byteSize i := by simp [wordBytes, hword]
  rcases h with rfl | ⟨-, -, rfl⟩
  · exact ⟨hx, SameLow.refl _ _⟩
  · rw [hbytes]
    exact ⟨toSlot_lt _, sameLow_toSlot (byteSize_wordOf hword).1⟩

theorem operatorSlot_kept_left (hfirst : firstOperand env g e = e.l)
    (hword : wordOf e.l.type = some i) (hx : x < 2 ^ 64)
    (h : x = x' ∨ reloads env g e.l = true ∧ x = s.top L ∧ x' = toSlot (slotInt i x))
    (hkept : KeptRight env L g s v e) (hz : operatorSlot env e x' y = some z') :
    ∃ z, operatorSlot env e x y = some z ∧ SameLow (valueBytes v e) z z' := by
  rcases h with rfl | ⟨hre, hslot, rfl⟩
  · exact ⟨z', hz, SameLow.refl _ _⟩
  · rw [KeptRight, hfirst] at hkept
    rcases hkept i hre hword with hread | hextended
    · have hlow := sameLow_toSlot (x := x) (byteSize_wordOf hword).1
      exact operatorSlot_low hread hlow hx (toSlot_lt _) (Or.inl rfl) hz
    · rw [hslot, hextended] at hz
      rw [hslot]
      exact ⟨z', hz, SameLow.refl _ _⟩

theorem operatorSlot_kept_right (hfirst : firstOperand env g e = e.r)
    (hswap : exprSwap env g e = true) (hword : wordOf e.r.type = some i) (hx : x < 2 ^ 64)
    (h : y = y' ∨ reloads env g e.r = true ∧ y = s.top L ∧ y' = toSlot (slotInt i y))
    (hkept : KeptRight env L g s v e) (hz : operatorSlot env e x y' = some z') :
    ∃ z, operatorSlot env e x y = some z ∧ SameLow (valueBytes v e) z z' := by
  rcases h with rfl | ⟨hre, hslot, rfl⟩
  · exact ⟨z', hz, SameLow.refl _ _⟩
  · rw [KeptRight, hfirst] at hkept
    rcases hkept i hre hword with hread | hextended
    · have hlow := sameLow_toSlot (x := y) (byteSize_wordOf hword).1
      exact operatorSlot_low hread (SameLow.refl _ _) hx hx
        (Or.inr ⟨hlow, fun o hop => isShift_of_exprSwap hswap hop⟩) hz
    · rw [hslot, hextended] at hz
      rw [hslot]
      exact ⟨z', hz, SameLow.refl _ _⟩

theorem AtPoint.second_agree {v w : Var} (h : AtPoint L g base c s t) (hv : WordOperand v)
    (hstore : c.opcode = .pop → (storeBytes c.type).isSome = true) (hagree : Agree L D t u)
    (hclear : ∀ r ∈ operandReads env L k u w, Clear L u r.1 r.2)
    (hapart : ∀ r ∈ operandReads env L k u w, ApartFrom D r.1 r.2)
    (honce : ∀ r ∈ operandReads env L k u w, ApartFrom (tempBytes env L u v) r.1 r.2) :
    operandSlot env L k (secondState env L g c s t v) w = operandSlot env L k u w ∧
      ∀ r ∈ operandReads env L k (secondState env L g c s t v) w, Clear L t r.1 r.2 := by
  rcases hv.word with ⟨i, hword⟩
  have hall := (h.secondState_agree env hword hstore).trans hagree
  rw [hagree.tempBytes_eq] at hall
  have hboth : ∀ r ∈ operandReads env L k u w, ApartFrom (tempBytes env L u v ++ D) r.1 r.2 := by
    intro r hr d hd
    rcases mem_append.mp hd with hd | hd
    · exact honce r hr d hd
    · exact hapart r hr d hd
  rcases hall.operandSlot_eq hclear hboth with ⟨hslot, hreads⟩
  refine ⟨hslot, ?_⟩
  rw [hreads]
  intro r hr
  have hfree : t.free L = u.free L := by simp only [State.free, hagree.sp]
  have := hclear r hr
  rwa [Clear, ← hfree] at this

/-- The operands of an expression with and without elision. -/
theorem OperandsOk.slots (hok : OperandsOk env L g g.context u D e) (h : AtPoint L g base c s t)
    (he : WordExpr e) (hstore : c.opcode = .pop → (storeBytes c.type).isSome = true)
    (hagree : Agree L D t u) (hslots : plainOperands env L g.context u e = some (x', y')) :
    ∃ x y, OperandSlots env L g c s t e x y x' y' := by
  simp only [plainOperands, bind_eq_some_iff] at hslots
  rcases hslots with ⟨x'', hx', hslots⟩
  have hleftClear : ∀ r ∈ operandReads env L g.context u e.l, Clear L u r.1 r.2 :=
    fun r hr => hok.clear r (mem_append_left _ hr)
  have hleftApart : ∀ r ∈ operandReads env L g.context u e.l, ApartFrom D r.1 r.2 :=
    fun r hr => hok.apart r (mem_append_left _ hr)
  have hfree : t.free L = u.free L := by simp only [State.free, hagree.sp]
  have hclearT : ∀ r : Nat × Nat, Clear L u r.1 r.2 → Clear L t r.1 r.2 := by
    intro r hr
    rwa [Clear, hfree]
  rcases he.left.word with ⟨i, hi⟩
  cases htwo : loadsTwo e with
  | false =>
    simp only [htwo, Bool.false_eq_true, if_false, some.injEq, Prod.mk.injEq] at hslots
    rcases hslots with ⟨rfl, rfl⟩
    have hfirst : firstOperand env g e = e.l := by simp [firstOperand_eq, htwo]
    rcases hagree.operandSlot_eq hleftClear hleftApart with ⟨hslot, hreads⟩
    rcases h.firstSlot_kept he.left hi (hslot.trans hx') with ⟨x, hx, hlt, hcase⟩
    rcases sameLow_of_kept hi hlt hcase with ⟨hlt', hlow⟩
    refine ⟨x, 0, ?_, fun _ => ⟨hx, rfl, ?_⟩, ⟨hlt, hlt', hlow⟩, ?_, ?_⟩
    · intro htrue
      rw [htwo] at htrue
      cases htrue
    · rw [hreads]
      exact fun r hr => hclearT r (hleftClear r hr)
    · intro htrue
      rw [htwo] at htrue
      cases htrue
    · intro v hkept z' hz
      exact operatorSlot_kept_left hfirst hi hlt hcase hkept hz
  | true =>
    simp only [htwo, if_true, map_eq_some_iff, Prod.mk.injEq] at hslots
    rcases hslots with ⟨y'', hy', rfl, rfl⟩
    have hright := he.right htwo
    rcases hright.word with ⟨j, hj⟩
    have hrightClear : ∀ r ∈ operandReads env L (g.context.behind env e.l) u e.r,
        Clear L u r.1 r.2 := fun r hr => hok.clear r (by simp [exprReads, htwo, hr])
    have hrightApart : ∀ r ∈ operandReads env L (g.context.behind env e.l) u e.r,
        ApartFrom D r.1 r.2 := fun r hr => hok.apart r (by simp [exprReads, htwo, hr])
    have honce := hok.once htwo
    cases hswap : exprSwap env g e with
    | false =>
      have hfirst : firstOperand env g e = e.l := by simp [firstOperand_eq, hswap]
      simp only [hfirst, secondOperand, hswap, Bool.false_eq_true, if_false] at honce
      rcases hagree.operandSlot_eq hleftClear hleftApart with ⟨hslot, hreads⟩
      rcases h.firstSlot_kept he.left hi (hslot.trans hx') with ⟨x, hx, hlt, hcase⟩
      rcases sameLow_of_kept hi hlt hcase with ⟨hlt', hlow⟩
      rcases h.second_agree he.left hstore hagree hrightClear hrightApart honce with
        ⟨hslot', hclear'⟩
      have hylt := operandSlot_lt hy'
      refine ⟨x, y'', fun _ => ⟨?_, ?_⟩, ?_, ⟨hlt, hlt', hlow⟩,
        fun _ => ⟨hylt, hylt, SameLow.refl _ _⟩, ?_⟩
      · have hsecond : operandSlot env L (secondContext env g e.l) (secondState env L g c s t e.l)
            e.r = some y'' := hslot'.trans hy'
        simp [pairSlots, hswap, hx, hsecond]
      · simp only [PairClear, hswap, Bool.false_eq_true, if_false]
        refine ⟨?_, hclear'⟩
        rw [hreads]
        exact fun r hr => hclearT r (hleftClear r hr)
      · intro hfalse
        rw [htwo] at hfalse
        cases hfalse
      · intro v hkept z' hz
        exact operatorSlot_kept_left hfirst hi hlt hcase hkept hz
    | true =>
      have hfirst : firstOperand env g e = e.r := by simp [firstOperand_eq, htwo, hswap]
      simp only [hfirst, secondOperand, hswap, if_true] at honce
      have hstrings := hok.strings htwo hswap
      rcases operandSlot_behind (k := g.context) (s := u) (L := L) hstrings with
        ⟨hrslot, hrreads⟩
      rcases operandSlot_behind (k := g.context) (s := u) (L := L) hstrings.symm with
        ⟨hlslot, hlreads⟩
      rw [hrreads] at hrightClear hrightApart
      rw [← hlreads] at hleftClear hleftApart
      rw [hrslot] at hy'
      rw [← hlslot] at hx'
      rcases hagree.operandSlot_eq hrightClear hrightApart with ⟨hslot, hreads⟩
      rcases h.firstSlot_kept hright hj (hslot.trans hy') with ⟨y, hy, hlt, hcase⟩
      rcases sameLow_of_kept hj hlt hcase with ⟨hlt', hlow⟩
      rcases h.second_agree hright hstore hagree hleftClear hleftApart honce with
        ⟨hslot', hclear'⟩
      have hxlt := operandSlot_lt hx'
      refine ⟨x'', y, fun _ => ⟨?_, ?_⟩, ?_, ⟨hxlt, hxlt, SameLow.refl _ _⟩,
        fun _ => ⟨hlt, hlt', hlow⟩, ?_⟩
      · have hsecond : operandSlot env L (secondContext env g e.r) (secondState env L g c s t e.r)
            e.l = some x'' := hslot'.trans hx'
        simp [pairSlots, hswap, hy, hsecond]
      · simp only [PairClear, hswap, if_true]
        refine ⟨?_, hclear'⟩
        rw [hreads]
        exact fun r hr => hclearT r (hrightClear r hr)
      · intro hfalse
        rw [htwo] at hfalse
        cases hfalse
      · intro v hkept z' hz
        exact operatorSlot_kept_right hfirst hswap hj hxlt hcase hkept hz

/-- The slot of an expression with elision. -/
theorem OperandSlots.exprSlot (h : OperandSlots env L g c s t e x y x' y') (he : WordExpr e)
    (hkept : KeptRight env L g s v e) (hz : operatorSlot env e x' y' = some z') :
    ∃ z, exprSlot env L g c s t e = some z ∧ SameLow (valueBytes v e) z z' := by
  rcases h.kept v hkept z' hz with ⟨z, hz, hlow⟩
  refine ⟨z, ?_, hlow⟩
  rw [exprSlot_eq he.call]
  cases htwo : loadsTwo e with
  | true => simp [(h.two htwo).1, hz]
  | false =>
    rcases h.one htwo with ⟨hx, rfl, -⟩
    simp [hx, hz]

theorem OperandSlots.exprClear (h : OperandSlots env L g c s t e x y x' y') (he : WordExpr e) :
    ExprClear env L g c s t e := by
  cases hop : e.op.binaryOp with
  | some o =>
    rw [exprClear_binary hop]
    cases hsteps : incdecSteps e with
    | some n => exact (h.one (by simp [loadsTwo, hsteps])).2.2
    | none => exact (h.two (by simp [loadsTwo, hop, hsteps])).2
  | none =>
    have hreads := (h.one (by simp [loadsTwo, hop])).2.2
    unfold ExprClear
    cases hcase : e.op <;> simp [hcase, OpType.binaryOp] at hop
    case call => exact absurd hcase he.call
    case vaArg => exact absurd hcase he.vaArg
    case cast => exact hreads
    case not => exact hreads
    case neg => exact hreads

/-! ## Code of an assignment -/

/-- The operands are on the stack in the order in which they have been loaded. -/
def LoadsPushed (L : Layout) (swap : Bool) (e : Expression) (u w : State) (x y : Nat) : Prop :=
  if loadsTwo e then
    if swap then ∃ w', Pushed L u w' y ∧ Pushed L w' w x
    else ∃ w', Pushed L u w' x ∧ Pushed L w' w y
  else Pushed L u w x

/-- The slot of the left operand. -/
def leftSlot (L : Layout) (swap : Bool) (e : Expression) (w : State) : Nat :=
  if loadsTwo e && !swap then w.drop.top L else w.top L

/-- The slot of the right operand. -/
def rightSlot (L : Layout) (swap : Bool) (w : State) : Nat :=
  if swap then w.drop.top L else w.top L

theorem LoadsPushed.slots {swap : Bool} (h : LoadsPushed L swap e u w x y) :
    w.sp = u.sp + (if loadsTwo e then 16 else 8) ∧ leftSlot L swap e w = x ∧
      (loadsTwo e = true → rightSlot L swap w = y) := by
  unfold LoadsPushed at h
  unfold leftSlot rightSlot
  cases htwo : loadsTwo e with
  | false =>
    simp only [htwo, Bool.false_eq_true, if_false] at h
    exact ⟨by simpa using h.sp, by simpa using h.top, fun hne => nomatch hne⟩
  | true =>
    cases swap with
    | false =>
      simp only [htwo, if_true, Bool.false_eq_true, if_false] at h
      rcases h with ⟨w', hx, hy⟩
      refine ⟨?_, by simpa using hx.below hy, fun _ => by simpa using hy.top⟩
      simp only [hy.sp, hx.sp, if_true]
    | true =>
      simp only [htwo, if_true] at h
      rcases h with ⟨w', hy, hx⟩
      refine ⟨?_, by simpa using hx.top, fun _ => by simpa using hy.below hx⟩
      simp only [hx.sp, hy.sp, if_true]

theorem OperandsPushed.loads (h : OperandsPushed L e u w x y) : LoadsPushed L false e u w x y := by
  unfold OperandsPushed at h
  unfold LoadsPushed
  split at h
  · rename_i htwo
    simpa [htwo] using h
  · rename_i htwo
    simpa [htwo] using h

/-- The code of the operands with elision leaves their slots. -/
theorem vmLoadOperands_runs (h : AtPoint L g base c s t) (he : WordExpr e)
    (hslots : OperandSlots env L g c s t e x y x' y')
    (hgen : vmLoadOperands env e g = some g') :
    g'.isGlobalMode = false ∧ (loadsTwo e = false → ∀ d, g'.last = some d → d.opcode ≠ .pop) ∧
      ∃ code w, g'.prog = base ++ code ∧ execCode L code s = some w ∧
        LoadsPushed L (exprSwap env g e) e (secondState env L g c s t (firstOperand env g e)) w
          x y := by
  rcases he.left.word with ⟨i, hi⟩
  unfold LoadsPushed
  cases htwo : loadsTwo e with
  | false =>
    rcases hslots.one htwo with ⟨hx, -, hreads⟩
    simp only [vmLoadOperands, htwo, Bool.false_eq_true, if_false] at hgen
    have hloaded := firstLoad_pushes h hi hx hreads hgen
    refine ⟨hloaded.mode, fun _ d hd => (hloaded.last d hd).1, ?_⟩
    have hfirst : firstOperand env g e = e.l := by simp [firstOperand_eq, htwo]
    rw [hfirst]
    simpa using hloaded.run
  | true =>
    rcases hslots.two htwo with ⟨hpair, hclear⟩
    rcases (he.right htwo).word with ⟨j, hj⟩
    simp only [vmLoadOperands, htwo, if_true] at hgen
    cases hswap : exprSwap env g e with
    | false =>
      simp only [hswap, pairSlots, PairClear, Bool.false_eq_true, if_false,
        bind_eq_some_iff, map_eq_some_iff, Prod.mk.injEq] at hpair hclear hgen
      rcases hpair with ⟨x₁, hx, y₁, hy, rfl, rfl⟩
      rcases hgen with ⟨g₁, hgen₁, hgen₂⟩
      rcases loadPair_pushes h hi hj hx hy hclear.1 hclear.2 hgen₁ hgen₂ with
        ⟨hmode, code, w₁, w, hprog, hrun, hp₁, hp₂⟩
      have hfirst : firstOperand env g e = e.l := by simp [firstOperand_eq, hswap]
      rw [hfirst]
      refine ⟨hmode, fun hne => absurd hne (by decide), code, w, hprog, hrun, ?_⟩
      simpa using ⟨w₁, hp₁, hp₂⟩
    | true =>
      simp only [hswap, pairSlots, PairClear, if_true, bind_eq_some_iff,
        map_eq_some_iff, Prod.mk.injEq] at hpair hclear hgen
      rcases hpair with ⟨y₁, hy, x₁, hx, rfl, rfl⟩
      rcases hgen with ⟨g₁, hgen₁, hgen₂⟩
      rcases loadPair_pushes h hj hi hy hx hclear.1 hclear.2 hgen₁ hgen₂ with
        ⟨hmode, code, w₁, w, hprog, hrun, hp₁, hp₂⟩
      have hfirst : firstOperand env g e = e.r := by simp [firstOperand_eq, htwo, hswap]
      rw [hfirst]
      refine ⟨hmode, fun hne => absurd hne (by decide), code, w, hprog, hrun, ?_⟩
      simpa using ⟨w₁, hp₁, hp₂⟩

@[simp]
theorem emitVmCode_image (d : VmCode) (g : GenState) :
    (emitVmCode d g).globalImage = g.globalImage := by
  unfold emitVmCode GenState.setCode
  split <;> rfl

@[simp]
theorem emitVmAddOffset_image (offset : BitVec 64) (g : GenState) :
    (emitVmAddOffset offset g).globalImage = g.globalImage := by
  unfold emitVmAddOffset
  split
  · rfl
  · simp [emitVmOp, emitVmPushImm]

theorem emitCode_image (code : List VmCode) (g : GenState) :
    (emitCode code g).globalImage = g.globalImage := by
  induction code generalizing g with
  | nil => rfl
  | cons d code ih => exact (ih (emitVmCode d g)).trans (emitVmCode_image d g)

theorem emitVmLoad_image (hfield : v.isField = false) (h : emitVmLoad env v g = some g') :
    g'.globalImage = g.globalImage := by
  simp only [emitVmLoad, hfield, Bool.false_eq_true, if_false, bind_eq_some_iff] at h
  rcases h with ⟨sym, -, size, -, h⟩
  split at h <;> rw [some.injEq] at h <;> subst h
  · unfold takeBack GenState.setCode
    split
    · rfl
    · split <;> rfl
  · simp

/-- A load adds its string to the global data. -/
theorem vmLoadVar_image (hv : WordOperand v) (h : vmLoadVar env v g = some g') :
    g'.globalImage = g.globalImage ++ loadedString env v := by
  rcases hv with ⟨⟨i, hword⟩, hfield⟩
  cases hkind : v.kind with
  | direct =>
    simp only [vmLoadVar, hkind] at h
    simp [emitVmLoad_image hfield h, loadedString, hkind]
  | address =>
    simp only [vmLoadVar, hkind, emitVmLoadAddress, bind_eq_some_iff, map_eq_some_iff] at h
    rcases h with ⟨sym, -, size, -, rfl⟩
    split <;> simp [loadedString, hkind]
  | immediate =>
    simp only [vmLoadVar, hkind] at h
    by_cases hpointer : v.type.isPointerType = true
    · have htype : v.type.typeOf = .pointer := by simpa [CType.isPointerType] using hpointer
      simp only [vmLoadImmediate, htype] at h
      cases hsym : v.symbol with
      | none =>
        simp only [hsym, some.injEq] at h
        subst h
        simp [emitVmPushInt, emitVmPushImm, loadedString, hkind, hpointer, hsym]
      | some sym =>
        simp only [hsym, ite_none_right_eq_some, some.injEq] at h
        rcases h with ⟨-, rfl⟩
        simp [emitVmPushString, loadedString, hkind, hpointer, hsym]
    · rcases wordOf_cases hword with ⟨hp, -⟩ | ⟨-, -, -, hinteger, -⟩
      · exact absurd hp hpointer
      · have hstring : loadedString env v = [] := by simp [loadedString, hkind, hpointer]
        unfold CType.isInteger at hinteger
        unfold vmLoadImmediate at h
        cases htype : v.type.typeOf <;> rw [htype] at hinteger h <;>
          first
            | exact absurd hinteger (by decide)
            | (simp only [some.injEq] at h
               subst h
               simp [emitVmPushInt, emitVmPushImm, hstring])
  | deref =>
    simp only [vmLoadVar, hkind, bind_eq_some_iff, vmLoadPointer, emitVmDeref, map_eq_some_iff] at h
    rcases h with ⟨sym, hsym, g₁, hload, sym', -, size, -, rfl⟩
    simp only [emitVmCode_image, emitVmAddOffset_image]
    split at hload
    · rename_i hstring
      rw [some.injEq] at hload
      subst hload
      simp [emitVmPushString, loadedString, hkind, hsym, hstring]
    · rename_i hstring
      rw [map_eq_some_iff] at hload
      rcases hload with ⟨g₂, hload, rfl⟩
      have himage := emitVmLoad_image (varDirect_isField sym) hload
      simp only at himage
      simp [himage, loadedString, hkind, hsym, hstring]

theorem vmLoadOperands_image (he : WordExpr e)
    (hstrings : loadsTwo e = true → exprSwap env g e = true →
      loadedString env e.l = [] ∨ loadedString env e.r = [])
    (h : vmLoadOperands env e g = some g') :
    g'.globalImage = g.globalImage ++ exprStrings env e := by
  unfold vmLoadOperands at h
  unfold exprStrings
  split at h
  · rename_i htwo
    simp only [htwo, if_true]
    split at h
    · rename_i hswap
      rw [bind_eq_some_iff] at h
      rcases h with ⟨g₁, h₁, h₂⟩
      rw [vmLoadVar_image he.left h₂, vmLoadVar_image (he.right htwo) h₁]
      rcases hstrings htwo hswap with hnil | hnil <;> simp [hnil]
    · rw [bind_eq_some_iff] at h
      rcases h with ⟨g₁, h₁, h₂⟩
      rw [vmLoadVar_image (he.right htwo) h₂, vmLoadVar_image he.left h₁, append_assoc]
  · rename_i htwo
    simp [htwo, vmLoadVar_image he.left h]

theorem operatorCode_last {swap : Bool} (h : operatorCode env swap e = some code) :
    (∀ d ∈ code, d.opcode ≠ .pop) ∧ (code = [] → loadsTwo e = false) := by
  cases hsteps : incdecSteps e with
  | some n =>
    rcases incdecSteps_eq_some hsteps with ⟨-, -, ⟨hop, -⟩ | ⟨hop, -⟩⟩ <;>
    · simp only [operatorCode, hop, hsteps, some.injEq] at h
      subst h
      refine ⟨?_, fun _ => by simp [loadsTwo, hsteps]⟩
      intro d hd
      rw [eq_of_mem_replicate hd]
      split <;> simp
  | none =>
    cases hop : e.op with
    | cast =>
      simp only [operatorCode, hop, map_eq_some_iff] at h
      rcases h with ⟨equal, -, rfl⟩
      refine ⟨?_, fun _ => by simp [loadsTwo, hop, OpType.binaryOp]⟩
      cases equal <;> simp
    | not | neg =>
      simp only [operatorCode, hop, some.injEq] at h
      subst h
      simp
    | call | vaArg => simp [operatorCode, hop, hsteps, operatorOpcode] at h
    | ge | gt =>
      simp only [operatorCode, hop, hsteps, operatorOpcode, map_some, some.injEq] at h
      subst h
      cases swap <;> simp
    | _ =>
      simp only [operatorCode, hop, hsteps, operatorOpcode, map_some, some.injEq] at h
      subst h
      simp

theorem wordOf_incdecCount (h : isIncdecCount v = true) : ∃ i, wordOf v.type = some i := by
  simp only [isIncdecCount, Bool.and_eq_true, decide_eq_true_eq] at h
  have hkind := h.1.1.2
  have hpointer : v.type.isPointerType = false := by simp [CType.isPointerType, hkind]
  cases hunsigned : v.type.isUnsignedType with
  | true =>
    refine ⟨.uint, ?_⟩
    have hword : v.type.cInteger = some .uint := CType.cInteger_eq_some_iff.mpr ⟨hkind, hunsigned⟩
    simp [wordOf, CType.wordType, hpointer, hword]
  | false =>
    refine ⟨.int, ?_⟩
    have hword : v.type.cInteger = some .int := CType.cInteger_eq_some_iff.mpr ⟨hkind, hunsigned⟩
    simp [wordOf, CType.wordType, hpointer, hword]

/-- The code of an expression with elision leaves its slot, and does not end with a store. -/
theorem vmGenExpr_elided (h : AtPoint L g base c s t) (he : WordExpr e)
    (hslots : OperandSlots env L g c s t e x y x' y')
    (hz : exprSlot env L g c s t e = some z) (hgen : vmGenExpr env e g = some g') :
    LeavesOperand L base s (secondState env L g c s t (firstOperand env g e)) g' z ∧
      ∀ d, g'.last = some d → d.opcode ≠ .pop := by
  rcases he.word with ⟨j, hj⟩
  have hright : e.op.binaryOp ≠ none → ∃ j, wordOf e.r.type = some j := by
    intro hop
    cases hsteps : incdecSteps e with
    | some n => exact wordOf_incdecCount (incdecSteps_eq_some hsteps).1
    | none =>
      have htwo : loadsTwo e = true := by
        simp [loadsTwo, hsteps, isSome_iff_ne_none, hop]
      exact (he.right htwo).word
  refine ⟨vmGenExpr_leaves h he.call he.left.word hright (wordOf_kinds hj).2
    (hslots.exprClear he) hz hgen, ?_⟩
  rw [vmGenExpr_eq env e g he.call, bind_eq_some_iff] at hgen
  rcases hgen with ⟨g₁, hload, hgen⟩
  rw [map_eq_some_iff] at hgen
  rcases hgen with ⟨ops, hops, rfl⟩
  rcases operatorCode_last hops with ⟨hpop, hone⟩
  rcases vmLoadOperands_runs h he hslots hload with ⟨hmode, hlast, -⟩
  intro d hd
  by_cases hnil : ops = []
  · subst hnil
    exact hlast (hone rfl) d hd
  · have hemits := emitCode_emits hmode ops
    exact hpop d (last_mem_of_append hemits.mode hemits.prog hnil d hd)

end Kcs.Vm
