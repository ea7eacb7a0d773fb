import Kcs.Vm.LoadFails

/-!
# Calls through pointers

The operand of a call designates a function by its name, or by a pointer in a variable
or in memory.  {lit}`emit_vm_call` encodes it as a name or as a place in a frame, which is
right for names and for variables that the linker does not move.

Main results:

- Theorem {lit}`calls_right_iff`: the operands for which that function gets control.
- Theorem {lit}`call_member_wrong`: a call through a pointer in a structure that is
  behind a pointer.
-/

namespace Kcs.Vm

open Option List BitVec Memory

/-! ## The instruction -/

/-- What gets control: code at a position, or a function of the library of built-in functions. -/
inductive Callee
  | code (ip : Int)
  | builtin (name : String)
deriving DecidableEq, Repr

variable (L : Layout)

/-- The state in which a callee starts: code finds the position of the next instruction on the
stack. -/
def Callee.enter (ip : Int) (s : State) : Callee → State
  | .code _ => s.push L (toSlot (ip + 1))
  | .builtin _ => s

/-- `VM_CALL` at a position.  A name that is still there when the program runs ends it. -/
def execVmCall (ip : Int) (c : VmCode) (s : State) : Option (Callee × State) :=
  match c.type with
  | .funcaddr => some (.code c.addr.index, s.push L (toSlot (ip + 1)))
  | .addr =>
    let t := s.push L (toSlot (ip + 1))
    some (.code (slotInt .long (t.mem.load (varAddr L t c.addr) 8)), t)
  | .builtin => some (.builtin c.addr.name, s)
  | _ => none

/-! ## What an operand designates -/

section Values

variable (env : GenEnv) (final globals : List VmLabel)

/-- How far a variable is moved when the program is linked. -/
def linkOffset (sym : Symbol) : Int :=
  if isGlobalVar env sym then getGlobalOffset globals (env.symName sym) else 0

/-- Address of a variable in the linked program, with an offset. -/
def linkedAddr (s : State) (sym : Symbol) (offset : Int) : Nat :=
  objectAddr env L s sym (linkOffset env globals sym + offset)

/-- The storage of the pointer that is called. -/
def calleeAddr (k : LoadContext) (s : State) (v : Var) : Option Nat :=
  match v.kind with
  | .direct => v.symbol.map fun sym => linkedAddr L env globals s sym v.offset.toInt
  | .deref =>
    let pointer : Option Int :=
      match v.symbol with
      | none => some v.imm.u
      | some sym =>
        if sym.symtype = .stringValue then some (stringAddr L k 0)
        else if sym.type.isPointerType then
          some (s.mem.load (linkedAddr L env globals s sym 0) 8)
        else none
    pointer.bind fun p =>
      if toSlot (p + v.offset.toInt) < nullPage then none else some (toSlot (p + v.offset.toInt))
  | _ => none

/-- The function of a name, with an offset. -/
def functionCallee (name : String) (offset : Int) : Option Callee :=
  ((getVmLabel final name).bind fun p => final[p]?).bind fun label =>
    if 0 ≤ label.index then some (.code (label.index + offset))
    else if offset = 0 then some (.builtin name) else none

/-- The function that an operand of pointer type designates. -/
def calleeValue (k : LoadContext) (s : State) (v : Var) : Option Callee :=
  match v.kind with
  | .immediate =>
    match v.symbol with
    | none => some (.code v.imm.i)
    | some sym =>
      if sym.symtype = .stringValue then
        some (.code (slotInt .long (toSlot (stringAddr L k v.offset.toInt))))
      else none
  | .address =>
    v.symbol.bind fun sym =>
      if sym.type.isFunction then functionCallee final (env.symName sym) v.offset.toInt
      else some (.code (slotInt .long (toSlot (linkedAddr L env globals s sym v.offset.toInt))))
  | _ => (calleeAddr L env globals k s v).map fun a => .code (slotInt .long (s.mem.load a 8))

/-- The bytes that hold the pointers of an operand. -/
def calleeReads (k : LoadContext) (s : State) (v : Var) : List (Nat × Nat) :=
  (if v.kind = .deref then
    (v.symbol.map fun sym => (linkedAddr L env globals s sym 0, 8)).toList
  else []) ++ ((calleeAddr L env globals k s v).map (·, 8)).toList

end Values

/-! ## Calls -/

section Calls

variable (env : GenEnv) (final globals : List VmLabel)

/-- The call that is emitted for an operand gives control, once it is linked, to the function that
the operand designates, from every state. -/
def CallsRight (v : Var) : Prop :=
  ∀ L g s ip callee, s.free L + 8 ≤ L.limit →
    (∀ r ∈ calleeReads L env globals g.context s v, Clear L s r.1 r.2) →
    calleeValue L env final globals g.context s v = some callee →
    ∃ g' c d, emitVmCall env v g = some g' ∧ g'.code = g.code ++ [c] ∧
      (∀ j, reassignCode final globals j c = some d) ∧
      execVmCall L ip d s = some (callee, callee.enter L ip s)

/-- The operand of a call designates a function in some state. -/
structure CallOperand (v : Var) : Prop where
  pointer : v.type.isPointerType = true
  value : ∃ L k s callee, calleeValue L env final globals k s v = some callee

/-- The operands that are called right: names of functions, and variables that are in the linked
program where their frame index says. -/
def Callable (v : Var) : Prop :=
  match v.kind with
  | .direct => ∀ sym, v.symbol = some sym →
      toInt32 (baseOf env sym + v.offset.toNat) =
        baseOf env sym + (linkOffset env globals sym + v.offset.toInt)
  | .address => ∀ sym, v.symbol = some sym → sym.type.isFunction = true ∧ v.offset = 0
  | _ => False

end Calls

variable {L} {env : GenEnv} {final globals : List VmLabel} {g : GenState} {s : State} {v : Var}
  {sym : Symbol} {callee : Callee}

/-- The call that is emitted for an operand. -/
def emittedCall (env : GenEnv) (v : Var) (sym : Symbol) : VmCode :=
  { opcode := .call
    type := if v.kind = .address then .funcname else .addr
    d := .addr (vmAddress env v sym 8) }

theorem intSizeOf_pointer (h : v.type.isPointerType = true) : intSizeOf env v.type = some 8 :=
  intSizeOf_wordOf (c := .ulong) (by simp [wordOf, CType.wordType, h])

theorem emitVmCall_eq (hp : v.type.isPointerType = true) (hsym : v.symbol = some sym) :
    emitVmCall env v g = some (emitVmCode (emittedCall env v sym) g) := by
  simp [emitVmCall, hsym, intSizeOf_pointer hp, emittedCall]

theorem load_push {a n x : Nat} (hclear : Clear L s a n) (hroom : s.free L + 8 ≤ L.limit) :
    (s.push L x).mem.load a n = s.mem.load a n := by
  apply load_store_of_disjoint
  rcases hclear with h | h
  · exact Or.inl h
  · exact Or.inr (by omega)

theorem reassignCode_emitted (hkind : v.kind ≠ .address) (j : Nat) :
    reassignCode final globals j (emittedCall env v sym) = some (emittedCall env v sym) := by
  simp [reassignCode, reassignFunction, emittedCall, hkind]

theorem execVmCall_emitted (hkind : v.kind ≠ .address) (ip : Int) :
    execVmCall L ip (emittedCall env v sym) s =
      some (.code (slotInt .long ((s.push L (toSlot (ip + 1))).mem.load
        (varAddr L s (vmAddress env v sym 8)) 8)), s.push L (toSlot (ip + 1))) := by
  simp only [execVmCall, emittedCall, if_neg hkind, VmCode.addr]
  rfl

theorem reassignFunction_emitted (globals : List VmLabel) (hkind : v.kind = .address)
    (hcallee : functionCallee final (env.symName sym) 0 = some callee) :
    ∃ d, (∀ j, reassignCode final globals j (emittedCall env v sym) = some d) ∧
      ∀ L ip s, execVmCall L ip d s = some (callee, callee.enter L ip s) := by
  have hcode : ∀ j, reassignCode final globals j (emittedCall env v sym) =
      reassignFunction final (emittedCall env v sym) := fun _ => rfl
  simp only [functionCallee, bind_eq_some_iff] at hcallee
  rcases hcallee with ⟨label, ⟨p, hp, hlabel⟩, hcallee⟩
  have hfound : ((getVmLabel final (emittedCall env v sym).addr.name).bind fun p => final[p]?) =
      some label := by
    simp [emittedCall, VmCode.addr, vmAddress, hp, hlabel]
  have hname : (emittedCall env v sym).type = .funcname := by simp [emittedCall, hkind]
  simp only [hcode, reassignFunction, hname, if_true, hfound]
  by_cases hneg : label.index < 0
  · rw [if_neg (by omega), if_pos trivial, some.injEq] at hcallee
    subst hcallee
    refine ⟨_, fun _ => by simp [hneg, emittedCall]; rfl, fun L ip s => rfl⟩
  · rw [if_pos (by omega), some.injEq, add_zero] at hcallee
    subst hcallee
    exact ⟨_, fun _ => by simp [hneg]; rfl, fun L ip s => rfl⟩

theorem Callable.callsRight (h : Callable env globals v) (hop : CallOperand env final globals v) :
    CallsRight env final globals v := by
  intro L g s ip callee hroom hclear hvalue
  unfold Callable at h
  cases hkind : v.kind with
  | immediate | deref => simp [hkind] at h
  | address =>
    simp only [hkind] at h
    simp only [calleeValue, hkind, bind_eq_some_iff] at hvalue
    rcases hvalue with ⟨sym, hsym, hvalue⟩
    rcases h sym hsym with ⟨hfunction, hoffset⟩
    rw [if_pos hfunction, hoffset] at hvalue
    rcases reassignFunction_emitted globals hkind hvalue with ⟨d, hlink, hexec⟩
    exact ⟨_, _, d, emitVmCall_eq hop.pointer hsym, emitVmCode_code _ _, hlink, hexec L ip s⟩
  | direct =>
    simp only [hkind] at h
    simp only [calleeValue, hkind, map_eq_some_iff] at hvalue
    rcases hvalue with ⟨a, ha, rfl⟩
    have hread : Clear L s a 8 := by
      apply hclear (a, 8)
      simp [calleeReads, ha]
    simp only [calleeAddr, hkind, map_eq_some_iff] at ha
    rcases ha with ⟨sym, hsym, rfl⟩
    have hdirect : v.kind ≠ .address := by simp [hkind]
    have hplace : varAddr L s (vmAddress env v sym 8) =
        linkedAddr L env globals s sym v.offset.toInt := by
      simp only [varAddr, vmAddress, h sym hsym, linkedAddr, objectAddr, add_assoc]
    refine ⟨_, _, _, emitVmCall_eq hop.pointer hsym, emitVmCode_code _ _,
      reassignCode_emitted hdirect, ?_⟩
    rw [execVmCall_emitted hdirect, hplace, load_push hread hroom]
    rfl

/-! ## Calls that go wrong -/

/-- The place that a call reads when the variables are above the stack. -/
def calledPlace (env : GenEnv) (v : Var) (sym : Symbol) (e : Nat) : Nat :=
  (2 ^ 65 + 2 ^ 66 + e + toInt32 (baseOf env sym + v.offset.toNat)).toNat

theorem calledPlace_high (env : GenEnv) (v : Var) (sym : Symbol) (e : Nat) :
    2 ^ 66 ≤ calledPlace env v sym e := by
  have hbounds := toInt32_bounds (baseOf env sym + v.offset.toNat)
  unfold calledPlace
  omega

theorem CallsRight.callee_eq {global e : Nat} {m : Memory} (h : CallsRight env final globals v)
    (hp : v.type.isPointerType = true) (hsym : v.symbol = some sym) (hkind : v.kind ≠ .address)
    (hclear : ∀ r ∈ calleeReads (wideLayout global) env globals ⟨[], 0⟩ (wideState m e) v,
      Clear (wideLayout global) (wideState m e) r.1 r.2)
    (hvalue : calleeValue (wideLayout global) env final globals ⟨[], 0⟩ (wideState m e) v =
      some callee) :
    callee = .code (slotInt .long (m.load (calledPlace env v sym e) 8)) := by
  have hroom : (wideState m e).free (wideLayout global) + 8 ≤ (wideLayout global).limit := by
    rw [wide_free]
    simp [wideLayout]
  rcases h (wideLayout global) {} (wideState m e) 0 callee hroom hclear hvalue with
    ⟨g', c, d, hgen, hcode, hlink, hexec⟩
  rw [emitVmCall_eq hp hsym, some.injEq] at hgen
  subst hgen
  rw [emitVmCode_code, append_cancel_left_eq, List.cons.injEq] at hcode
  rcases hcode with ⟨rfl, -⟩
  have hsame := (hlink 0).symm.trans (reassignCode_emitted hkind 0)
  rw [some.injEq] at hsame
  subst hsame
  rw [execVmCall_emitted hkind, some.injEq, Prod.mk.injEq] at hexec
  have hplace : varAddr (wideLayout global) (wideState m e) (vmAddress env v sym 8) =
      calledPlace env v sym e := wide_varAddr global m e v sym 8
  rw [← hexec.1, hplace, load_push (wide_clear (Or.inr (calledPlace_high env v sym e))) hroom]
  rfl

theorem CallsRight.symbol_isSome {L : Layout} (h : CallsRight env final globals v)
    (hroom : s.free L + 8 ≤ L.limit)
    (hclear : ∀ r ∈ calleeReads L env globals ⟨[], 0⟩ s v, Clear L s r.1 r.2)
    (hvalue : calleeValue L env final globals ⟨[], 0⟩ s v = some callee) :
    ∃ sym, v.symbol = some sym := by
  rcases h L {} s 0 callee hroom hclear hvalue with ⟨g', c, d, hgen, -⟩
  simp only [emitVmCall, bind_eq_some_iff] at hgen
  exact hgen.imp fun _ h => h.1

theorem wide_linkedAddr (env : GenEnv) (globals : List VmLabel) (global : Nat) (m : Memory)
    (e : Nat) (sym : Symbol) (a : Int) :
    linkedAddr (wideLayout global) env globals (wideState m e) sym a =
      (2 ^ 65 + 2 ^ 66 + e + (baseOf env sym + (linkOffset env globals sym + a))).toNat :=
  wide_objectAddr global m e sym _

theorem CallsRight.not_immediate (h : CallsRight env final globals v)
    (hop : CallOperand env final globals v) : v.kind ≠ .immediate := by
  intro hkind
  have hreads : ∀ L k s, calleeReads L env globals k s v = [] := by
    intro L k s
    simp [calleeReads, calleeAddr, hkind]
  have hvalue : ∃ callee, ∀ m, calleeValue (wideLayout 0) env final globals ⟨[], 0⟩
      (wideState m 0) v = some callee := by
    rcases hop.value with ⟨L, k, s, callee, hvalue⟩
    simp only [calleeValue, hkind] at hvalue ⊢
    cases hsym : v.symbol with
    | none => exact ⟨_, fun _ => rfl⟩
    | some sym =>
      simp only [hsym] at hvalue ⊢
      split at hvalue
      · exact ⟨_, fun _ => if_pos ‹_›⟩
      · cases hvalue
  rcases hvalue with ⟨callee, hvalue⟩
  have hroom : (wideState (fun _ => 0) 0).free (wideLayout 0) + 8 ≤ (wideLayout 0).limit := by
    rw [wide_free]
    simp [wideLayout]
  rcases h.symbol_isSome hroom (by simp [hreads]) (hvalue _) with ⟨sym, hsym⟩
  have hnot : v.kind ≠ .address := by simp [hkind]
  -- The function that gets control depends on the memory, the constant does not.
  have hzero := h.callee_eq hop.pointer hsym hnot (by simp [hreads])
    (hvalue (wordMemory (calledPlace env v sym 0) 8 0))
  have hone := h.callee_eq hop.pointer hsym hnot (by simp [hreads])
    (hvalue (wordMemory (calledPlace env v sym 0) 8 1))
  rw [hzero, wordMemory_self, wordMemory_self] at hone
  exact absurd hone (by decide)

theorem wordMemory_one {a b : Nat} (h : (wordMemory a 8 1).load b 8 = 1) : b = a := by
  have hbyte : (wordMemory a 8 1 b).toNat = 1 := by
    rw [Memory.load] at h
    omega
  by_contra hne
  by_cases hin : a ≤ b ∧ b < a + 8
  · have hsmall : 1 / 256 ^ (b - a) = 0 :=
      Nat.div_eq_of_lt (one_lt_pow₀ (by decide) (by omega))
    rw [wordMemory, store_inside hin.1 hin.2, hsmall] at hbyte
    cases hbyte
  · rw [wordMemory, store_outside (by omega)] at hbyte
    cases hbyte

theorem high_frame (env : GenEnv) (globals : List VmLabel) (sym : Symbol) :
    ∃ e : Nat, 0 ≤ e + (baseOf env sym + linkOffset env globals sym) :=
  ⟨(baseOf env sym + linkOffset env globals sym).natAbs, by omega⟩

section

variable (h : CallsRight env final globals v)
include h

theorem CallsRight.direct (hop : CallOperand env final globals v) (hkind : v.kind = .direct)
    (hsym : v.symbol = some sym) :
    toInt32 (baseOf env sym + v.offset.toNat) =
      baseOf env sym + (linkOffset env globals sym + v.offset.toInt) := by
  have hmin := le_toInt v.offset
  have hmax := toInt_lt (x := v.offset)
  have hbounds := toInt32_bounds (baseOf env sym + v.offset.toNat)
  rcases high_frame env globals sym with ⟨e, he⟩
  have haddr := fun m => wide_linkedAddr env globals 0 m e sym v.offset.toInt
  have hhigh : 2 ^ 66 ≤ (2 ^ 65 + 2 ^ 66 + e +
      (baseOf env sym + (linkOffset env globals sym + v.offset.toInt))).toNat := by
    omega
  have hequal : calledPlace env v sym e = (2 ^ 65 + 2 ^ 66 + e +
      (baseOf env sym + (linkOffset env globals sym + v.offset.toInt))).toNat →
        toInt32 (baseOf env sym + v.offset.toNat) =
          baseOf env sym + (linkOffset env globals sym + v.offset.toInt) := by
    unfold calledPlace
    omega
  generalize (2 ^ 65 + 2 ^ 66 + e +
    (baseOf env sym + (linkOffset env globals sym + v.offset.toInt))).toNat = A
    at haddr hhigh hequal
  have hplace : ∀ m, calleeAddr (wideLayout 0) env globals ⟨[], 0⟩ (wideState m e) v = some A := by
    intro m
    simp [calleeAddr, hkind, hsym, haddr]
  have hreads : ∀ r ∈ calleeReads (wideLayout 0) env globals ⟨[], 0⟩
      (wideState (wordMemory A 8 1) e) v,
      Clear (wideLayout 0) (wideState (wordMemory A 8 1) e) r.1 r.2 := by
    simp only [calleeReads, hkind, reduceCtorEq, if_false, nil_append, hplace,
      map_some, toList_some, mem_singleton, forall_eq]
    exact wide_clear (Or.inr hhigh)
  have hcallee := h.callee_eq hop.pointer hsym (by simp [hkind]) hreads
    (by simp only [calleeValue, hkind, hplace, map_some]; rfl)
  rw [wideState_mem, wordMemory_self, Callee.code.injEq] at hcallee
  have hlow := congrArg (· % 2 ^ 64) hcallee
  simp only [slotInt] at hlow
  rw [show (2 : Int) ^ 64 = 2 ^ CInteger.long.format.width from rfl, IntFormat.wrap_emod_width,
    IntFormat.wrap_emod_width] at hlow
  have hlt := load_lt (wordMemory A 8 1) (calledPlace env v sym e) 8
  refine hequal (wordMemory_one ?_)
  have hwidth : CInteger.long.format.width = 64 := rfl
  rw [hwidth] at hlow
  omega

/-- A pointer behind a pointer is not called. -/
theorem CallsRight.not_deref (hop : CallOperand env final globals v) : v.kind ≠ .deref := by
  intro hkind
  rcases hop.value with ⟨L, k, s, callee, hvalue⟩
  simp only [calleeValue, hkind, map_eq_some_iff] at hvalue
  rcases hvalue with ⟨a, ha, -⟩
  have hnot : v.kind ≠ .address := by simp [hkind]
  have hroom : ∀ global m e,
      (wideState m e).free (wideLayout global) + 8 ≤ (wideLayout global).limit := by
    intro global m e
    rw [wide_free]
    simp [wideLayout]
  cases hsym : v.symbol with
  | none =>
    have hplace : ∀ L k s, calleeAddr L env globals k s v = some a := by
      intro L k s
      simpa only [calleeAddr, hkind, hsym] using ha
    have hlt : a < 2 ^ 64 := by
      simp only [calleeAddr, hkind, hsym, bind_some] at ha
      split at ha
      · cases ha
      · cases ha
        exact toSlot_lt _
    rcases h.symbol_isSome (hroom 0 (fun _ => 0) 0)
      (by
        simp only [calleeReads, hkind, hsym, hplace, if_true, map_none, toList_none,
          nil_append, map_some, toList_some, mem_singleton, forall_eq]
        exact wide_clear (Or.inl (by omega)))
      (by simp only [calleeValue, hkind, hplace, map_some]; rfl) with ⟨sym, hsome⟩
    rw [hsym] at hsome
    cases hsome
  | some sym =>
    rcases high_frame env globals sym with ⟨e, he⟩
    have hpointer := fun global m => wide_linkedAddr env globals global m e sym 0
    have hhigh : 2 ^ 66 ≤
        (2 ^ 65 + 2 ^ 66 + e + (baseOf env sym + (linkOffset env globals sym + 0))).toNat := by
      omega
    generalize (2 ^ 65 + 2 ^ 66 + e + (baseOf env sym + (linkOffset env globals sym + 0))).toNat = P
      at hpointer hhigh
    have hp := cast_toSlot (2 ^ 40 - v.offset.toInt)
    have hplt := toSlot_lt (2 ^ 40 - v.offset.toInt)
    generalize toSlot (2 ^ 40 - v.offset.toInt) = p at hp hplt
    have htarget : toSlot (p + v.offset.toInt) = 2 ^ 40 := by
      unfold toSlot
      omega
    -- The function is stored where the pointer leads.
    have hstored : ∀ x, ((Memory.store (fun _ => 0) P 8 p).store (2 ^ 40) 8 x).load P 8 = p := by
      intro x
      rw [load_store_of_disjoint (Or.inr (by omega)), load_store_self]
      exact Nat.mod_eq_of_lt (by simpa using hplt)
    have hplace : ∃ global, ∀ x, calleeAddr (wideLayout global) env globals ⟨[], 0⟩
        (wideState ((Memory.store (fun _ => 0) P 8 p).store (2 ^ 40) 8 x) e) v =
          some (2 ^ 40) := by
      simp only [calleeAddr, hkind, hsym] at ha ⊢
      split at ha
      · rename_i hstring
        refine ⟨p, fun x => ?_⟩
        simp [hstring, stringAddr, wideLayout, htarget, nullPage]
      · rename_i hstring
        split at ha
        · rename_i htype
          refine ⟨0, fun x => ?_⟩
          simp only [hstring, htype, hpointer, wideState_mem, hstored, if_false, if_true,
            bind_some, htarget, nullPage]
          decide
        · cases ha
    rcases hplace with ⟨global, hplace⟩
    have hcallee : ∀ x, Callee.code (slotInt .long (x % 256 ^ 8)) =
        .code (slotInt .long
          ((Memory.store (fun _ => 0) P 8 p).load (calledPlace env v sym e) 8)) := by
      intro x
      have hcalled := calledPlace_high env v sym e
      have hvalue : calleeValue (wideLayout global) env final globals ⟨[], 0⟩
          (wideState ((Memory.store (fun _ => 0) P 8 p).store (2 ^ 40) 8 x) e) v =
            some (.code (slotInt .long
              (((Memory.store (fun _ => 0) P 8 p).store (2 ^ 40) 8 x).load (2 ^ 40) 8))) := by
        simp only [calleeValue, hkind, hplace x, map_some, wideState_mem]
      have heq := h.callee_eq hop.pointer hsym hnot
        (by
          intro r hr
          simp only [calleeReads, hkind, hsym, hplace x, hpointer, if_true, map_some,
            toList_some, List.cons_append, nil_append, mem_cons, not_mem_nil, or_false] at hr
          rcases hr with rfl | rfl
          · exact wide_clear (Or.inr hhigh)
          · exact wide_clear (Or.inl (by simp only; omega))) hvalue
      rwa [load_store_self, load_store_of_disjoint (Or.inr (by omega))] at heq
    exact absurd ((hcallee 0).trans (hcallee 1).symm) (by decide)

/-- A call by name does not depend on the state. -/
theorem CallsRight.address (hp : v.type.isPointerType = true)
    (hsym : v.symbol = some sym) (hkind : v.kind = .address) {e e' : Nat} {callee' : Callee}
    (hvalue : calleeValue (wideLayout 0) env final globals ⟨[], 0⟩ (wideState (fun _ => 0) e) v =
      some callee)
    (hvalue' : calleeValue (wideLayout 0) env final globals ⟨[], 0⟩
      (wideState (fun _ => 0) e') v = some callee') :
    callee = callee' ∧ ∀ c, functionCallee final (env.symName sym) 0 = some c → callee = c := by
  have hruns : ∀ e callee, calleeValue (wideLayout 0) env final globals ⟨[], 0⟩
      (wideState (fun _ => 0) e) v = some callee →
        ∃ d t, reassignCode final globals 0 (emittedCall env v sym) = some d ∧
          execVmCall (wideLayout 0) 0 d (wideState (fun _ => 0) e) = some (callee, t) := by
    intro e callee hvalue
    have hroom : (wideState (fun _ => 0) e).free (wideLayout 0) + 8 ≤ (wideLayout 0).limit := by
      rw [wide_free]
      simp [wideLayout]
    rcases h (wideLayout 0) {} _ 0 callee hroom (by simp [calleeReads, calleeAddr, hkind]) hvalue
      with ⟨g', c, d, hgen, hcode, hlink, hexec⟩
    rw [emitVmCall_eq hp hsym, some.injEq] at hgen
    subst hgen
    rw [emitVmCode_code, append_cancel_left_eq, List.cons.injEq] at hcode
    rcases hcode with ⟨rfl, -⟩
    exact ⟨d, _, hlink 0, hexec⟩
  rcases hruns e callee hvalue with ⟨d, t, hlink, hexec⟩
  rcases hruns e' callee' hvalue' with ⟨d', t', hlink', hexec'⟩
  have hsame := hlink.symm.trans hlink'
  rw [some.injEq] at hsame
  subst hsame
  have htype : d.type ≠ .addr := by
    have hname : (emittedCall env v sym).type = .funcname := by simp [emittedCall, hkind]
    have hop : (emittedCall env v sym).opcode = .call := rfl
    simp only [reassignCode, hop, reassignFunction, hname, if_true] at hlink
    split at hlink
    · cases hlink
      simp [hname]
    · split at hlink
      · simp only [reduceCtorEq, if_false, some.injEq] at hlink
        subst hlink
        simp
      · cases hlink
        simp
  have hstate : ∀ L ip s, (execVmCall L ip d s).map Prod.fst =
      (execVmCall (wideLayout 0) 0 d (wideState (fun _ => 0) e)).map Prod.fst := by
    intro L ip s
    unfold execVmCall
    split
    · rfl
    · exact absurd ‹_› htype
    · rfl
    · rfl
  constructor
  · have hfst := hstate (wideLayout 0) 0 (wideState (fun _ => 0) e')
    rw [hexec, hexec'] at hfst
    exact (some.inj hfst).symm
  · intro c hc
    rcases reassignFunction_emitted globals hkind hc with ⟨d', hlink', hexec'⟩
    have hsame := hlink.symm.trans (hlink' 0)
    rw [some.injEq] at hsame
    subst hsame
    have hexec' := hexec' (wideLayout 0) 0 (wideState (fun _ => 0) e)
    rw [hexec, some.injEq, Prod.mk.injEq] at hexec'
    exact hexec'.1

/-- Called right from every state, an operand is a name or a variable in its place. -/
theorem CallsRight.callable (hop : CallOperand env final globals v) : Callable env globals v := by
  unfold Callable
  cases hkind : v.kind with
  | immediate => exact h.not_immediate hop hkind
  | deref => exact h.not_deref hop hkind
  | direct => exact fun sym hsym => h.direct hop hkind hsym
  | address =>
    intro sym hsym
    have hfunction : sym.type.isFunction = true := by
      -- The address of a variable moves with the frame.
      by_contra hobject
      rcases high_frame env globals sym with ⟨e, he⟩
      have hvalue : ∀ e, calleeValue (wideLayout 0) env final globals ⟨[], 0⟩
          (wideState (fun _ => 0) e) v = some (.code (slotInt .long (toSlot (2 ^ 65 + 2 ^ 66 + e +
            (baseOf env sym + (linkOffset env globals sym + v.offset.toInt))).toNat))) := by
        intro e
        simp only [calleeValue, hkind, hsym, bind_some, hobject, wide_linkedAddr]
        rfl
      have hmove := (h.address hop.pointer hsym hkind (hvalue e) (hvalue (e + 1))).1
      have hmin := le_toInt v.offset
      rw [Callee.code.injEq] at hmove
      have hlow := congrArg (· % 2 ^ CInteger.long.format.width) hmove
      simp only [slotInt, IntFormat.wrap_emod_width, cast_toSlot] at hlow
      have hwidth : CInteger.long.format.width = 64 := rfl
      rw [hwidth] at hlow
      omega
    refine ⟨hfunction, ?_⟩
    have hvalue : ∃ callee,
        functionCallee final (env.symName sym) v.offset.toInt = some callee := by
      rcases hop.value with ⟨L, k, s, callee, hvalue⟩
      simp only [calleeValue, hkind, hsym, bind_some, hfunction, if_true] at hvalue
      exact ⟨callee, hvalue⟩
    rcases hvalue with ⟨callee, hvalue⟩
    have hcallee : calleeValue (wideLayout 0) env final globals ⟨[], 0⟩
        (wideState (fun _ => 0) 0) v = some callee := by
      simp only [calleeValue, hkind, hsym, bind_some, hfunction, if_true, hvalue]
    have hsame := (h.address hop.pointer hsym hkind hcallee hcallee).2
    simp only [functionCallee, bind_eq_some_iff] at hvalue
    rcases hvalue with ⟨label, hlabel, hvalue⟩
    by_cases hindex : 0 ≤ label.index
    · rw [if_pos hindex, some.injEq] at hvalue
      have hname : functionCallee final (env.symName sym) 0 = some (.code (label.index + 0)) := by
        rw [functionCallee, bind_eq_some_iff.mpr hlabel, bind_some, if_pos hindex]
      have hcode := hvalue.trans (hsame _ hname)
      rw [Callee.code.injEq] at hcode
      exact eq_of_toInt_eq (by simpa using hcode)
    · rw [if_neg hindex] at hvalue
      split at hvalue
      · exact eq_of_toInt_eq ‹_›
      · cases hvalue

end

/-- The call of an operand reaches the function that the operand designates, from every state, if
and only if the operand is a name or a variable in its place. -/
theorem calls_right_iff (hop : CallOperand env final globals v) :
    CallsRight env final globals v ↔ Callable env globals v :=
  ⟨fun h => h.callable hop, fun h => h.callsRight hop⟩

/-- A pointer to a function, eight bytes into a structure on the stack. -/
def sampleCallee : Var :=
  { sampleVar 0 { type := .struct, ref := 1 } with
    type := { type := .function, ref := 2, isPointer := true }, offset := 8 }

/-- A pointer in a structure is called right. -/
theorem calls_right_local : CallsRight sampleEnv [] [] sampleCallee :=
  (calls_right_iff ⟨rfl, sampleLayout, ⟨[], 0⟩, sampleState (fun _ => 0), .code 0, by decide⟩).mpr
    (fun sym hsym => by cases hsym; decide)

/-- The operand of `s->fn()`. -/
def sampleMethod : Var :=
  { sampleVar 0 { type := .struct, ref := 1, isPointer := true } with
    kind := .deref, type := { type := .function, ref := 2, isPointer := true }, offset := 8 }

/-- A call through a pointer in a structure that is behind a pointer reaches another function. -/
theorem call_member_wrong :
    CallOperand sampleEnv [] [] sampleMethod ∧ ¬ CallsRight sampleEnv [] [] sampleMethod := by
  have hop : CallOperand sampleEnv [] [] sampleMethod :=
    ⟨rfl, sampleLayout, ⟨[], 0⟩, sampleState (wordMemory 4160 8 65536), .code 0, by decide⟩
  exact ⟨hop, fun h => h.not_deref hop rfl⟩

end Kcs.Vm
