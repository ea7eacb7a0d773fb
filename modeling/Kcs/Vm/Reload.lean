import Kcs.Vm.Operand

/-!
# Loads that take back a store

A load of what the last instruction has stored takes the store back: the slot
stays on the stack, and the store is dropped when the variable is a temporary.
This module follows one and two loads through the code and the machine.

Main results:

- Theorem {lit}`reload_pushes`: a load that takes a store back leaves the slot that
  was to be stored.
- Theorems {lit}`firstLoad_pushes` and {lit}`secondLoad_pushes`: the slots that two
  loads leave.
-/

namespace Kcs.Vm

open Option List Memory

/-! ## Places in the code -/

/-- A store as the generator emits it: the address is that of its base and
offset, and the size is that of its type. -/
def PopOk (c : VmCode) : Prop :=
  c.opcode = .pop → c.type ≠ .none → ∃ a, c.d = .addr a ∧
    a.index = toInt32 (a.base + a.offset) ∧
    (∀ n, storeBytes c.type = some n → a.size = n) ∧
    (∀ n, realSize c.type = some n → a.size = n)

/-- A place in the code of a function, and a run of the machine through its last
instruction.  The instruction before a store pushes the value, and is neither a
store nor a jump. -/
structure AtPoint (L : Layout) (g : GenState) (base : List VmCode) (c : VmCode) (s t : State) :
    Prop where
  mode : g.isGlobalMode = false
  prog : g.prog = base ++ [c]
  step : execData L c s = some t
  pop : PopOk c
  before : c.opcode = .pop → ∀ d, base.getLast? = some d → d.opcode ≠ .pop ∧ d.opcode ≠ .jmp
  sp : 8 ≤ s.sp
  room : t.free L + 40 ≤ L.limit

section Reload

variable (env : GenEnv) (L : Layout)

/-- State of the machine below the slot that a load has left by taking a store
back. -/
def afterReload (c : VmCode) (s : State) (v : Var) : State :=
  if isTemporaryVar v then s.drop else ((execStore L c s).getD s).drop

/-- The slot of the operand that is loaded first. -/
def firstSlot (g : GenState) (s t : State) (v : Var) : Option Nat :=
  if reloads env g v then some (s.top L) else operandSlot env L g.context t v

/-- The state in which the second operand is read. -/
def secondState (g : GenState) (c : VmCode) (s t : State) (v : Var) : State :=
  if reloads env g v then afterReload L c s v else t

/-- The context in which the second operand is loaded. -/
def secondContext (g : GenState) (v : Var) : LoadContext where
  labels := g.labels
  pos := g.globalImage.length + (loadedString env v).length

end Reload

variable {env : GenEnv} {L : Layout} {g g' : GenState} {base : List VmCode} {c : VmCode}
  {s t : State} {v w : Var}

theorem AtPoint.last (h : AtPoint L g base c s t) : g.last = some c := by
  rw [GenState.last, GenState.code_of_mode h.mode, h.prog]
  exact getLast?_concat

theorem toInt32_congr {m n : Int} (h : m % 2 ^ 32 = n % 2 ^ 32) : toInt32 m = toInt32 n :=
  IntFormat.wrap_congr (f := CInteger.int.format) h

theorem AtPoint.reloads_iff {i : CInteger} (h : AtPoint L g base c s t)
    (hword : wordOf v.type = some i) (hre : reloads env g v = true) :
    ∃ sym a, v.symbol = some sym ∧ v.kind = .direct ∧ v.isField = false ∧
      c.opcode = .pop ∧ c.type ≠ .none ∧ c.d = .addr a ∧ a.size = byteSize i ∧
      (∀ u : State, varAddr L u a = varAddr L u (vmAddress env v sym 0)) ∧
      isReloaded env c v sym (byteSize i) = true ∧ g.protectRemoveTempvar = false := by
  simp only [reloads, h.last, intSizeOf_wordOf hword, any_some, Bool.and_eq_true,
    decide_eq_true_eq, Bool.not_eq_true'] at hre
  rcases hre with ⟨⟨⟨hkind, hprotect⟩, hfield⟩, hsym⟩
  rw [Option.any_eq_true] at hsym
  rcases hsym with ⟨sym, hsym, hre⟩
  have hparts := hre
  simp only [isReloaded, Bool.and_eq_true, decide_eq_true_eq] at hparts
  rcases hparts with ⟨⟨⟨hop, htype⟩, -⟩, hsame⟩
  rcases h.pop hop (by simpa using htype) with ⟨a, hd, hindex, -, -⟩
  have haddr : c.addr = a := by simp [VmCode.addr, hd]
  simp only [sameAddress, haddr, Bool.and_eq_true, decide_eq_true_eq] at hsame
  rcases hsame with ⟨⟨⟨hglobal, hsize⟩, hbase⟩, hoffset⟩
  refine ⟨sym, a, hsym, hkind, by simpa using hfield, hop, by simpa using htype, hd, hsize, ?_,
    hre, by simpa using hprotect⟩
  intro u
  have hidx : a.index = (vmAddress env v sym 0).index := by
    rw [hindex, hbase]
    apply toInt32_congr
    have hword : (v.offset.toNat : Int) % 2 ^ 64 = a.offset % 2 ^ 64 := by
      rw [← hoffset, BitVec.toNat_ofInt]
      omega
    have hlow : (v.offset.toNat : Int) % 2 ^ 32 = a.offset % 2 ^ 32 := by omega
    rw [Int.add_emod, ← hlow, ← Int.add_emod]
  have hmode : a.isGlobal = (vmAddress env v sym 0).isGlobal := by simpa [vmAddress] using hglobal
  simp only [varAddr, hidx, hmode]

/-! ## Taking a store back -/

/-- What a store of at most eight bytes does: it takes one slot off the stack and
copies its low bytes. -/
theorem execPop_eq {a : VmAddress} {n : Nat} (hd : c.d = .addr a) (htype : c.type ≠ .none)
    (hpop : PopOk c) (hop : c.opcode = .pop) (hsize : a.size = n)
    (hn : n = 1 ∨ n = 2 ∨ n = 4 ∨ n = 8) (hstep : execData L c s = some t) :
    t.sp = s.sp - 8 ∧ t.bp = s.bp ∧ t.gp = s.gp ∧
      (∀ b, b < varAddr L s a ∨ varAddr L s a + n ≤ b → t.mem b = s.mem b) ∧
      (8 ≤ s.sp → t.mem.load (varAddr L s a) n = s.top L % 256 ^ n) := by
  rcases hpop hop htype with ⟨a', hd', -, hstore, hreal⟩
  rw [hd, VmOperand.addr.injEq] at hd'
  subst hd'
  have hexec : execData L c s = execPop L c s := by simp [execData, hop]
  rw [hexec] at hstep
  have htop : 8 ≤ s.sp → s.topAddr L = L.stack + (s.sp - 8) := by
    intro hsp
    simp only [State.topAddr]
    omega
  have hobject : ∀ slot, slot = 8 → t = popObject L s (varAddr L s a) n slot →
      t.sp = s.sp - 8 ∧ t.bp = s.bp ∧ t.gp = s.gp ∧
      (∀ b, b < varAddr L s a ∨ varAddr L s a + n ≤ b → t.mem b = s.mem b) ∧
      (8 ≤ s.sp → t.mem.load (varAddr L s a) n = s.top L % 256 ^ n) := by
    rintro slot rfl rfl
    refine ⟨rfl, rfl, rfl, fun b hb => copyBytes_outside hb, fun hsp => ?_⟩
    simp only [popObject]
    rw [load_copyBytes, State.top, load_mod _ _ (by omega), htop hsp]
  unfold execPop at hstep
  rw [hd] at hstep
  simp only at hstep
  cases hbytes : storeBytes c.type with
  | some k =>
    have hk : k = n := by
      have := hstore k hbytes
      omega
    subst hk
    simp only [hbytes, some.injEq] at hstep
    subst hstep
    refine ⟨rfl, rfl, rfl, fun b hb => store_outside hb, fun hsp => ?_⟩
    exact load_store_self _ _ _ _
  | none =>
    simp only [hbytes] at hstep
    cases hfloat : realSize c.type with
    | some k =>
      have hk : k = n := by
        have := hreal k hfloat
        omega
      subst hk
      simp only [hfloat, some.injEq] at hstep
      refine hobject _ ?_ hstep.symm
      rw [slotSize, if_neg (by omega)]
    | none =>
      simp only [hfloat, some.injEq, hsize, Int.toNat_natCast] at hstep
      refine hobject _ ?_ hstep.symm
      rcases hn with rfl | rfl | rfl | rfl <;> decide

theorem execStore_eq {a : VmAddress} {n : Nat} (hd : c.d = .addr a) (htype : c.type ≠ .none)
    (hpop : PopOk c) (hop : c.opcode = .pop) (hsize : a.size = n) :
    ∃ u, execStore L c s = some u ∧ u.sp = s.sp ∧ u.bp = s.bp ∧ u.gp = s.gp ∧
      ∀ b, b < varAddr L s a ∨ varAddr L s a + n ≤ b → u.mem b = s.mem b := by
  rcases hpop hop htype with ⟨a', hd', -, hstore, hreal⟩
  rw [hd, VmOperand.addr.injEq] at hd'
  subst hd'
  unfold execStore
  rw [hd]
  cases hbytes : storeBytes c.type with
  | some k =>
    have hk : k = n := by
      have := hstore k hbytes
      omega
    subst hk
    exact ⟨_, rfl, rfl, rfl, rfl, fun b hb => store_outside hb⟩
  | none =>
    cases hfloat : realSize c.type with
    | some k =>
      have hk : k = n := by
        have := hreal k hfloat
        omega
      subst hk
      exact ⟨_, rfl, rfl, rfl, rfl, fun b hb => copyBytes_outside hb⟩
    | none =>
      refine ⟨_, rfl, rfl, rfl, rfl, fun b hb => copyBytes_outside ?_⟩
      rw [hsize]
      exact hb

theorem byteSize_cases {i : CInteger} (h : i ≠ .bool) :
    byteSize i = 1 ∨ byteSize i = 2 ∨ byteSize i = 4 ∨ byteSize i = 8 := by
  cases i <;> first | exact absurd rfl h | decide

theorem AtPoint.afterReload_frame {i : CInteger} (h : AtPoint L g base c s t)
    (hword : wordOf v.type = some i) (hre : reloads env g v = true) :
    (afterReload L c s v).sp = t.sp ∧ (afterReload L c s v).bp = t.bp ∧
      (afterReload L c s v).gp = t.gp ∧
      ∀ b, (∀ a, operandAddr env L g.context t v = some a → b < a ∨ a + byteSize i ≤ b) →
        (afterReload L c s v).mem b = t.mem b := by
  rcases h.reloads_iff hword hre with
    ⟨sym, a, hsym, hkind, -, hop, htype, hd, hsize, haddr, -, -⟩
  have hn := byteSize_cases (byteSize_wordOf hword).1
  rcases execPop_eq hd htype h.pop hop hsize hn h.step with ⟨hsp, hbp, hgp, hmem, -⟩
  have hplace : operandAddr env L g.context t v = some (varAddr L s a) := by
    rw [haddr s, operandAddr, hkind]
    simp [hsym, varAddr, hbp, hgp]
  by_cases htemp : isTemporaryVar v = true
  · simp only [afterReload, htemp, if_true, State.drop]
    exact ⟨hsp.symm, hbp.symm, hgp.symm, fun b hb => (hmem b (hb _ hplace)).symm⟩
  · rcases execStore_eq (L := L) (s := s) hd htype h.pop hop hsize with
      ⟨u, hstore, husp, hubp, hugp, humem⟩
    have hafter : afterReload L c s v = u.drop := by simp [afterReload, htemp, hstore]
    rw [hafter]
    simp only [State.drop]
    refine ⟨by omega, by rw [hubp, hbp], by rw [hugp, hgp], fun b hb => ?_⟩
    rw [humem b (hb _ hplace), hmem b (hb _ hplace)]

theorem AtPoint.secondState_frame {i : CInteger} (h : AtPoint L g base c s t)
    (hword : wordOf v.type = some i) :
    (secondState env L g c s t v).sp = t.sp ∧ (secondState env L g c s t v).bp = t.bp ∧
      (secondState env L g c s t v).gp = t.gp ∧
      ∀ b, (∀ a, operandAddr env L g.context t v = some a → b < a ∨ a + byteSize i ≤ b) →
        (secondState env L g c s t v).mem b = t.mem b := by
  unfold secondState
  split
  · rename_i hre
    exact h.afterReload_frame hword hre
  · exact ⟨rfl, rfl, rfl, fun _ _ => rfl⟩

/-- A load that takes a store back leaves the slot that was to be stored. -/
theorem reload_pushes {i : CInteger} (h : AtPoint L g base c s t)
    (hword : wordOf v.type = some i) (hre : reloads env g v = true)
    (hclear : ∀ r ∈ operandReads env L g.context t v, Clear L t r.1 r.2)
    (hgen : vmLoadVar env v g = some g') :
    ∃ code u, g'.prog = base ++ code ∧ g'.isGlobalMode = false ∧ g'.labels = g.labels ∧
      g'.globalImage = g.globalImage ∧
      (∀ d, g'.last = some d → d.opcode ≠ .pop ∧ d.opcode ≠ .jmp) ∧
      execCode L code s = some u ∧ Pushed L (afterReload L c s v) u (s.top L) := by
  rcases h.reloads_iff hword hre with
    ⟨sym, a, hsym, hkind, hfield, hop, htype, hd, hsize, haddr, hreloaded, hprotect⟩
  have hn := byteSize_cases (byteSize_wordOf hword).1
  rcases execPop_eq hd htype h.pop hop hsize hn h.step with ⟨hsp, hbp, hgp, -, -⟩
  have hload : g' = takeBack v c g := by
    simp only [vmLoadVar, hkind, emitVmLoad, hsym, bind_some, hfield,
      intSizeOf_wordOf hword, h.last, hprotect, Bool.not_false, Bool.true_and, filter_some,
      hreloaded, if_true, Bool.false_eq_true, if_false, some.injEq] at hgen
    exact hgen.symm
  have hsp8 := h.sp
  by_cases htemp : isTemporaryVar v = true
  · have hg' : g' = { g with prog := base } := by
      simp [hload, takeBack, htemp, h.prog]
    subst hg'
    refine ⟨[], s, by simp, h.mode, rfl, rfl, ?_, rfl, ?_⟩
    · intro d hlast
      simp only [GenState.last, GenState.code, h.mode] at hlast
      exact h.before hop d hlast
    · simp only [afterReload, htemp, if_true]
      refine ⟨?_, rfl, rfl, rfl, fun b _ => rfl⟩
      simp only [State.drop]
      omega
  · rcases execStore_eq (L := L) (s := s) hd htype h.pop hop hsize with
      ⟨u, hstore, husp, hubp, hugp, humem⟩
    have hg' : g' = { g with prog := base ++ [{ c with opcode := .store }] } := by
      simp [hload, takeBack, htemp, h.prog, GenState.setCode, GenState.code, h.mode]
    have hafter : afterReload L c s v = u.drop := by simp [afterReload, htemp, hstore]
    subst hg'
    rw [hafter]
    refine ⟨[{ c with opcode := .store }], u, rfl, h.mode, rfl, rfl, ?_, ?_, ?_⟩
    · intro d hlast
      simp only [GenState.last, GenState.code, h.mode, Bool.false_eq_true, if_false,
        getLast?_concat, some.injEq] at hlast
      rw [← hlast]
      simp
    · have hexec : execData L { c with opcode := .store } s = execStore L c s := rfl
      simp [hexec, hstore]
    · refine ⟨?_, rfl, rfl, ?_, fun b _ => rfl⟩
      · simp only [State.drop]
        omega
      · -- The store does not reach the slot on top.
        have hmem : (varAddr L t (vmAddress env v sym 0), byteSize i) ∈
            operandReads env L g.context t v := by
          simp [operandReads, operandAddr, hkind, hsym, hfield, hword]
        have hplace := hclear _ hmem
        have hframe : varAddr L t (vmAddress env v sym 0) = varAddr L s a := by
          rw [haddr s]
          simp only [varAddr, hbp, hgp]
        have hroom := h.room
        rw [hframe] at hplace
        rw [State.top, State.top]
        have htop : u.topAddr L = s.topAddr L := by simp only [State.topAddr, husp]
        rw [htop]
        apply load_congr
        intro b hlo hhi
        apply humem
        simp only [Clear, State.free, State.topAddr, hsp] at hplace hlo hhi hroom
        omega

/-! ## Two loads -/

/-- What a load has done: it ends a program that starts with the given code, and
left a slot above the given state. -/
structure Loaded (L : Layout) (g g' : GenState) (base : List VmCode) (s below : State) (x : Nat)
    (image : List (BitVec 8)) : Prop where
  mode : g'.isGlobalMode = false
  labels : g'.labels = g.labels
  image : g'.globalImage = g.globalImage ++ image
  last : ∀ d, g'.last = some d → d.opcode ≠ .pop ∧ d.opcode ≠ .jmp
  run : ∃ code u, g'.prog = base ++ code ∧ execCode L code s = some u ∧ Pushed L below u x

theorem last_mem_of_append {code : List VmCode} (hmode : g.isGlobalMode = false)
    (hprog : g.prog = base ++ code) (hne : code ≠ []) : ∀ d, g.last = some d → d ∈ code := by
  intro d hd
  rw [GenState.last, GenState.code_of_mode hmode, hprog, getLast?_append_of_ne_nil _ hne] at hd
  exact mem_of_getLast? hd

/-- The first load at a place. -/
theorem firstLoad_pushes {i : CInteger} {x : Nat} (h : AtPoint L g base c s t)
    (hword : wordOf v.type = some i) (hslot : firstSlot env L g s t v = some x)
    (hclear : ∀ r ∈ operandReads env L g.context t v, Clear L t r.1 r.2)
    (hgen : vmLoadVar env v g = some g') :
    Loaded L g g' base s (secondState env L g c s t v) x (loadedString env v) := by
  by_cases hre : reloads env g v = true
  · simp only [firstSlot, hre, if_true, some.injEq] at hslot
    subst hslot
    rcases h.reloads_iff hword hre with ⟨sym, a, hsym, hkind, -⟩
    have hstring : loadedString env v = [] := by simp [loadedString, hkind]
    rcases reload_pushes h hword hre hclear hgen with
      ⟨code, u, hprog, hmode, hlabels, himage, hlast, hrun, hpushed⟩
    simp only [secondState, hre, if_true, hstring]
    exact ⟨hmode, hlabels, by simp [himage], hlast, code, u, hprog, hrun, hpushed⟩
  · have hre' : reloads env g v = false := by simpa using hre
    have hroom := h.room
    simp only [firstSlot, hre', Bool.false_eq_true, if_false] at hslot
    rcases vmLoadVar_pushes h.mode hword hre' (by omega) hclear hslot hgen with
      ⟨code, hemits, hne, hpop, u, hrun, hpushed⟩
    have hstate : secondState env L g c s t v = t := by simp [secondState, hre']
    rw [hstate]
    refine ⟨hemits.mode, hemits.labels, hemits.image, ?_, [c] ++ code, u, ?_, ?_, hpushed⟩
    · intro d hd
      have hmem := last_mem_of_append hemits.mode hemits.prog hne d hd
      exact ⟨hpop d hmem, opcode_ne_jmp_of_execCode _ hrun d hmem⟩
    · rw [hemits.prog, h.prog, append_assoc]
    · rw [execCode_append]
      simp [h.step, hrun]

/-- A load depends on the registers and on the bytes that it reads. -/
theorem operandSlot_congr {k : LoadContext} {u : State} (hbp : u.bp = s.bp) (hgp : u.gp = s.gp)
    (hload : ∀ r ∈ operandReads env L k s w, u.mem.load r.1 r.2 = s.mem.load r.1 r.2) :
    operandSlot env L k u w = operandSlot env L k s w ∧
      operandReads env L k u w = operandReads env L k s w := by
  have hvar : ∀ a, varAddr L u a = varAddr L s a := by
    intro a
    simp only [varAddr, hbp, hgp]
  have hpointer : w.kind = .deref → ∀ sym, w.symbol = some sym →
      pointerValue env L k u sym = pointerValue env L k s sym := by
    intro hkind sym hsym
    unfold pointerValue
    split
    · rfl
    · rw [hvar]
      apply hload (varAddr L s (vmAddress env (varDirect sym) sym 8), 8)
      simp [operandReads, hkind, hsym]
  have haddr : operandAddr env L k u w = operandAddr env L k s w := by
    unfold operandAddr
    cases hkind : w.kind with
    | direct => simp only [hvar]
    | deref =>
      cases hsym : w.symbol with
      | none => simp only [bind_none]
      | some sym => simp only [bind_some, hpointer hkind sym hsym]
    | immediate | address => simp only
  have haddress : addressValue env L k u w = addressValue env L k s w := by
    unfold addressValue
    simp only [hvar]
  constructor
  · cases hkind : w.kind with
    | immediate => simp [operandSlot, operandInt, hkind]
    | address => simp [operandSlot, isPointerConstant, hkind, haddress]
    | direct | deref =>
      cases haddr' : operandAddr env L k s w with
      | none => simp [operandSlot, operandInt, isPointerConstant, hkind, haddr, haddr']
      | some a =>
        have hunit : w.kind = .direct → w.isField = true →
            u.mem.load a 4 = s.mem.load a 4 := by
          intro hdirect hfield
          apply hload (a, 4)
          simp [operandReads, haddr', hdirect, hfield]
        have hword : ∀ i, wordOf w.type = some i → (w.kind = .direct → w.isField = false) →
            u.mem.load a (byteSize i) = s.mem.load a (byteSize i) := by
          intro i hi hfield
          apply hload (a, byteSize i)
          simp only [operandReads, haddr', hi]
          grind
        cases hi : wordOf w.type with
        | none =>
          by_cases hfield : w.isField = true
          · simp_all [operandSlot, isPointerConstant]
          · simp [operandSlot, operandInt, isPointerConstant, hkind, haddr, haddr', hi, hfield]
        | some i =>
          have hword' := hword i hi
          by_cases hfield : w.isField = true
          · simp_all [operandSlot, isPointerConstant]
          · simp_all [operandSlot, operandInt, isPointerConstant]
  · simp only [operandReads, haddr, hvar]

theorem operandSlot_pushed {k : LoadContext} {u : State} {x : Nat} (h : Pushed L s u x)
    (hclear : ∀ r ∈ operandReads env L k s w, Clear L s r.1 r.2) :
    operandSlot env L k u w = operandSlot env L k s w ∧
      operandReads env L k u w = operandReads env L k s w :=
  operandSlot_congr h.bp h.gp fun r hr => h.load (hclear r hr)

theorem Loaded.context {below : State} {x : Nat}
    (h : Loaded L g g' base s below x (loadedString env v)) :
    g'.context = secondContext env g v := by
  simp [GenState.context, secondContext, h.labels, h.image]

/-- The second load at a place. -/
theorem secondLoad_pushes {i : CInteger} {below : State} {g'' : GenState} {x y : Nat}
    (h : Loaded L g g' base s below x (loadedString env v)) (hword : wordOf w.type = some i)
    (hroom : below.free L + 24 ≤ L.limit)
    (hclear : ∀ r ∈ operandReads env L (secondContext env g v) below w, Clear L below r.1 r.2)
    (hslot : operandSlot env L (secondContext env g v) below w = some y)
    (hgen : vmLoadVar env w g' = some g'') :
    g''.isGlobalMode = false ∧ ∃ code t u, g''.prog = base ++ code ∧
      execCode L code s = some u ∧ Pushed L below t x ∧ Pushed L t u y := by
  rcases h.run with ⟨code, t, hprog, hrun, hpushed⟩
  have hkeep : reloads env g' w = false := by
    rw [Bool.eq_false_iff]
    intro hre
    simp only [reloads, Bool.and_eq_true, Option.any_eq_true] at hre
    rcases hre with ⟨-, sym, -, size, -, d, hd, hd'⟩
    simp only [isReloaded, Bool.and_eq_true, decide_eq_true_eq] at hd'
    exact (h.last d hd).1 hd'.1.1.1
  rcases operandSlot_pushed hpushed hclear with ⟨hslot', hreads⟩
  have hfree : t.free L = below.free L + 8 := by
    simp only [State.free, hpushed.sp]
    omega
  rw [← h.context] at hslot hslot' hreads hclear
  have hclear' : ∀ r ∈ operandReads env L g'.context t w, Clear L t r.1 r.2 := by
    rw [hreads]
    intro r hr
    rcases hclear r hr with hr' | hr'
    · left
      omega
    · exact Or.inr hr'
  rcases vmLoadVar_pushes h.mode hword hkeep (by omega) hclear' (hslot'.trans hslot) hgen with
    ⟨code', hemits, -, -, u, hrun', hpushed'⟩
  refine ⟨hemits.mode, code ++ code', t, u, ?_, ?_, hpushed, hpushed'⟩
  · rw [hemits.prog, hprog, append_assoc]
  · rw [execCode_append, hrun]
    exact hrun'

/-! ## A frame to compute with -/

/-- Symbols are local variables of eight bytes, in the order of their numbers. -/
def sampleEnv : GenEnv where
  types := []
  symName := (·.name)
  globalOffset := fun _ => -1
  stackOffset := fun id => 8 * id
  depth := fun _ => 1
  string := fun _ => []
  symbol := fun id => { id := id, name := "x", type := basicTypeInt }

/-- A stack of 4096 bytes. -/
def sampleLayout : Layout where
  stack := 4096
  limit := 8192
  global := 65536
  function := fun _ => none
  call := fun _ _ => none

/-- A running function with room for eight variables. -/
def sampleState (mem : Memory) : State := { mem := mem, sp := 128, bp := 64, gp := 8 }

/-- A local variable. -/
def sampleVar (id : Nat) (type : CType) : Var where
  kind := .direct
  type := type
  symbol := some { id := id, name := "x", type := type }

/-- The code at the start of a block. -/
def sampleGen : GenState where
  prog := [{ opcode := .label, type := .label, d := .lindex 0 }]
  labels := [{ name := "f" }]

theorem sample_atPoint (mem : Memory) :
    AtPoint sampleLayout sampleGen [] { opcode := .label, type := .label, d := .lindex 0 }
      (sampleState mem) (sampleState mem) where
  mode := rfl
  prog := rfl
  step := rfl
  pop := by
    intro h
    cases h
  before := by
    intro h
    cases h
  sp := by simp [sampleState]
  room := by simp [sampleState, sampleLayout, State.free]

end Kcs.Vm
