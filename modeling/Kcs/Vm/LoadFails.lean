import Kcs.Vm.Load

/-!
# Operands that are not loaded right

An operand that is not among those of {lit}`Loadable` has a state from which its code
leaves another value on the stack, or none.  The states have their variables far above
the stack, and one word in memory that is not zero.

Main results:

- Theorem {lit}`loads_value_iff`: an operand is loaded right from every state if and
  only if it is loadable.
- Theorem {lit}`pointer_constant_truncated`: a constant pointer that is loaded as a
  character.
-/

namespace Kcs.Vm

open Option List BitVec IntFormat Memory

variable {env : GenEnv} {L : Layout} {labels final : List VmLabel} {s u : State} {v : Var}
  {sym : Symbol} {i : CInteger} {n : Int}

/-! ## Places where a load fails -/

/-- An operand is loaded right from every state at every place behind the given labels. -/
def LoadsEverywhere (env : GenEnv) (labels final : List VmLabel) (v : Var) : Prop :=
  ∀ L base c s t g n, g.labels = labels → LoadPlace env L v g base c s t →
    (∀ r ∈ valueReads env L g.context t v, Clear L t r.1 r.2) →
    varValue env L final g.context t v = some n → LoadsValue env L final v g base s t n

/-- A stack far above the addresses of a machine. -/
def wideLayout (global : Nat) : Layout where
  stack := 2 ^ 65
  limit := 2 ^ 66
  global := global
  function := fun _ => none
  call := fun _ _ => none

/-- Variables above the stack. -/
def wideState (m : Memory) (e : Nat) : State :=
  { mem := m, sp := 8, bp := 2 ^ 66 + e, gp := 2 ^ 66 + e }

@[simp]
theorem wideState_mem (m : Memory) (e : Nat) : (wideState m e).mem = m := rfl

theorem wide_free (global : Nat) (m : Memory) (e : Nat) :
    (wideState m e).free (wideLayout global) = 2 ^ 65 + 8 := rfl

theorem wide_place (global : Nat) (m : Memory) (e : Nat) :
    LoadPlace env (wideLayout global) v { labels := labels } [] none (wideState m e)
      (wideState m e) where
  code := rfl
  first := fun _ => rfl
  step := rfl
  pop := by simp
  sp := by simp [wideState]
  room := by
    rw [wide_free]
    simp [wideLayout]
  temporary := by simp

theorem wide_objectAddr (global : Nat) (m : Memory) (e : Nat) (sym : Symbol) (a : Int) :
    objectAddr env (wideLayout global) (wideState m e) sym a =
      (2 ^ 65 + 2 ^ 66 + e + (baseOf env sym + a)).toNat := by
  simp only [objectAddr, wideLayout, wideState, ite_self]
  push_cast
  congr 1
  ring

theorem wide_varAddr (global : Nat) (m : Memory) (e : Nat) (w : Var) (sym : Symbol) (size : Int) :
    varAddr (wideLayout global) (wideState m e) (vmAddress env w sym size) =
      (2 ^ 65 + 2 ^ 66 + e + toInt32 (baseOf env sym + w.offset.toNat)).toNat := by
  cases hglobal : isGlobalVar env sym <;>
    · simp only [varAddr, vmAddress, wideLayout, wideState, hglobal, if_true, Bool.false_eq_true,
        if_false]
      push_cast
      congr 1
      ring

theorem toInt32_bounds (n : Int) : -2 ^ 31 ≤ toInt32 n ∧ toInt32 n < 2 ^ 31 := by
  have h := (inRange_signed_iff (f := CInteger.int.format) rfl (toInt32 n)).mp
    (inRange_wrap n)
  exact h

theorem Links.unique {linked linked' : List VmCode} (h : Links final code linked)
    (h' : Links final code linked') : linked' = linked := by
  unfold Links at h h'
  induction h generalizing linked' with
  | nil =>
    cases h'
    rfl
  | cons hd _ ih =>
    cases h' with
    | cons hd' htail' =>
      rw [ih htail', some.inj ((hd' 0).symm.trans (hd 0))]

theorem LoadsValue.runs {global e : Nat} {m : Memory} (hword : wordOf v.type = some i)
    (h : LoadsValue env (wideLayout global) final v { labels := labels } [] (wideState m e)
      (wideState m e) n) :
    ∃ code linked u below x, loadCode env ⟨labels, 0⟩ v i = some code ∧
      Links final code linked ∧ execCode (wideLayout global) linked (wideState m e) = some u ∧
      Pushed (wideLayout global) below u x ∧
      (x : Int) % 2 ^ i.format.width = n % 2 ^ i.format.width := by
  rcases h with ⟨g', start, code, linked, below, u, x, c, hgen, hcode, -, hlink, hrun, hpushed,
    -, -, -, hword', hlow⟩
  have hc : c = i := some.inj (hword'.symm.trans hword)
  subst hc
  have hkeep : reloads env { labels := labels } v = false := by
    simp [reloads, GenState.last, GenState.code]
  have heq := vmLoadVar_eq hword hkeep
  rw [hgen, map_some, eq_comm, map_eq_some_iff] at heq
  rcases heq with ⟨code', hcode', heq⟩
  have hsame : code' = code := by
    have hfst := congrArg Prod.fst heq
    simp only [GenState.code, Bool.false_eq_true, if_false, nil_append] at hfst hcode
    rw [hfst]
    rcases hcode with ⟨-, hcode⟩ | ⟨-, hcode⟩ <;> exact hcode
  have hstart : start = wideState m e := by
    rcases hcode with ⟨hstart, -⟩ | ⟨hstart, -⟩ <;> exact hstart
  subst hsame hstart
  exact ⟨code', linked, u, below, x, hcode', hlink, hrun, hpushed, hlow⟩

theorem LoadsValue.slot_eq {global e x : Nat} {m : Memory} (hword : wordOf v.type = some i)
    (hkind : v.kind ≠ .address)
    (h : LoadsValue env (wideLayout global) final v { labels := labels } [] (wideState m e)
      (wideState m e) n)
    (hclear : ∀ r ∈ operandReads env (wideLayout global) ⟨labels, 0⟩ (wideState m e) v,
      Clear (wideLayout global) (wideState m e) r.1 r.2)
    (hslot : operandSlot env (wideLayout global) ⟨labels, 0⟩ (wideState m e) v = some x) :
    (x : Int) % 2 ^ i.format.width = n % 2 ^ i.format.width := by
  rcases h.runs hword with ⟨code, linked, u, below, y, hcode, hlink, hrun, hpushed, hlow⟩
  have hroom : (wideState m e).free (wideLayout global) + 16 ≤ (wideLayout global).limit := by
    rw [wide_free]
    simp [wideLayout]
  rcases loadCode_pushes hword hroom hclear hcode hslot with ⟨-, -, u', hrun', hpushed'⟩
  have hsame := (links_loadCode hword hkind hcode).unique hlink
  subst hsame
  have hu : u' = u := some.inj (hrun'.symm.trans hrun)
  subst hu
  rwa [← hpushed'.top, hpushed.top]

/-- A memory with one word that is not zero. -/
def wordMemory (a size x : Nat) : Memory := Memory.store (fun _ => 0) a size x

theorem load_zeros (a n : Nat) : Memory.load (fun _ => 0) a n = 0 := by
  induction n generalizing a with
  | zero => rfl
  | succ n ih =>
    rw [Memory.load, ih]
    rfl

theorem wordMemory_self (a size x : Nat) : (wordMemory a size x).load a size = x % 256 ^ size :=
  load_store_self _ _ _ _

theorem wordMemory_disjoint {a b size k x : Nat} (h : b + k ≤ a ∨ a + size ≤ b) :
    (wordMemory a size x).load b k = 0 := by
  rw [wordMemory, load_store_of_disjoint h, load_zeros]

/-- The condition for constants is necessary. -/
theorem LoadsEverywhere.immediate (h : LoadsEverywhere env labels final v)
    (hop : IrOperand env final v) (hkind : v.kind = .immediate) :
    Loadable env labels final v := by
  rcases hop.word with ⟨i, hword⟩
  have hnot : v.kind ≠ .address := by simp [hkind]
  have hreads : ∀ L k s, valueReads env L k s v = [] ∧ operandReads env L k s v = [] := by
    intro L k s
    simp [valueReads, storageAddr, operandReads, operandAddr, hkind]
  have hslot : ∀ global n x,
      varValue env (wideLayout global) final ⟨labels, 0⟩ (wideState (fun _ => 0) 0) v = some n →
      operandSlot env (wideLayout global) ⟨labels, 0⟩ (wideState (fun _ => 0) 0) v = some x →
      (x : Int) % 2 ^ i.format.width = n % 2 ^ i.format.width := by
    intro global n x hvalue hx
    refine (h (wideLayout global) [] none (wideState (fun _ => 0) 0) (wideState (fun _ => 0) 0)
      { labels := labels } n rfl (wide_place _ _ _) ?_ hvalue).slot_eq hword hnot ?_ hx
    · simp [(hreads _ _ _).1]
    · simp [(hreads _ _ _).2]
  unfold Loadable
  simp only [hkind]
  split
  · rename_i hstring
    have hvalue : ∀ global, varValue env (wideLayout global) final ⟨labels, 0⟩
        (wideState (fun _ => 0) 0) v = some (global + v.offset.toInt) := by
      intro global
      simp [varValue, hword, hkind, hstring, stringAddr, wideLayout]
    rw [Option.any_eq_true] at hstring
    rcases hstring with ⟨sym, hsym, hsymtype⟩
    have hsymtype' : sym.symtype = .stringValue := by simpa using hsymtype
    have hp : v.type.isPointerType = true := by
      -- A string at another type is loaded as a number, wherever it is.
      by_contra hp
      have hx : ∀ global, operandSlot env (wideLayout global) ⟨labels, 0⟩
          (wideState (fun _ => 0) 0) v = some (toSlot (i.format.wrap v.imm.u)) := by
        intro global
        simp [operandSlot, operandInt, isPointerConstant, hkind, hp, hword]
      have hzero := hslot 0 _ _ (hvalue 0) (hx 0)
      have hone := hslot 1 _ _ (hvalue 1) (hx 1)
      have hdiff := Int.emod_eq_emod_iff_emod_sub_eq_zero.mp (hone.symm.trans hzero)
      have hpow : (1 : Int) < 2 ^ i.format.width :=
        one_lt_pow₀ (by decide) (Nat.ne_of_gt i.format.width_pos)
      rw [show ((1 : Nat) + v.offset.toInt - ((0 : Nat) + v.offset.toInt) : Int) = 1 by
        push_cast; ring, Int.emod_eq_of_lt (by decide) hpow] at hdiff
      cases hdiff
    refine ⟨hp, ?_⟩
    have hi : i = .ulong := by
      rcases wordOf_cases hword with ⟨-, hi⟩ | ⟨hp', -⟩
      · exact hi
      · rw [hp] at hp'
        cases hp'
    subst hi
    have hx := hslot 0 _ (toSlot (addOffset ((wideLayout 0).global % 2 ^ 64) v.offset : Nat))
      (hvalue 0) (by simp [operandSlot, operandInt, isPointerConstant, hkind, hsym, hp, hword,
        hsymtype'])
    have hlow : toInt32 v.offset.toNat % 2 ^ 64 = v.offset.toInt % 2 ^ 64 := by
      rw [cast_toSlot] at hx
      simpa [addOffset, wideLayout, cast_toSlot, show CInteger.ulong.format.width = 64 from rfl]
        using hx
    have hbounds := toInt32_bounds v.offset.toNat
    have hmin := le_toInt v.offset
    have hmax := toInt_lt (x := v.offset)
    unfold OffsetFits
    omega
  · rename_i hstring
    intro hp
    have hi : i = .ulong := by
      rcases wordOf_cases hword with ⟨-, hi⟩ | ⟨hp', -⟩
      · exact hi
      · rw [hp] at hp'
        cases hp'
    subst hi
    have hnone : v.symbol = none := by
      cases hsym : v.symbol with
      | none => rfl
      | some sym => simp [hsym, hop.constant hkind hp sym hsym] at hstring
    rw [← pointerConstant_slot]
    have hx := hslot 0 v.imm.u _ (by simp [varValue, hword, hkind, hstring])
      (by simp [operandSlot, isPointerConstant, hkind, hp, hnone]; rfl)
    have hlt := toSlot_lt ((if v.type.isUnsignedType then CInteger.uchar else .char).format.wrap
      v.imm.u)
    have hlt' : v.imm.u < 2 ^ 64 := v.imm.lo.isLt
    rw [show CInteger.ulong.format.width = 64 from rfl] at hx
    omega

/-- A symbol whose address is taken for that of a function. -/
def takesFunction (env : GenEnv) (labels final : List VmLabel) (sym : Symbol) : Bool :=
  isNamed env labels sym || isGlobalVar env sym && (getVmLabel final (env.symName sym)).isSome

theorem reassignFunction_runs {d : VmCode} {a : VmAddress} {global : Nat}
    (h : reassignFunction final { opcode := .push, type := .funcname, d := .addr a } = some d)
    (hexec : execData (wideLayout global) d s = some u) :
    ∃ j, functionIndex final a.name = some j ∧ u = s.push (wideLayout global) (toSlot j) := by
  simp only [reassignFunction, if_true, VmCode.addr] at h
  split at h
  · cases h
    cases hexec
  · rename_i label hlabel
    by_cases hneg : label.index < 0
    · simp [hneg] at h
    · simp only [hneg, if_false, some.injEq] at h
      subst h
      refine ⟨label.index, ?_, ?_⟩
      · rw [functionIndex, hlabel, bind_some, if_pos (by omega)]
      · exact (some.inj hexec).symm

theorem addressCode_slot {d : VmCode} {below : State} {x e : Nat} {size : Int}
    (hlink : ∀ j, reassignCode final [] j (addressCode env ⟨labels, 0⟩ v sym size) = some d)
    (hexec : execData (wideLayout 0) d (wideState (fun _ => 0) e) = some u)
    (hpushed : Pushed (wideLayout 0) below u x) :
    (takesFunction env labels final sym = true → ∃ j,
      functionIndex final (env.symName sym) = some j ∧ (x : Int) % 2 ^ 64 = j % 2 ^ 64) ∧
    (takesFunction env labels final sym = false → (x : Int) % 2 ^ 64 =
      ((2 ^ 65 + 2 ^ 66 + e + toInt32 (baseOf env sym + v.offset.toNat)).toNat : Nat) %
        2 ^ 64) := by
  have htop : ∀ y : Nat, u = (wideState (fun _ => 0) e).push (wideLayout 0) y → x = y % 2 ^ 64 := by
    rintro y rfl
    rw [← hpushed.top, State.top_push]
  have hlink := hlink 0
  have hfunction : ∀ a : VmAddress, a.name = env.symName sym →
      reassignFunction final { opcode := .push, type := .funcname, d := .addr a } = some d →
      ∃ j, functionIndex final (env.symName sym) = some j ∧ (x : Int) % 2 ^ 64 = j % 2 ^ 64 := by
    intro a ha hd
    rcases reassignFunction_runs hd hexec with ⟨j, hj, hu⟩
    refine ⟨j, ha ▸ hj, ?_⟩
    rw [htop _ hu]
    push_cast [cast_toSlot]
    omega
  by_cases hnamed : isNamed env labels sym = true
  · refine ⟨fun _ => ?_, fun hnot => by simp [takesFunction, hnamed] at hnot⟩
    rw [addressCode, if_pos hnamed] at hlink
    exact hfunction _ rfl hlink
  · rw [addressCode, if_neg hnamed] at hlink
    rw [reassignCode_address] at hlink
    have htakes : takesFunction env labels final sym =
        ((vmAddress env v sym size).isGlobal &&
          (getVmLabel final (vmAddress env v sym size).name).isSome) := by
      simp [takesFunction, hnamed, vmAddress]
    rw [htakes]
    split at hlink
    · rename_i hcond
      exact ⟨fun _ => hfunction _ rfl hlink, fun hnot => by simp [hcond] at hnot⟩
    · rename_i hcond
      refine ⟨fun h => absurd h hcond, fun _ => ?_⟩
      cases hlink
      rw [htop _ (some.inj hexec).symm, wide_varAddr]
      push_cast
      omega

/-- The condition for addresses is necessary. -/
theorem LoadsEverywhere.address (h : LoadsEverywhere env labels final v)
    (hop : IrOperand env final v) (hkind : v.kind = .address) :
    Loadable env labels final v := by
  rcases hop.word with ⟨i, hword⟩
  have hi : i.format.width = 64 := by
    have := (byteSize_wordOf hword).2.1
    have := hop.address hkind i hword
    omega
  unfold Loadable
  simp only [hkind]
  intro sym hsym
  -- What is loaded at two places of the frame.
  have hruns : ∀ e : Nat, ∀ n, varValue env (wideLayout 0) final ⟨labels, 0⟩
      (wideState (fun _ => 0) e) v = some n →
      ∃ d u below x, (∀ j, reassignCode final [] j
          (addressCode env ⟨labels, 0⟩ v sym (byteSize i)) = some d) ∧
        execData (wideLayout 0) d (wideState (fun _ => 0) e) = some u ∧
        Pushed (wideLayout 0) below u x ∧ (x : Int) % 2 ^ 64 = n % 2 ^ 64 := by
    intro e n hvalue
    have hload := h (wideLayout 0) [] none (wideState (fun _ => 0) e) (wideState (fun _ => 0) e)
      { labels := labels } n rfl (wide_place _ _ _)
      (by simp [valueReads, storageAddr, hkind]) hvalue
    rcases hload.runs hword with ⟨code, linked, u, below, x, hcode, hlink, hrun, hpushed, hlow⟩
    simp only [loadCode, hkind, hsym, map_some, some.injEq] at hcode
    subst hcode
    rcases forall₂_cons_left_iff.mp hlink with ⟨d, rest, hd, hrest, rfl⟩
    rw [forall₂_nil_left_iff] at hrest
    subst hrest
    rcases bind_eq_some_iff.mp hrun with ⟨w, hw, hnil⟩
    cases hnil
    rw [hi] at hlow
    exact ⟨d, _, below, x, hd, hw, hpushed, hlow⟩
  have hslot : ∀ e : Nat, ∀ n, varValue env (wideLayout 0) final ⟨labels, 0⟩
      (wideState (fun _ => 0) e) v = some n →
      (takesFunction env labels final sym = true → ∃ j,
        functionIndex final (env.symName sym) = some j ∧ n % 2 ^ 64 = j % 2 ^ 64) ∧
      (takesFunction env labels final sym = false → n % 2 ^ 64 =
        ((2 ^ 65 + 2 ^ 66 + e + toInt32 (baseOf env sym + v.offset.toNat)).toNat : Nat) %
          2 ^ 64) := by
    intro e n hvalue
    rcases hruns e n hvalue with ⟨d, u, below, x, hlink, hexec, hpushed, hlow⟩
    rw [← hlow]
    exact addressCode_slot hlink hexec hpushed
  have hframe := toInt32_bounds (baseOf env sym + v.offset.toNat)
  have hbase := toInt32_bounds (baseOf env sym)
  rw [hop.base sym hsym] at hbase
  have hmin := le_toInt v.offset
  have hmax := toInt_lt (x := v.offset)
  by_cases hfun : sym.type.isFunction = true
  · simp only [hfun, if_true]
    have hindex : ∃ j, functionIndex final (env.symName sym) = some j := by
      rcases hop.value with ⟨L, k, s, n, hvalue⟩
      simp only [varValue, hword, bind_some, hkind, hsym, hfun, if_true, map_eq_some_iff] at hvalue
      exact hvalue.imp fun _ hj => hj.1
    rcases hindex with ⟨j, hj⟩
    have hvalue : ∀ e : Nat, varValue env (wideLayout 0) final ⟨labels, 0⟩
        (wideState (fun _ => 0) e) v = some (j + v.offset.toInt) := by
      intro e
      simp [varValue, hword, hkind, hsym, hfun, hj]
    have htakes : takesFunction env labels final sym = true := by
      -- An address moves with the frame, the position of a function does not.
      by_contra htakes
      have hzero := (hslot 0 _ (hvalue 0)).2 (by simpa using htakes)
      have hone := (hslot 1 _ (hvalue 1)).2 (by simpa using htakes)
      omega
    rcases (hslot 0 _ (hvalue 0)).1 htakes with ⟨j', hj', hlow⟩
    rw [hj, some.injEq] at hj'
    subst hj'
    refine ⟨?_, ?_⟩
    · have hzero : v.offset.toInt = 0 := by omega
      exact eq_of_toInt_eq hzero
    · simp only [takesFunction, Bool.or_eq_true, Bool.and_eq_true] at htakes
      exact htakes.imp id And.left
  · simp only [hfun, Bool.false_eq_true, if_false]
    have hvalue : ∀ e : Nat, varValue env (wideLayout 0) final ⟨labels, 0⟩
        (wideState (fun _ => 0) e) v =
          some (((2 ^ 65 + 2 ^ 66 + e + (baseOf env sym + v.offset.toInt)).toNat : Nat) : Int) := by
      intro e
      simp only [varValue, hword, bind_some, hkind, hsym, hfun, Bool.false_eq_true,
        if_false, wide_objectAddr]
    have htakes : takesFunction env labels final sym = false := by
      by_contra htakes
      rcases (hslot 0 _ (hvalue 0)).1 (by simpa using htakes) with ⟨j, hj, hzero⟩
      rcases (hslot 1 _ (hvalue 1)).1 (by simpa using htakes) with ⟨j', hj', hone⟩
      rw [hj, some.injEq] at hj'
      subst hj'
      omega
    have hplace := (hslot 0 _ (hvalue 0)).2 htakes
    simp only [takesFunction, Bool.or_eq_false_iff, Bool.and_eq_false_iff] at htakes
    refine ⟨?_, htakes.1, fun hglobal => ?_⟩
    · unfold FrameFits
      omega
    · rcases htakes.2 with hlocal | hnone
      · rw [hglobal] at hlocal
        cases hlocal
      · simpa using hnone

theorem wide_clear {a size global e : Nat} {m : Memory} (h : a + size ≤ 2 ^ 65 ∨ 2 ^ 66 ≤ a) :
    Clear (wideLayout global) (wideState m e) a size := by
  rw [Clear, wide_free]
  simp only [wideLayout]
  omega

theorem fieldInt_low (v : Var) (hfield : v.isField = true) :
    fieldInt v (2 ^ v.fieldOffset) % 2 = 1 := by
  have hpos : v.fieldWidth ≠ 0 := by simpa [Var.isField] using hfield
  have hmod := fieldInt_emod v (2 ^ v.fieldOffset)
  rw [Nat.div_self (by positivity)] at hmod
  have hdvd : (2 : Int) ∣ 2 ^ v.fieldWidth := dvd_pow_self 2 hpos
  rw [← Int.emod_emod_of_dvd _ hdvd, hmod, Int.emod_emod_of_dvd _ hdvd]
  rfl

theorem fieldCode_fails {mask : Nat} {d : VmCode} (hlo : 32 ≤ v.fieldOffset)
    (hhi : v.fieldOffset < 64) : execCode L (d :: fieldCode v mask) s = none := by
  have hpos : 0 < v.fieldOffset := by omega
  have hwrap : CInteger.int.format.wrap v.fieldOffset = v.fieldOffset := by
    refine (inRange_signed_iff (f := CInteger.int.format) rfl
      (v.fieldOffset : Int)).mpr ?_
    have h31 : CInteger.int.format.width - 1 = 31 := rfl
    rw [h31]
    constructor <;> omega
  have himm : ∀ t : State, execData L
      { opcode := .push, type := .int32, d := .imm (vmImm 32 v.fieldOffset) } t =
        some (t.push L (toSlot v.fieldOffset)) := by
    intro t
    rw [execData_pushImm (c := .int) rfl, immSlot_vmImm (c := .int) (by decide) (by decide), hwrap]
  have hshift : ∀ t : State, execData L { opcode := .shr, type := .int32 }
      (t.push L (toSlot v.fieldOffset)) = none := by
    intro t
    have htop : (t.push L (toSlot v.fieldOffset)).top L = v.fieldOffset := by
      rw [State.top_push, toSlot_natCast (by omega)]
      omega
    have hcount : shiftCount .int v.fieldOffset = v.fieldOffset := by
      rw [shiftCount, if_neg (by decide)]
      exact hwrap
    have hexec : ∀ u, execData L { opcode := .shr, type := .int32 } u =
        execShift L .shr .int u := by
      intro u
      simp [execData, optypeInteger]
    have hwidth : CInteger.int.promote.format.width = 32 := rfl
    rw [hexec, execShift, htop, hcount]
    simp only [CInteger.binary, hwidth]
    rw [if_neg (by omega)]
    exact map_none _
  simp only [fieldCode, if_pos hpos, List.cons_append, nil_append, execCode_cons]
  cases execData L d s with
  | none => rfl
  | some t => rw [bind_some, execCode_cons, himm, bind_some, execCode_cons, hshift, bind_none]

theorem parity_of_emod {x n : Int} {w : Nat} (hw : w ≠ 0) (h : x % 2 ^ w = n % 2 ^ w) :
    x % 2 = n % 2 := by
  have hdvd : (2 : Int) ∣ 2 ^ w := dvd_pow_self 2 hw
  rw [← Int.emod_emod_of_dvd x hdvd, h, Int.emod_emod_of_dvd n hdvd]

theorem slotInt_field_zero (o w : Nat) :
    ((slotInt .int 0 / 2 ^ o % 2 ^ w).toNat : Int) = 0 := by
  have hzero : slotInt .int 0 = 0 := by decide
  simp [hzero]

theorem offset_low (offset : BitVec 64) :
    (offset.toNat : Int) % 2 ^ 32 = offset.toInt % 2 ^ 32 := by
  have hsign := toInt_eq_toNat_cond offset
  have hlt := offset.isLt
  split_ifs at hsign <;> omega

theorem toInt32_emod (n : Int) : toInt32 n % 2 ^ 32 = n % 2 ^ 32 :=
  wrap_emod_width (f := CInteger.int.format) n

/-- The condition for variables is necessary. -/
theorem LoadsEverywhere.direct (h : LoadsEverywhere env labels final v)
    (hop : IrOperand env final v) (hkind : v.kind = .direct) :
    Loadable env labels final v := by
  rcases hop.word with ⟨i, hword⟩
  rcases byteSize_wordOf hword with ⟨hbool, hwidth, -, -⟩
  have hsize : 0 < byteSize i := by
    have := byteSize_cases hbool
    omega
  have hnot : v.kind ≠ .address := by simp [hkind]
  unfold Loadable
  simp only [hkind]
  intro sym hsym
  have hbase := toInt32_bounds (baseOf env sym)
  rw [hop.base sym hsym] at hbase
  have hframe := toInt32_bounds (baseOf env sym + v.offset.toNat)
  have hmin := le_toInt v.offset
  have hmax := toInt_lt (x := v.offset)
  -- Where the variable is, and where the machine looks for it.
  have haddr : ∀ m, objectAddr env (wideLayout 0) (wideState m 0) sym v.offset.toInt =
      (2 ^ 65 + 2 ^ 66 + (baseOf env sym + v.offset.toInt)).toNat := by
    intro m
    rw [wide_objectAddr]
    rfl
  have hvar : ∀ m size, varAddr (wideLayout 0) (wideState m 0) (vmAddress env v sym size) =
      (2 ^ 65 + 2 ^ 66 + toInt32 (baseOf env sym + v.offset.toNat)).toNat := by
    intro m size
    rw [wide_varAddr]
    rfl
  have hA : 2 ^ 66 ≤ (2 ^ 65 + 2 ^ 66 + (baseOf env sym + v.offset.toInt)).toNat := by omega
  have hB : 2 ^ 66 ≤ (2 ^ 65 + 2 ^ 66 + toInt32 (baseOf env sym + v.offset.toNat)).toNat := by
    omega
  have hdiffer : ¬ FrameFits env v sym →
      ∀ k ≤ 8, ∀ n ≤ 8,
        (2 ^ 65 + 2 ^ 66 + toInt32 (baseOf env sym + v.offset.toNat)).toNat + k ≤
            (2 ^ 65 + 2 ^ 66 + (baseOf env sym + v.offset.toInt)).toNat ∨
          (2 ^ 65 + 2 ^ 66 + (baseOf env sym + v.offset.toInt)).toNat + n ≤
            (2 ^ 65 + 2 ^ 66 + toInt32 (baseOf env sym + v.offset.toNat)).toNat := by
    intro hfits k hk n hn
    have hlow := toInt32_emod (baseOf env sym + v.offset.toNat)
    have hoffset := offset_low v.offset
    unfold FrameFits at hfits
    omega
  have hequal : FrameFits env v sym →
      (2 ^ 65 + 2 ^ 66 + toInt32 (baseOf env sym + v.offset.toNat)).toNat =
        (2 ^ 65 + 2 ^ 66 + (baseOf env sym + v.offset.toInt)).toNat := by
    intro hfits
    rw [hfits]
  generalize (2 ^ 65 + 2 ^ 66 + (baseOf env sym + v.offset.toInt)).toNat = A
    at haddr hdiffer hA hequal
  generalize (2 ^ 65 + 2 ^ 66 + toInt32 (baseOf env sym + v.offset.toNat)).toNat = B
    at hvar hdiffer hB hequal
  have hsize8 : byteSize i ≤ 8 := by
    have := byteSize_cases hbool
    omega
  have hload : ∀ unit : Nat, LoadsValue env (wideLayout 0) final v { labels := labels } []
      (wideState (wordMemory A (byteSize i) unit) 0) (wideState (wordMemory A (byteSize i) unit) 0)
      (if v.isField then fieldInt v (unit % 256 ^ byteSize i)
        else (unit % 256 ^ byteSize i : Nat)) := by
    intro unit
    refine h (wideLayout 0) [] none _ _ { labels := labels } _ rfl (wide_place _ _ _) ?_ ?_
    · intro r hr
      simp only [valueReads, hkind, reduceCtorEq, if_false, nil_append, mem_toList,
        map_eq_some_iff] at hr
      rcases hr with ⟨a, ha, rfl⟩
      simp only [storageAddr, hkind, hsym, map_some, haddr, some.injEq] at ha
      subst ha
      exact wide_clear (Or.inr hA)
    · simp only [varValue, hword, bind_some, hkind, storageAddr, hsym, map_some, haddr]
      split
      · exact congrArg (fun x => some (fieldInt v x)) (wordMemory_self _ _ _)
      · exact congrArg (fun x : Nat => some (x : Int)) (wordMemory_self _ _ _)
  have hreads : ∀ m, ∀ r ∈ operandReads env (wideLayout 0) ⟨labels, 0⟩ (wideState m 0) v,
      Clear (wideLayout 0) (wideState m 0) r.1 r.2 := by
    intro m r hr
    simp only [operandReads, hkind, reduceCtorEq, if_false, nil_append, mem_toList,
      map_eq_some_iff] at hr
    rcases hr with ⟨a, ha, rfl⟩
    simp only [operandAddr, hkind, hsym, map_some, hvar, some.injEq] at ha
    subst ha
    exact wide_clear (Or.inr hB)
  by_cases hfield : v.isField = true
  · simp only [hfield, if_true] at hload
    have hin := hop.field i hword hfield
    have hpos : v.fieldWidth ≠ 0 := by simpa [Var.isField] using hfield
    have hwide : v.fieldWidth < 32 := by
      by_contra hwide
      rcases (hload 0).runs hword with ⟨code, linked, u, below, x, hcode, -⟩
      simp [loadCode, hkind, hsym, hfield, lowMask, hwide] at hcode
    have hlow : v.fieldOffset < 32 := by
      by_contra hlow
      rcases (hload 0).runs hword with ⟨code, linked, u, below, x, hcode, hlink, hrun, -⟩
      have hsame := (links_loadCode hword hnot hcode).unique hlink
      subst hsame
      simp only [loadCode, hkind, hsym, bind_some, hfield, if_true, map_eq_some_iff] at hcode
      rcases hcode with ⟨mask, -, rfl⟩
      rw [fieldCode_fails (by omega) (by omega)] at hrun
      cases hrun
    have hslot : ∀ unit : Nat,
        ((slotInt .int ((wordMemory A (byteSize i) unit).load B 4) / 2 ^ v.fieldOffset %
          2 ^ v.fieldWidth).toNat : Int) % 2 ^ i.format.width =
            fieldInt v (unit % 256 ^ byteSize i) % 2 ^ i.format.width := by
      intro unit
      refine (hload unit).slot_eq hword hnot (hreads _) ?_
      simp [operandSlot, isPointerConstant, hkind, hfield, operandAddr, hsym, hvar, hlow, hwide]
    have hend : v.fieldOffset + v.fieldWidth ≤ 32 := by
      -- The bit above the four bytes that are loaded is lost.
      by_contra hend
      have hlong : byteSize i = 8 := by
        have := byteSize_cases hbool
        omega
      have hzero : (wordMemory A (byteSize i) (2 ^ 32)).load B 4 = 0 := by
        by_cases hfits : FrameFits env v sym
        · rw [hequal hfits, ← load_mod _ A (by omega : 4 ≤ byteSize i), wordMemory_self, hlong]
          norm_num
        · exact wordMemory_disjoint (hdiffer hfits _ (by decide) _ hsize8)
      have hfield := hslot (2 ^ 32)
      have hunit : 2 ^ 32 % 256 ^ byteSize i = 2 ^ 32 := by
        rw [hlong]
        norm_num
      rw [hzero, slotInt_field_zero, hunit, ← hwidth, hlong] at hfield
      have hdvd : (2 : Int) ^ v.fieldWidth ∣ 2 ^ (8 * 8) := pow_dvd_pow 2 (by omega)
      have hbits := fieldInt_emod v (2 ^ 32)
      rw [← Int.emod_emod_of_dvd _ hdvd, ← hfield, Int.emod_emod_of_dvd _ hdvd,
        Nat.pow_div (by omega) (by decide)] at hbits
      have hlt : 2 ^ (32 - v.fieldOffset) < 2 ^ v.fieldWidth :=
        Nat.pow_lt_pow_right (by decide) (by omega)
      have hbit : (2 : Int) ^ (32 - v.fieldOffset) % 2 ^ v.fieldWidth =
          2 ^ (32 - v.fieldOffset) :=
        Int.emod_eq_of_lt (by positivity) (by exact_mod_cast hlt)
      push_cast at hbits
      rw [hbit, Int.zero_emod] at hbits
      exact absurd hbits (by positivity)
    have hfits : FrameFits env v sym := by
      by_contra hfits
      have hzero : (wordMemory A (byteSize i) (2 ^ v.fieldOffset)).load B 4 = 0 :=
        wordMemory_disjoint (hdiffer hfits _ (by decide) _ hsize8)
      have hfield' := hslot (2 ^ v.fieldOffset)
      have hunit : 2 ^ v.fieldOffset % 256 ^ byteSize i = 2 ^ v.fieldOffset := by
        apply Nat.mod_eq_of_lt
        rw [show 256 = 2 ^ 8 from rfl, ← pow_mul]
        exact Nat.pow_lt_pow_right (by decide) (by omega)
      rw [hzero, slotInt_field_zero, hunit] at hfield'
      have hparity := parity_of_emod i.format.width_pos.ne' hfield'
      rw [fieldInt_low v hfield] at hparity
      cases hparity
    refine ⟨hfits, fun _ => ⟨hend, hwide, ?_⟩⟩
    intro hsigned c hc
    rw [hword, some.injEq] at hc
    subst hc
    -- The sign of the field is lost.
    have hunit : 2 ^ (v.fieldOffset + (v.fieldWidth - 1)) % 256 ^ byteSize i =
        2 ^ (v.fieldOffset + (v.fieldWidth - 1)) := by
      apply Nat.mod_eq_of_lt
      rw [show 256 = 2 ^ 8 from rfl, ← pow_mul]
      exact Nat.pow_lt_pow_right (by decide) (by omega)
    have hsign := hslot (2 ^ (v.fieldOffset + (v.fieldWidth - 1)))
    rw [slotInt_extract (by omega), hequal hfits, load_field_eq _ A hend hin, wordMemory_self,
      hunit, Nat.pow_div (by omega) (by decide), Nat.add_sub_cancel_left,
      Nat.mod_eq_of_lt (Nat.pow_lt_pow_right (by decide) (by omega))] at hsign
    have hbounds : ∀ unit, -2 ^ (v.fieldWidth - 1) ≤ fieldInt v unit ∧
        fieldInt v unit < 2 ^ (v.fieldWidth - 1) := by
      intro unit
      simp only [fieldInt, hsigned, if_true]
      exact ⟨le_toInt _, toInt_lt⟩
    have hdouble : (2 : Int) ^ v.fieldWidth = 2 * 2 ^ (v.fieldWidth - 1) := by
      rw [← pow_succ']
      congr 1
      omega
    rcases hbounds (2 ^ (v.fieldOffset + (v.fieldWidth - 1))) with ⟨hmin, hmax⟩
    by_contra hshort
    have hlt : (2 : Int) ^ v.fieldWidth < 2 ^ i.format.width :=
      pow_lt_pow_right₀ (by decide) (by omega)
    have hdiff := Int.emod_eq_emod_iff_emod_sub_eq_zero.mp hsign
    push_cast at hdiff
    rw [Int.emod_eq_of_lt (by omega) (by omega)] at hdiff
    omega
  · refine ⟨?_, fun hfield' => absurd hfield' hfield⟩
    by_contra hfits
    have hslot := (hload 1).slot_eq (x := toSlot (i.format.wrap
      ((wordMemory A (byteSize i) 1).load B (byteSize i)))) hword hnot (hreads _)
      (by simp [operandSlot, operandInt, isPointerConstant, hkind, hfield, operandAddr, hsym, hvar,
        hword])
    rw [wordMemory_disjoint (hdiffer hfits _ hsize8 _ hsize8), if_neg hfield,
      Nat.mod_eq_of_lt (one_lt_pow₀ (by decide) hsize.ne')] at hslot
    have hparity := parity_of_emod i.format.width_pos.ne' hslot
    have hzero : toSlot (i.format.wrap ((0 : Nat) : Int)) = 0 := by
      cases i <;> decide
    rw [hzero] at hparity
    exact absurd hparity (by decide)

theorem fieldInt_eq_zero {unit : Nat} (h : unit / 2 ^ v.fieldOffset % 2 ^ v.fieldWidth = 0) :
    fieldInt v unit = 0 := by
  have hbits : BitVec.ofNat v.fieldWidth (unit / 2 ^ v.fieldOffset) = 0 :=
    eq_of_toNat_eq (by simpa using h)
  simp [fieldInt, hbits]

theorem wide_pointer (labels : List VmLabel) (hsym : v.symbol = some sym)
    (hbase : toInt32 (baseOf env sym) = baseOf env sym)
    (hpointer : sym.symtype = .stringValue ∨ sym.type.isPointerType = true) {p : Nat}
    (hp : p < 2 ^ 64) (word : Memory) :
    ∃ global m, pointerInt env (wideLayout global) ⟨labels, 0⟩ (wideState m 0) v = some (p : Int) ∧
      pointerValue env (wideLayout global) ⟨labels, 0⟩ (wideState m 0) sym = p ∧
      ∀ b k, b + k ≤ 2 ^ 65 → m.load b k = word.load b k := by
  by_cases hstring : sym.symtype = .stringValue
  · refine ⟨p, word, ?_, ?_, fun _ _ _ => rfl⟩
    · simp [pointerInt, hsym, hstring, stringAddr, wideLayout]
    · simpa [pointerValue, varDirect_isString, hstring, wideLayout] using hp
  · have hp' := hpointer.resolve_left hstring
    have hbounds := toInt32_bounds (baseOf env sym)
    rw [hbase] at hbounds
    have haddr : ∀ m, objectAddr env (wideLayout 0) (wideState m 0) sym 0 =
        (2 ^ 65 + 2 ^ 66 + baseOf env sym).toNat := by
      intro m
      rw [wide_objectAddr]
      simp
    have hhigh : 2 ^ 65 ≤ (2 ^ 65 + 2 ^ 66 + baseOf env sym).toNat := by omega
    have hword : p % 256 ^ 8 = p := Nat.mod_eq_of_lt (by simpa using hp)
    refine ⟨0, word.store (2 ^ 65 + 2 ^ 66 + baseOf env sym).toNat 8 p, ?_, ?_, ?_⟩
    · simp only [pointerInt, hsym, hstring, hp', if_true, if_false, haddr, wideState_mem,
        load_store_self, hword]
    · simp only [pointerValue, varDirect_isString, hstring, decide_false, Bool.false_eq_true,
        if_false, pointerAddr_eq_objectAddr hbase, haddr, wideState_mem, load_store_self, hword]
    · intro b k hb
      exact load_store_of_disjoint (Or.inl (by omega))

/-- The condition for dereferenced operands is necessary. -/
theorem LoadsEverywhere.deref (h : LoadsEverywhere env labels final v)
    (hop : IrOperand env final v) (hkind : v.kind = .deref) :
    Loadable env labels final v := by
  rcases hop.word with ⟨i, hword⟩
  rcases byteSize_wordOf hword with ⟨hbool, hwidth, -, -⟩
  have hnot : v.kind ≠ .address := by simp [hkind]
  have hsize : 0 < byteSize i ∧ byteSize i ≤ 8 := by
    have := byteSize_cases hbool
    omega
  have hvalue := hop.value
  simp only [varValue, hword, bind_some, hkind, storageAddr, map_eq_some_iff,
    bind_eq_some_iff] at hvalue
  rcases hvalue with ⟨L, k, s, n, a, ⟨p, hp, ha⟩, -⟩
  cases hsym : v.symbol with
  | none =>
    -- There is no code for an address that is a constant.
    simp only [pointerInt, hsym, some.injEq] at hp
    subst hp
    have haddr : ∀ L k s, storageAddr env L k s v = some a := by
      intro L k s
      simpa [storageAddr, hkind, pointerInt, hsym] using ha
    have hlt : a < 2 ^ 64 := by
      split at ha
      · cases ha
      · cases ha
        exact toSlot_lt _
    have hload := h (wideLayout 0) [] none (wideState (fun _ => 0) 0) (wideState (fun _ => 0) 0)
      { labels := labels } _ rfl (wide_place _ _ _) ?_
      (by simp only [varValue, hword, bind_some, hkind, haddr, map_some]; rfl)
    · rcases hload.runs hword with ⟨code, -, -, -, -, hcode, -⟩
      simp [loadCode, hkind, hsym] at hcode
    · intro r hr
      simp only [valueReads, hkind, hsym, haddr, hword, map_none, map_some,
        toList_none, toList_some, if_true, nil_append, mem_singleton,
        reduceCtorEq, decide_false, Bool.and_false, Bool.false_eq_true, if_false, getD_some] at hr
      subst hr
      exact wide_clear (Or.inl (by simp only; omega))
  | some sym =>
    have hbase := hop.base sym hsym
    have hpointer : sym.symtype = .stringValue ∨ sym.type.isPointerType = true := by
      simp only [pointerInt, hsym] at hp
      split at hp
      · exact Or.inl ‹_›
      · split at hp
        · exact Or.inr ‹_›
        · cases hp
    have hmin := le_toInt v.offset
    have hmax := toInt_lt (x := v.offset)
    have hframe := toInt32_bounds v.offset.toNat
    have hlow := toInt32_emod v.offset.toNat
    have hoffset := offset_low v.offset
    -- The address of the value, and where the machine reads it.
    have hA := cast_toSlot (2 ^ 40 + 2 ^ 12 - v.offset.toInt)
    have hp := toSlot_lt (2 ^ 40 + 2 ^ 12 - v.offset.toInt)
    generalize toSlot (2 ^ 40 + 2 ^ 12 - v.offset.toInt) = p at hA hp
    have htrue : toSlot (p + v.offset.toInt) = 2 ^ 40 + 2 ^ 12 := by
      unfold toSlot
      omega
    have hB := cast_toSlot (p + toInt32 v.offset.toNat)
    have hBlt := toSlot_lt (p + toInt32 v.offset.toNat)
    have hread : addOffset p v.offset = toSlot (p + toInt32 v.offset.toNat) := rfl
    generalize toSlot (p + toInt32 v.offset.toNat) = B at hB hBlt hread
    have hpage : ¬ B < nullPage := by
      unfold nullPage
      omega
    have hequal : OffsetFits v → B = 2 ^ 40 + 2 ^ 12 := by
      unfold OffsetFits
      omega
    have hdiffer : ¬ OffsetFits v →
        B + byteSize i ≤ 2 ^ 40 + 2 ^ 12 ∨ 2 ^ 40 + 2 ^ 12 + byteSize i ≤ B := by
      unfold OffsetFits
      omega
    have hslot : ∀ x : Nat,
        (((wordMemory (2 ^ 40 + 2 ^ 12) (byteSize i) x).load B (byteSize i) : Nat) : Int) %
            2 ^ i.format.width =
          (if v.isField then fieldInt v (x % 256 ^ byteSize i)
            else (x % 256 ^ byteSize i : Nat)) % 2 ^ i.format.width := by
      intro x
      rcases wide_pointer labels hsym hbase hpointer hp
        (wordMemory (2 ^ 40 + 2 ^ 12) (byteSize i) x) with ⟨global, m, hint, hvalue, hmem⟩
      have hstorage : storageAddr env (wideLayout global) ⟨labels, 0⟩ (wideState m 0) v =
          some (2 ^ 40 + 2 ^ 12) := by
        simp [storageAddr, hkind, hint, htrue, nullPage]
      have haddr : operandAddr env (wideLayout global) ⟨labels, 0⟩ (wideState m 0) v = some B := by
        simp only [operandAddr, hkind, hsym, bind_some, hvalue, hread, hpage, if_false,
          varDirect_isString, decide_eq_true_eq]
        exact if_pos hpointer.symm
      have hclear : ∀ a n, a + n ≤ 2 ^ 65 → Clear (wideLayout global) (wideState m 0) a n :=
        fun a n ha => wide_clear (Or.inl ha)
      have hframe : Clear (wideLayout global) (wideState m 0)
          (objectAddr env (wideLayout global) (wideState m 0) sym 0) 8 := by
        apply wide_clear
        have hbounds := toInt32_bounds (baseOf env sym)
        rw [hbase] at hbounds
        rw [wide_objectAddr]
        omega
      have hreads : ∀ r ∈ valueReads env (wideLayout global) ⟨labels, 0⟩ (wideState m 0) v,
          Clear (wideLayout global) (wideState m 0) r.1 r.2 := by
        intro r hr
        simp only [valueReads, hkind, hsym, hstorage, hword, map_some, toList_some,
          if_true, List.cons_append, nil_append, mem_cons, not_mem_nil, or_false,
          reduceCtorEq, decide_false, Bool.and_false, Bool.false_eq_true, if_false, getD_some] at hr
        rcases hr with rfl | rfl
        · exact hframe
        · exact hclear _ _ (by simp only; omega)
      have hreads' : ∀ r ∈ operandReads env (wideLayout global) ⟨labels, 0⟩ (wideState m 0) v,
          Clear (wideLayout global) (wideState m 0) r.1 r.2 := by
        intro r hr
        simp only [operandReads, hkind, hsym, haddr, hword, map_some, toList_some,
          if_true, List.cons_append, nil_append, mem_cons, not_mem_nil, or_false,
          reduceCtorEq, decide_false, Bool.and_false, Bool.false_eq_true, if_false,
          getD_some, pointerAddr_eq_objectAddr hbase] at hr
        rcases hr with rfl | rfl
        · exact hframe
        · exact hclear _ _ (by simp only; omega)
      have hx : varValue env (wideLayout global) final ⟨labels, 0⟩ (wideState m 0) v =
          some (if v.isField then fieldInt v (x % 256 ^ byteSize i)
            else (x % 256 ^ byteSize i : Nat)) := by
        simp only [varValue, hword, bind_some, hkind, hstorage, map_some,
          wideState_mem, hmem _ _ (show 2 ^ 40 + 2 ^ 12 + byteSize i ≤ 2 ^ 65 by omega),
          wordMemory_self]
      have hload := h (wideLayout global) [] none (wideState m 0) (wideState m 0)
        { labels := labels } _ rfl (wide_place _ _ _) hreads hx
      have hslot := hload.slot_eq (x := toSlot (i.format.wrap (m.load B (byteSize i)))) hword hnot
        hreads' (by
          by_cases hfield : v.isField = true
          · simp [operandSlot, isPointerConstant, hkind, hfield, haddr, hword]
          · simp [operandSlot, operandInt, isPointerConstant, hkind, hfield, haddr, hword])
      have hdvd : (2 : Int) ^ i.format.width ∣ 2 ^ 64 := pow_dvd_pow 2 i.format.width_le
      rwa [cast_toSlot, Int.emod_emod_of_dvd _ hdvd, wrap_emod_width,
        hmem _ _ (show B + byteSize i ≤ 2 ^ 65 by omega)] at hslot
    have hbit : ∀ j < 8 * byteSize i, 2 ^ j % 256 ^ byteSize i = 2 ^ j := by
      intro j hj
      apply Nat.mod_eq_of_lt
      rw [show 256 = 2 ^ 8 from rfl, ← pow_mul]
      exact Nat.pow_lt_pow_right (by decide) hj
    have hfits : OffsetFits v := by
      by_contra hfits
      have hzero : ∀ x, (wordMemory (2 ^ 40 + 2 ^ 12) (byteSize i) x).load B (byteSize i) = 0 :=
        fun x => wordMemory_disjoint (hdiffer hfits)
      by_cases hfield : v.isField = true
      · have hin := hop.field i hword hfield
        have hpos : v.fieldWidth ≠ 0 := by simpa [Var.isField] using hfield
        have hodd := hslot (2 ^ v.fieldOffset)
        rw [hzero, if_pos hfield, hbit _ (by omega)] at hodd
        have hparity := parity_of_emod i.format.width_pos.ne' hodd
        rw [fieldInt_low v hfield] at hparity
        cases hparity
      · have hodd := hslot (2 ^ 0)
        rw [hzero, if_neg hfield, hbit _ (by omega)] at hodd
        have hparity := parity_of_emod i.format.width_pos.ne' hodd
        cases hparity
    unfold Loadable
    simp only [hkind]
    refine ⟨by simp [hsym], hfits, fun hfield c hc => ?_⟩
    rw [hword, some.injEq] at hc
    subst hc
    have hin := hop.field i hword hfield
    have hpos : v.fieldWidth ≠ 0 := by simpa [Var.isField] using hfield
    -- A bit of the unit that is not in the field is loaded all the same.
    by_contra hwide
    have hother : ∃ j < 8 * byteSize i, 2 ^ j / 2 ^ v.fieldOffset % 2 ^ v.fieldWidth = 0 := by
      by_cases hoffset : v.fieldOffset = 0
      · exact ⟨v.fieldWidth, by omega, by simp [hoffset]⟩
      · refine ⟨0, by omega, ?_⟩
        rw [Nat.div_eq_of_lt (Nat.pow_lt_pow_right (by decide) (by omega)), Nat.zero_mod]
    rcases hother with ⟨j, hj, hzero⟩
    have hloaded := hslot (2 ^ j)
    rw [hequal hfits, wordMemory_self, if_pos hfield, hbit j hj, fieldInt_eq_zero hzero,
      Int.zero_emod] at hloaded
    have hlt : (2 : Int) ^ j < 2 ^ i.format.width := pow_lt_pow_right₀ (by decide) (by omega)
    push_cast at hloaded
    rw [Int.emod_eq_of_lt (by positivity) hlt] at hloaded
    exact absurd hloaded (by positivity)

/-! ## Operands that are loaded right -/

theorem LoadsEverywhere.loadable (h : LoadsEverywhere env labels final v)
    (hop : IrOperand env final v) : Loadable env labels final v := by
  cases hkind : v.kind with
  | immediate => exact h.immediate hop hkind
  | direct => exact h.direct hop hkind
  | address => exact h.address hop hkind
  | deref => exact h.deref hop hkind

/-- The code of `vm_load_var` leaves the value of an operand on the stack, from every state and at
every place, if and only if the operand is loadable. -/
theorem loads_value_iff (hop : IrOperand env final v) :
    LoadsEverywhere env labels final v ↔ Loadable env labels final v := by
  constructor
  · exact fun h => h.loadable hop
  · intro h L base c s t g n hlabels hplace hclear hvalue
    subst hlabels
    exact h.loadsValue hop hplace hclear hvalue

/-- An `int` four bytes behind a pointer. -/
def sampleMember : Var :=
  { sampleVar 0 { basicTypeInt with isPointer := true } with
    kind := .deref, type := basicTypeInt, offset := 4 }

theorem sampleMember_irOperand : IrOperand sampleEnv [] sampleMember where
  word := ⟨.int, rfl⟩
  address := by
    intro h
    cases h
  base := by
    intro sym h
    cases h
    decide
  field := by
    intro c _ h
    exact absurd h (by decide)
  constant := by
    intro h
    cases h
  value := ⟨sampleLayout, ⟨[], 0⟩, sampleState (wordMemory 4160 8 65536), 0, by decide⟩

/-- A member behind a pointer is loaded right. -/
theorem loads_value_member : LoadsEverywhere sampleEnv [] [] sampleMember :=
  (loads_value_iff sampleMember_irOperand).mpr
    ⟨rfl, show toInt32 4 = 4 by decide, fun h => absurd h (by decide)⟩

/-- `(char *) 0x1234` -/
def samplePointer : Var :=
  { kind := .immediate, type := { basicTypeChar with isPointer := true }, imm := { lo := 0x1234 } }

/-- A constant pointer is loaded as a character. -/
theorem pointer_constant_truncated :
    IrOperand sampleEnv [] samplePointer ∧ ¬ LoadsEverywhere sampleEnv [] [] samplePointer := by
  have hop : IrOperand sampleEnv [] samplePointer := {
    word := ⟨.ulong, rfl⟩
    address := fun h => nomatch h
    base := fun sym h => nomatch h
    field := fun c _ h => absurd h (by decide)
    constant := fun _ _ sym h => nomatch h
    value := ⟨sampleLayout, ⟨[], 0⟩, sampleState (wordMemory 4160 8 0), 0x1234, by decide⟩ }
  refine ⟨hop, fun h => ?_⟩
  have hload := h.immediate hop rfl
  exact absurd (hload rfl) (by decide)

end Kcs.Vm
