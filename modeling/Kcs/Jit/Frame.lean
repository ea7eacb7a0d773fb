import Kcs.Jit.Abi
import Kcs.Lib.IntFormat

/-!
# Stack frames

`enter` in `compile.c`: the places of parameters, locals and saved registers in the frame of
a function.  Offsets are relative to `%rbp` and have type `int`.

Main results:

- Theorem {lit}`frame_wellFormed`: the areas of a frame are disjoint and inside the frame, and
  the frame is a multiple of 16 bytes.
-/

namespace Kcs.Jit

open Option List

/-! ## Registers for parameters -/

/-- The value that an `int` holds. -/
def int (n : Int) : Int := (IntFormat.bits32 true).wrap n

/-- `MAX_INTEGER_ARGS` -/
def maxIntegerArgs : Nat := 6

/-- `MAX_SSE_ARGS` -/
def maxSseArgs : Nat := 8

/-- `next_integer_reg` and `next_sse_reg` -/
structure RegisterCount where
  ints : Nat
  sses : Nat
deriving DecidableEq, Repr

/-- `count_register_classifications` -/
def countRegisterClassifications (pc : Eightbytes) (r : RegisterCount) : RegisterCount :=
  { ints := r.ints + (List.range 4).countP fun i => pc.get i = .integer
    sses := r.sses + (List.range 4).countP fun i => pc.get i = .sse }

/-- `alloc_register_params` -/
def allocRegisterParams (pc : Eightbytes) (r : RegisterCount) : Option RegisterCount :=
  if pc.get 0 = .integer ∨ pc.get 0 = .sse then
    let r := countRegisterClassifications pc r
    if r.ints ≤ maxIntegerArgs ∧ r.sses ≤ maxSseArgs then some r else none
  else none

/-! ## Parameters -/

/-- The place of a parameter: its class, its size, whether it comes in registers, and its
`stack_offset`. -/
structure ParamSlot where
  pc : Eightbytes
  size : Nat
  inRegisters : Bool
  offset : Int

/-- The counters of the loop of `enter` over the parameters. -/
structure ParamState where
  registers : RegisterCount
  stackOffset : Int
  memOffset : Int

section Enter

variable (types : TypeTable)

/-- One round of the loop of `enter` over the parameters. -/
def enterParam (regOffset : Nat) (type : CType) (s : ParamState) :
    Option (ParamSlot × ParamState) :=
  (classify types type).bind fun arg =>
    (sizeOf types type).bind fun size =>
      match allocRegisterParams arg s.registers with
      | some registers =>
        let stackOffset := int (s.stackOffset - eightbytes size * 8)
        some (⟨arg, size, true, int (stackOffset - regOffset)⟩,
          { s with registers := registers, stackOffset := stackOffset })
      | none =>
        some (⟨arg, size, false, s.memOffset⟩,
          { s with memOffset := int (s.memOffset + eightbytes size * 8) })

/-- The loop of `enter` over the parameters. -/
def enterParams (regOffset : Nat) : List CType → ParamState → Option (List ParamSlot × ParamState)
  | [], s => some ([], s)
  | type :: params, s =>
    (enterParam types regOffset type s).bind fun r =>
      (enterParams regOffset params r.2).map fun rest => (r.1 :: rest.1, rest.2)

/-! ## Locals -/

/-- A local variable: its type, whether it has linkage, and whether it is a temporary. -/
structure LocalSymbol where
  type : CType
  hasLinkage : Bool := false
  isTemporary : Bool := false
deriving DecidableEq, Repr

/-- `TEMP_INT_REGS` -/
def tempIntRegs : Nat := 5

/-- `allocate_registers`: the register slot of each local, zero for none, and the number of
registers. -/
def allocateRegisters : List LocalSymbol → Nat → List Nat × Nat
  | [], regs => ([], regs)
  | sym :: locals, regs =>
    if sym.isTemporary ∧ sym.type.isArithmetic ∧ (sym.type.isInteger ∨ sym.type.isPointerType) ∧
        regs < tempIntRegs then
      let r := allocateRegisters locals (regs + 1)
      ((regs + 1) :: r.1, r.2)
    else
      let r := allocateRegisters locals regs
      (0 :: r.1, r.2)

/-- `is_vla`, with a bound on the nesting of arrays. -/
def isVlaAux : Nat → CType → Option Bool
  | fuel, type =>
    if type.isArray then
      match fuel with
      | 0 => none
      | fuel + 1 =>
        (getTypetreeHandle types type.ref).bind fun t =>
          if t.isVla then some true else isVlaAux fuel t.next
    else some false

/-- `is_vla` -/
def isVla (type : CType) : Option Bool := isVlaAux types types.length type

/-- The place of a local variable in memory. -/
structure LocalSlot where
  size : Nat
  offset : Int
deriving DecidableEq, Repr

/-- `allocate_locals`: the slots of the locals that get one, and the offset below them. -/
def allocateLocals (regOffset : Nat) :
    List (LocalSymbol × Nat) → Int → Option (List LocalSlot × Int)
  | [], stackOffset => some ([], stackOffset)
  | (sym, slot) :: locals, stackOffset =>
    (isVla types sym.type).bind fun vla =>
      if !sym.hasLinkage && slot = 0 && !vla then
        (sizeOf types sym.type).bind fun size =>
          let stackOffset := int (stackOffset - eightbytes size * 8)
          (allocateLocals regOffset locals stackOffset).map fun r =>
            (⟨size, int (stackOffset - regOffset)⟩ :: r.1, r.2)
      else allocateLocals regOffset locals stackOffset

/-! ## The frame -/

/-- `struct definition` and the type of its function, as far as `enter` reads them. -/
structure FunctionDef where
  result : CType
  isVararg : Bool
  params : List CType
  locals : List LocalSymbol

/-- What `enter` sets up. -/
structure Frame where
  result : Eightbytes
  regs : Nat
  returnAddressOffset : Option Int
  params : List ParamSlot
  locals : List LocalSlot
  /-- The space that is subtracted from `%rsp` behind the saved registers. -/
  stackOffset : Int
  /-- The members `gp_offset`, `fp_offset`, `overflow_arg_area_offset` and
  `reg_save_area_offset` of `vararg`. -/
  vararg : Option (Nat × Nat × Int × Int)

/-- The step of `enter` that aligns `%rsp` to 16 bytes. -/
def alignFrame (regOffset : Nat) (stackOffset : Int) : Int :=
  if stackOffset - regOffset < 0 then stackOffset - (16 - (regOffset - stackOffset) % 16)
  else stackOffset

/-- `vararg_offset` -/
def varargOffset (regOffset : Nat) : Nat :=
  if 0 < regOffset then regOffset + (16 - regOffset % 16) else 0

/-- `stack_offset` before the parameters. -/
def firstStackOffset (isVararg isMemory : Bool) : Int :=
  if isVararg then -176 - 16 else if isMemory then -8 else 0

/-- `return_address_offset` -/
def returnAddressOffset (isVararg : Bool) (regOffset : Nat) : Int :=
  if isVararg then -176 - 16 - regOffset else -8 - regOffset

/-- `enter` -/
def enter (fn : FunctionDef) : Option Frame :=
  let slots := allocateRegisters fn.locals 0
  let regs := slots.2
  let regOffset := regs * 8
  (classify types fn.result).bind fun res =>
    let isMemory := res.get 0 = .memory
    (enterParams types regOffset fn.params
        { registers := ⟨if isMemory then 1 else 0, 0⟩
          stackOffset := firstStackOffset fn.isVararg isMemory
          memOffset := 16 }).bind fun p =>
      (allocateLocals types regOffset (fn.locals.zip slots.1) p.2.stackOffset).map fun l =>
        { result := res
          regs := regs
          returnAddressOffset :=
            if isMemory then some (returnAddressOffset fn.isVararg regOffset) else none
          params := p.1
          locals := l.1
          stackOffset := alignFrame regOffset l.2
          vararg :=
            if fn.isVararg then
              some (8 * p.2.registers.ints, 8 * maxIntegerArgs + 16 * p.2.registers.sses,
                p.2.memOffset, -(varargOffset regOffset : Int) - 16 * maxSseArgs
                  - 8 * maxIntegerArgs)
            else none }

end Enter

/-! ## Areas -/

/-- What an area of a frame is for. -/
inductive AreaKind where
  | savedRegisters | resultPointer | registerSaveArea | param | localVariable
deriving DecidableEq, Repr

/-- An area of a frame, with the bytes that are needed there. -/
structure Area where
  kind : AreaKind
  start : Int
  length : Nat
  needed : Nat
deriving DecidableEq, Repr

/-- The end of an area. -/
def Area.stop (a : Area) : Int := a.start + a.length

/-- The area of a parameter that comes in registers. -/
def ParamSlot.area (p : ParamSlot) : Area := ⟨.param, p.offset, 8 * eightbytes p.size, p.size⟩

/-- The area of a local variable. -/
def LocalSlot.area (l : LocalSlot) : Area :=
  ⟨.localVariable, l.offset, 8 * eightbytes l.size, l.size⟩

/-- The areas of a frame, from the top. -/
def Frame.areas (f : Frame) : List Area :=
  ⟨.savedRegisters, -(8 * f.regs : Nat), 8 * f.regs, 8 * f.regs⟩ ::
    (f.returnAddressOffset.toList.map fun o => ⟨.resultPointer, o, 8, 8⟩) ++
    (f.vararg.toList.map fun v => ⟨.registerSaveArea, v.2.2.2, 176, 176⟩) ++
    (f.params.filter (·.inRegisters)).map ParamSlot.area ++ f.locals.map LocalSlot.area

/-- `%rsp` after the prologue. -/
def Frame.stackPointer (f : Frame) : Int := f.stackOffset - (8 * f.regs : Nat)

/-- Two areas have no byte in common. -/
def Area.Apart (a b : Area) : Prop := a.stop ≤ b.start ∨ b.stop ≤ a.start

instance (a b : Area) : Decidable (a.Apart b) := inferInstanceAs (Decidable (_ ∨ _))

/-- The pointer to the result is kept in the slot of `%rdi` in the register save area. -/
def Area.InSaveArea (a b : Area) : Prop :=
  a.kind = .resultPointer ∧ b.kind = .registerSaveArea ∧ a.start = b.start

/-- The areas are disjoint and large enough, they lie in the frame, and the frame keeps `%rsp`
aligned. -/
structure Frame.WellFormed (f : Frame) : Prop where
  disjoint : f.areas.Pairwise fun a b => a.Apart b ∨ a.InSaveArea b
  sizes : ∀ a ∈ f.areas, a.needed ≤ a.length
  inside : ∀ a ∈ f.areas, f.stackPointer ≤ a.start ∧ a.stop ≤ 0
  aligned : 16 ∣ f.stackPointer

/-! ## Slots below slots -/

theorem int_eq {n : Int} (hlo : -2 ^ 31 ≤ n) (hhi : n < 2 ^ 31) : int n = n := by
  have h : (IntFormat.bits32 true).InRange n := by
    rw [IntFormat.inRange_signed_iff rfl]
    exact ⟨hlo, hhi⟩
  exact h

/-- The bytes that slots of objects of given sizes take. -/
def slotBytes (types : TypeTable) (objects : List CType) : Nat :=
  (objects.map fun type => eightbytes ((sizeOf types type).getD 0) * 8).sum

/-- Areas that follow one another downwards from an offset. -/
inductive Descending : Int → List Area → Int → Prop where
  | nil {top bottom : Int} (h : bottom ≤ top) : Descending top [] bottom
  | cons {top bottom : Int} {a : Area} {areas : List Area} (h : a.stop ≤ top)
      (hrest : Descending a.start areas bottom) : Descending top (a :: areas) bottom

theorem Descending.bounds {top bottom : Int} {areas : List Area} (h : Descending top areas bottom) :
    bottom ≤ top ∧ ∀ a ∈ areas, bottom ≤ a.start ∧ a.stop ≤ top := by
  induction h with
  | nil h => exact ⟨h, fun a ha => absurd ha not_mem_nil⟩
  | cons h hrest ih =>
    rename_i top bottom a areas
    have hlength : a.start ≤ a.stop := by
      unfold Area.stop
      omega
    refine ⟨by omega, fun b hb => ?_⟩
    rcases mem_cons.mp hb with rfl | hb
    · exact ⟨ih.1, h⟩
    · have := ih.2 b hb
      omega

theorem Descending.pairwise {top bottom : Int} {areas : List Area}
    (h : Descending top areas bottom) : areas.Pairwise Area.Apart := by
  induction h with
  | nil h => exact List.Pairwise.nil
  | cons h hrest ih =>
    exact List.Pairwise.cons (fun b hb => Or.inr (hrest.bounds.2 b hb).2) ih

theorem Descending.append {top mid bottom : Int} {areas areas' : List Area}
    (h : Descending top areas mid) (h' : Descending mid areas' bottom) :
    Descending top (areas ++ areas') bottom := by
  induction h with
  | nil h =>
    cases h' with
    | nil hle => exact .nil (hle.trans h)
    | cons hstop hrest => exact .cons (hstop.trans h) hrest
  | cons hstop _ ih => exact .cons hstop (ih h')

theorem slotBytes_cons {types : TypeTable} {type : CType} {size : Nat}
    (hsize : sizeOf types type = some size) (objects : List CType) :
    slotBytes types (type :: objects) = eightbytes size * 8 + slotBytes types objects := by
  simp [slotBytes, hsize]

theorem slotBytes_le_cons (types : TypeTable) (type : CType) (objects : List CType) :
    slotBytes types objects ≤ slotBytes types (type :: objects) := by
  simp [slotBytes]

theorem le_eightbytes (size : Nat) : size ≤ 8 * eightbytes size := by
  unfold eightbytes
  omega

theorem allocateRegisters_le {locals : List LocalSymbol} {regs : Nat} (h : regs ≤ tempIntRegs) :
    (allocateRegisters locals regs).2 ≤ tempIntRegs := by
  induction locals generalizing regs with
  | nil => exact h
  | cons sym locals ih =>
    unfold allocateRegisters
    split
    · rename_i hsym
      exact ih hsym.2.2.2
    · exact ih h

theorem allocateRegisters_length (locals : List LocalSymbol) (regs : Nat) :
    (allocateRegisters locals regs).1.length = locals.length := by
  induction locals generalizing regs with
  | nil => rfl
  | cons sym locals ih =>
    unfold allocateRegisters
    split <;> simp [ih]

section Slots

variable {types : TypeTable} {regOffset : Nat}

theorem enterParam_spec {type : CType} {s s' : ParamState} {slot : ParamSlot}
    (h : enterParam types regOffset type s = some (slot, s')) :
    ∃ arg size, classify types type = some arg ∧ sizeOf types type = some size ∧
      ((∃ registers, allocRegisterParams arg s.registers = some registers ∧
          slot = ⟨arg, size, true, int (int (s.stackOffset - eightbytes size * 8) - regOffset)⟩ ∧
          s' = { s with
            registers := registers
            stackOffset := int (s.stackOffset - eightbytes size * 8) }) ∨
        (allocRegisterParams arg s.registers = none ∧ slot = ⟨arg, size, false, s.memOffset⟩ ∧
          s' = { s with memOffset := int (s.memOffset + eightbytes size * 8) })) := by
  rcases bind_eq_some_iff.mp h with ⟨arg, harg, h⟩
  rcases bind_eq_some_iff.mp h with ⟨size, hsize, h⟩
  refine ⟨arg, size, harg, hsize, ?_⟩
  split at h
  · rename_i registers hregisters
    cases h
    exact Or.inl ⟨registers, hregisters, rfl, rfl⟩
  · rename_i hnone
    cases h
    exact Or.inr ⟨hnone, rfl, rfl⟩

theorem enterParams_spec {params : List CType} {s s' : ParamState} {slots : List ParamSlot}
    (h : enterParams types regOffset params s = some (slots, s')) (hstart : s.stackOffset ≤ 0)
    (hfits : -2 ^ 31 ≤ s.stackOffset - slotBytes types params - regOffset) :
    s.stackOffset - slotBytes types params ≤ s'.stackOffset ∧
      Descending (s.stackOffset - regOffset)
        ((slots.filter (·.inRegisters)).map ParamSlot.area) (s'.stackOffset - regOffset) := by
  induction params generalizing s slots with
  | nil =>
    cases h
    exact ⟨by simp [slotBytes], .nil le_rfl⟩
  | cons type params ih =>
    rcases bind_eq_some_iff.mp h with ⟨⟨slot, mid⟩, hslot, h⟩
    rcases map_eq_some_iff.mp h with ⟨⟨rest, last⟩, hrest, hall⟩
    cases hall
    rcases enterParam_spec hslot with ⟨arg, size, -, hsize, hcases⟩
    have hbytes := slotBytes_cons hsize params
    rcases hcases with ⟨registers, -, rfl, rfl⟩ | ⟨-, rfl, rfl⟩
    · have hoffset : int (s.stackOffset - eightbytes size * 8) =
          s.stackOffset - eightbytes size * 8 := int_eq (by omega) (by omega)
      have hplace : int (s.stackOffset - eightbytes size * 8 - regOffset) =
          s.stackOffset - eightbytes size * 8 - regOffset := int_eq (by omega) (by omega)
      simp only [hoffset] at hrest
      rcases ih hrest (by dsimp only; omega) (by dsimp only; omega) with ⟨hle, hdescending⟩
      refine ⟨by dsimp only at hle ⊢; omega, ?_⟩
      simp only [filter_cons_of_pos, map_cons, hoffset, hplace]
      refine .cons ?_ hdescending
      simp only [ParamSlot.area, Area.stop]
      omega
    · rcases ih hrest hstart (by dsimp only; omega) with ⟨hle, hdescending⟩
      exact ⟨by dsimp only at hle ⊢; omega, hdescending⟩

theorem allocateLocals_spec {locals : List (LocalSymbol × Nat)} {top bottom : Int}
    {slots : List LocalSlot}
    (h : allocateLocals types regOffset locals top = some (slots, bottom)) (hstart : top ≤ 0)
    (hfits : -2 ^ 31 ≤ top - slotBytes types (locals.map (·.1.type)) - regOffset) :
    top - slotBytes types (locals.map (·.1.type)) ≤ bottom ∧
      Descending (top - regOffset) (slots.map LocalSlot.area) (bottom - regOffset) := by
  induction locals generalizing top slots with
  | nil =>
    cases h
    exact ⟨by simp [slotBytes], .nil le_rfl⟩
  | cons entry locals ih =>
    rcases entry with ⟨sym, reg⟩
    simp only [map_cons] at hfits ⊢
    have hmore := slotBytes_le_cons types sym.type (locals.map (·.1.type))
    unfold allocateLocals at h
    rcases bind_eq_some_iff.mp h with ⟨vla, -, h⟩
    split at h
    · rcases bind_eq_some_iff.mp h with ⟨size, hsize, h⟩
      rcases map_eq_some_iff.mp h with ⟨⟨rest, last⟩, hrest, hall⟩
      cases hall
      have hbytes := slotBytes_cons hsize (locals.map (·.1.type))
      have hoffset : int (top - eightbytes size * 8) = top - eightbytes size * 8 :=
        int_eq (by omega) (by omega)
      have hplace : int (top - eightbytes size * 8 - regOffset) =
          top - eightbytes size * 8 - regOffset := int_eq (by omega) (by omega)
      rw [hoffset] at hrest
      rcases ih hrest (by omega) (by omega) with ⟨hle, hdescending⟩
      refine ⟨by omega, ?_⟩
      simp only [hoffset, hplace]
      refine .cons ?_ hdescending
      simp only [LocalSlot.area, Area.stop]
      omega
    · rcases ih h hstart (by omega) with ⟨hle, hdescending⟩
      exact ⟨by omega, hdescending⟩

end Slots

/-! ## Frames -/

/-- The areas above the parameters. -/
def headerAreas (isVararg isMemory : Bool) (regs : Nat) : List Area :=
  ⟨.savedRegisters, -(8 * regs : Nat), 8 * regs, 8 * regs⟩ ::
    ((if isMemory then [⟨.resultPointer, returnAddressOffset isVararg (regs * 8), 8, 8⟩] else []) ++
      if isVararg then
        [⟨.registerSaveArea, -(varargOffset (regs * 8) : Int) - 16 * maxSseArgs - 8 * maxIntegerArgs,
          176, 176⟩]
      else [])

theorem headerAreas_bounds {isVararg isMemory : Bool} {regs : Nat} {a : Area}
    (ha : a ∈ headerAreas isVararg isMemory regs) :
    firstStackOffset isVararg isMemory - (regs * 8 : Nat) ≤ a.start ∧ a.stop ≤ 0 ∧
      a.needed ≤ a.length := by
  have hoffset : varargOffset (regs * 8) ≤ regs * 8 + 16 ∧ regs * 8 ≤ varargOffset (regs * 8) := by
    unfold varargOffset
    split <;> omega
  cases isVararg <;> cases isMemory <;>
    simp only [headerAreas, firstStackOffset, returnAddressOffset, maxSseArgs, maxIntegerArgs,
      if_true, if_false, Bool.false_eq_true, append_nil, nil_append, cons_append,
      mem_cons, not_mem_nil, or_false] at ha ⊢
  · subst ha
    simp only [Area.stop]
    omega
  · rcases ha with rfl | rfl <;> simp only [Area.stop] <;> omega
  · rcases ha with rfl | rfl <;> simp only [Area.stop] <;> omega
  · rcases ha with rfl | rfl | rfl <;> simp only [Area.stop] <;> omega

theorem headerAreas_pairwise {isVararg isMemory : Bool} {regs : Nat} :
    (headerAreas isVararg isMemory regs).Pairwise fun a b => a.Apart b ∨ a.InSaveArea b := by
  have hoffset : varargOffset (regs * 8) = 0 ∧ regs = 0 ∨
      0 < regs ∧ (varargOffset (regs * 8) = regs * 8 + 16 ∨
        varargOffset (regs * 8) = regs * 8 + 8) := by
    unfold varargOffset
    split <;> omega
  cases isVararg <;> cases isMemory <;>
    simp only [headerAreas, returnAddressOffset, maxSseArgs, maxIntegerArgs, if_true, if_false,
      Bool.false_eq_true, append_nil, nil_append, cons_append,
      pairwise_cons, mem_cons, not_mem_nil, or_false, forall_eq_or_imp, forall_eq,
      Area.Apart, Area.InSaveArea, Area.stop, List.Pairwise.nil, false_implies, implies_true,
      and_true, true_and]
  · omega
  · omega
  · refine ⟨⟨?_, ?_⟩, ?_⟩ <;> omega

theorem alignFrame_spec (regOffset : Nat) {stackOffset : Int} (h : stackOffset ≤ 0) :
    alignFrame regOffset stackOffset ≤ stackOffset ∧
      16 ∣ alignFrame regOffset stackOffset - regOffset := by
  unfold alignFrame
  split <;> omega

theorem zip_allocateRegisters (locals : List LocalSymbol) (regs : Nat) :
    (locals.zip (allocateRegisters locals regs).1).map (·.1.type) = locals.map (·.type) := by
  have hfst := map_fst_zip (allocateRegisters_length locals regs).ge
  calc (locals.zip (allocateRegisters locals regs).1).map (·.1.type)
      = ((locals.zip (allocateRegisters locals regs).1).map Prod.fst).map (·.type) := by
        rw [List.map_map]
        rfl
    _ = locals.map (·.type) := by rw [hfst]

theorem enter_spec {types : TypeTable} {fn : FunctionDef} {f : Frame}
    (h : enter types fn = some f)
    (hfits : 248 + slotBytes types fn.params + slotBytes types (fn.locals.map (·.type)) < 2 ^ 31) :
    ∃ isMemory objects bottom,
      f.areas = headerAreas fn.isVararg isMemory f.regs ++ objects ∧
        Descending (firstStackOffset fn.isVararg isMemory - (f.regs * 8 : Nat)) objects
          (bottom - (f.regs * 8 : Nat)) ∧
        (∀ a ∈ objects, a.needed ≤ a.length) ∧ f.stackOffset = alignFrame (f.regs * 8) bottom ∧
        bottom ≤ 0 := by
  unfold enter at h
  rcases bind_eq_some_iff.mp h with ⟨res, -, hframe⟩
  rcases bind_eq_some_iff.mp hframe with ⟨⟨slots, last⟩, hparams, hrest⟩
  rcases map_eq_some_iff.mp hrest with ⟨⟨locals, bottom⟩, hlocals, rfl⟩
  clear h hframe hrest
  dsimp only at hparams hlocals ⊢
  have hregs : (allocateRegisters fn.locals 0).2 ≤ 5 := allocateRegisters_le (by decide)
  have htop : -192 ≤ firstStackOffset fn.isVararg (decide (res.get 0 = .memory)) ∧
      firstStackOffset fn.isVararg (decide (res.get 0 = .memory)) ≤ 0 := by
    unfold firstStackOffset
    split
    · decide
    · split <;> decide
  rcases enterParams_spec hparams htop.2 (by dsimp only; omega) with ⟨hparamsLe, hparamsBelow⟩
  have hparamsTop := hparamsBelow.bounds.1
  dsimp only at hparamsLe hparamsBelow hparamsTop
  rcases allocateLocals_spec hlocals (by omega)
    (by rw [zip_allocateRegisters]; omega) with ⟨hlocalsLe, hlocalsBelow⟩
  have hlocalsTop := hlocalsBelow.bounds.1
  refine ⟨decide (res.get 0 = .memory),
    (slots.filter (·.inRegisters)).map ParamSlot.area ++ locals.map LocalSlot.area, bottom, ?_,
    hparamsBelow.append hlocalsBelow, fun a ha => ?_, rfl, by omega⟩
  · unfold Frame.areas headerAreas
    by_cases hmemory : res.get 0 = .memory <;> cases fn.isVararg <;> simp [hmemory]
  · rcases mem_append.mp ha with ha | ha
    · rcases List.mem_map.mp ha with ⟨slot, -, rfl⟩
      exact le_eightbytes slot.size
    · rcases List.mem_map.mp ha with ⟨slot, -, rfl⟩
      exact le_eightbytes slot.size

/-- The frame of a function is well formed when its size is an `int`. -/
theorem frame_wellFormed {types : TypeTable} {fn : FunctionDef} {f : Frame}
    (h : enter types fn = some f)
    (hfits : 248 + slotBytes types fn.params + slotBytes types (fn.locals.map (·.type)) < 2 ^ 31) :
    f.WellFormed := by
  rcases enter_spec h hfits with ⟨isMemory, objects, bottom, hareas, hbelow, hsizes, hoffset, hle⟩
  have halign := alignFrame_spec (f.regs * 8) hle
  have hbounds := hbelow.bounds
  have hpointer : f.stackPointer = alignFrame (f.regs * 8) bottom - (f.regs * 8 : Nat) := by
    unfold Frame.stackPointer
    rw [hoffset]
    omega
  have htop : firstStackOffset fn.isVararg isMemory ≤ 0 := by
    unfold firstStackOffset
    split
    · decide
    · split <;> decide
  constructor
  · rw [hareas, pairwise_append]
    refine ⟨headerAreas_pairwise, hbelow.pairwise.imp Or.inl, fun a ha b hb => ?_⟩
    have habove := (headerAreas_bounds ha).1
    exact Or.inl (Or.inr ((hbounds.2 b hb).2.trans habove))
  · intro a ha
    rw [hareas] at ha
    rcases mem_append.mp ha with ha | ha
    · exact (headerAreas_bounds ha).2.2
    · exact hsizes a ha
  · intro a ha
    rw [hareas] at ha
    rw [hpointer]
    rcases mem_append.mp ha with ha | ha
    · have := headerAreas_bounds ha
      omega
    · have := hbounds.2 a ha
      omega
  · rw [hpointer]
    exact halign.2

/-- A struct of three pointers. -/
def threePointers : Typetree :=
  { type := .struct, size := 24
    members := (List.range 3).map fun i =>
      { name := "p", type := { type := .pointer }, offset := 8 * i } }

/-- A variadic function with a struct result, a parameter, two temporaries in registers and a
local array. -/
def structResult : FunctionDef :=
  { result := { type := .struct, ref := 1 }, isVararg := true, params := [basicTypeInt]
    locals := [{ type := basicTypeInt, isTemporary := true },
      { type := basicTypeInt, isTemporary := true }, { type := { type := .array, ref := 2 } }] }

/-- The table of the types of the function, with the number of elements of its array. -/
def structResultTypes (size : Nat) : TypeTable :=
  [threePointers, { type := .array, size := size, next := basicTypeInt }]

/-- The frame of the function is well formed. -/
theorem frame_wellFormed_structResult :
    ∃ f, enter (structResultTypes 5) structResult = some f ∧ f.WellFormed := by
  have hsome : (enter (structResultTypes 5) structResult).isSome = true := by decide +kernel
  rcases isSome_iff_exists.mp hsome with ⟨f, hf⟩
  exact ⟨f, hf, frame_wellFormed hf (by decide +kernel)⟩

/-- The pointer to the result shares its slot with the register save area, and an array of
four gigabytes gets no space. -/
theorem frame_not_disjoint :
    (∃ f, enter (structResultTypes 5) structResult = some f ∧
        ¬ f.areas.Pairwise Area.Apart) ∧
      ∃ f, enter (structResultTypes (2 ^ 30)) structResult = some f ∧
        ¬ ∀ a ∈ f.areas, a.stop ≤ 0 := by
  have hshared : (enter (structResultTypes 5) structResult).map
      (fun f => decide (f.areas.Pairwise Area.Apart)) = some false := by decide +kernel
  have houtside : (enter (structResultTypes (2 ^ 30)) structResult).map
      (fun f => decide (∀ a ∈ f.areas, a.stop ≤ 0)) = some false := by decide +kernel
  rcases map_eq_some_iff.mp hshared with ⟨f, hf, hapart⟩
  rcases map_eq_some_iff.mp houtside with ⟨g, hg, hstop⟩
  exact ⟨⟨f, hf, of_decide_eq_false hapart⟩, g, hg, of_decide_eq_false hstop⟩

end Kcs.Jit
