import Kcs.Jit.Frame

/-!
# Arguments of calls

`push_function_arguments` and `compile_call` in `compile.c`, and the end of `enter`: the caller
puts the eightbytes of the arguments in registers and on the stack, and the callee reads its
parameters from there.

Main results:

- Theorem {lit}`callAgrees_iff`: the exact condition for caller and callee to agree.
-/

namespace Kcs.Jit

open Option List IntFormat Function

/-! ## Objects in registers -/

/-- A register for parameters: an entry of `param_int_reg` or of `param_sse_reg`. -/
inductive ParamRegister where
  | int (i : Nat)
  | sse (i : Nat)
deriving DecidableEq, Repr

/-- One load or store of `move_to_from_registers`. -/
structure RegisterMove where
  register : ParamRegister
  eightbyte : Nat
  type : CType
deriving DecidableEq, Repr

/-- The integer type that `slice_type` takes for an eightbyte of an object. -/
def sliceInteger (width i : Nat) : CType :=
  if (i + 1) * 8 < width then basicTypeUnsignedLong
  else
    match width % 8 with
    | 1 => basicTypeUnsignedChar
    | 2 => basicTypeUnsignedShort
    | 3 | 4 => basicTypeUnsignedInt
    | _ => basicTypeUnsignedLong

section Table

variable (types : TypeTable)

/-- `slice_type`; the assertions fail for other classes and for a class SSE of one or two
bytes. -/
def sliceType (type : CType) (pc : Eightbytes) (i : Nat) : Option CType :=
  if i < 4 ∧ (pc.get i = .integer ∨ pc.get i = .sse) then
    if type.isScalar then some type
    else
      (sizeOf types type).bind fun width =>
        if pc.get i = .sse then
          (sizeOf types (sliceInteger width i)).bind fun size =>
            if size % 8 = 4 then some basicTypeFloat
            else if size % 8 = 0 then some basicTypeDouble else none
        else some (sliceInteger width i)
  else none

/-- The register for an eightbyte, and the registers that are left. -/
def nextRegister (pc : Eightbytes) (i : Nat) (r : RegisterCount) : ParamRegister × RegisterCount :=
  if pc.get i = .integer then (.int r.ints, { r with ints := r.ints + 1 })
  else (.sse r.sses, { r with sses := r.sses + 1 })

/-- The loop of `move_to_from_registers` over eightbytes. -/
def moveEightbytes (type : CType) (pc : Eightbytes) :
    List Nat → RegisterCount → Option (List RegisterMove)
  | [], _ => some []
  | i :: rest, r =>
    (sliceType types type pc i).bind fun slice =>
      (moveEightbytes type pc rest (nextRegister pc i r).2).map fun moves =>
        ⟨(nextRegister pc i r).1, i, slice⟩ :: moves

/-- `move_to_from_registers` for an object that is not of class X87. -/
def moveToFromRegisters (type : CType) (pc : Eightbytes) (r : RegisterCount) :
    Option (List RegisterMove) :=
  (sizeOf types type).bind fun size => moveEightbytes types type pc (List.range (eightbytes size)) r

/-! ## The caller -/

/-- An argument of a call; an immediate counts as direct. -/
structure Argument where
  type : CType
  isDirect : Bool := true
deriving DecidableEq, Repr

/-- A classified argument, with its size and whether it is passed in registers. -/
structure PassedArgument where
  type : CType
  isDirect : Bool
  pc : Eightbytes
  size : Nat
  inRegisters : Bool

/-- The first loop of `push_function_arguments`: the classified arguments, the registers and
`mem_used`. -/
def classifyArguments : List Argument → RegisterCount → Int →
    Option (List PassedArgument × RegisterCount × Int)
  | [], r, memUsed => some ([], r, memUsed)
  | arg :: args, r, memUsed =>
    (classify types arg.type).bind fun pc =>
      (sizeOf types arg.type).bind fun size =>
        match allocRegisterParams pc r with
        | some r =>
          (classifyArguments args r memUsed).map fun rest =>
            (⟨arg.type, arg.isDirect, pc, size, true⟩ :: rest.1, rest.2)
        | none =>
          (classifyArguments args r (int (memUsed + 8 * eightbytes size))).map fun rest =>
            (⟨arg.type, arg.isDirect, pc, size, false⟩ :: rest.1, rest.2)

/-- The code of a call, as far as it concerns the arguments. -/
inductive CallInstr where
  | sub (n : Int)
  | add (n : Int)
  | push (arg i : Nat)
  | address (arg : Nat)
  | copy (arg n : Nat)
  | load (register : ParamRegister) (arg i : Nat) (type : CType)
  | resultAddress
  | setAl (n : Nat)
deriving DecidableEq, Repr

/-- `push` for the argument with an index. -/
def push (arg : Nat) (a : PassedArgument) : List CallInstr :=
  if a.type.isLongDouble then
    (if a.isDirect then [] else [.address arg]) ++ [.push arg 1, .push arg 0]
  else if a.type.isScalar then [.push arg 0]
  else [.sub (int (int (eightbytes a.size) * 8)), .copy arg (eightbytes a.size % 2 ^ 32)]

/-- The loop of `push_function_arguments` that passes arguments on the stack, from right to
left. -/
def pushMemory : Nat → List PassedArgument → List CallInstr
  | _, [] => []
  | arg, a :: rest => pushMemory (arg + 1) rest ++ if a.inRegisters then [] else push arg a

/-- The loops over the arguments in registers, from left to right: the moves of each argument
and the registers that are used. -/
def moveRegisterArguments : Nat → List PassedArgument → RegisterCount →
    Option (List (Nat × RegisterMove) × RegisterCount)
  | _, [], r => some ([], r)
  | arg, a :: rest, r =>
    if a.inRegisters then
      (moveToFromRegisters types a.type a.pc r).bind fun moves =>
        (moveRegisterArguments (arg + 1) rest (countRegisterClassifications a.pc r)).map fun p =>
          (moves.map (arg, ·) ++ p.1, p.2)
    else moveRegisterArguments (arg + 1) rest r

/-- The instruction for a move of the caller. -/
def loadMove (m : Nat × RegisterMove) : CallInstr :=
  .load m.2.register m.1 m.2.eightbyte m.2.type

/-- The registers before the first argument: a result in memory takes one. -/
def firstRegister (isMemory : Bool) : RegisterCount := ⟨if isMemory then 1 else 0, 0⟩

/-- `push_function_arguments`, with the number of bytes on the stack. -/
def pushFunctionArguments (isVararg isMemory : Bool) (args : List Argument) :
    Option (List CallInstr × Int) :=
  (classifyArguments types args (firstRegister isMemory) 0).bind fun c =>
    let padded := c.2.2 % 16 ≠ 0
    let memUsed := if padded then int (c.2.2 + 8) else c.2.2
    (moveRegisterArguments types 0 c.1 (firstRegister isMemory)).map fun p =>
      ((if padded then [.sub 8] else []) ++ pushMemory 0 c.1 ++ p.1.map loadMove ++
        (if isVararg then [.setAl p.2.sses] else []), memUsed)

/-- `compile_call`: the code before the call and the code behind it. -/
def compileCall (result : CType) (isVararg : Bool) (args : List Argument) :
    Option (List CallInstr × List CallInstr) :=
  (classify types result).bind fun res =>
    let isMemory := decide (res.get 0 = .memory)
    (pushFunctionArguments types isVararg isMemory args).map fun p =>
      (p.1 ++ (if isMemory then [.resultAddress] else []), if p.2 ≠ 0 then [.add p.2] else [])

end Table

/-! ## Running the code of a call -/

/-- What a register or an eightbyte of memory holds. -/
inductive Content where
  | unknown
  | eightbyte (arg i : Nat)
  | slice (arg i : Nat) (type : CType)
  | resultAddress
deriving DecidableEq, Repr

/-- The stack pointer, the eightbytes in memory, and the registers for parameters. -/
structure CallState where
  sp : Int
  memory : Int → Content
  ints : Nat → Content
  sses : Nat → Content
  al : Nat

/-- The content of a register. -/
def CallState.register (s : CallState) : ParamRegister → Content
  | .int i => s.ints i
  | .sse i => s.sses i

/-- `rep movsq` puts a number of eightbytes at the stack pointer. -/
def copyMemory (memory : Int → Content) (sp : Int) (arg n : Nat) : Int → Content := fun x =>
  if sp ≤ x ∧ x < sp + 8 * n ∧ (x - sp) % 8 = 0 then .eightbyte arg ((x - sp) / 8).toNat
  else memory x

/-- One instruction.  An object is copied through `%rdi`, `%rsi` and `%rcx`. -/
def CallInstr.step (s : CallState) : CallInstr → CallState
  | .sub n => { s with sp := s.sp - n }
  | .add n => { s with sp := s.sp + n }
  | .push arg i =>
    { s with sp := s.sp - 8, memory := Function.update s.memory (s.sp - 8) (.eightbyte arg i) }
  | .address _ => { s with ints := Function.update s.ints 1 .unknown }
  | .copy arg n =>
    { s with
      memory := copyMemory s.memory s.sp arg n
      ints := fun i => if i = 0 ∨ i = 1 ∨ i = 3 then .unknown else s.ints i }
  | .load (.int r) arg i type => { s with ints := Function.update s.ints r (.slice arg i type) }
  | .load (.sse r) arg i type => { s with sses := Function.update s.sses r (.slice arg i type) }
  | .resultAddress => { s with ints := Function.update s.ints 0 .resultAddress }
  | .setAl n => { s with al := n }

/-- A list of instructions. -/
def run (code : List CallInstr) (s : CallState) : CallState := code.foldl CallInstr.step s

/-! ## The callee -/

/-- The counters of `enter` before the first parameter. -/
def entryState (isVararg isMemory : Bool) : ParamState :=
  { registers := firstRegister isMemory
    stackOffset := firstStackOffset isVararg isMemory
    memOffset := 16 }

/-- The last loop of `enter`: the registers that are stored to the parameters. -/
def storeParams (types : TypeTable) (isMemory : Bool) (params : List CType)
    (slots : List ParamSlot) : Option (List (Nat × RegisterMove)) :=
  (moveRegisterArguments types 0
    (List.zipWith (fun type slot => ⟨type, true, slot.pc, slot.size, slot.inRegisters⟩) params
      slots) (firstRegister isMemory)).map Prod.fst

/-! ## Types of one layout -/

/-- Two types with the same layout: qualifiers and the types behind pointers do not matter. -/
def SameLayout (a b : CType) : Prop := a.typeOf = b.typeOf ∧ (a.isScalar = false → a.ref = b.ref)

theorem SameLayout.refl (a : CType) : SameLayout a a := ⟨rfl, fun _ => rfl⟩

variable {a b : CType}

theorem SameLayout.sizeOf_eq (h : SameLayout a b) (types : TypeTable) :
    sizeOf types a = sizeOf types b := by
  by_cases hscalar : a.isScalar = true
  · have hb : b.isScalar = true := by rwa [CType.isScalar, ← h.1]
    unfold sizeOf sizeOfAux
    rw [← h.1]
    split <;> first | rfl | skip
    all_goals
      rename_i hkind
      rw [CType.isScalar, hkind] at hscalar
      exact absurd hscalar (by decide)
  · have href := h.2 (by simpa using hscalar)
    unfold sizeOf sizeOfAux
    rw [← h.1, ← href]

theorem SameLayout.macro_eq (h : SameLayout a b) (f : TypeKind → Bool) :
    f a.typeOf = f b.typeOf := by
  rw [h.1]

theorem SameLayout.aggregate_eq (h : SameLayout a b) (types : TypeTable)
    (hscalar : a.isScalar = false) :
    isFlexible types a = isFlexible types b ∧
      hasUnalignedFields types a = hasUnalignedFields types b ∧
      flatten types noClasses a 0 = flatten types noClasses b 0 := by
  have href := h.2 hscalar
  have haggregate : a.isStructOrUnion = b.isStructOrUnion :=
    h.macro_eq fun k => decide (k = .struct) || decide (k = .union)
  have hpointer : a.isPointerType = false := by
    cases hkind : a.isPointerType with
    | false => rfl
    | true =>
      have hcode : a.typeOf = .pointer := of_decide_eq_true hkind
      rw [CType.isScalar, hcode] at hscalar
      exact absurd hscalar (by decide)
  have hpointer' : b.isPointerType = false :=
    (h.macro_eq fun k => decide (k = .pointer)).symm.trans hpointer
  have hfunction : a.isFunction = b.isFunction := h.macro_eq fun k => decide (k = .function)
  have harray : a.isArray = b.isArray := h.macro_eq fun k => decide (k = .array)
  have hnext : typeNext types a = typeNext types b := by
    simp only [typeNext, hpointer, hpointer', hfunction, harray, href, Bool.false_eq_true, if_false]
  refine ⟨?_, ?_, ?_⟩
  · rw [isFlexible, isFlexible, haggregate, href]
  · rw [hasUnalignedFields, hasUnalignedFields, href]
  · unfold flatten flattenAux elementCount
    rw [← h.1, ← href, hnext, h.sizeOf_eq types]

theorem SameLayout.classify_eq (h : SameLayout a b) (types : TypeTable) :
    classify types a = classify types b := by
  have hsize := h.sizeOf_eq types
  have hfunction : a.isFunction = b.isFunction := h.macro_eq fun k => decide (k = .function)
  have hinteger : a.isInteger = b.isInteger :=
    h.macro_eq fun k => TypeKind.bool.code ≤ k.code && k.code ≤ TypeKind.long.code
  have hpointer : a.isPointerType = b.isPointerType := h.macro_eq fun k => decide (k = .pointer)
  have hdouble : a.isDouble = b.isDouble := h.macro_eq fun k => decide (k = .double)
  have hfloat : a.isFloat = b.isFloat := h.macro_eq fun k => decide (k = .float)
  have hldouble : a.isLongDouble = b.isLongDouble := h.macro_eq fun k => decide (k = .ldouble)
  have hvoid : a.isVoid = b.isVoid := h.macro_eq fun k => decide (k = .void)
  have haggregate : a.isStructOrUnion = b.isStructOrUnion :=
    h.macro_eq fun k => decide (k = .struct) || decide (k = .union)
  by_cases hscalar : a.isScalar = true
  · have hstruct : b.isStructOrUnion = false := by
      rw [← haggregate, CType.isStructOrUnion, CType.isStruct, CType.isUnion]
      rw [CType.isScalar] at hscalar
      cases hkind : a.typeOf <;> rw [hkind] at hscalar <;>
        first | rfl | exact absurd hscalar (by decide)
    simp only [classify, hfunction, hinteger, hpointer, hdouble, hfloat, hldouble, hvoid,
      haggregate, hstruct, hsize, Bool.and_false, Bool.false_eq_true, if_false]
  · rcases h.aggregate_eq types (by simpa using hscalar) with ⟨hflexible, hunaligned, hflatten⟩
    simp only [classify, hfunction, hinteger, hpointer, hdouble, hfloat, hldouble, hvoid,
      haggregate, hsize, hflexible, hunaligned, hflatten]

variable {pc : Eightbytes} {i : Nat}

theorem SameLayout.sliceType (h : SameLayout a b) {types : TypeTable}
    {t : CType} (ht : sliceType types a pc i = some t) :
    ∃ t', Jit.sliceType types b pc i = some t' ∧ SameLayout t t' := by
  have hscalar : b.isScalar = a.isScalar := by rw [CType.isScalar, ← h.1, CType.isScalar]
  unfold Jit.sliceType at ht ⊢
  split at ht
  · rename_i hpc
    rw [if_pos hpc, hscalar, ← h.sizeOf_eq types]
    split at ht
    · cases ht
      exact ⟨b, if_pos (by assumption), h⟩
    · exact ⟨t, by rw [if_neg (by assumption)]; exact ht, .refl t⟩
  · cases ht

/-! ## Classified arguments -/

/-- The bytes of the arguments that are passed in memory. -/
def memoryBytes (args : List PassedArgument) : Nat :=
  ((args.filter fun a => !a.inRegisters).map fun a => 8 * eightbytes a.size).sum

@[simp]
theorem memoryBytes_cons (a : PassedArgument) (args : List PassedArgument) :
    memoryBytes (a :: args) =
      (if a.inRegisters then 0 else 8 * eightbytes a.size) + memoryBytes args := by
  cases h : a.inRegisters <;> simp [memoryBytes, h]

@[simp]
theorem memoryBytes_nil : memoryBytes [] = 0 := rfl

theorem eight_dvd_memoryBytes (args : List PassedArgument) : 8 ∣ memoryBytes args := by
  induction args with
  | nil => simp
  | cons a args ih =>
    rw [memoryBytes_cons]
    split <;> omega

theorem int_int_add (m n : Int) : int (int m + n) = int (m + n) := by
  refine wrap_congr ?_
  rw [Int.add_emod, int, wrap_emod_width, ← Int.add_emod]

/-- An argument is classified as its type is. -/
structure PassedArgument.Classified (types : TypeTable) (a : PassedArgument) : Prop where
  pc : classify types a.type = some a.pc
  size : sizeOf types a.type = some a.size
  first : a.inRegisters = true → a.pc.get 0 = .integer ∨ a.pc.get 0 = .sse

variable {r r' : RegisterCount}

theorem allocRegisterParams_spec
    (h : allocRegisterParams pc r = some r') :
    (pc.get 0 = .integer ∨ pc.get 0 = .sse) ∧ r' = countRegisterClassifications pc r := by
  unfold allocRegisterParams at h
  split at h
  · rename_i hpc
    dsimp only at h
    split at h
    · cases h
      exact ⟨hpc, rfl⟩
    · cases h
  · cases h

variable {l : List PassedArgument} {args : List Argument}

theorem classifyArguments_spec {types : TypeTable}
    {m memUsed : Int}
    (h : classifyArguments types args r (int m) = some (l, r', memUsed)) :
    (∀ a ∈ l, a.Classified types) ∧ l.map (·.type) = args.map (·.type) ∧
      memUsed = int (m + memoryBytes l) := by
  induction args generalizing r m l with
  | nil =>
    cases h
    exact ⟨fun a ha => absurd ha not_mem_nil, rfl, by simp⟩
  | cons arg args ih =>
    unfold classifyArguments at h
    rcases bind_eq_some_iff.mp h with ⟨pc, hpc, h⟩
    rcases bind_eq_some_iff.mp h with ⟨size, hsize, h⟩
    split at h
    · rename_i registers hregisters
      rcases map_eq_some_iff.mp h with ⟨⟨rest, last, used⟩, hrest, hall⟩
      cases hall
      rcases ih hrest with ⟨hclassified, htypes, hmem⟩
      refine ⟨forall_mem_cons.mpr ⟨⟨hpc, hsize, fun _ => ?_⟩, hclassified⟩, ?_, ?_⟩
      · exact (allocRegisterParams_spec hregisters).1
      · rw [map_cons, map_cons, htypes]
      · simpa using hmem
    · rcases map_eq_some_iff.mp h with ⟨⟨rest, last, used⟩, hrest, hall⟩
      cases hall
      rw [int_int_add] at hrest
      rcases ih hrest with ⟨hclassified, htypes, hmem⟩
      refine ⟨forall_mem_cons.mpr ⟨⟨hpc, hsize, fun h => nomatch h⟩, hclassified⟩, ?_, ?_⟩
      · rw [map_cons, map_cons, htypes]
      · dsimp only at hmem ⊢
        rw [hmem, memoryBytes_cons]
        congr 1
        simp only [Bool.false_eq_true, if_false]
        push_cast
        omega

/-! ## Running the pushes -/

section Run

variable (code code' : List CallInstr) (s : CallState)

@[simp]
theorem run_nil : run [] s = s := rfl

@[simp]
theorem run_cons (i : CallInstr) : run (i :: code) s = run code (i.step s) := rfl

theorem run_append : run (code ++ code') s = run code' (run code s) := foldl_append

end Run

variable {type : CType}

theorem eightbytes_scalar {types : TypeTable} {size : Nat}
    (hsize : sizeOf types type = some size) (hscalar : type.isScalar = true) :
    eightbytes size = if type.isLongDouble then 2 else 1 := by
  unfold sizeOf sizeOfAux at hsize
  rw [CType.isScalar] at hscalar
  unfold CType.isLongDouble
  obtain ⟨kind, hkind⟩ : ∃ kind, type.typeOf = kind := ⟨_, rfl⟩
  rw [hkind] at hscalar
  cases kind <;> first | exact absurd hscalar (by decide) | (simp [hkind] at hsize ⊢; subst hsize; rfl)

/-- The eightbytes of an object lie from the stack pointer, and nothing above the old stack
pointer changes. -/
structure PushedAt (s s' : CallState) (arg n : Nat) : Prop where
  sp : s'.sp = s.sp - 8 * n
  content : ∀ j < n, s'.memory (s'.sp + 8 * j) = .eightbyte arg j
  above : ∀ x, s.sp ≤ x → s'.memory x = s.memory x

theorem run_pushTwo (arg : Nat) (s : CallState) :
    PushedAt s (run [.push arg 1, .push arg 0] s) arg 2 := by
  simp only [run_cons, run_nil, CallInstr.step]
  refine ⟨by dsimp only; omega, fun j hj => ?_, fun x hx => ?_⟩
  · dsimp only
    rcases (by omega : j = 0 ∨ j = 1) with rfl | rfl
    · rw [Nat.cast_zero, mul_zero, add_zero, update_self]
    · rw [update_of_ne (by omega), show s.sp - 8 - 8 + 8 * ((1 : Nat) : Int) = s.sp - 8 by
        omega, update_self]
  · dsimp only
    rw [update_of_ne (by omega), update_of_ne (by omega)]

theorem run_copy (arg n : Nat) (s : CallState) :
    PushedAt s (run [.sub (8 * n), .copy arg n] s) arg n := by
  simp only [run_cons, run_nil, CallInstr.step]
  refine ⟨rfl, fun j hj => ?_, fun x hx => ?_⟩
  · dsimp only [copyMemory]
    rw [if_pos (by omega)]
    congr 1
    omega
  · dsimp only [copyMemory]
    exact if_neg (by omega)

theorem run_push {types : TypeTable} {a : PassedArgument} (ha : a.Classified types)
    (hfits : 8 * eightbytes a.size < 2 ^ 31) (arg : Nat) (s : CallState) :
    PushedAt s (run (push arg a) s) arg (eightbytes a.size) := by
  unfold push
  split
  · rename_i hldouble
    have hscalar : a.type.isScalar = true := by
      have hcode : a.type.typeOf = .ldouble := of_decide_eq_true hldouble
      rw [CType.isScalar, hcode]
      decide
    rw [eightbytes_scalar ha.size hscalar, if_pos hldouble]
    split
    · exact run_pushTwo arg s
    · have htwo := run_pushTwo arg (CallInstr.step s (.address arg))
      exact ⟨htwo.sp, htwo.content, htwo.above⟩
  · rename_i hldouble
    split
    · rename_i hscalar
      rw [eightbytes_scalar ha.size hscalar, if_neg hldouble]
      simp only [run_cons, run_nil, CallInstr.step]
      refine ⟨by dsimp only; omega, fun j hj => ?_, fun x hx => ?_⟩
      · rw [Nat.lt_one_iff.mp hj]
        dsimp only
        rw [Nat.cast_zero, mul_zero, add_zero, update_self]
      · exact update_of_ne (by omega) _ _
    · rw [int_eq (n := eightbytes a.size) (by omega) (by omega), mul_comm,
        int_eq (by omega) (by omega), Nat.mod_eq_of_lt (by omega)]
      exact run_copy arg (eightbytes a.size) s

/-- The arguments in memory follow one another from the stack pointer at the call. -/
theorem run_pushMemory {types : TypeTable}
    (hclassified : ∀ a ∈ l, a.Classified types) (hfits : memoryBytes l < 2 ^ 31) (arg : Nat)
    (s : CallState) :
    (run (pushMemory arg l) s).sp = s.sp - memoryBytes l ∧
      (∀ i a, l[i]? = some a → a.inRegisters = false → ∀ j < eightbytes a.size,
        (run (pushMemory arg l) s).memory
            ((run (pushMemory arg l) s).sp + memoryBytes (l.take i) + 8 * j) =
          .eightbyte (arg + i) j) ∧
      ∀ x, s.sp ≤ x → (run (pushMemory arg l) s).memory x = s.memory x := by
  induction l generalizing arg with
  | nil => exact ⟨by simp [pushMemory], fun i a h => by simp at h, fun x hx => rfl⟩
  | cons a l ih =>
    rcases forall_mem_cons.mp hclassified with ⟨ha, hl⟩
    rw [memoryBytes_cons] at hfits ⊢
    rcases ih hl (by omega) (arg + 1) with ⟨hsp, hcontent, habove⟩
    rw [pushMemory, run_append]
    set mid := run (pushMemory (arg + 1) l) s
    cases hregisters : a.inRegisters with
    | true =>
      simp only [if_true, run_nil, zero_add]
      refine ⟨hsp, fun i b hb hmemory j hj => ?_, habove⟩
      cases i with
      | zero =>
        cases hb
        rw [hregisters] at hmemory
        cases hmemory
      | succ i =>
        have hrest := hcontent i b hb hmemory j hj
        rw [take_succ_cons, memoryBytes_cons, hregisters, if_pos rfl, zero_add]
        rw [hrest]
        congr 1
        omega
    | false =>
      rw [hregisters] at hfits
      simp only [Bool.false_eq_true, if_false] at hfits ⊢
      have hpush := run_push ha (by omega) arg mid
      refine ⟨?_, fun i b hb hmemory j hj => ?_, fun x hx => ?_⟩
      · rw [hpush.sp, hsp]
        push_cast
        omega
      · cases i with
        | zero =>
          cases hb
          simpa using hpush.content j hj
        | succ i =>
          have hrest := hcontent i b hb hmemory j hj
          rw [take_succ_cons, memoryBytes_cons, hregisters, hpush.above _ ?_]
          · rw [show arg + (i + 1) = arg + 1 + i by omega, ← hrest, hpush.sp]
            congr 1
            simp only [Bool.false_eq_true, if_false]
            push_cast
            omega
          · rw [hpush.sp]
            simp only [Bool.false_eq_true, if_false]
            push_cast
            omega
      · rw [hpush.above x (by omega), habove x hx]

/-! ## Running the loads -/

/-- A register behind those that are used and before those that are left. -/
def ParamRegister.Between (r r' : RegisterCount) : ParamRegister → Prop
  | .int i => r.ints ≤ i ∧ i < r'.ints
  | .sse i => r.sses ≤ i ∧ i < r'.sses

/-- Moves between counters of registers, each of another register. -/
structure Disjoint (r r' : RegisterCount) (registers : List ParamRegister) : Prop where
  ints : r.ints ≤ r'.ints
  sses : r.sses ≤ r'.sses
  nodup : registers.Nodup
  between : ∀ reg ∈ registers, reg.Between r r'

theorem Disjoint.append {r mid r' : RegisterCount} {l l' : List ParamRegister}
    (h : Disjoint r mid l) (h' : Disjoint mid r' l') : Disjoint r r' (l ++ l') := by
  have hints := h.ints
  have hsses := h.sses
  have hints' := h'.ints
  have hsses' := h'.sses
  refine ⟨by omega, by omega, ?_, fun reg hreg => ?_⟩
  · refine nodup_append.mpr ⟨h.nodup, h'.nodup, fun a ha b hb hab => ?_⟩
    subst hab
    have hlow := h.between a ha
    have hhigh := h'.between a hb
    cases a <;> simp only [ParamRegister.Between] at hlow hhigh <;> omega
  · rcases mem_append.mp hreg with hreg | hreg
    · have hlow := h.between reg hreg
      cases reg <;> simp only [ParamRegister.Between] at hlow ⊢ <;> omega
    · have hhigh := h'.between reg hreg
      cases reg <;> simp only [ParamRegister.Between] at hhigh ⊢ <;> omega

variable {indices : List Nat}

theorem moveEightbytes_slices {types : TypeTable}
    {moves : List RegisterMove}
    (h : moveEightbytes types type pc indices r = some moves) :
    moves.map (·.eightbyte) = indices ∧
      ∀ m ∈ moves, sliceType types type pc m.eightbyte = some m.type := by
  induction indices generalizing r moves with
  | nil =>
    cases h
    exact ⟨rfl, fun m hm => absurd hm not_mem_nil⟩
  | cons i indices ih =>
    rcases bind_eq_some_iff.mp h with ⟨slice, hslice, hrest⟩
    rcases map_eq_some_iff.mp hrest with ⟨rest, hmoves, rfl⟩
    rcases ih hmoves with ⟨hindices, htypes⟩
    exact ⟨by rw [map_cons, hindices], forall_mem_cons.mpr ⟨hslice, htypes⟩⟩

theorem moveEightbytes_isSome {types : TypeTable}
    (h : ∀ i ∈ indices, ∃ t, sliceType types type pc i = some t)
    (r : RegisterCount) : ∃ moves, moveEightbytes types type pc indices r = some moves := by
  induction indices generalizing r with
  | nil => exact ⟨[], rfl⟩
  | cons i indices ih =>
    rcases forall_mem_cons.mp h with ⟨⟨t, ht⟩, hrest⟩
    rcases ih hrest (nextRegister pc i r).2 with ⟨moves, hmoves⟩
    refine ⟨⟨(nextRegister pc i r).1, i, t⟩ :: moves, ?_⟩
    simp only [moveEightbytes, ht, bind_some, hmoves, map_some]

/-- The counters after some eightbytes. -/
def registersAfter (pc : Eightbytes) : List Nat → RegisterCount → RegisterCount
  | [], r => r
  | i :: rest, r => registersAfter pc rest (nextRegister pc i r).2

theorem moveEightbytes_disjoint {types : TypeTable}
    {moves : List RegisterMove}
    (h : moveEightbytes types type pc indices r = some moves) :
    Disjoint r (registersAfter pc indices r) (moves.map (·.register)) := by
  induction indices generalizing r moves with
  | nil =>
    cases h
    exact ⟨le_rfl, le_rfl, nodup_nil, fun reg hreg => absurd hreg not_mem_nil⟩
  | cons i indices ih =>
    rcases bind_eq_some_iff.mp h with ⟨slice, -, hrest⟩
    rcases map_eq_some_iff.mp hrest with ⟨rest, hmoves, rfl⟩
    have hfirst : Disjoint r (nextRegister pc i r).2 [(nextRegister pc i r).1] := by
      unfold nextRegister
      split
      · refine ⟨Nat.le_succ _, le_rfl, nodup_singleton _, fun reg hreg => ?_⟩
        rw [mem_singleton.mp hreg]
        exact ⟨le_rfl, Nat.lt_succ_self _⟩
      · refine ⟨le_rfl, Nat.le_succ _, nodup_singleton _, fun reg hreg => ?_⟩
        rw [mem_singleton.mp hreg]
        exact ⟨le_rfl, Nat.lt_succ_self _⟩
    exact hfirst.append (ih hmoves)

theorem sliceType_class {types : TypeTable} {type t : CType}
    (h : sliceType types type pc i = some t) :
    i < 4 ∧ (pc.get i = .integer ∨ pc.get i = .sse) := by
  unfold sliceType at h
  split at h
  · assumption
  · cases h

theorem registersAfter_eq {types : TypeTable}
    {moves : List RegisterMove}
    (h : moveEightbytes types type pc indices r = some moves) :
    registersAfter pc indices r =
      ⟨r.ints + indices.countP fun i => pc.get i = .integer,
        r.sses + indices.countP fun i => pc.get i = .sse⟩ := by
  induction indices generalizing r moves with
  | nil => rfl
  | cons i indices ih =>
    rcases bind_eq_some_iff.mp h with ⟨slice, hslice, hrest⟩
    rcases map_eq_some_iff.mp hrest with ⟨rest, hmoves, rfl⟩
    rw [registersAfter, ih hmoves]
    rcases (sliceType_class hslice).2 with hpc | hpc
    · simp [nextRegister, hpc]
      omega
    · simp [nextRegister, hpc]
      omega

theorem moveToFromRegisters_disjoint {types : TypeTable}
    {moves : List RegisterMove}
    (h : moveToFromRegisters types type pc r = some moves) :
    Disjoint r (countRegisterClassifications pc r) (moves.map (·.register)) := by
  rcases bind_eq_some_iff.mp h with ⟨size, -, hmoves⟩
  have hdisjoint := moveEightbytes_disjoint hmoves
  rcases moveEightbytes_slices hmoves with ⟨hindices, hslices⟩
  have hn : eightbytes size ≤ 4 := by
    by_contra hlarge
    have hmem : 4 ∈ moves.map (·.eightbyte) := by
      rw [hindices]
      exact mem_range.mpr (by omega)
    rcases List.mem_map.mp hmem with ⟨m, hm, hindex⟩
    have hclass := (sliceType_class (hslices m hm)).1
    omega
  have hsub : (List.range (eightbytes size)).Sublist (List.range 4) := range_sublist.mpr hn
  have hints := hsub.countP_le (p := fun i => pc.get i = .integer)
  have hsses := hsub.countP_le (p := fun i => pc.get i = .sse)
  rw [registersAfter_eq hmoves] at hdisjoint
  refine ⟨Nat.le_add_right _ _, Nat.le_add_right _ _, hdisjoint.nodup, fun reg hreg => ?_⟩
  have hbetween := hdisjoint.between reg hreg
  cases reg with
  | int i =>
    simp only [ParamRegister.Between, countRegisterClassifications] at hbetween ⊢
    omega
  | sse i =>
    simp only [ParamRegister.Between, countRegisterClassifications] at hbetween ⊢
    omega

variable {moves : List (Nat × RegisterMove)} {arg : Nat}

theorem moveRegisterArguments_disjoint {types : TypeTable}
        (h : moveRegisterArguments types arg l r = some (moves, r')) :
    Disjoint r r' (moves.map (·.2.register)) := by
  induction l generalizing arg r moves with
  | nil =>
    cases h
    exact ⟨le_rfl, le_rfl, nodup_nil, fun reg hreg => absurd hreg not_mem_nil⟩
  | cons a l ih =>
    unfold moveRegisterArguments at h
    split at h
    · rcases bind_eq_some_iff.mp h with ⟨first, hfirst, hrest⟩
      rcases map_eq_some_iff.mp hrest with ⟨⟨rest, last⟩, hmoves, hall⟩
      cases hall
      have happend := (moveToFromRegisters_disjoint hfirst).append (ih hmoves)
      simpa [map_append, List.map_map, comp_def] using happend
    · exact ih h

theorem run_loads (hnodup : (moves.map (·.2.register)).Nodup)
    (s : CallState) :
    (run (moves.map loadMove) s).sp = s.sp ∧ (run (moves.map loadMove) s).memory = s.memory ∧
      (∀ m ∈ moves, (run (moves.map loadMove) s).register m.2.register =
        .slice m.1 m.2.eightbyte m.2.type) ∧
      ∀ reg ∉ moves.map (·.2.register),
        (run (moves.map loadMove) s).register reg = s.register reg := by
  induction moves generalizing s with
  | nil => exact ⟨rfl, rfl, fun m hm => absurd hm not_mem_nil, fun reg _ => rfl⟩
  | cons m moves ih =>
    rw [map_cons, nodup_cons] at hnodup
    rcases ih hnodup.2 (CallInstr.step s (loadMove m)) with ⟨hsp, hmemory, hloaded, hother⟩
    have hstep : (CallInstr.step s (loadMove m)).sp = s.sp ∧
        (CallInstr.step s (loadMove m)).memory = s.memory ∧
        (CallInstr.step s (loadMove m)).register m.2.register =
          .slice m.1 m.2.eightbyte m.2.type ∧
        ∀ reg, reg ≠ m.2.register →
          (CallInstr.step s (loadMove m)).register reg = s.register reg := by
      unfold loadMove
      cases m.2.register with
      | int i =>
        refine ⟨rfl, rfl, update_self _ _ _, fun reg hreg => ?_⟩
        cases reg with
        | int j => exact update_of_ne (fun h => hreg (congrArg _ h)) _ _
        | sse j => rfl
      | sse i =>
        refine ⟨rfl, rfl, update_self _ _ _, fun reg hreg => ?_⟩
        cases reg with
        | int j => rfl
        | sse j => exact update_of_ne (fun h => hreg (congrArg _ h)) _ _
    rw [map_cons, run_cons]
    refine ⟨hsp.trans hstep.1, hmemory.trans hstep.2.1, ?_, fun reg hreg => ?_⟩
    · refine forall_mem_cons.mpr ⟨?_, hloaded⟩
      rw [hother _ hnodup.1, hstep.2.2.1]
    · rw [map_cons, mem_cons, not_or] at hreg
      rw [hother _ hreg.2, hstep.2.2.2 _ hreg.1]

/-! ## Slices -/

/-- An eightbyte of an object that `slice_type` has a type for. -/
def Sliceable (type : CType) (pc : Eightbytes) (size j : Nat) : Prop :=
  j < 4 ∧ (pc.get j = .integer ∨ (pc.get j = .sse ∧
    (type.isScalar = true ∨ (j + 1) * 8 < size ∨ (size % 8 ≠ 1 ∧ size % 8 ≠ 2))))

theorem sizeOf_slices (types : TypeTable) :
    sizeOf types basicTypeUnsignedChar = some 1 ∧ sizeOf types basicTypeUnsignedShort = some 2 ∧
      sizeOf types basicTypeUnsignedInt = some 4 ∧ sizeOf types basicTypeUnsignedLong = some 8 ∧
      sizeOf types basicTypeFloat = some 4 ∧ sizeOf types basicTypeDouble = some 8 := by
  unfold sizeOf sizeOfAux
  exact ⟨rfl, rfl, rfl, rfl, rfl, rfl⟩

theorem sizeOf_sliceInteger (types : TypeTable) (width j : Nat) :
    ∃ w, sizeOf types (sliceInteger width j) = some w ∧ min 8 (width - 8 * j) ≤ w ∧
      (w = 8 ∨ w = 4 ∨ w = 1 ∨ w = 2) ∧
      ((j + 1) * 8 < width ∨ width % 8 ≠ 1 ∧ width % 8 ≠ 2 ↔ w = 8 ∨ w = 4) := by
  rcases sizeOf_slices types with ⟨hchar, hshort, hint, hlong, -⟩
  unfold sliceInteger
  split
  · exact ⟨8, hlong, by omega, by omega, by omega⟩
  · split
    · exact ⟨1, hchar, by omega, by omega, by omega⟩
    · exact ⟨2, hshort, by omega, by omega, by omega⟩
    · exact ⟨4, hint, by omega, by omega, by omega⟩
    · exact ⟨4, hint, by omega, by omega, by omega⟩
    · rename_i hone htwo _ _
      exact ⟨8, hlong, by omega, by omega, fun _ => Or.inl rfl, fun _ => Or.inr ⟨hone, htwo⟩⟩

theorem sliceType_iff {types : TypeTable} {size : Nat}
    (hsize : sizeOf types type = some size) (pc : Eightbytes) (j : Nat) :
    (Sliceable type pc size j ↔ ∃ t, sliceType types type pc j = some t) ∧
      ∀ t, sliceType types type pc j = some t →
        ∃ w, sizeOf types t = some w ∧ min 8 (size - 8 * j) ≤ w := by
  rcases sizeOf_sliceInteger types size j with ⟨w, hw, hle, hcases, hwide⟩
  rcases sizeOf_slices types with ⟨-, -, -, -, hfloat, hdouble⟩
  unfold Sliceable sliceType
  by_cases hfour : j < 4
  swap
  · simp [hfour]
  by_cases hscalar : type.isScalar = true
  · simp only [hfour, hscalar, true_and, true_or, and_true, if_true, ite_none_right_eq_some,
      some.injEq]
    refine ⟨⟨fun h => ⟨type, h, rfl⟩, fun ⟨t, h, _⟩ => h⟩, fun t ht => ?_⟩
    rw [← ht.2]
    exact ⟨size, hsize, by omega⟩
  rcases hpc : pc.get j with _ | _ | _ | _ | _ | _ | _ | _
  case integer =>
    simp only [hfour, hscalar, hsize, true_and, true_or, if_true, if_false, bind_some,
      reduceCtorEq, Bool.false_eq_true, some.injEq, exists_eq', forall_eq']
    exact ⟨w, hw, hle⟩
  case sse =>
    simp only [hfour, hscalar, hsize, hw, true_and, or_true, if_true, if_false, bind_some,
      reduceCtorEq, Bool.false_eq_true, false_or]
    rcases hcases with rfl | rfl | hsmall
    · simp only [Nat.reduceMod, OfNat.zero_ne_ofNat, if_false, if_true, some.injEq,
        exists_eq', forall_eq', iff_true]
      exact ⟨hwide.mpr (Or.inl rfl), 8, hdouble, hle⟩
    · simp only [Nat.reduceMod, if_true, some.injEq, exists_eq', forall_eq', iff_true]
      exact ⟨hwide.mpr (Or.inr rfl), 4, hfloat, hle⟩
    · rw [if_neg (by omega), if_neg (by omega)]
      refine ⟨⟨fun h => ?_, fun ⟨t, ht⟩ => nomatch ht⟩, fun t ht => nomatch ht⟩
      have := hwide.mp h
      omega
  all_goals simp

/-! ## Caller and callee -/

/-- Arguments that are passed alike. -/
structure SamePassed (a b : PassedArgument) : Prop where
  type : SameLayout a.type b.type
  pc : a.pc = b.pc
  size : a.size = b.size
  inRegisters : a.inRegisters = b.inRegisters

/-- Moves of one slice with one register. -/
structure SameMove (m m' : Nat × RegisterMove) : Prop where
  arg : m.1 = m'.1
  register : m.2.register = m'.2.register
  eightbyte : m.2.eightbyte = m'.2.eightbyte
  type : SameLayout m.2.type m'.2.type

theorem moveEightbytes_congr {types : TypeTable} (hsame : SameLayout a b)
    {moves : List RegisterMove}
    (h : moveEightbytes types a pc indices r = some moves) (arg : Nat) :
    ∃ moves', moveEightbytes types b pc indices r = some moves' ∧
      List.Forall₂ SameMove (moves.map (arg, ·)) (moves'.map (arg, ·)) := by
  induction indices generalizing r moves with
  | nil =>
    cases h
    exact ⟨[], rfl, .nil⟩
  | cons i indices ih =>
    rcases bind_eq_some_iff.mp h with ⟨slice, hslice, hrest⟩
    rcases map_eq_some_iff.mp hrest with ⟨rest, hmoves, rfl⟩
    rcases hsame.sliceType hslice with ⟨slice', hslice', htype⟩
    rcases ih hmoves with ⟨rest', hmoves', hforall⟩
    refine ⟨⟨(nextRegister pc i r).1, i, slice'⟩ :: rest', ?_, .cons ⟨rfl, rfl, rfl, htype⟩ hforall⟩
    simp only [moveEightbytes, hslice', bind_some, hmoves', map_some]

variable {l' : List PassedArgument}

theorem moveRegisterArguments_congr {types : TypeTable}
    (hsame : List.Forall₂ SamePassed l l')
    (h : moveRegisterArguments types arg l r = some (moves, r')) :
    ∃ moves', moveRegisterArguments types arg l' r = some (moves', r') ∧
      List.Forall₂ SameMove moves moves' := by
  induction hsame generalizing arg r moves with
  | nil =>
    cases h
    exact ⟨[], rfl, .nil⟩
  | cons hhead htail ih =>
    rename_i a b l l'
    unfold moveRegisterArguments at h ⊢
    rw [← hhead.inRegisters, ← hhead.pc]
    split at h
    · rename_i hregisters
      rcases bind_eq_some_iff.mp h with ⟨first, hfirst, hrest⟩
      rcases map_eq_some_iff.mp hrest with ⟨⟨rest, last⟩, hmoves, hall⟩
      cases hall
      rcases bind_eq_some_iff.mp hfirst with ⟨size, hsize, hslices⟩
      rcases moveEightbytes_congr hhead.type hslices arg with ⟨first', hslices', hforall⟩
      rcases ih hmoves with ⟨rest', hmoves', hrest'⟩
      have hfirst' : moveToFromRegisters types b.type a.pc r = some first' := by
        rw [moveToFromRegisters, ← hhead.type.sizeOf_eq types, hsize, bind_some, hslices']
      refine ⟨first'.map (arg, ·) ++ rest', ?_, rel_append hforall hrest'⟩
      rw [if_pos hregisters, hfirst', bind_some, hmoves', map_some]
    · rename_i hregisters
      rw [if_neg hregisters]
      exact ih h

theorem moveRegisterArguments_append {types : TypeTable}
        (h : moveRegisterArguments types arg (l ++ l') r = some (moves, r')) :
    ∃ first mid rest, moveRegisterArguments types arg l r = some (first, mid) ∧
      moves = first ++ rest := by
  induction l generalizing arg r moves with
  | nil => exact ⟨[], r, moves, rfl, rfl⟩
  | cons a l ih =>
    rw [cons_append] at h
    unfold moveRegisterArguments at h ⊢
    split at h
    · rename_i hregisters
      rcases bind_eq_some_iff.mp h with ⟨first, hfirst, hrest⟩
      rcases map_eq_some_iff.mp hrest with ⟨⟨rest, last⟩, hmoves, hall⟩
      cases hall
      rcases ih hmoves with ⟨second, mid, tail, hsecond, rfl⟩
      refine ⟨first.map (arg, ·) ++ second, mid, tail, ?_, (append_assoc ..).symm⟩
      rw [if_pos hregisters, hfirst, bind_some, hsecond, map_some]
    · rename_i hregisters
      rw [if_neg hregisters]
      exact ih h

theorem moveRegisterArguments_complete {types : TypeTable}
        (h : moveRegisterArguments types arg l r = some (moves, r')) {a : PassedArgument}
    (ha : l[i]? = some a) (hregisters : a.inRegisters = true)
    (hsize : sizeOf types a.type = some a.size) {j : Nat} (hj : j < eightbytes a.size) :
    ∃ m, (arg + i, m) ∈ moves ∧ m.eightbyte = j ∧ sliceType types a.type a.pc j = some m.type := by
  induction l generalizing arg r moves i with
  | nil => simp at ha
  | cons b l ih =>
    unfold moveRegisterArguments at h
    cases i with
    | zero =>
      cases ha
      rw [if_pos hregisters] at h
      rcases bind_eq_some_iff.mp h with ⟨first, hfirst, hrest⟩
      rcases map_eq_some_iff.mp hrest with ⟨⟨rest, last⟩, hmoves, hall⟩
      cases hall
      rcases bind_eq_some_iff.mp hfirst with ⟨size, hsize', hslices⟩
      cases hsize.symm.trans hsize'
      rcases moveEightbytes_slices hslices with ⟨hindices, htypes⟩
      have hmem : j ∈ first.map (·.eightbyte) := by
        rw [hindices]
        exact mem_range.mpr hj
      rcases List.mem_map.mp hmem with ⟨m, hm, rfl⟩
      exact ⟨m, mem_append_left _ (List.mem_map_of_mem hm), rfl, htypes m hm⟩
    | succ i =>
      split at h
      · rcases bind_eq_some_iff.mp h with ⟨first, hfirst, hrest⟩
        rcases map_eq_some_iff.mp hrest with ⟨⟨rest, last⟩, hmoves, hall⟩
        cases hall
        rcases ih hmoves ha with ⟨m, hm, hindex, htype⟩
        rw [show arg + 1 + i = arg + (i + 1) by omega] at hm
        exact ⟨m, mem_append_right _ hm, hindex, htype⟩
      · rcases ih h ha with ⟨m, hm, hindex, htype⟩
        rw [show arg + 1 + i = arg + (i + 1) by omega] at hm
        exact ⟨m, hm, hindex, htype⟩

/-- The slots of parameters for the arguments of a call, from an offset in memory. -/
inductive SlotsAt : Int → List PassedArgument → List ParamSlot → Prop where
  | nil (m : Int) : SlotsAt m [] []
  | cons {m : Int} {a : PassedArgument} {p : ParamSlot} {l : List PassedArgument}
      {slots : List ParamSlot} (hpc : p.pc = a.pc) (hsize : p.size = a.size)
      (hregisters : p.inRegisters = a.inRegisters)
      (hoffset : a.inRegisters = false → p.offset = int m)
      (hrest : SlotsAt (m + if a.inRegisters then 0 else 8 * eightbytes a.size) l slots) :
      SlotsAt m (a :: l) (p :: slots)

theorem SlotsAt.get {m : Int} {slots : List ParamSlot}
    (h : SlotsAt m l slots) {p : ParamSlot} (hp : slots[i]? = some p) :
    ∃ a, l[i]? = some a ∧ p.pc = a.pc ∧ p.size = a.size ∧ p.inRegisters = a.inRegisters ∧
      (a.inRegisters = false → p.offset = int (m + memoryBytes (l.take i))) := by
  induction h generalizing i with
  | nil m => simp at hp
  | cons hpc hsize hregisters hoffset hrest ih =>
    rename_i m a q l slots
    cases i with
    | zero =>
      cases hp
      exact ⟨a, rfl, hpc, hsize, hregisters, by simpa using hoffset⟩
    | succ i =>
      rcases ih hp with ⟨b, hb, hpc, hsize, hregisters, hoffset⟩
      refine ⟨b, hb, hpc, hsize, hregisters, fun hmemory => ?_⟩
      rw [hoffset hmemory, take_succ_cons, memoryBytes_cons]
      congr 1
      push_cast
      omega

theorem SlotsAt.append {m : Int} {slots slots' : List ParamSlot}
    (h : SlotsAt m l slots) (h' : SlotsAt (m + memoryBytes l) l' slots') :
    SlotsAt m (l ++ l') (slots ++ slots') := by
  induction h with
  | nil m => simpa using h'
  | cons hpc hsize hregisters hoffset _ ih =>
    refine .cons hpc hsize hregisters hoffset (ih ?_)
    rw [memoryBytes_cons] at h'
    push_cast at h' ⊢
    rwa [add_assoc]

/-- The callee walks over its parameters as the caller walks over the arguments. -/
theorem enterParams_slots {types : TypeTable} {params : List CType}
    (hsame : List.Forall₂ (fun a p => SameLayout a.type p) args params) {s : ParamState}
    {used used' base : Int} (regOffset : Nat)
    (h : classifyArguments types args s.registers used = some (l, r', used'))
    (hbase : s.memOffset = int base) :
    ∃ slots s', enterParams types regOffset params s = some (slots, s') ∧ s'.registers = r' ∧
      s'.memOffset = int (base + memoryBytes l) ∧ SlotsAt base l slots ∧
      List.Forall₂ SamePassed l (List.zipWith
        (fun type slot => ⟨type, true, slot.pc, slot.size, slot.inRegisters⟩) params slots) := by
  induction hsame generalizing s used base l with
  | nil =>
    cases h
    exact ⟨[], s, rfl, rfl, by simpa using hbase, .nil base, .nil⟩
  | cons hhead htail ih =>
    rename_i arg type args params
    unfold classifyArguments at h
    rcases bind_eq_some_iff.mp h with ⟨pc, hpc, h⟩
    rcases bind_eq_some_iff.mp h with ⟨size, hsize, h⟩
    rw [hhead.classify_eq types] at hpc
    have hsize' := hsize
    rw [hhead.sizeOf_eq types] at hsize'
    split at h
    · rename_i registers hregisters
      rcases map_eq_some_iff.mp h with ⟨⟨rest, last⟩, hrest, hall⟩
      cases hall
      set mid : ParamState := { s with
        registers := registers
        stackOffset := int (s.stackOffset - eightbytes size * 8) } with hmid
      set slot : ParamSlot :=
        ⟨pc, size, true, int (int (s.stackOffset - eightbytes size * 8) - regOffset)⟩ with hslot
      have hparam : enterParam types regOffset type s = some (slot, mid) := by
        simp only [enterParam, hpc, hsize', bind_some, hregisters, hslot, hmid]
      rcases ih (s := mid) hrest hbase with ⟨slots, last, hslots, hlast, hoffset, hat, hpassed⟩
      refine ⟨slot :: slots, last, ?_, hlast, ?_, .cons rfl rfl rfl (by rintro ⟨⟩) ?_,
        .cons ⟨hhead, rfl, rfl, rfl⟩ hpassed⟩
      · simp only [enterParams, hparam, bind_some, hslots, map_some]
      · simpa using hoffset
      · simpa using hat
    · rename_i hregisters
      rcases map_eq_some_iff.mp h with ⟨⟨rest, last⟩, hrest, hall⟩
      cases hall
      set mid : ParamState := { s with memOffset := int (s.memOffset + eightbytes size * 8) }
        with hmid
      set slot : ParamSlot := ⟨pc, size, false, s.memOffset⟩ with hslot
      have hparam : enterParam types regOffset type s = some (slot, mid) := by
        simp only [enterParam, hpc, hsize', bind_some, hregisters, hslot, hmid]
      have hnext : mid.memOffset = int (base + 8 * eightbytes size) := by
        rw [hmid, hbase, int_int_add, mul_comm]
      rcases ih (s := mid) hrest hnext with ⟨slots, last, hslots, hlast, hoffset, hat, hpassed⟩
      refine ⟨slot :: slots, last, ?_, hlast, ?_, .cons rfl rfl rfl (fun _ => hbase) ?_,
        .cons ⟨hhead, rfl, rfl, rfl⟩ hpassed⟩
      · simp only [enterParams, hparam, bind_some, hslots, map_some]
      · rw [hoffset, memoryBytes_cons]
        congr 1
        simp only [Bool.false_eq_true, if_false]
        push_cast
        omega
      · simpa using hat

theorem classifyArguments_append {types : TypeTable} {args args' : List Argument}
    {used used' : Int}
    (h : classifyArguments types (args ++ args') r used = some (l, r', used')) :
    ∃ first mid usedMid rest, classifyArguments types args r used = some (first, mid, usedMid) ∧
      classifyArguments types args' mid usedMid = some (rest, r', used') ∧ l = first ++ rest := by
  induction args generalizing r used l with
  | nil => exact ⟨[], r, used, l, rfl, h, rfl⟩
  | cons arg args ih =>
    simp only [cons_append, classifyArguments] at h ⊢
    rcases bind_eq_some_iff.mp h with ⟨pc, hpc, h⟩
    rcases bind_eq_some_iff.mp h with ⟨size, hsize, h⟩
    rw [hpc, bind_some, hsize, bind_some]
    split at h
    all_goals
      rcases map_eq_some_iff.mp h with ⟨⟨rest, last⟩, hrest, hall⟩
      cases hall
      rcases ih hrest with ⟨first, mid, usedMid, tail, hfirst, htail, rfl⟩
      refine ⟨_ :: first, mid, usedMid, tail, ?_, htail, rfl⟩
      rw [hfirst, map_some]

/-! ## Agreement -/

/-- Where the callee finds its arguments. -/
structure ArgumentsAt (types : TypeTable) (isMemory : Bool) (slots more : List ParamSlot)
    (stores : List (Nat × RegisterMove)) (call : CallState) : Prop where
  result : isMemory = true → call.ints 0 = .resultAddress
  registers : ∀ m ∈ stores, ∃ t,
    call.register m.2.register = .slice m.1 m.2.eightbyte t ∧ SameLayout t m.2.type
  complete : ∀ i p, slots[i]? = some p → p.inRegisters = true → ∀ j < eightbytes p.size,
    ∃ m, (i, m) ∈ stores ∧ m.eightbyte = j ∧
      ∃ w, sizeOf types m.type = some w ∧ min 8 (p.size - 8 * j) ≤ w
  memory : ∀ i p, (slots ++ more)[i]? = some p → p.inRegisters = false →
    ∀ j < eightbytes p.size, 16 ≤ p.offset ∧
      call.memory (call.sp - 16 + p.offset + 8 * j) = .eightbyte i j

/-- The stack pointer is aligned at the call and restored behind it, and the frame of the
caller is left alone. -/
structure StackKept (s call : CallState) (after : List CallInstr) : Prop where
  aligned : 16 ∣ call.sp
  restored : (run after call).sp = s.sp
  above : ∀ x, s.sp ≤ x → call.memory x = s.memory x

/-- Caller and callee agree on every argument of a call.  Behind the parameters the arguments of
a variadic function go on in memory. -/
def CallAgrees (types : TypeTable) (fn : FunctionDef) (args : List Argument) : Prop :=
  ∃ res before after slots last more final stores,
    classify types fn.result = some res ∧
      compileCall types fn.result fn.isVararg args = some (before, after) ∧
      enterParams types ((allocateRegisters fn.locals 0).2 * 8) fn.params
        (entryState fn.isVararg (decide (res.get 0 = .memory))) = some (slots, last) ∧
      enterParams types ((allocateRegisters fn.locals 0).2 * 8)
        ((args.drop fn.params.length).map (·.type)) last = some (more, final) ∧
      storeParams types (decide (res.get 0 = .memory)) fn.params slots = some stores ∧
      ∀ s, 16 ∣ s.sp → StackKept s (run before s) after ∧
        ArgumentsAt types (decide (res.get 0 = .memory)) slots more stores (run before s)

/-- The arguments of a call are those of the function, and more for a variadic function. -/
structure Matching (fn : FunctionDef) (args : List Argument) : Prop where
  types : List.Forall₂ (fun a p => SameLayout a.type p) (args.take fn.params.length) fn.params
  length : fn.isVararg = false → args.length = fn.params.length

/-- Arguments that can be passed from given registers and a number of bytes in memory on: their
types have classes, those in registers have a member in every eightbyte, and the memory, in
multiples of 16 bytes, has a size that is an `int`. -/
def Passable (types : TypeTable) : List CType → RegisterCount → Nat → Prop
  | [], _, bytes => bytes ≤ 2 ^ 31 - 16
  | type :: rest, r, bytes =>
    ∃ pc size, classify types type = some pc ∧ sizeOf types type = some size ∧
      match allocRegisterParams pc r with
      | some r => (∀ j < eightbytes size, Sliceable type pc size j) ∧ Passable types rest r bytes
      | none => Passable types rest r (bytes + 8 * eightbytes size)

theorem passable_iff {types : TypeTable} {bytes : Nat}
    (used : Int) :
    Passable types (args.map (·.type)) r bytes ↔
      ∃ l r' used', classifyArguments types args r used = some (l, r', used') ∧
        (∀ a ∈ l, a.inRegisters = true → ∀ j < eightbytes a.size, Sliceable a.type a.pc a.size j) ∧
        bytes + memoryBytes l ≤ 2 ^ 31 - 16 := by
  induction args generalizing r bytes used with
  | nil =>
    constructor
    · intro h
      exact ⟨[], r, used, rfl, fun a ha => absurd ha not_mem_nil, h⟩
    · rintro ⟨l, r', used', h, -, hbytes⟩
      cases h
      exact hbytes
  | cons arg args ih =>
    rw [map_cons, Passable]
    simp only [classifyArguments]
    constructor
    · rintro ⟨pc, size, hpc, hsize, h⟩
      rw [hpc, bind_some, hsize, bind_some]
      split at h
      · rename_i r₁ hr₁
        rcases (ih used).mp h.2 with ⟨l, r', used', hl, hslices, hbytes⟩
        refine ⟨⟨arg.type, arg.isDirect, pc, size, true⟩ :: l, r', used',
          by rw [hl, map_some], forall_mem_cons.mpr ⟨fun _ => h.1, hslices⟩, ?_⟩
        simpa using hbytes
      · rcases (ih _).mp h with ⟨l, r', used', hl, hslices, hbytes⟩
        refine ⟨⟨arg.type, arg.isDirect, pc, size, false⟩ :: l, r', used',
          by rw [hl, map_some], forall_mem_cons.mpr ⟨(fun h => nomatch h), hslices⟩, ?_⟩
        simp only [memoryBytes_cons, Bool.false_eq_true, if_false]
        omega
    · rintro ⟨l, r', used', h, hslices, hbytes⟩
      rcases bind_eq_some_iff.mp h with ⟨pc, hpc, h⟩
      rcases bind_eq_some_iff.mp h with ⟨size, hsize, h⟩
      refine ⟨pc, size, hpc, hsize, ?_⟩
      split at h
      all_goals
        rcases map_eq_some_iff.mp h with ⟨⟨rest, last⟩, hrest, hall⟩
        cases hall
        rcases forall_mem_cons.mp hslices with ⟨hfirst, hslices⟩
        simp only [memoryBytes_cons, Bool.false_eq_true, if_false, if_true, zero_add] at hbytes
      · exact ⟨hfirst rfl, (ih used).mpr ⟨rest, _, _, hrest, hslices, hbytes⟩⟩
      · exact (ih _).mpr ⟨rest, _, _, hrest, hslices, by omega⟩

theorem moveRegisterArguments_isSome {types : TypeTable}
    (hclassified : ∀ a ∈ l, a.Classified types)
    (hslices : ∀ a ∈ l, a.inRegisters = true →
      ∀ j < eightbytes a.size, Sliceable a.type a.pc a.size j) (arg : Nat) (r : RegisterCount) :
    ∃ moves r', moveRegisterArguments types arg l r = some (moves, r') := by
  induction l generalizing arg r with
  | nil => exact ⟨[], r, rfl⟩
  | cons a l ih =>
    rcases forall_mem_cons.mp hclassified with ⟨ha, hl⟩
    rcases forall_mem_cons.mp hslices with ⟨hfirst, hrest⟩
    unfold moveRegisterArguments
    split
    · rename_i hregisters
      have hdefined : ∀ i ∈ List.range (eightbytes a.size), ∃ t,
          sliceType types a.type a.pc i = some t := fun i hi =>
        (sliceType_iff ha.size a.pc i).1.mp (hfirst hregisters i (mem_range.mp hi))
      rcases moveEightbytes_isSome hdefined r with ⟨moves, hmoves⟩
      rcases ih hl hrest (arg + 1) (countRegisterClassifications a.pc r) with ⟨rest, r', hr'⟩
      refine ⟨moves.map (arg, ·) ++ rest, r', ?_⟩
      simp only [moveToFromRegisters, ha.size, bind_some, hmoves, hr', map_some]
    · exact ih hl hrest (arg + 1) r

theorem exists_getElem?_of_forall₂ {α β : Type} {R : α → β → Prop} {l : List α} {l' : List β}
    (h : List.Forall₂ R l l') {b : β} (hb : l'[i]? = some b) :
    ∃ a, l[i]? = some a ∧ R a b := by
  induction h generalizing i with
  | nil => simp at hb
  | cons hhead _ ih =>
    cases i with
    | zero =>
      cases hb
      exact ⟨_, rfl, hhead⟩
    | succ i => exact ih hb

/-- The bytes on the stack, in multiples of 16. -/
def paddedBytes (bytes : Nat) : Nat := if bytes % 16 = 0 then bytes else bytes + 8

/-- The code for the arguments of a call. -/
def argumentCode (isVararg isMemory : Bool) (l : List PassedArgument)
    (moves : List (Nat × RegisterMove)) (last : RegisterCount) : List CallInstr :=
  (if (memoryBytes l : Int) % 16 ≠ 0 then [.sub 8] else []) ++ pushMemory 0 l ++
    moves.map loadMove ++ (if isVararg then [.setAl last.sses] else []) ++
    if isMemory then [.resultAddress] else []

theorem compileCall_eq {types : TypeTable} {isVararg isMemory : Bool}
    {result : CType} {res : Eightbytes} (hres : classify types result = some res)
    (hisMemory : decide (res.get 0 = .memory) = isMemory)
    {r' last : RegisterCount}
    (hl : classifyArguments types args (firstRegister isMemory) 0 =
      some (l, r', int (memoryBytes l)))
    (hmoves : moveRegisterArguments types 0 l (firstRegister isMemory) = some (moves, last))
    (hfits : memoryBytes l ≤ 2 ^ 31 - 16) :
    compileCall types result isVararg args =
      some (argumentCode isVararg isMemory l moves last,
        if (paddedBytes (memoryBytes l) : Int) ≠ 0 then [.add (paddedBytes (memoryBytes l))]
        else []) := by
  have hmem : int (memoryBytes l) = memoryBytes l := int_eq (by omega) (by omega)
  have height := eight_dvd_memoryBytes l
  have hused : (if (memoryBytes l : Int) % 16 ≠ 0 then int (memoryBytes l + 8)
      else (memoryBytes l : Int)) = paddedBytes (memoryBytes l) := by
    unfold paddedBytes
    split
    · rw [int_eq (by omega) (by omega), if_neg (by omega)]
      push_cast
      rfl
    · rw [if_pos (by omega)]
  simp only [compileCall, hres, bind_some, hisMemory, pushFunctionArguments, hl, hmem,
    hmoves, map_some, hused, argumentCode]

/-- The state at the call: the arguments in memory lie at the stack pointer, and those in
registers are loaded. -/
theorem run_argumentCode {types : TypeTable} (isVararg : Bool) {isMemory : Bool}
    {last : RegisterCount}
    (hclassified : ∀ a ∈ l, a.Classified types)
    (hmoves : moveRegisterArguments types 0 l (firstRegister isMemory) = some (moves, last))
    (hfits : memoryBytes l ≤ 2 ^ 31 - 16) (s : CallState) :
    let call := run (argumentCode isVararg isMemory l moves last) s
    call.sp = s.sp - paddedBytes (memoryBytes l) ∧
      (∀ x, s.sp ≤ x → call.memory x = s.memory x) ∧
      (∀ i a, l[i]? = some a → a.inRegisters = false → ∀ j < eightbytes a.size,
        call.memory (call.sp + memoryBytes (l.take i) + 8 * j) = .eightbyte i j) ∧
      (∀ m ∈ moves, call.register m.2.register = .slice m.1 m.2.eightbyte m.2.type) ∧
      (isMemory = true → call.ints 0 = .resultAddress) := by
  have height := eight_dvd_memoryBytes l
  set padding : List CallInstr := if (memoryBytes l : Int) % 16 ≠ 0 then [.sub 8] else []
    with hpadding
  have hpad : (run padding s).sp = s.sp - (paddedBytes (memoryBytes l) - memoryBytes l : Nat) ∧
      (run padding s).memory = s.memory := by
    rw [hpadding]
    unfold paddedBytes
    split
    · rw [if_neg (by omega), Nat.add_sub_cancel_left]
      exact ⟨rfl, rfl⟩
    · rw [if_pos (by omega), Nat.sub_self]
      exact ⟨(Int.sub_zero _).symm, rfl⟩
  have hle : memoryBytes l ≤ paddedBytes (memoryBytes l) := by
    unfold paddedBytes
    split <;> omega
  rcases run_pushMemory hclassified (by omega) 0 (run padding s) with ⟨hsp, hcontent, habove⟩
  set pushed := run (pushMemory 0 l) (run padding s)
  have hdisjoint := moveRegisterArguments_disjoint hmoves
  rcases run_loads hdisjoint.nodup pushed with ⟨hloadSp, hloadMemory, hloaded, -⟩
  set loaded := run (moves.map loadMove) pushed
  set al : List CallInstr := if isVararg then [.setAl last.sses] else [] with hal
  have halKeeps : (run al loaded).sp = loaded.sp ∧ (run al loaded).memory = loaded.memory ∧
      ∀ reg, (run al loaded).register reg = loaded.register reg := by
    rw [hal]
    cases isVararg with
    | true => exact ⟨rfl, rfl, fun reg => by cases reg <;> rfl⟩
    | false => exact ⟨rfl, rfl, fun reg => rfl⟩
  set ready := run al loaded
  have hcall : run (argumentCode isVararg isMemory l moves last) s =
      run (if isMemory then [.resultAddress] else []) ready := by
    simp only [argumentCode, run_append]
    rfl
  have hresult : (run (if isMemory then [.resultAddress] else []) ready).sp = ready.sp ∧
      (run (if isMemory then [.resultAddress] else []) ready).memory = ready.memory ∧
      (isMemory = true → (run (if isMemory then [.resultAddress] else []) ready).ints 0 =
        .resultAddress) ∧
      ∀ m ∈ moves, (run (if isMemory then [.resultAddress] else []) ready).register m.2.register =
        ready.register m.2.register := by
    cases isMemory with
    | true =>
      simp only [if_true, run_cons, run_nil, CallInstr.step]
      refine ⟨trivial, trivial, fun _ => update_self _ _ _, fun m hm => ?_⟩
      have hbetween := hdisjoint.between m.2.register (List.mem_map_of_mem hm)
      cases hregister : m.2.register with
      | int i =>
        rw [hregister] at hbetween
        have hpos : 1 ≤ i := hbetween.1
        exact update_of_ne (by omega) _ _
      | sse i => rfl
    | false => exact ⟨rfl, rfl, (fun h => nomatch h), fun m _ => rfl⟩
  intro call
  have hmemory : call.memory = pushed.memory := by
    rw [show call = _ from hcall, hresult.2.1, halKeeps.2.1, hloadMemory]
  have hcallSp : call.sp = pushed.sp := by
    rw [show call = _ from hcall, hresult.1, halKeeps.1, hloadSp]
  refine ⟨?_, fun x hx => ?_, fun i a ha hregisters j hj => ?_, fun m hm => ?_, ?_⟩
  · rw [hcallSp, hsp, hpad.1]
    omega
  · rw [hmemory, habove x (by rw [hpad.1]; omega), hpad.2]
  · rw [hmemory, hcallSp, hcontent i a ha hregisters j hj, zero_add]
  · rw [show call = _ from hcall, hresult.2.2.2 m hm, halKeeps.2.2, hloaded m hm]
  · rw [show call = _ from hcall]
    exact hresult.2.2.1

theorem sixteen_dvd_paddedBytes (l : List PassedArgument) : 16 ∣ paddedBytes (memoryBytes l) := by
  have height := eight_dvd_memoryBytes l
  unfold paddedBytes
  split <;> omega

theorem memoryBytes_take_add_le {a : PassedArgument}
    (ha : l[i]? = some a) (hmemory : a.inRegisters = false) :
    memoryBytes (l.take i) + 8 * eightbytes a.size ≤ memoryBytes l := by
  induction l generalizing i with
  | nil => simp at ha
  | cons b l ih =>
    cases i with
    | zero =>
      cases ha
      rw [memoryBytes_cons, hmemory]
      simp
    | succ i =>
      have hrest := ih ha
      rw [take_succ_cons, memoryBytes_cons, memoryBytes_cons]
      omega

variable {fn : FunctionDef}

theorem enterParams_of_matching {types : TypeTable}
    (hmatch : Matching fn args) {isMemory : Bool}
    {used : Int}
    (hl : classifyArguments types args (firstRegister isMemory) 0 = some (l, r', used)) :
    ∃ slots mid more final first,
      enterParams types ((allocateRegisters fn.locals 0).2 * 8) fn.params
        (entryState fn.isVararg isMemory) = some (slots, mid) ∧
      enterParams types ((allocateRegisters fn.locals 0).2 * 8)
        ((args.drop fn.params.length).map (·.type)) mid = some (more, final) ∧
      SlotsAt 16 l (slots ++ more) ∧ first <+: l ∧ SlotsAt 16 first slots ∧
      List.Forall₂ SamePassed first (List.zipWith
        (fun type slot => ⟨type, true, slot.pc, slot.size, slot.inRegisters⟩) fn.params slots) := by
  have hsplit := hl
  rw [← take_append_drop fn.params.length args] at hsplit
  rcases classifyArguments_append hsplit with ⟨first, mid, usedMid, rest, hfirst, hrest, rfl⟩
  have h16 : (entryState fn.isVararg isMemory).memOffset = int 16 :=
    (int_eq (n := 16) (by decide) (by decide)).symm
  rcases enterParams_slots (s := entryState fn.isVararg isMemory) hmatch.types
    ((allocateRegisters fn.locals 0).2 * 8) hfirst h16 with
    ⟨slots, s', hslots, hregisters, hoffset, hat, hpassed⟩
  have hsame : List.Forall₂ (fun (a : Argument) p => SameLayout a.type p)
      (args.drop fn.params.length) ((args.drop fn.params.length).map (·.type)) := by
    rw [forall₂_map_right_iff]
    exact forall₂_same.mpr fun a _ => .refl a.type
  rw [← hregisters] at hrest
  rcases enterParams_slots (s := s') hsame ((allocateRegisters fn.locals 0).2 * 8) hrest hoffset with
    ⟨more, final, hmore, -, -, hat', -⟩
  exact ⟨slots, s', more, final, first, hslots, hmore, hat.append hat', prefix_append _ _, hat,
    hpassed⟩

/-- Caller and callee agree on arguments that can be passed. -/
theorem callAgrees_of_passable {types : TypeTable}
    (hmatch : Matching fn args) {res : Eightbytes} (hres : classify types fn.result = some res)
    (hpassable : Passable types (args.map (·.type))
      (firstRegister (decide (res.get 0 = .memory))) 0) : CallAgrees types fn args := by
  set isMemory := decide (res.get 0 = .memory) with hisMemory
  rcases (passable_iff 0).mp hpassable with ⟨l, r', used, hl, hslices, hbytes⟩
  have hzero : int 0 = 0 := int_eq (by decide) (by decide)
  rcases classifyArguments_spec (m := 0) (by rw [hzero]; exact hl) with ⟨hclassified, -, hused⟩
  rw [zero_add] at hused hbytes
  rw [hused] at hl
  rcases moveRegisterArguments_isSome hclassified hslices 0 (firstRegister isMemory) with
    ⟨moves, last, hmoves⟩
  rcases enterParams_of_matching hmatch hl with
    ⟨slots, mid, more, final, first, hslots, hmore, hat, ⟨rest, rfl⟩, hatFirst, hpassed⟩
  rcases moveRegisterArguments_append hmoves with ⟨firstMoves, lastFirst, restMoves, hfirst, rfl⟩
  rcases moveRegisterArguments_congr hpassed hfirst with ⟨stores, hstores, hsameMoves⟩
  refine ⟨res, _, _, slots, mid, more, final, stores, hres,
    compileCall_eq hres hisMemory.symm hl hmoves hbytes, hslots, hmore, ?_, fun s hs => ?_⟩
  · rw [← hisMemory, storeParams, hstores, map_some]
  rcases run_argumentCode fn.isVararg hclassified hmoves hbytes s with
    ⟨hsp, habove, hmemory, hloaded, hresult⟩
  set call := run (argumentCode fn.isVararg isMemory (first ++ rest) (firstMoves ++ restMoves) last) s
  have hpadded := sixteen_dvd_paddedBytes (first ++ rest)
  refine ⟨⟨?_, ?_, habove⟩, ⟨hresult, fun m hm => ?_, fun i p hp hregisters j hj => ?_,
    fun i p hp hregisters j hj => ?_⟩⟩
  · rw [hsp]
    omega
  · split
    · simp only [run_cons, run_nil, CallInstr.step]
      rw [hsp]
      omega
    · rename_i hnone
      rw [run_nil, hsp]
      omega
  · rcases mem_iff_getElem?.mp hm with ⟨k, hk⟩
    rcases exists_getElem?_of_forall₂ hsameMoves hk with ⟨m', hm', hsame⟩
    refine ⟨m'.2.type, ?_, hsame.type⟩
    rw [← hsame.register, ← hsame.arg, ← hsame.eightbyte]
    exact hloaded m' (mem_append_left _ (mem_of_getElem? hm'))
  · rcases hatFirst.get hp with ⟨a, ha, -, hsize, hinRegisters, -⟩
    rcases exists_getElem?_of_forall₂ (Forall₂.flip (R := flip SamePassed) hpassed) ha with
      ⟨b, hb, hsame⟩
    have hclass := hclassified a (mem_append_left _ (mem_of_getElem? ha))
    have hsizeOf : sizeOf types b.type = some b.size := by
      rw [← hsame.type.sizeOf_eq types, ← hsame.size, hclass.size]
    have hbsize : b.size = p.size := by rw [← hsame.size, hsize]
    rcases moveRegisterArguments_complete hstores hb
      (by rw [← hsame.inRegisters, ← hinRegisters, hregisters]) hsizeOf (by rwa [hbsize]) with
      ⟨m, hm, hindex, hslice⟩
    rw [zero_add] at hm
    rw [← hbsize]
    exact ⟨m, hm, hindex, (sliceType_iff hsizeOf b.pc j).2 m.type hslice⟩
  · rcases hat.get hp with ⟨a, ha, hpc, hsize, hinRegisters, hoffset⟩
    rw [hinRegisters] at hregisters
    rw [hsize] at hj
    have hle := memoryBytes_take_add_le ha hregisters
    have hfit : p.offset = 16 + memoryBytes ((first ++ rest).take i) := by
      rw [hoffset hregisters, int_eq (by omega) (by omega)]
    refine ⟨by omega, ?_⟩
    rw [← hmemory i a ha hregisters j hj, hfit]
    congr 1
    omega

theorem int_emod_sixteen (n : Int) : int n % 16 = n % 16 := by
  have h : int n % 2 ^ 32 = n % 2 ^ 32 := wrap_emod_width n
  omega

theorem int_lt (n : Int) : int n < 2 ^ 31 :=
  ((inRange_signed_iff rfl _).mp (inRange_wrap n)).2

theorem memoryBytes_le_of_slots (base : Int) {used : Int}
    {slots : List ParamSlot} (hat : SlotsAt (16 + base) l slots) (hused : 16 ∣ used)
    (hfits : used ≤ 2 ^ 31 - 16) (hdvd : 8 ∣ base) (hbase : 0 ≤ base) (hle : base ≤ 2 ^ 31 - 16)
    (hbelow : ∀ p ∈ slots, p.inRegisters = false → ∀ j < eightbytes p.size,
      16 ≤ p.offset ∧ p.offset + 8 * j - 16 < used) :
    memoryBytes l = 0 ∨ base + memoryBytes l ≤ used := by
  generalize hstart : 16 + base = start at hat
  induction hat generalizing base with
  | nil m => exact Or.inl rfl
  | cons hpc hsize hregisters hoffset hrest ih =>
    rename_i m a p l slots
    rcases forall_mem_cons.mp hbelow with ⟨hfirst, hbelow⟩
    rw [memoryBytes_cons]
    cases hin : a.inRegisters with
    | true =>
      rw [hin, if_pos rfl] at ih
      simpa using ih base hdvd hbase hle hbelow (by omega)
    | false =>
      simp only [hin, Bool.false_eq_true, if_false] at ih ⊢
      rcases Nat.eq_zero_or_pos (eightbytes a.size) with hzero | hpos
      · rw [hzero] at ih ⊢
        simpa using ih base hdvd hbase hle hbelow (by push_cast; omega)
      · rw [hregisters, hsize] at hfirst
        -- The last eightbyte lies below the frame of the caller.
        have hlast := hfirst hin (eightbytes a.size - 1) (by omega)
        have hplace : p.offset = 16 + base := by
          rw [hoffset hin, ← hstart]
          by_cases hroom : base < 2 ^ 31 - 16
          · exact int_eq (by omega) (by omega)
          · have hwrap : int m = -2 ^ 31 := by
              rw [← hstart, show (16 + base : Int) = 2 ^ 31 by omega]
              decide
            rw [hoffset hin, hwrap] at hlast
            omega
        have hnext := ih (base + 8 * eightbytes a.size) (by omega) (by omega) (by omega)
          hbelow (by push_cast; omega)
        right
        push_cast
        omega

/-- Arguments on which caller and callee agree can be passed. -/
theorem passable_of_callAgrees {types : TypeTable}
    (hmatch : Matching fn args) (h : CallAgrees types fn args) :
    ∃ res, classify types fn.result = some res ∧ Passable types (args.map (·.type))
      (firstRegister (decide (res.get 0 = .memory))) 0 := by
  rcases h with ⟨res, before, after, slots, mid, more, final, stores, hres, hcode, hslots, hmore,
    hstores, hagree⟩
  refine ⟨res, hres, (passable_iff 0).mpr ?_⟩
  rw [compileCall, hres, bind_some] at hcode
  set isMemory := decide (res.get 0 = .memory) with hisMemory
  rcases map_eq_some_iff.mp hcode with ⟨⟨code, used⟩, hpush, hall⟩
  cases hall
  rcases bind_eq_some_iff.mp hpush with ⟨⟨l, r', total⟩, hl, hpushed⟩
  rcases map_eq_some_iff.mp hpushed with ⟨⟨moves, last⟩, hmoves, hall⟩
  cases hall
  have hzero : int 0 = 0 := int_eq (by decide) (by decide)
  rcases classifyArguments_spec (m := 0) (by rw [hzero]; exact hl) with ⟨hclassified, -, htotal⟩
  rcases enterParams_of_matching hmatch hl with
    ⟨slots', mid', more', final', first, hslots', hmore', hat, -, -, -⟩
  cases hslots.symm.trans hslots'
  cases hmore.symm.trans hmore'
  refine ⟨l, r', total, hl, fun a ha hregisters j hj => ?_, ?_⟩
  · rcases mem_iff_getElem?.mp ha with ⟨i, hi⟩
    have hsize := (hclassified a ha).size
    rcases moveRegisterArguments_complete hmoves hi hregisters hsize hj with ⟨m, -, -, hslice⟩
    exact (sliceType_iff hsize a.pc j).1.mpr ⟨m.type, hslice⟩
  · rw [zero_add] at htotal ⊢
    have height := eight_dvd_memoryBytes l
    have hmod := int_emod_sixteen (memoryBytes l)
    have hmod' := int_emod_sixteen (total + 8)
    have hlt := int_lt (memoryBytes l)
    have hlt' := int_lt (total + 8)
    rw [← htotal] at hmod hlt
    dsimp only at hagree
    obtain ⟨used, hused⟩ : ∃ used, used = if total % 16 ≠ 0 then int (total + 8) else total :=
      ⟨_, rfl⟩
    rw [← hused] at hagree
    have hdvd : 16 ∣ used ∧ used < 2 ^ 31 := by
      rw [hused]
      split <;> omega
    have hstate := hagree ⟨0, fun _ => .unknown, fun _ => .unknown, fun _ => .unknown, 0⟩
      (by simp)
    rcases hstate with ⟨hkept, hat'⟩
    set call := run _ (⟨0, fun _ => .unknown, fun _ => .unknown, fun _ => .unknown, 0⟩ : CallState)
    have hsp : call.sp + used = 0 := by
      have hrestored := hkept.restored
      by_cases hnone : used = 0
      · rw [if_neg (not_not.mpr hnone)] at hrestored
        rw [hnone, add_zero]
        exact hrestored
      · rw [if_pos hnone] at hrestored
        exact hrestored
    have hbelow : ∀ p ∈ slots ++ more, p.inRegisters = false → ∀ j < eightbytes p.size,
        16 ≤ p.offset ∧ p.offset + 8 * j - 16 < used := by
      intro p hp hregisters j hj
      rcases mem_iff_getElem?.mp hp with ⟨i, hi⟩
      rcases hat'.memory i p hi hregisters j hj with ⟨hoffset, hcontent⟩
      refine ⟨hoffset, ?_⟩
      by_contra habove
      rw [hkept.above _ (by dsimp only; omega)] at hcontent
      cases hcontent
    rcases memoryBytes_le_of_slots 0 hat hdvd.1 (by omega) (by simp) le_rfl (by omega)
      hbelow with hnone | hle
    · omega
    · omega

/-- Caller and callee agree on exactly the arguments that can be passed. -/
theorem callAgrees_iff {types : TypeTable} {fn : FunctionDef} {args : List Argument}
    (hmatch : Matching fn args) :
    CallAgrees types fn args ↔
      ∃ res, classify types fn.result = some res ∧ Passable types (args.map (·.type))
        (firstRegister (decide (res.get 0 = .memory))) 0 :=
  ⟨passable_of_callAgrees hmatch, fun ⟨_, hres, h⟩ => callAgrees_of_passable hmatch hres h⟩

/-- A function of an integer and of a struct of a `double` and an `int`. -/
def mixedFunction : FunctionDef :=
  { result := basicTypeInt, isVararg := false
    params := [basicTypeInt, { type := .struct, ref := 1 }], locals := [] }

/-- The arguments of a call of the function. -/
def mixedArguments : List Argument :=
  [{ type := { basicTypeInt with isConst := true } }, { type := { type := .struct, ref := 1 } }]

/-- Caller and callee agree on the integer and the struct. -/
theorem callAgrees_iff_mixed : CallAgrees [doubleAndInt] mixedFunction mixedArguments := by
  have hmatch : Matching mixedFunction mixedArguments :=
    ⟨.cons ⟨rfl, fun h => nomatch h⟩ (.cons ⟨rfl, fun _ => rfl⟩ .nil), fun _ => rfl⟩
  have hint : ∃ pc, classify [doubleAndInt] { basicTypeInt with isConst := true } = some pc ∧
      pc.get 0 = .integer ∧ allocRegisterParams pc ⟨0, 0⟩ = some ⟨1, 0⟩ := ⟨_, rfl, rfl, rfl⟩
  have hstruct : ∃ pc, classify [doubleAndInt] { type := .struct, ref := 1 } = some pc ∧
      pc.get 0 = .sse ∧ pc.get 1 = .integer ∧
      allocRegisterParams pc ⟨1, 0⟩ = some ⟨2, 1⟩ := ⟨_, rfl, rfl, rfl, rfl⟩
  rcases hint with ⟨pc, hpc, hinteger, hregisters⟩
  rcases hstruct with ⟨pc', hpc', hsse, hinteger', hregisters'⟩
  refine (callAgrees_iff hmatch).mpr ⟨Function.update noClasses 0 .integer, rfl, ?_⟩
  refine ⟨pc, 4, hpc, rfl, ?_⟩
  rw [show firstRegister _ = ⟨0, 0⟩ from rfl, hregisters]
  refine ⟨fun j hj => ?_, pc', 16, hpc', rfl, ?_⟩
  · have hzero : j = 0 := by
      unfold eightbytes at hj
      omega
    subst hzero
    exact ⟨by decide, Or.inl hinteger⟩
  · rw [hregisters']
    refine ⟨fun j hj => ?_, Nat.zero_le _⟩
    rcases (by unfold eightbytes at hj; omega : j = 0 ∨ j = 1) with rfl | rfl
    · exact ⟨by decide, Or.inr ⟨hsse, Or.inr (Or.inl (by decide))⟩⟩
    · exact ⟨by decide, Or.inl hinteger'⟩

/-- A struct of a `char` with an unnamed bit-field of 64 bits behind it. -/
def paddedStruct : Typetree :=
  { type := .struct, size := 16, members := [{ name := "c", type := basicTypeChar }] }

/-- A function of one struct. -/
def structFunction : FunctionDef :=
  { result := basicTypeVoid, isVararg := false, params := [{ type := .struct, ref := 1 }]
    locals := [] }

/-- A struct of one `_Bool` has no classes, and the second eightbyte of the padded struct has no
register. -/
theorem not_callAgrees :
    Matching structFunction [{ type := { type := .struct, ref := 1 } }] ∧
      ¬ CallAgrees [boolStruct] structFunction [{ type := { type := .struct, ref := 1 } }] ∧
      ¬ CallAgrees [paddedStruct] structFunction [{ type := { type := .struct, ref := 1 } }] := by
  refine ⟨⟨.cons ⟨rfl, fun _ => rfl⟩ .nil, fun _ => rfl⟩, ?_, ?_⟩
  · rintro ⟨res, before, after, _, _, _, _, _, hres, hcode, -⟩
    have hnone : compileCall [boolStruct] basicTypeVoid false
        [{ type := { type := .struct, ref := 1 } }] = none := by rfl
    rw [structFunction, hnone] at hcode
    cases hcode
  · rintro ⟨res, before, after, _, _, _, _, _, hres, hcode, -⟩
    have hnone : compileCall [paddedStruct] basicTypeVoid false
        [{ type := { type := .struct, ref := 1 } }] = none := by rfl
    rw [structFunction, hnone] at hcode
    cases hcode

end Kcs.Jit
