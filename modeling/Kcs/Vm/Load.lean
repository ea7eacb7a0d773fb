import Kcs.Vm.FieldUnit
import Kcs.Vm.Resolve

/-!
# Values of loaded operands

What the intermediate representation means by an operand, and for which operands
the code of `vm_load_var` leaves that value on the stack.  Here the value of an
operand is that of `struct var`: an address is the place of its symbol, and the
position of a function is that of its label in the finished program.

Main results:

- Theorem {lit}`vmLoadVar_eq`: the code of a load.
- Theorem {lit}`Loadable.loadsValue`: these operands are loaded right at every place.
-/

namespace Kcs.Vm

open Option List BitVec IntFormat

/-! ## Values -/

/-- Position of a function in the finished program, `reassign_label_index`. -/
def functionIndex (final : List VmLabel) (name : String) : Option Int :=
  ((getVmLabel final name).bind fun p => final[p]?).bind fun label =>
    if 0 ≤ label.index then some label.index else none

section Values

variable (env : GenEnv) (L : Layout) (final : List VmLabel)

/-- Address of a variable, with an offset. -/
def objectAddr (s : State) (sym : Symbol) (offset : Int) : Nat :=
  ((L.stack + (if isGlobalVar env sym then s.gp else s.bp) : Nat) + baseOf env sym + offset).toNat

/-- Address of a string, with an offset. -/
def stringAddr (k : LoadContext) (offset : Int) : Int := (L.global + k.pos : Nat) + offset

/-- The address in the pointer of a dereferenced operand; without a symbol it is a constant. -/
def pointerInt (k : LoadContext) (s : State) (v : Var) : Option Int :=
  match v.symbol with
  | none => some v.imm.u
  | some sym =>
    if sym.symtype = .stringValue then some (stringAddr L k 0)
    else if sym.type.isPointerType then some (s.mem.load (objectAddr env L s sym 0) 8)
    else none

/-- The storage of an operand.  The first pages hold no storage. -/
def storageAddr (k : LoadContext) (s : State) (v : Var) : Option Nat :=
  match v.kind with
  | .direct => v.symbol.map fun sym => objectAddr env L s sym v.offset.toInt
  | .deref =>
    (pointerInt env L k s v).bind fun p =>
      if toSlot (p + v.offset.toInt) < nullPage then none else some (toSlot (p + v.offset.toInt))
  | _ => none

/-- Value of an operand of integer or pointer type. -/
def varValue (k : LoadContext) (s : State) (v : Var) : Option Int :=
  (wordOf v.type).bind fun c =>
    match v.kind with
    | .immediate =>
      if v.symbol.any (·.symtype = .stringValue) then some (stringAddr L k v.offset.toInt)
      else some v.imm.u
    | .address =>
      v.symbol.bind fun sym =>
        if sym.type.isFunction then
          (functionIndex final (env.symName sym)).map fun i => i + v.offset.toInt
        else some ((objectAddr env L s sym v.offset.toInt : Nat) : Int)
    | _ =>
      (storageAddr env L k s v).map fun a =>
        if v.isField then fieldInt v (s.mem.load a (byteSize c)) else s.mem.load a (byteSize c)

/-- The bytes that hold the value of an operand. -/
def valueReads (k : LoadContext) (s : State) (v : Var) : List (Nat × Nat) :=
  (if v.kind = .deref then
    (v.symbol.map fun sym => (objectAddr env L s sym 0, 8)).toList
  else []) ++
    ((storageAddr env L k s v).map fun a =>
      let size := ((wordOf v.type).map byteSize).getD 0
      (a, if v.isField && v.kind = .direct then max 4 size else size)).toList

end Values

/-! ## Loads -/

/-- Instructions as they stand in the finished program. -/
def Links (final : List VmLabel) (code linked : List VmCode) : Prop :=
  List.Forall₂ (fun c d => ∀ i, reassignCode final [] i c = some d) code linked

/-- A place in the code of a function or of the global data, and a run of the machine through its
last instruction, if there is one.  The code of global data stores no temporaries. -/
structure LoadPlace (env : GenEnv) (L : Layout) (v : Var) (g : GenState) (base : List VmCode)
    (c : Option VmCode) (s t : State) : Prop where
  code : g.code = base ++ c.toList
  first : c = none → base = []
  step : execCode L c.toList s = some t
  pop : ∀ d, c = some d → PopOk d
  sp : 8 ≤ s.sp
  room : t.free L + 40 ≤ L.limit
  temporary : g.isGlobalMode = true → reloads env g v = true → isTemporaryVar v = false

/-- An operand is loaded: behind the last instruction, or in its place, there is code that leaves
one slot more on the stack, the low bytes of which are the value of the operand.  A string is put
where its address says. -/
def LoadsValue (env : GenEnv) (L : Layout) (final : List VmLabel) (v : Var) (g : GenState)
    (base : List VmCode) (s t : State) (n : Int) : Prop :=
  ∃ g' start code linked below u x c, vmLoadVar env v g = some g' ∧
    (start = t ∧ g'.code = g.code ++ code ∨ start = s ∧ g'.code = base ++ code) ∧
    g'.globalImage = g.globalImage ++ loadedString env v ∧
    Links final code linked ∧ execCode L linked start = some u ∧ Pushed L below u x ∧
    below.sp = t.sp ∧ below.bp = t.bp ∧ below.gp = t.gp ∧
    wordOf v.type = some c ∧ (x : Int) % 2 ^ c.format.width = n % 2 ^ c.format.width

section Conditions

variable (env : GenEnv)

/-- What the intermediate representation promises about an operand of integer or pointer type. -/
structure IrOperand (final : List VmLabel) (v : Var) : Prop where
  word : ∃ c, wordOf v.type = some c
  address : v.kind = .address → ∀ c, wordOf v.type = some c → byteSize c = 8
  base : ∀ sym, v.symbol = some sym → toInt32 (baseOf env sym) = baseOf env sym
  field : ∀ c, wordOf v.type = some c → v.isField = true →
    v.fieldOffset + v.fieldWidth ≤ 8 * byteSize c
  constant : v.kind = .immediate → v.type.isPointerType = true →
    ∀ sym, v.symbol = some sym → sym.symtype = .stringValue
  value : ∃ L k s n, varValue env L final k s v = some n

/-- The place of a variable in its frame is an `int`. -/
def FrameFits (v : Var) (sym : Symbol) : Prop :=
  toInt32 (baseOf env sym + v.offset.toNat) = baseOf env sym + v.offset.toInt

/-- An offset is an `int`. -/
def OffsetFits (v : Var) : Prop := toInt32 v.offset.toNat = v.offset.toInt

/-- A symbol that `emit_vm_load_address` takes for a function. -/
def isNamed (labels : List VmLabel) (sym : Symbol) : Bool :=
  env.depth sym.id = 0 && (getVmLabel labels sym.name).isSome

/-- The operands that are loaded right.

A pointer constant is loaded as a character, a string only at pointer type, and offsets as `int`.
The address of a function is known when it has been emitted or declared with external linkage; a
variable must not have the name of a label.  A dereferenced operand has a symbol.  A field of a
variable is taken from four bytes without extending its sign, and one behind a pointer is not taken
out of its unit. -/
def Loadable (labels final : List VmLabel) (v : Var) : Prop :=
  match v.kind with
  | .immediate =>
    if v.symbol.any (·.symtype = .stringValue) then v.type.isPointerType = true ∧ OffsetFits v
    else v.type.isPointerType = true →
      (if v.type.isUnsignedType then CInteger.uchar else .char).format.InRange v.imm.i
  | .direct => ∀ sym, v.symbol = some sym → FrameFits env v sym ∧
      (v.isField = true → v.fieldOffset + v.fieldWidth ≤ 32 ∧ v.fieldWidth < 32 ∧
        (v.type.isSigned = true → ∀ c, wordOf v.type = some c → v.fieldWidth = 8 * byteSize c))
  | .address => ∀ sym, v.symbol = some sym →
      if sym.type.isFunction then
        v.offset = 0 ∧ (isNamed env labels sym = true ∨ isGlobalVar env sym = true)
      else FrameFits env v sym ∧ isNamed env labels sym = false ∧
        (isGlobalVar env sym = true → getVmLabel final (env.symName sym) = none)
  | .deref => v.symbol.isSome = true ∧ OffsetFits v ∧
      (v.isField = true → ∀ c, wordOf v.type = some c → v.fieldWidth = 8 * byteSize c)

end Conditions

variable {env : GenEnv} {L : Layout} {labels final : List VmLabel} {k : LoadContext}
  {g g' : GenState} {base code : List VmCode} {c : Option VmCode} {s t u : State} {v : Var}
  {sym : Symbol} {i : CInteger} {n : Int}

/-! ## The code of a load -/

/-- The code that pushes a string. -/
def stringCode (k : LoadContext) : VmCode := { opcode := .push, type := .charp, d := .str k.pos }

/-- The code that adds an offset. -/
def offsetCode (offset : BitVec 64) : List VmCode :=
  if offset = 0 then []
  else
    [{ opcode := .push, type := .int32, d := .imm (vmImm 32 offset.toNat) },
      { opcode := .add, type := .uint64 }]

section Code

variable (env : GenEnv)

/-- The code that pushes a variable. -/
def pushCode (v : Var) (sym : Symbol) (size : Int) : VmCode :=
  { opcode := .push, type := getVmopVarType v, d := .addr (vmAddress env v sym size) }

/-- The code that takes a field out of four bytes. -/
def fieldCode (v : Var) (mask : Nat) : List VmCode :=
  (if 0 < v.fieldOffset then
    [{ opcode := .push, type := .int32, d := .imm (vmImm 32 v.fieldOffset) },
      { opcode := .shr, type := .int32 }]
  else []) ++
    [{ opcode := .push, type := .uint32, d := .imm (vmImm 32 mask) },
      { opcode := .and, type := .uint32 }]

/-- The code that pushes the pointer of a dereferenced operand. -/
def pointerCode (k : LoadContext) (sym : Symbol) : Option VmCode :=
  if (varDirect sym).isString then some (stringCode k)
  else (intSizeOf env sym.type).map fun size => pushCode env (varDirect sym) sym size

/-- The code that pushes an address. -/
def addressCode (k : LoadContext) (v : Var) (sym : Symbol) (size : Int) : VmCode :=
  if isNamed env k.labels sym then
    { opcode := .push
      type := .funcname
      d := .addr { name := env.symName sym, index := -1, size := size } }
  else { opcode := .push, type := .addr, d := .addr (vmAddress env v sym size) }

/-- The code of `vm_load_var` for an operand of integer or pointer type, when it takes nothing
back. -/
def loadCode (k : LoadContext) (v : Var) (i : CInteger) : Option (List VmCode) :=
  match v.kind with
  | .immediate =>
    if v.type.isPointerType then
      match v.symbol with
      | some sym =>
        if sym.symtype = .stringValue then some (stringCode k :: offsetCode v.offset) else none
      | none => some [{ opcode := .push
                        type := if v.type.isUnsignedType then .uint8 else .int8
                        d := .imm (vmImm 8 v.imm.u) }]
    else some [{ opcode := .push
                 type := getVmOptype v.type
                 d := .imm (vmImm i.format.width v.imm.u) }]
  | .direct =>
    v.symbol.bind fun sym =>
      if v.isField then
        (lowMask v.fieldWidth).map fun mask => pushCode env v sym 4 :: fieldCode v mask
      else some [pushCode env v sym (byteSize i)]
  | .address => v.symbol.map fun sym => [addressCode env k v sym (byteSize i)]
  | .deref =>
    v.symbol.bind fun sym =>
      (pointerCode env k sym).map fun c =>
        c :: offsetCode v.offset ++
          [{ opcode := .deref
             type := storeOptype v
             d := .addr (vmAddress env v sym (byteSize i)) }]

end Code

@[simp]
theorem emitVmCode_code (c : VmCode) (g : GenState) : (emitVmCode c g).code = g.code ++ [c] := by
  cases hmode : g.isGlobalMode <;> simp [emitVmCode, GenState.setCode, GenState.code, hmode]

@[simp]
theorem emitVmCode_globalImage (c : VmCode) (g : GenState) :
    (emitVmCode c g).globalImage = g.globalImage := by
  cases hmode : g.isGlobalMode <;> simp [emitVmCode, GenState.setCode, hmode]

@[simp]
theorem emitVmAddOffset_code (offset : BitVec 64) (g : GenState) :
    (emitVmAddOffset offset g).code = g.code ++ offsetCode offset ∧
      (emitVmAddOffset offset g).globalImage = g.globalImage := by
  unfold emitVmAddOffset offsetCode
  split <;> simp [emitVmOp, emitVmPushImm]

@[simp]
theorem emitVmPushString_code (string : List (BitVec 8)) (g : GenState) :
    (emitVmPushString string g).code = g.code ++ [stringCode g.context] ∧
      (emitVmPushString string g).globalImage = g.globalImage ++ (string ++ [0]) := by
  refine ⟨(emitVmCode_code _ _).trans rfl, (emitVmCode_globalImage _ _).trans ?_⟩
  simp

theorem emitVmField_code (v : Var) (mask : Nat) (g : GenState) :
    (emitVmMask mask (emitVmFieldShift .shr v g)).code = g.code ++ fieldCode v mask ∧
      (emitVmMask mask (emitVmFieldShift .shr v g)).globalImage = g.globalImage := by
  unfold emitVmMask emitVmFieldShift fieldCode
  split <;> simp [emitVmOp, emitVmPushImm]

theorem emitVmLoad_code (hsym : v.symbol = some sym) {size : Int}
    (hsize : intSizeOf env v.type = some size)
    (hkeep : takenBack env v sym size g = none) :
    (emitVmLoad env v g).map (fun g' => (g'.code, g'.globalImage)) =
      (if v.isField then
        (lowMask v.fieldWidth).map fun mask => pushCode env v sym 4 :: fieldCode v mask
      else some [pushCode env v sym size]).map fun code => (g.code ++ code, g.globalImage) := by
  have hnone : (g.last.filter fun c => !g.protectRemoveTempvar && !v.isField &&
      isReloaded env c v sym (if v.isField then 4 else size)) = none := by
    unfold takenBack at hkeep
    cases hfield : v.isField with
    | true => cases g.last <;> simp
    | false => simpa [hfield] using hkeep
  cases hfield : v.isField with
  | true =>
    simp only [hfield, if_true] at hnone ⊢
    simp only [emitVmLoad, hsym, bind_some, hfield, if_true, hnone, Option.map_map]
    cases lowMask v.fieldWidth with
    | none => rfl
    | some mask =>
      rcases emitVmField_code v mask (emitVmCode (pushCode env v sym 4) g) with ⟨hcode, himage⟩
      simp only [pushCode] at hcode himage
      simp [hcode, himage, pushCode]
  | false =>
    simp only [hfield, Bool.false_eq_true, if_false] at hnone ⊢
    simp only [emitVmLoad, hsym, bind_some, hfield, hsize, hnone, Bool.false_eq_true,
      if_false, map_some, emitVmCode_code, emitVmCode_globalImage, pushCode]

theorem vmLoadPointer_code (sym : Symbol) (g : GenState) :
    (vmLoadPointer env sym g).map (fun g' => (g'.code, g'.globalImage)) =
      (pointerCode env g.context sym).map fun c => (g.code ++ [c], g.globalImage ++
        if (varDirect sym).isString then env.string sym.id ++ [0] else []) := by
  unfold vmLoadPointer pointerCode
  by_cases hstring : (varDirect sym).isString = true
  · simp [hstring]
  · simp only [hstring, if_false, Bool.false_eq_true, Option.map_map]
    cases hsize : intSizeOf env sym.type with
    | none => simp [emitVmLoad, varDirect_symbol, varDirect_isField, varDirect_type, hsize]
    | some size =>
      have hkeep : takenBack env (varDirect sym) sym size
          { g with protectRemoveTempvar := true } = none := by
        unfold takenBack
        cases GenState.last _ <;> rfl
      have hload := emitVmLoad_code (varDirect_symbol sym) ((varDirect_type sym).symm ▸ hsize) hkeep
      rw [varDirect_isField] at hload
      simpa [Function.comp_def, GenState.code] using hload

/-- A load that takes nothing back appends its code, and its string. -/
theorem vmLoadVar_eq (hword : wordOf v.type = some i) (hkeep : reloads env g v = false) :
    (vmLoadVar env v g).map (fun g' => (g'.code, g'.globalImage)) =
      (loadCode env g.context v i).map fun code =>
        (g.code ++ code, g.globalImage ++ loadedString env v) := by
  have hsize : intSizeOf env v.type = some (byteSize i : Int) := intSizeOf_wordOf hword
  cases hkind : v.kind with
  | immediate =>
    simp only [vmLoadVar, loadCode, loadedString, hkind]
    rcases wordOf_cases hword with ⟨hp, rfl⟩ | ⟨hp, hop, -, hint, -⟩
    · have htype : v.type.typeOf = .pointer := by simpa [CType.isPointerType] using hp
      simp only [vmLoadImmediate, htype, hp, if_true]
      cases hsym : v.symbol with
      | none => simp [emitVmPushInt, emitVmPushImm]
      | some sym =>
        by_cases hstring : sym.symtype = .stringValue
        · simp [hstring]
        · simp [hstring]
    · unfold CType.isInteger at hint
      unfold getVmOptype at hop
      simp only [vmLoadImmediate, hp, Bool.false_eq_true, if_false, getVmOptype]
      cases htype : v.type.typeOf <;> rw [htype] at hint hop <;>
        first
          | exact absurd hint (by decide)
          | (cases hu : v.type.isUnsignedType <;> rw [hu] at hop <;> cases hop <;>
              simp [emitVmPushInt, emitVmPushImm, hu] <;> rfl)
  | direct =>
    simp only [vmLoadVar, loadCode, loadedString, hkind]
    cases hsym : v.symbol with
    | none => simp [emitVmLoad, hsym]
    | some sym =>
      have hnone : takenBack env v sym (byteSize i) g = none := by
        simp only [reloads, hkind, hsym, hsize] at hkeep
        unfold takenBack
        rw [filter_eq_none_iff]
        intro d hd
        simp only [hd, any_some, decide_true, Bool.true_and] at hkeep
        simpa using hkeep
      rw [emitVmLoad_code hsym hsize hnone]
      simp
  | address =>
    simp only [vmLoadVar, loadCode, loadedString, hkind]
    cases hsym : v.symbol with
    | none => simp [emitVmLoadAddress, hsym]
    | some sym =>
      have hload : emitVmLoadAddress env v g =
          some (emitVmCode (addressCode env g.context v sym (byteSize i)) g) := by
        simp only [emitVmLoadAddress, hsym, bind_some, hsize, map_some]
        by_cases hnamed : isNamed env g.labels sym = true
        · have hcode : addressCode env g.context v sym (byteSize i) = _ := if_pos hnamed
          rw [hcode]
          exact congrArg some (if_pos hnamed)
        · have hcode : addressCode env g.context v sym (byteSize i) = _ := if_neg hnamed
          rw [hcode]
          exact congrArg some (if_neg hnamed)
      simp [hload]
  | deref =>
    simp only [vmLoadVar, loadCode, loadedString, hkind]
    cases hsym : v.symbol with
    | none => simp
    | some sym =>
      have hpointer : (vmLoadPointer env sym g).map (fun g' => (g'.code, g'.globalImage)) = _ :=
        vmLoadPointer_code sym g
      simp only [bind_some]
      cases hload : vmLoadPointer env sym g with
      | none =>
        rw [hload, map_none, eq_comm, map_eq_none_iff] at hpointer
        simp [hpointer]
      | some g₁ =>
        rw [hload, map_some, eq_comm, map_eq_some_iff] at hpointer
        rcases hpointer with ⟨c, hc, hcode⟩
        rw [Prod.mk.injEq] at hcode
        rcases emitVmAddOffset_code v.offset g₁ with ⟨hoffset, himage⟩
        simp [emitVmDeref, hsym, hsize, hc, hoffset, ← hcode.1, ← hcode.2]

/-! ## The finished program -/

theorem relocate_nil (d : VmCode) {a : VmAddress} (hd : d.d = .addr a) : relocate [] d = d := by
  cases d
  subst hd
  simp [relocate, VmCode.addr, getGlobalOffset]

theorem reassignCode_push {d : VmCode} (hop : d.opcode = .push)
    (htype : d.type ≠ .addr ∧ d.type ≠ .funcname)
    (hvar : d.type ∈ [.vari, .varu, .varobj, .varfl] → ∃ a, d.d = .addr a) (j : Nat) :
    reassignCode final [] j d = some d := by
  have hpush : reassignPush final [] d = d := by
    unfold reassignPush
    by_cases hmem : d.type ∈ [.addr, .vari, .varu, .varobj, .varfl]
    · have hmem' : d.type ∈ [VmOptype.vari, .varu, .varobj, .varfl] := by
        rcases mem_cons.mp hmem with h | h
        · exact absurd h htype.1
        · exact h
      rcases hvar hmem' with ⟨a, ha⟩
      simp [hmem, relocate_nil d ha, htype.1]
    · simp [hmem, htype.1]
  simp [reassignCode, hop, hpush, reassignFunction, htype.2]

theorem Links.of_fixed (h : ∀ d ∈ code, ∀ j, reassignCode final [] j d = some d) :
    Links final code code :=
  forall₂_same.mpr h

theorem reassign_pushCode (v : Var) (sym : Symbol) (size : Int) (j : Nat) :
    reassignCode final [] j (pushCode env v sym size) = some (pushCode env v sym size) := by
  apply reassignCode_push rfl
  · simp only [pushCode]
    unfold getVmopVarType
    split_ifs <;> decide
  · exact fun _ => ⟨_, rfl⟩

theorem reassignCode_address (a : VmAddress) (j : Nat) :
    reassignCode final [] j { opcode := .push, type := .addr, d := .addr a } =
      if a.isGlobal && (getVmLabel final a.name).isSome then
        reassignFunction final { opcode := .push, type := .funcname, d := .addr a }
      else some { opcode := .push, type := .addr, d := .addr a } := by
  have hmem : VmOptype.addr ∈ [VmOptype.addr, .vari, .varu, .varobj, .varfl] := by simp
  have hstay := relocate_nil { opcode := .push, type := .addr, d := .addr a } rfl
  simp only [reassignCode, reassignPush, hmem, if_true, hstay, decide_true, Bool.true_and,
    VmCode.addr]
  split
  · rfl
  · rfl

/-- Only addresses are changed when the program is finished. -/
theorem links_loadCode (hword : wordOf v.type = some i) (hkind : v.kind ≠ .address)
    (h : loadCode env k v i = some code) : Links final code code := by
  have hoffset : ∀ d ∈ offsetCode v.offset, ∀ j, reassignCode final [] j d = some d := by
    unfold offsetCode
    split
    · simp
    · intro d hd j
      simp only [mem_cons, not_mem_nil, or_false] at hd
      rcases hd with rfl | rfl <;> rfl
  have hfield : ∀ mask, ∀ d ∈ fieldCode v mask, ∀ j, reassignCode final [] j d = some d := by
    intro mask d hd j
    unfold fieldCode at hd
    split at hd <;>
      simp only [List.cons_append, nil_append, mem_cons, not_mem_nil, or_false] at hd
    · rcases hd with rfl | rfl | rfl | rfl <;> rfl
    · rcases hd with rfl | rfl <;> rfl
  apply Links.of_fixed
  unfold loadCode at h
  cases hk : v.kind with
  | immediate =>
    simp only [hk] at h
    split at h
    · split at h
      · split at h
        · cases h
          intro d hd
          rcases mem_cons.mp hd with rfl | hd
          · exact fun _ => rfl
          · exact hoffset d hd
        · cases h
      · cases h
        intro d hd
        rw [mem_singleton] at hd
        subst hd
        cases v.type.isUnsignedType <;> exact fun _ => rfl
    · rename_i hp
      cases h
      intro d hd j
      rw [mem_singleton] at hd
      subst hd
      rcases wordOf_cases hword with ⟨hp', -⟩ | ⟨-, hop, -⟩
      · exact absurd hp' hp
      · apply reassignCode_push rfl
        · refine ⟨fun hd => ?_, fun hd => ?_⟩ <;>
            · rw [show getVmOptype v.type = _ from hd] at hop
              cases hop
        · intro hd
          simp only [mem_cons, not_mem_nil, or_false] at hd
          rcases hd with hd | hd | hd | hd <;>
            · rw [hd] at hop
              cases hop
  | direct =>
    simp only [hk, bind_eq_some_iff] at h
    rcases h with ⟨sym, -, h⟩
    split at h
    · rw [map_eq_some_iff] at h
      rcases h with ⟨mask, -, rfl⟩
      intro d hd
      rcases mem_cons.mp hd with rfl | hd
      · exact reassign_pushCode v sym 4
      · exact hfield mask d hd
    · cases h
      intro d hd
      rw [mem_singleton] at hd
      subst hd
      exact reassign_pushCode v sym _
  | address => exact absurd hk hkind
  | deref =>
    simp only [hk, bind_eq_some_iff, map_eq_some_iff] at h
    rcases h with ⟨sym, -, c, hc, rfl⟩
    intro d hd
    simp only [List.cons_append, mem_cons, mem_append, not_mem_nil, or_false] at hd
    rcases hd with rfl | hd | rfl
    · unfold pointerCode at hc
      split at hc
      · cases hc
        exact fun _ => rfl
      · rw [map_eq_some_iff] at hc
        rcases hc with ⟨size, -, rfl⟩
        exact reassign_pushCode _ sym size
    · exact hoffset d hd
    · intro j
      simp only [reassignCode]
      rw [relocate_nil _ rfl]

/-! ## Values of slots -/

theorem varDirect_offset (sym : Symbol) : (varDirect sym).offset = 0 := by
  unfold varDirect
  split <;> rfl

theorem varDirect_isString (sym : Symbol) :
    (varDirect sym).isString = decide (sym.symtype = .stringValue) := by
  unfold varDirect
  cases h : sym.symtype <;> simp [Var.isString, h]

theorem varAddr_eq_objectAddr (h : FrameFits env v sym) (size : Int) :
    varAddr L s (vmAddress env v sym size) = objectAddr env L s sym v.offset.toInt := by
  have hindex : toInt32 (baseOf env sym + v.offset.toNat) = baseOf env sym + v.offset.toInt := h
  simp only [varAddr, vmAddress, hindex, objectAddr, add_assoc]

theorem pointerAddr_eq_objectAddr (h : toInt32 (baseOf env sym) = baseOf env sym) (size : Int) :
    varAddr L s (vmAddress env (varDirect sym) sym size) = (objectAddr env L s sym 0) := by
  simp [varAddr, vmAddress, varDirect_offset, objectAddr, h]

theorem addOffset_eq (h : OffsetFits v) (p : Nat) :
    addOffset p v.offset = toSlot (p + v.offset.toInt) := by
  rw [addOffset, h]

theorem toSlot_emod_add (p : Nat) (a : Int) : toSlot ((p % 2 ^ 64 : Nat) + a) = toSlot (p + a) := by
  apply toSlot_congr
  push_cast
  rw [Int.emod_add_emod]

theorem Loadable.operandAddr_eq (h : Loadable env labels final v) (hop : IrOperand env final v)
    (L : Layout) (k : LoadContext) (s : State) :
    operandAddr env L k s v = storageAddr env L k s v := by
  unfold operandAddr storageAddr
  unfold Loadable at h
  cases hkind : v.kind with
  | immediate | address => rfl
  | direct =>
    simp only [hkind] at h
    cases hsym : v.symbol with
    | none => rfl
    | some sym =>
      have haddr := varAddr_eq_objectAddr (L := L) (s := s) (h sym hsym).1 0
      simp only [map_some, haddr]
  | deref =>
    simp only [hkind] at h
    rcases isSome_iff_exists.mp h.1 with ⟨sym, hsym⟩
    simp only [hsym, bind_some, addOffset_eq h.2.1, pointerInt]
    by_cases hstring : sym.symtype = .stringValue
    · have hvalue : pointerValue env L k s sym = (L.global + k.pos) % 2 ^ 64 := by
        simp [pointerValue, varDirect_isString, hstring]
      simp only [hvalue, toSlot_emod_add, varDirect_isString, hstring, decide_true, or_true,
        if_true, bind_some, stringAddr, add_zero]
    · have hvalue : pointerValue env L k s sym =
          s.mem.load (objectAddr env L s sym 0) 8 := by
        simp [pointerValue, varDirect_isString, hstring,
          pointerAddr_eq_objectAddr (hop.base sym hsym)]
      by_cases hpointer : sym.type.isPointerType = true
      · simp [hvalue, hstring, hpointer]
      · simp [varDirect_isString, hstring, hpointer]

theorem load_field_eq (m : Memory) (a : Nat) {o w size : Nat} (hfour : o + w ≤ 32)
    (hsize : o + w ≤ 8 * size) : m.load a 4 / 2 ^ o % 2 ^ w = m.load a size / 2 ^ o % 2 ^ w := by
  apply Nat.eq_of_testBit_eq
  intro j
  simp only [Nat.testBit_mod_two_pow, Nat.testBit_div_two_pow, Memory.testBit_load]
  by_cases hj : j < w
  · have hlt : o + j < 8 * 4 := by omega
    have hlt' : o + j < 8 * size := by omega
    simp [Nat.add_comm j o, hlt, hlt']
  · simp [hj]

theorem fieldInt_emod (v : Var) (unit : Nat) :
    fieldInt v unit % 2 ^ v.fieldWidth = (unit / 2 ^ v.fieldOffset : Nat) % 2 ^ v.fieldWidth := by
  have hpow : (2 : Int) ^ v.fieldWidth = (2 ^ v.fieldWidth : Nat) := by norm_cast
  simp only [fieldInt]
  rw [hpow]
  split
  · rw [toInt_eq_toNat_bmod, Int.bmod_emod, toNat_ofNat]
    norm_cast
    rw [Nat.mod_mod]
  · rw [toNat_ofNat]
    norm_cast
    rw [Nat.mod_mod]

theorem fieldInt_unsigned (h : v.type.isSigned = false) (unit : Nat) :
    fieldInt v unit = (unit / 2 ^ v.fieldOffset % 2 ^ v.fieldWidth : Nat) := by
  simp [fieldInt, h]

theorem fieldSlot_value {a : Nat} {c : CInteger} (hword : wordOf v.type = some c)
    (hin : v.fieldOffset + v.fieldWidth ≤ 8 * byteSize c)
    (hend : v.fieldOffset + v.fieldWidth ≤ 32)
    (hsigned : v.type.isSigned = true → v.fieldWidth = 8 * byteSize c) (m : Memory) :
    (((slotInt .int (m.load a 4) / 2 ^ v.fieldOffset % 2 ^ v.fieldWidth).toNat : Nat) : Int) %
        2 ^ c.format.width = fieldInt v (m.load a (byteSize c)) % 2 ^ c.format.width := by
  rcases byteSize_wordOf hword with ⟨-, hwidth, -, -⟩
  rw [slotInt_extract (by omega), load_field_eq m a hend hin]
  cases hs : v.type.isSigned with
  | false => rw [fieldInt_unsigned hs]
  | true =>
    have hw : v.fieldWidth = c.format.width := (hsigned hs).trans hwidth
    rw [← hw, fieldInt_emod]
    push_cast
    rw [Int.emod_emod_of_dvd _ (dvd_refl _)]

theorem pointerConstant_slot (v : Var) :
    ((toSlot ((if v.type.isUnsignedType then CInteger.uchar else .char).format.wrap v.imm.u) :
      Nat) : Int) = v.imm.u ↔
      (if v.type.isUnsignedType then CInteger.uchar else .char).format.InRange v.imm.i := by
  have hbounds : -128 ≤ (if v.type.isUnsignedType then CInteger.uchar else .char).format.minValue ∧
      (if v.type.isUnsignedType then CInteger.uchar else .char).format.maxValue < 256 := by
    cases v.type.isUnsignedType <;> decide
  generalize (if v.type.isUnsignedType then CInteger.uchar else .char) = c at hbounds ⊢
  have hwrap : c.format.wrap v.imm.u = c.format.wrap v.imm.i := by
    rw [Value.i, toInt_eq_toNat_bmod, wrap_bmod, Value.u]
  have hword : v.imm.i % 2 ^ 64 = v.imm.u := by
    have hlt := v.imm.lo.isLt
    rw [Value.i, toInt_eq_toNat_bmod, Value.u]
    have hpow : (2 : Int) ^ 64 = ((2 ^ 64 : Nat) : Int) := by norm_cast
    rw [hpow, Int.bmod_emod]
    exact_mod_cast Nat.mod_eq_of_lt hlt
  rw [cast_toSlot, hwrap]
  constructor
  · intro h
    rcases (inRange_wrap (f := c.format) v.imm.i).bounds with ⟨hlo, hhi⟩
    have hmin := le_toInt v.imm.lo
    have hmax := toInt_lt (x := v.imm.lo)
    change c.format.wrap v.imm.i = v.imm.i
    unfold Value.i at *
    omega
  · intro h
    rw [show c.format.wrap v.imm.i = v.imm.i from h, hword]

/-- A load that takes nothing back pushes a slot with the value of an operand that is no
address. -/
theorem Loadable.operandSlot_value {c : CInteger} (h : Loadable env labels final v)
    (hop : IrOperand env final v) (hword : wordOf v.type = some c) (hkind : v.kind ≠ .address)
    (hvalue : varValue env L final k s v = some n) :
    ∃ x, operandSlot env L k s v = some x ∧ (x : Int) % 2 ^ c.format.width =
      n % 2 ^ c.format.width := by
  rcases byteSize_wordOf hword with ⟨-, hwidth, -, -⟩
  have hslot : ∀ m : Int, (toSlot (c.format.wrap m) : Int) % 2 ^ c.format.width =
      m % 2 ^ c.format.width := by
    intro m
    have hdvd : (2 : Int) ^ c.format.width ∣ 2 ^ 64 := pow_dvd_pow 2 c.format.width_le
    rw [cast_toSlot, Int.emod_emod_of_dvd _ hdvd, wrap_emod_width]
  have haddr := h.operandAddr_eq hop L k s
  simp only [varValue, hword, bind_some] at hvalue
  cases hk : v.kind with
  | address => exact absurd hk hkind
  | immediate =>
    simp only [hk] at hvalue
    simp only [Loadable, hk] at h
    split at h
    · rename_i hstring
      simp only [hstring, if_true, some.injEq] at hvalue
      rcases h with ⟨hp, hfits⟩
      rw [Option.any_eq_true] at hstring
      rcases hstring with ⟨sym, hsym, hsymtype⟩
      have hsymtype' : sym.symtype = .stringValue := by simpa using hsymtype
      have hc : c = .ulong := by
        rcases wordOf_cases hword with ⟨-, hc⟩ | ⟨hp', -⟩
        · exact hc
        · rw [hp] at hp'
          cases hp'
      subst hc
      refine ⟨toSlot (addOffset ((L.global + k.pos) % 2 ^ 64) v.offset : Nat), ?_, ?_⟩
      · simp [operandSlot, operandInt, isPointerConstant, hk, hsym, hp, hword, hsymtype']
      · rw [← hvalue, addOffset_eq hfits, toSlot_emod_add, cast_toSlot, cast_toSlot]
        simp [stringAddr, show CInteger.ulong.format.width = 64 from rfl]
    · rename_i hstring
      simp only [hstring, if_false, some.injEq, Bool.false_eq_true] at hvalue
      subst hvalue
      by_cases hp : v.type.isPointerType = true
      · have hnone : v.symbol = none := by
          cases hsym : v.symbol with
          | none => rfl
          | some sym =>
            have := hop.constant hk hp sym hsym
            simp [hsym, this] at hstring
        have hc : c = .ulong := by
          rcases wordOf_cases hword with ⟨-, hc⟩ | ⟨hp', -⟩
          · exact hc
          · rw [hp] at hp'
            cases hp'
        subst hc
        have hvalue := (pointerConstant_slot v).mpr (h hp)
        refine ⟨_, ?_, congrArg (· % 2 ^ 64) hvalue⟩
        simp [operandSlot, isPointerConstant, hk, hp, hnone]
      · refine ⟨toSlot (c.format.wrap v.imm.u), ?_, hslot _⟩
        simp [operandSlot, operandInt, isPointerConstant, hk, hp, hword]
  | direct =>
    simp only [hk, map_eq_some_iff] at hvalue
    rcases hvalue with ⟨a, ha, hvalue⟩
    rw [← haddr] at ha
    by_cases hfield : v.isField = true
    · simp only [hfield, if_true] at hvalue
      have hsym : ∃ sym, v.symbol = some sym := by
        simp only [operandAddr, hk, map_eq_some_iff] at ha
        exact ha.imp fun _ h => h.1
      rcases hsym with ⟨sym, hsym⟩
      simp only [Loadable, hk] at h
      rcases (h sym hsym).2 hfield with ⟨hend, hwide, hsigned⟩
      refine ⟨_, ?_, hvalue ▸ fieldSlot_value hword (hop.field c hword hfield) hend
        (fun hs => hsigned hs c hword) s.mem⟩
      have hpos : v.fieldWidth ≠ 0 := by simpa [Var.isField] using hfield
      simp [operandSlot, isPointerConstant, hk, hfield, ha, hwide, show v.fieldOffset < 32 by omega]
    · simp only [hfield, if_false, Bool.false_eq_true] at hvalue
      refine ⟨toSlot (c.format.wrap (s.mem.load a (byteSize c))), ?_, hvalue ▸ hslot _⟩
      simp [operandSlot, operandInt, isPointerConstant, hk, hfield, ha, hword]
  | deref =>
    simp only [hk, map_eq_some_iff] at hvalue
    rcases hvalue with ⟨a, ha, hvalue⟩
    rw [← haddr] at ha
    refine ⟨toSlot (c.format.wrap (s.mem.load a (byteSize c))), ?_, ?_⟩
    · by_cases hfield : v.isField = true
      · simp [operandSlot, isPointerConstant, hk, hfield, ha, hword]
      · simp [operandSlot, operandInt, isPointerConstant, hk, hfield, ha, hword]
    · rw [hslot, ← hvalue]
      split
      · rename_i hfield
        simp only [Loadable, hk] at h
        have hw := h.2.2 hfield c hword
        have hin := hop.field c hword hfield
        have ho : v.fieldOffset = 0 := by omega
        rw [hwidth] at hw
        rw [← hw, fieldInt_emod, ho]
        simp
      · rfl

/-! ## Loads of values -/

theorem Clear.mono {a m n : Nat} (h : Clear L s a m) (hle : n ≤ m) : Clear L s a n := by
  rcases h with h | h
  · exact Or.inl (by omega)
  · exact Or.inr h

theorem Loadable.operandReads_clear (h : Loadable env labels final v) (hop : IrOperand env final v)
    (hclear : ∀ r ∈ valueReads env L k s v, Clear L s r.1 r.2) :
    ∀ r ∈ operandReads env L k s v, Clear L s r.1 r.2 := by
  have haddr := h.operandAddr_eq hop L k s
  intro r hr
  rcases mem_append.mp hr with hr | hr
  · by_cases hk : v.kind = .deref
    · simp only [hk, if_true, mem_toList, map_eq_some_iff] at hr
      rcases hr with ⟨sym, hsym, rfl⟩
      rw [pointerAddr_eq_objectAddr (hop.base sym hsym)]
      apply hclear
      simp [valueReads, hk, hsym]
    · simp [hk] at hr
  · simp only [haddr, mem_toList, map_eq_some_iff] at hr
    rcases hr with ⟨a, ha, rfl⟩
    have hmem := hclear (a, if v.isField && v.kind = .direct then
      max 4 (((wordOf v.type).map byteSize).getD 0) else ((wordOf v.type).map byteSize).getD 0)
      (mem_append_right _ (by simp [ha]))
    apply hmem.mono
    split
    · exact le_max_left _ _
    · exact le_refl _

theorem loadCode_pushes {x : Nat} (hword : wordOf v.type = some i)
    (hroom : s.free L + 16 ≤ L.limit) (hclear : ∀ r ∈ operandReads env L k s v, Clear L s r.1 r.2)
    (hcode : loadCode env k v i = some code) (hslot : operandSlot env L k s v = some x) :
    PushesSlot L code s x := by
  have hcontext : ({ labels := k.labels, globalImage := List.replicate k.pos 0 } :
      GenState).context = k := by
    simp [GenState.context]
  have hkeep : reloads env
      { labels := k.labels, globalImage := List.replicate k.pos 0 } v = false := by
    simp [reloads, GenState.last, GenState.code]
  have heq := vmLoadVar_eq hword hkeep
  rw [hcontext, hcode, map_some, map_eq_some_iff] at heq
  rcases heq with ⟨g', hgen, heq⟩
  rw [← hcontext] at hslot hclear
  rcases vmLoadVar_pushes rfl hword hkeep hroom hclear hslot hgen with ⟨code', hemits, hpushes⟩
  have hsame : code' = code := by
    have hprog : g'.code = code' := by
      rw [GenState.code_of_mode hemits.mode, hemits.prog, nil_append]
    rw [← hprog]
    exact congrArg Prod.fst heq
  rwa [hsame] at hpushes

theorem loadCode_isSome {x : Nat} (hword : wordOf v.type = some i)
    (hslot : operandSlot env L k s v = some x) : ∃ code, loadCode env k v i = some code := by
  unfold loadCode
  cases hk : v.kind with
  | immediate =>
    by_cases hp : v.type.isPointerType = true
    · cases hsym : v.symbol with
      | none => simp [hp]
      | some sym =>
        by_cases hstring : sym.symtype = .stringValue
        · simp [hp, hstring]
        · simp [operandSlot, operandInt, isPointerConstant, hk, hp, hsym, hword, hstring] at hslot
    · simp [hp]
  | direct =>
    cases hsym : v.symbol with
    | none =>
      simp [operandSlot, operandInt, operandAddr, isPointerConstant, hk, hsym, hword] at hslot
    | some sym =>
      by_cases hfield : v.isField = true
      · simp [operandSlot, isPointerConstant, hk, hfield, operandAddr, hsym] at hslot
        simp [hfield, lowMask, hslot.1.2]
      · simp [hfield]
  | address =>
    cases hsym : v.symbol with
    | none => simp [operandSlot, isPointerConstant, addressValue, hk, hsym] at hslot
    | some sym => simp
  | deref =>
    cases hsym : v.symbol with
    | none =>
      simp [operandSlot, operandInt, operandAddr, isPointerConstant, hk, hsym, hword] at hslot
    | some sym =>
      have hpointer : sym.type.isPointerType = true ∨ (varDirect sym).isString = true := by
        by_contra hnot
        simp [operandSlot, operandInt, operandAddr, isPointerConstant, hk, hsym, hword, hnot]
          at hslot
      have hcode : ∃ c, pointerCode env k sym = some c := by
        unfold pointerCode
        by_cases hstring : (varDirect sym).isString = true
        · simp [hstring]
        · have hp : wordOf sym.type = some .ulong := by
            simp [wordOf, CType.wordType, hpointer.resolve_right hstring]
          simp [hstring, intSizeOf_wordOf hp]
      rcases hcode with ⟨c, hc⟩
      simp [hc]

/-- The address of an operand that is loaded right, as it stands in the finished program. -/
theorem Loadable.addressCode_runs (h : Loadable env k.labels final v)
    (hkind : v.kind = .address) (hsym : v.symbol = some sym)
    (hvalue : varValue env L final k s v = some n) (size : Int) :
    ∃ d x, (∀ j, reassignCode final [] j (addressCode env k v sym size) = some d) ∧
      execData L d s = some (s.push L x) ∧ (x : Int) % 2 ^ 64 = n % 2 ^ 64 := by
  have hval : (if sym.type.isFunction then
      (functionIndex final (env.symName sym)).map fun i => i + v.offset.toInt
      else some (objectAddr env L s sym v.offset.toInt : Int)) = some n := by
    simp only [varValue, bind_eq_some_iff] at hvalue
    rcases hvalue with ⟨c, -, hvalue⟩
    simpa only [hkind, hsym, bind_some] using hvalue
  simp only [Loadable, hkind] at h
  have hcond := h sym hsym
  by_cases hfun : sym.type.isFunction = true
  · simp only [hfun, if_true] at hval hcond
    rcases hcond with ⟨hzero, hknown⟩
    rw [map_eq_some_iff] at hval
    rcases hval with ⟨j, hj, rfl⟩
    have hlabel : ∃ p label, getVmLabel final (env.symName sym) = some p ∧
        final[p]? = some label ∧ 0 ≤ label.index ∧ label.index = j := by
      simp only [functionIndex, bind_eq_some_iff, ite_none_right_eq_some, some.injEq] at hj
      rcases hj with ⟨label, ⟨p, hp, hget⟩, hpos, rfl⟩
      exact ⟨p, label, hp, hget, hpos, rfl⟩
    rcases hlabel with ⟨p, label, hp, hget, hpos, rfl⟩
    have hnot : ¬ label.index < 0 := by omega
    have hresolve : ∀ (a : VmAddress), a.name = env.symName sym →
        ∀ j, reassignCode final [] j { opcode := .push, type := .funcname, d := .addr a } =
          some { opcode := .push
                 type := .funcaddr
                 d := .addr { a with index := label.index } } := by
      intro a ha j
      simp [reassignCode, reassignPush, reassignFunction, VmCode.addr, ha, hp, hget, hnot]
    have hexec : ∀ a : VmAddress, execData L
        { opcode := .push, type := .funcaddr, d := .addr { a with index := label.index } } s =
          some (s.push L (toSlot label.index)) := fun _ => rfl
    have hlow : (toSlot label.index : Int) % 2 ^ 64 =
        (label.index + v.offset.toInt) % 2 ^ 64 := by
      rw [hzero, cast_toSlot]
      simp
    by_cases hnamed : isNamed env k.labels sym = true
    · refine ⟨_, _, ?_, hexec { name := env.symName sym, index := -1, size := size }, hlow⟩
      rw [addressCode, if_pos hnamed]
      exact hresolve _ rfl
    · have hglobal : isGlobalVar env sym = true := hknown.resolve_left hnamed
      refine ⟨_, _, fun j => ?_, hexec (vmAddress env v sym size), hlow⟩
      rw [addressCode, if_neg hnamed]
      simp [reassignCode, reassignPush, reassignFunction, relocate, VmCode.addr, vmAddress, hglobal,
        hp, hget, hnot, getGlobalOffset]
  · simp only [hfun, if_false, Bool.false_eq_true, some.injEq] at hval hcond
    rcases hcond with ⟨hfits, hnamed, hlabel⟩
    refine ⟨{ opcode := .push, type := .addr, d := .addr (vmAddress env v sym size) },
      objectAddr env L s sym v.offset.toInt, fun j => ?_, ?_, by rw [hval]⟩
    · rw [addressCode, if_neg (by simp [hnamed]), reassignCode_address, if_neg]
      intro hboth
      rw [Bool.and_eq_true] at hboth
      simp [vmAddress, hlabel hboth.1] at hboth
    · rw [← varAddr_eq_objectAddr hfits size]
      rfl

theorem vmLoadVar_of_reloads {d : VmCode} (hword : wordOf v.type = some i)
    (hre : reloads env g v = true) (hlast : g.last = some d) :
    vmLoadVar env v g = some (takeBack v d g) := by
  simp only [reloads, hlast, intSizeOf_wordOf hword, any_some, Bool.and_eq_true,
    decide_eq_true_eq, Bool.not_eq_true', Option.any_eq_true] at hre
  rcases hre with ⟨⟨⟨hkind, hprotect⟩, hfield⟩, sym, hsym, hre⟩
  simp only [vmLoadVar, hkind, emitVmLoad, hsym, bind_some, hfield, intSizeOf_wordOf hword,
    hlast, hprotect, Bool.not_false, Bool.true_and, filter_some, hre, if_true,
    Bool.false_eq_true, if_false]

theorem takeBack_code {d : VmCode} (hcode : g.code = base ++ [d])
    (htemp : g.isGlobalMode = true → isTemporaryVar v = false) :
    (takeBack v d g).code = base ++ (takeBack v d { prog := [d] }).prog ∧
      (takeBack v d g).globalImage = g.globalImage := by
  unfold takeBack
  cases ht : isTemporaryVar v with
  | true =>
    have hmode : g.isGlobalMode = false := by
      cases hmode : g.isGlobalMode with
      | false => rfl
      | true =>
        have := htemp hmode
        rw [ht] at this
        cases this
    rw [GenState.code_of_mode hmode] at hcode
    simp [GenState.code, hmode, hcode]
  | false =>
    have hset : ∀ code, (g.setCode code).code = code ∧
        (g.setCode code).globalImage = g.globalImage := by
      intro code
      cases hmode : g.isGlobalMode <;> simp [GenState.setCode, GenState.code, hmode]
    simp only [Bool.false_eq_true, if_false]
    refine ⟨?_, (hset _).2⟩
    rw [(hset _).1, hcode]
    simp [GenState.setCode, GenState.code]

/-- A load that takes back the last store leaves the value of the variable. -/
theorem LoadPlace.reload_loads (hplace : LoadPlace env L v g base c s t)
    (h : Loadable env g.labels final v) (hop : IrOperand env final v)
    (hclear : ∀ r ∈ valueReads env L g.context t v, Clear L t r.1 r.2)
    (hvalue : varValue env L final g.context t v = some n) (hre : reloads env g v = true) :
    LoadsValue env L final v g base s t n := by
  rcases hop.word with ⟨i, hword⟩
  have hlast : ∃ d, c = some d ∧ g.last = some d := by
    cases hc : c with
    | none =>
      have hcode := hplace.code
      rw [hplace.first hc, hc] at hcode
      simp [reloads, GenState.last, hcode] at hre
    | some d =>
      have hcode := hplace.code
      rw [hc] at hcode
      exact ⟨d, rfl, by rw [GenState.last, hcode]; exact getLast?_concat⟩
  rcases hlast with ⟨d, hc, hlast⟩
  subst hc
  -- The load is the same in a program that consists of the store.
  have hpoint : AtPoint L { g with isGlobalMode := false, prog := [d] } [] d s t :=
    { mode := rfl
      prog := rfl
      step := by
        rcases bind_eq_some_iff.mp hplace.step with ⟨w, hw, hnil⟩
        cases hnil
        exact hw
      pop := hplace.pop d rfl
      before := fun _ d' hd' => by simp at hd'
      sp := hplace.sp
      room := hplace.room }
  have hre' : reloads env { g with isGlobalMode := false, prog := [d] } v = true := by
    rw [reloads, hpoint.last, ← hlast]
    exact hre
  have hclear' := h.operandReads_clear hop hclear
  rcases reload_pushes hpoint hword hre' hclear' (vmLoadVar_of_reloads hword hre' hpoint.last) with
    ⟨code, u, hprog, -, -, -, -, hrun, hpushed⟩
  rcases hpoint.afterReload_frame hword hre' with ⟨hsp, hbp, hgp, -⟩
  rcases hpoint.reloads_iff hword hre' with
    ⟨sym, a, hsym, hkind, hfield, hpop, htype, hd, hsize, haddr, -, -⟩
  rcases byteSize_wordOf hword with ⟨hbool, hwidth, -, -⟩
  rcases execPop_eq hd htype hpoint.pop hpop hsize (byteSize_cases hbool) hpoint.step with
    ⟨-, hbp', hgp', -, hload⟩
  rcases takeBack_code hplace.code (fun hmode => hplace.temporary hmode hre) with ⟨hcode, himage⟩
  have hcode' : code = (takeBack v d { prog := [d] }).prog := by
    rw [nil_append] at hprog
    rw [← hprog]
    unfold takeBack
    split <;> rfl
  have hstring : loadedString env v = [] := by simp [loadedString, hkind]
  have hlow : n = (t.mem.load (varAddr L s a) (byteSize i) : Nat) := by
    have hstorage : storageAddr env L g.context t v = some (varAddr L s a) := by
      rw [← h.operandAddr_eq hop, operandAddr, hkind, haddr s]
      simp [hsym, varAddr, hbp', hgp']
    simp only [varValue, hword, bind_some, hkind, hstorage, map_some, hfield,
      Bool.false_eq_true, if_false, some.injEq] at hvalue
    exact hvalue.symm
  refine ⟨_, s, code, code, _, u, _, i, vmLoadVar_of_reloads hword hre hlast, Or.inr ⟨rfl, ?_⟩, ?_,
    ?_, hrun, hpushed, hsp, hbp, hgp, hword, ?_⟩
  · rw [hcode, hcode']
  · rw [himage, hstring, append_nil]
  · apply Links.of_fixed
    intro d' hd' j
    rw [hcode'] at hd'
    unfold takeBack at hd'
    split at hd'
    · simp at hd'
    · simp only [GenState.setCode, GenState.code, Bool.false_eq_true, if_false,
        dropLast_singleton, nil_append, mem_singleton] at hd'
      subst hd'
      simp only [reassignCode]
      rw [relocate_nil { d with opcode := .store } hd]
  · rw [hlow, hload hplace.sp]
    have hpow : (256 : Nat) ^ byteSize i = 2 ^ i.format.width := by
      rw [← hwidth, pow_mul]
      rfl
    rw [hpow]
    push_cast
    rw [Int.emod_emod_of_dvd _ (dvd_refl _)]

/-- An operand that meets the condition is loaded right. -/
theorem Loadable.loadsValue (h : Loadable env g.labels final v) (hop : IrOperand env final v)
    (hplace : LoadPlace env L v g base c s t)
    (hclear : ∀ r ∈ valueReads env L g.context t v, Clear L t r.1 r.2)
    (hvalue : varValue env L final g.context t v = some n) :
    LoadsValue env L final v g base s t n := by
  rcases hop.word with ⟨i, hword⟩
  have hroom := hplace.room
  cases hre : reloads env g v with
  | true => exact hplace.reload_loads h hop hclear hvalue hre
  | false =>
    have heq := vmLoadVar_eq hword hre
    have hlow : ∀ m : Int, m % 2 ^ 64 = n % 2 ^ 64 →
        m % 2 ^ i.format.width = n % 2 ^ i.format.width :=
      fun m hm => emod_width_of_emod_word hm
    by_cases hkind : v.kind = .address
    · have hsym : ∃ sym, v.symbol = some sym := by
        simp only [varValue, hword, bind_some, hkind, bind_eq_some_iff] at hvalue
        exact hvalue.imp fun _ hsym => hsym.1
      rcases hsym with ⟨sym, hsym⟩
      have hcode : loadCode env g.context v i =
          some [addressCode env g.context v sym (byteSize i)] := by
        simp [loadCode, hkind, hsym]
      rw [hcode, map_some, map_eq_some_iff] at heq
      rcases heq with ⟨g', hgen, heq⟩
      rw [Prod.mk.injEq] at heq
      rcases Loadable.addressCode_runs (k := g.context) h hkind hsym hvalue (byteSize i) with
        ⟨d, x, hlink, hexec, hx⟩
      refine ⟨g', t, _, [d], t, t.push L x, x % 2 ^ 64, i, hgen, Or.inl ⟨rfl, heq.1⟩, heq.2,
        List.Forall₂.cons hlink List.Forall₂.nil, by simp [hexec], ?_, rfl, rfl, rfl, hword, ?_⟩
      · rw [← State.push_mod]
        exact Pushed.push (by omega) (Nat.mod_lt _ (by decide))
      · apply hlow
        push_cast
        omega
    · rcases h.operandSlot_value hop hword hkind hvalue with ⟨x, hslot, hx⟩
      rcases loadCode_isSome hword hslot with ⟨code, hcode⟩
      rcases loadCode_pushes hword (by omega) (h.operandReads_clear hop hclear) hcode hslot with
        ⟨-, -, u, hrun, hpushed⟩
      rw [hcode, map_some, map_eq_some_iff] at heq
      rcases heq with ⟨g', hgen, heq⟩
      rw [Prod.mk.injEq] at heq
      exact ⟨g', t, code, code, t, u, x, i, hgen, Or.inl ⟨rfl, heq.1⟩, heq.2,
        links_loadCode hword hkind hcode, hrun, hpushed, rfl, rfl, rfl, hword, hx⟩

end Kcs.Vm
