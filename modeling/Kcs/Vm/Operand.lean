import Kcs.Vm.Generate
import Kcs.Vm.Machine
import Kcs.Ir.Semantics

/-!
# Loading operands

What an operand of the intermediate representation is worth, and what the code
of `vm_load_var` leaves on the stack for it.  The two differ in few cases: a
constant pointer is pushed as a character, and a bit-field is not extended or not
extracted at all.

Main results:

- Theorem {lit}`vmLoadVar_pushes`: a load that takes nothing back pushes that
  slot.
-/

namespace Kcs.Vm

open Option List IntFormat

/-! ## Values of operands -/

/-- The integer type of the bytes of a scalar that is not floating.  A truth
value is held in a byte, a pointer in an unsigned word. -/
def wordOf (t : CType) : Option CInteger :=
  match t.wordType with
  | some .bool => some .uchar
  | c => c

section Operands

variable (env : GenEnv) (L : Layout)

/-- What decides the value of operands besides the state of the machine: the
labels that have been emitted, and where the next string is put. -/
structure LoadContext where
  labels : List VmLabel
  pos : Nat

/-- The context of a state of the generator. -/
def GenState.context (g : GenState) : LoadContext where
  labels := g.labels
  pos := g.globalImage.length

/-- Address in a pointer, or of a string that is used like one. -/
def pointerValue (k : LoadContext) (s : State) (sym : Symbol) : Nat :=
  if (varDirect sym).isString then (L.global + k.pos) % 2 ^ 64
  else s.mem.load (varAddr L s (vmAddress env (varDirect sym) sym 8)) 8

/-- An address with an offset of the machine. -/
def addOffset (p : Nat) (offset : BitVec 64) : Nat := toSlot (p + toInt32 offset.toNat)

/-- The bytes of an operand in storage. -/
def operandAddr (k : LoadContext) (s : State) (v : Var) : Option Nat :=
  match v.kind with
  | .direct => v.symbol.map fun sym => varAddr L s (vmAddress env v sym 0)
  | .deref =>
    v.symbol.bind fun sym =>
      if sym.type.isPointerType ∨ (varDirect sym).isString then
        let a := addOffset (pointerValue env L k s sym) v.offset
        if a < nullPage then none else some a
      else none
  | _ => none

/-- Address of a symbol, or the position of a function. -/
def addressValue (k : LoadContext) (s : State) (v : Var) : Option Nat :=
  v.symbol.bind fun sym =>
    if env.depth sym.id = 0 && (getVmLabel k.labels sym.name).isSome then
      (L.function (env.symName sym)).map (· % 2 ^ 64)
    else some (varAddr L s (vmAddress env v sym 0) % 2 ^ 64)

/-- The bits of a field in its storage. -/
def fieldInt (v : Var) (unit : Nat) : Int :=
  let x := BitVec.ofNat v.fieldWidth (unit / 2 ^ v.fieldOffset)
  if v.type.isSigned then x.toInt else x.toNat

/-- Bytes that a field reaches into. -/
def fieldBytes (v : Var) : Nat := (v.fieldOffset + v.fieldWidth + 7) / 8

/-- A constant pointer that is no string. -/
def isPointerConstant (v : Var) : Bool :=
  v.kind = .immediate && v.type.isPointerType && v.symbol.isNone

/-- Value of an operand of integer or pointer type, at its type. -/
def operandInt (k : LoadContext) (s : State) (v : Var) : Option Int :=
  (wordOf v.type).bind fun c =>
    match v.kind with
    | .immediate =>
      if v.type.isPointerType then
        match v.symbol with
        | some sym =>
          if sym.symtype = .stringValue then
            some (addOffset ((L.global + k.pos) % 2 ^ 64) v.offset : Nat)
          else none
        | none => some v.imm.u
      else some (c.format.wrap v.imm.u)
    | .address => (addressValue env L k s v).map fun a => c.format.wrap a
    | _ =>
      (operandAddr env L k s v).map fun a =>
        if v.isField then fieldInt v (s.mem.load a (fieldBytes v))
        else c.format.wrap (s.mem.load a (byteSize c))

/-- The slot that a load pushes when it takes nothing back. -/
def operandSlot (k : LoadContext) (s : State) (v : Var) : Option Nat :=
  if isPointerConstant v then
    some (toSlot ((if v.type.isUnsignedType then CInteger.uchar else .char).format.wrap v.imm.u))
  else if v.isField && v.kind = .direct then
    -- The unit is read as 32 bits, shifted and masked.
    (operandAddr env L k s v).bind fun a =>
      if v.fieldOffset < 32 ∧ v.fieldWidth < 32 then
        some (slotInt .int (s.mem.load a 4) / 2 ^ v.fieldOffset % 2 ^ v.fieldWidth).toNat
      else none
  else if v.isField && v.kind = .deref then
    -- The whole unit is read at the type of the field.
    (operandAddr env L k s v).bind fun a =>
      (wordOf v.type).map fun c => toSlot (c.format.wrap (s.mem.load a (byteSize c)))
  else if v.kind = .address then addressValue env L k s v
  else (operandInt env L k s v).map toSlot

/-- The bytes that a load reads. -/
def operandReads (k : LoadContext) (s : State) (v : Var) : List (Nat × Nat) :=
  (if v.kind = .deref then
    (v.symbol.map fun sym => (varAddr L s (vmAddress env (varDirect sym) sym 8), 8)).toList
  else []) ++
    ((operandAddr env L k s v).map fun a =>
      (a, if v.isField && v.kind = .direct then 4
        else ((wordOf v.type).map byteSize).getD 0)).toList

/-- A load that takes back the last store. -/
def reloads (g : GenState) (v : Var) : Bool :=
  v.kind = .direct && !g.protectRemoveTempvar && !v.isField &&
    v.symbol.any fun sym =>
      (intSizeOf env v.type).any fun size =>
        g.last.any fun c => isReloaded env c v sym size

/-- The bytes that a load adds to the memory of global data. -/
def loadedString (v : Var) : List (BitVec 8) :=
  match v.kind with
  | .immediate =>
    if v.type.isPointerType then (v.symbol.map fun sym => env.string sym.id ++ [0]).getD [] else []
  | .deref =>
    match v.symbol with
    | some sym => if (varDirect sym).isString then env.string sym.id ++ [0] else []
    | none => []
  | _ => []

end Operands

/-! ## Appending code -/

/-- A step of the generator that appends code to the program and bytes to the
global data, and changes nothing else that loads depend on. -/
structure Emits (g g' : GenState) (code : List VmCode) (image : List (BitVec 8)) : Prop where
  prog : g'.prog = g.prog ++ code
  mode : g'.isGlobalMode = false
  labels : g'.labels = g.labels
  image : g'.globalImage = g.globalImage ++ image

variable {env : GenEnv} {L : Layout} {g g' g'' : GenState} {v : Var}

theorem GenState.code_of_mode (h : g.isGlobalMode = false) : g.code = g.prog := by
  simp [GenState.code, h]

theorem Emits.code (h : g.isGlobalMode = false) (c : VmCode) : Emits g (emitVmCode c g) [c] [] := by
  constructor <;> simp [emitVmCode, GenState.setCode, GenState.code, h]

variable {code : List VmCode} {image : List (BitVec 8)}

theorem Emits.trans {code code' : List VmCode} {image image' : List (BitVec 8)}
    (h : Emits g g' code image) (h' : Emits g' g'' code' image') :
    Emits g g'' (code ++ code') (image ++ image') where
  prog := by rw [h'.prog, h.prog, append_assoc]
  mode := h'.mode
  labels := by rw [h'.labels, h.labels]
  image := by rw [h'.image, h.image, append_assoc]

theorem Emits.concat (h : Emits g g' code image)
    (c : VmCode) : Emits g (emitVmCode c g') (code ++ [c]) image := by
  have := h.trans (Emits.code h.mode c)
  rwa [append_nil] at this

theorem Emits.refl (h : g.isGlobalMode = false) : Emits g g [] [] := by
  constructor <;> simp [h]

/-! ## Integer types of operands -/

variable {c : CInteger}

theorem wordOf_cases {t : CType} (h : wordOf t = some c) :
    (t.isPointerType = true ∧ c = .ulong) ∨
      (t.isPointerType = false ∧ optypeInteger (getVmOptype t) = some c ∧
        t.scalarSize = byteSize c ∧ t.isInteger = true ∧
        (c.signed = !t.isUnsignedType)) := by
  unfold wordOf CType.wordType at h
  by_cases hp : t.isPointerType = true
  · left
    simp only [hp, if_true] at h
    exact ⟨hp, by simpa using h.symm⟩
  · right
    simp only [hp] at h
    cases hi : t.cInteger with
    | none => simp [hi] at h
    | some i =>
      rcases CType.cInteger_eq_some_iff.mp hi with ⟨hkind, hsign⟩
      have hint := CType.isInteger_of_cInteger hi
      refine ⟨by simpa using hp, ?_⟩
      simp only [getVmOptype, CType.scalarSize, hkind, hsign, hint]
      cases i <;> simp_all <;> subst h <;> decide

theorem byteSize_wordOf {t : CType} (h : wordOf t = some c) :
    c ≠ .bool ∧ 8 * byteSize c = c.format.width ∧ t.scalarSize = byteSize c ∧
      t.isScalar = true := by
  rcases wordOf_cases h with ⟨hp, rfl⟩ | ⟨-, hop, hsize, hint, -⟩
  · have hkind : t.typeOf = .pointer := by simpa [CType.isPointerType] using hp
    rw [CType.scalarSize, CType.isScalar, hkind]
    decide
  · have hscalar : t.isScalar = true := by
      unfold CType.isInteger at hint
      unfold CType.isScalar
      cases hkind : t.typeOf <;> rw [hkind] at hint <;> first | decide | exact absurd hint (by decide)
    refine ⟨?_, ?_, hsize, hscalar⟩
    · rintro rfl
      cases hopt : getVmOptype t <;> rw [hopt] at hop <;> simp [optypeInteger] at hop
    · cases hopt : getVmOptype t <;> rw [hopt] at hop <;> simp [optypeInteger] at hop <;>
        subst hop <;> decide

theorem intSizeOf_wordOf {t : CType} (h : wordOf t = some c) :
    intSizeOf env t = some (byteSize c : Int) := by
  rcases byteSize_wordOf h with ⟨hbool, -, hsize, hscalar⟩
  rw [intSizeOf, sizeOf_of_isScalar hscalar, hsize]
  cases c <;> first | exact absurd rfl hbool | decide

/-! ## Running single instructions -/

variable {s t : State}

theorem execData_pushImm {type : VmOptype} {w : Value}
    (h : optypeInteger type = some c) :
    execData L { opcode := .push, type := type, d := .imm w } s = some (s.push L (immSlot c w)) := by
  cases type <;> simp_all [execData, execPush, optypeInteger]

variable {n : Nat}

theorem immSlot_vmImm {width n : Nat} (hle : c.format.width ≤ width)
    (hword : width ≤ 64) : immSlot c (vmImm width n) = toSlot (c.format.wrap n) := by
  have hpow : (2 : Nat) ^ width ≤ 2 ^ 64 := Nat.pow_le_pow_right (by decide) hword
  have hlt : n % 2 ^ width < 2 ^ 64 := lt_of_lt_of_le (Nat.mod_lt _ (by positivity)) hpow
  unfold immSlot vmImm Value.u
  simp only [BitVec.toNat_ofNat, Nat.mod_eq_of_lt hlt]
  congr 1
  apply wrap_congr
  have hdvd : (2 : Int) ^ c.format.width ∣ 2 ^ width := pow_dvd_pow 2 hle
  rw [Int.natCast_mod, Nat.cast_pow, Nat.cast_ofNat]
  exact Int.emod_emod_of_dvd _ hdvd

variable {a : VmAddress}

theorem pushVar_eq (hbool : c ≠ .bool)
    (hsize : a.size = byteSize c) :
    pushVar L s c.signed a =
      s.push L (toSlot (c.format.wrap (s.mem.load (varAddr L s a) (byteSize c)))) := by
  unfold pushVar
  rw [hsize]
  cases c <;> first | exact absurd rfl hbool | rfl

theorem toSlot_wrap_word {f : IntFormat} (h : f.width = 64) (n : Int) :
    toSlot (f.wrap n) = toSlot n := by
  apply toSlot_congr
  have hmod := wrap_emod_width (f := f) n
  rwa [h] at hmod

theorem wordOf_kinds {type : CType} (h : wordOf type = some c) :
    type.isStructOrUnion = false ∧ type.isReal = false := by
  rcases wordOf_cases h with ⟨hp, -⟩ | ⟨-, -, -, hint, -⟩
  · have hkind : type.typeOf = .pointer := by simpa [CType.isPointerType] using hp
    simp only [CType.isStructOrUnion, CType.isStruct, CType.isUnion, CType.isReal, hkind]
    decide
  · unfold CType.isInteger at hint
    simp only [CType.isStructOrUnion, CType.isStruct, CType.isUnion, CType.isReal]
    cases hkind : type.typeOf <;> rw [hkind] at hint <;>
      first | decide | exact absurd hint (by decide)

theorem getVmopVarType_eq (h : wordOf v.type = some c) :
    getVmopVarType v = if v.type.isUnsignedType then .varu else .vari := by
  simp [getVmopVarType, (wordOf_kinds h).1, (wordOf_kinds h).2]

theorem execData_pushVar (h : wordOf v.type = some c)
    (hsize : a.size = byteSize c) :
    execData L { opcode := .push, type := getVmopVarType v, d := .addr a } s =
      some (s.push L (toSlot (c.format.wrap (s.mem.load (varAddr L s a) (byteSize c))))) := by
  have hexec : execData L { opcode := .push, type := getVmopVarType v, d := .addr a } s =
      some (pushVar L s (!v.type.isUnsignedType) a) := by
    rw [getVmopVarType_eq h]
    cases v.type.isUnsignedType <;> rfl
  rw [hexec]
  rcases wordOf_cases h with ⟨-, rfl⟩ | ⟨-, -, -, -, hsigned⟩
  · have h8 : a.size = 8 := hsize
    have hwrap := toSlot_wrap_word (f := IntFormat.bits64 (!v.type.isUnsignedType)) rfl
      (s.mem.load (varAddr L s a) 8)
    have hulong := toSlot_wrap_word (f := CInteger.ulong.format) rfl
      (s.mem.load (varAddr L s a) 8)
    simp only [pushVar, h8]
    rw [hwrap]
    exact congrArg some (congrArg _ hulong.symm)
  · rw [← hsigned, pushVar_eq (byteSize_wordOf h).1 hsize]

theorem execData_deref (h : wordOf v.type = some c)
    (hnull : nullPage ≤ s.top L) :
    execData L { opcode := .deref, type := storeOptype v, d := .addr a } s =
      some (s.drop.push L (toSlot (c.format.wrap (s.mem.load (s.top L) (byteSize c))))) := by
  have hkinds : storeOptype v = getVmOptype v.type := by
    simp [storeOptype, (wordOf_kinds h).1]
  have hnot : ¬ s.top L < nullPage := by omega
  rw [hkinds]
  rcases wordOf_cases h with ⟨hp, rfl⟩ | ⟨-, hop, -, -, -⟩
  · have hkind : v.type.typeOf = .pointer := by simpa [CType.isPointerType] using hp
    have hlong := toSlot_wrap_word (f := CInteger.long.format) rfl (s.mem.load (s.top L) 8)
    have hulong := toSlot_wrap_word (f := CInteger.ulong.format) rfl (s.mem.load (s.top L) 8)
    cases hu : v.type.isUnsignedType with
    | true => simp [execData, execDeref, getVmOptype, hkind, hu, optypeInteger, hnot]
    | false =>
      simp only [execData, execDeref, getVmOptype, hkind, hu, optypeInteger, hnot]
      exact congrArg some (congrArg _ (hlong.trans hulong.symm))
  · simp [execData, execDeref, hop, hnot]

/-! ## Loads -/

/-- Code that pushes one slot, whatever the machine has on its stack. -/
def PushesSlot (L : Layout) (code : List VmCode) (s : State) (x : Nat) : Prop :=
  code ≠ [] ∧ (∀ c ∈ code, c.opcode ≠ .pop) ∧
    ∃ t, execCode L code s = some t ∧ Pushed L s t x

variable {x : Nat}

theorem PushesSlot.single {c : VmCode} (hpop : c.opcode ≠ .pop) (hx : x < 2 ^ 64)
    (hroom : s.free L + 8 ≤ L.limit) (hexec : execData L c s = some (s.push L x)) :
    PushesSlot L [c] s x := by
  refine ⟨by simp, by simpa using hpop, s.push L x, ?_, Pushed.push hroom hx⟩
  simp [hexec]

theorem PushesSlot.concat {c : VmCode} {x y : Nat}
    (h : PushesSlot L code s x) (hpop : c.opcode ≠ .pop)
    (hexec : ∀ t, Pushed L s t x → ∃ u, execData L c t = some u ∧ Pushed L s u y) :
    PushesSlot L (code ++ [c]) s y := by
  rcases h with ⟨hne, hcode, t, ht, hpushed⟩
  rcases hexec t hpushed with ⟨u, hu, hpushed'⟩
  refine ⟨by simp, ?_, u, ?_, hpushed'⟩
  · intro d hd
    rcases mem_append.mp hd with hd | hd
    · exact hcode d hd
    · rw [mem_singleton.mp hd]
      exact hpop
  · simp [execCode_append, ht, hu]

variable {op : VmOpcode} {o : CInteger.BinaryOp} {k : Int}

theorem Pushed.binaryImm
    {type itype : VmOptype} {c i : CInteger} (h : Pushed L s t x)
    (hroom : s.free L + 16 ≤ L.limit) (hop : binaryOpcode op = some (o, false))
    (htype : optypeInteger type = some c) (hitype : optypeInteger itype = some i)
    (hwidth : i.format.width = 32)
    (hk : CInteger.binary o c.promote (slotInt c x) (slotInt c (toSlot (i.format.wrap n))) =
      some k) :
    ∃ u, execCode L [{ opcode := .push, type := itype, d := .imm (vmImm 32 n) },
      { opcode := op, type := type }] t = some u ∧ Pushed L s u (toSlot k) := by
  have hroom' : t.free L + 8 ≤ L.limit := by
    simp only [State.free, h.sp] at hroom ⊢
    omega
  have himm : execData L { opcode := .push, type := itype, d := .imm (vmImm 32 n) } t =
      some (t.push L (toSlot (i.format.wrap n))) := by
    rw [execData_pushImm hitype, immSlot_vmImm (by omega) (by decide)]
  have hpush : Pushed L t (t.push L (toSlot (i.format.wrap n))) (toSlot (i.format.wrap n)) :=
    Pushed.push hroom' (toSlot_lt _)
  have hexec : ∀ u, execData L { opcode := op, type := type } u = execBinary L o false c u := by
    intro u
    cases op <;> simp_all [execData, binaryOpcode]
  rcases execBinary_pushed false h hpush (by omega) hk with ⟨w, hw, hpw⟩
  exact ⟨w, by simp [himm, hexec, hw], hpw⟩

theorem PushesSlot.append {code code' : List VmCode} {x y : Nat} (h : PushesSlot L code s x)
    (hpop : ∀ c ∈ code', c.opcode ≠ .pop)
    (hexec : ∀ t, Pushed L s t x → ∃ u, execCode L code' t = some u ∧ Pushed L s u y) :
    PushesSlot L (code ++ code') s y := by
  rcases h with ⟨hne, hcode, t, ht, hpushed⟩
  rcases hexec t hpushed with ⟨u, hu, hpushed'⟩
  refine ⟨by simp [hne], ?_, u, ?_, hpushed'⟩
  · intro d hd
    rcases mem_append.mp hd with hd | hd
    · exact hcode d hd
    · exact hpop d hd
  · rw [execCode_append, ht]
    exact hu

theorem PushesSlot.binaryImm
    {type itype : VmOptype} {c i : CInteger}
    (h : PushesSlot L code s x) (hroom : s.free L + 16 ≤ L.limit)
    (hop : binaryOpcode op = some (o, false)) (htype : optypeInteger type = some c)
    (hitype : optypeInteger itype = some i) (hwidth : i.format.width = 32)
    (hk : CInteger.binary o c.promote (slotInt c x) (slotInt c (toSlot (i.format.wrap n))) =
      some k) :
    PushesSlot L
      (code ++ [{ opcode := .push, type := itype, d := .imm (vmImm 32 n) },
        { opcode := op, type := type }]) s (toSlot k) := by
  refine h.append ?_ fun t ht => ht.binaryImm hroom hop htype hitype hwidth hk
  intro d hd
  simp only [mem_cons, not_mem_nil, or_false] at hd
  rcases hd with rfl | rfl
  · simp
  · intro hd
    simp only at hd
    subst hd
    cases hop

theorem emitVmAddOffset_pushes {p : Nat}
    (offset : BitVec 64) (hgen : Emits g g' code image) (h : PushesSlot L code s p)
    (hp : p < 2 ^ 64) (hroom : s.free L + 16 ≤ L.limit) :
    ∃ code', Emits g (emitVmAddOffset offset g') code' image ∧
      PushesSlot L code' s (addOffset p offset) := by
  by_cases hzero : offset = 0
  · refine ⟨code, by simpa [emitVmAddOffset, hzero] using hgen, ?_⟩
    have hslot : addOffset p offset = p := by
      rw [addOffset, hzero]
      exact toSlot_natCast hp
    rwa [hslot]
  · have hop : binaryOpcode .add = some (CInteger.BinaryOp.add, false) := rfl
    have htype : optypeInteger .uint64 = some CInteger.ulong := rfl
    have hitype : optypeInteger .int32 = some CInteger.int := rfl
    have hpushes := h.binaryImm (n := offset.toNat) hroom hop htype hitype rfl rfl
    have hslot : ∀ a b : Int, a % 2 ^ 64 = p → b % 2 ^ 64 = toInt32 offset.toNat % 2 ^ 64 →
        toSlot (CInteger.ulong.format.wrap (a + b)) = addOffset p offset := by
      intro a b ha hb
      rw [toSlot_wrap_word rfl, addOffset]
      apply toSlot_congr
      rw [Int.add_emod, ha, hb, Int.add_emod (p : Int)]
      omega
    refine ⟨_, ?_, hslot _ _ ?_ ?_ ▸ hpushes⟩
    · simp only [emitVmAddOffset, hzero, if_false, emitVmOp, emitVmPushImm]
      have := (hgen.concat { opcode := .push, type := .int32, d := .imm (vmImm 32 offset.toNat) }).concat
        { opcode := .add, type := .uint64 }
      simpa using this
    · have := wrap_emod_width (f := CInteger.ulong.format) p
      unfold slotInt
      rw [show (2 : Int) ^ 64 = 2 ^ CInteger.ulong.format.width from rfl, this]
      exact Int.emod_eq_of_lt (by omega) (by exact_mod_cast hp)
    · rw [slotInt_toSlot]
      exact wrap_emod_width (f := CInteger.ulong.format) _

theorem Pushed.shiftImm
    (h : Pushed L s t x) (hroom : s.free L + 16 ≤ L.limit) (hn : n < 32)
    (hexec : ∀ u, execData L { opcode := op, type := .int32 } u = execShift L o .int u)
    (hk : CInteger.binary o .int (slotInt .int x) n = some k) :
    ∃ u, execCode L [{ opcode := .push, type := .int32, d := .imm (vmImm 32 n) },
      { opcode := op, type := .int32 }] t = some u ∧ Pushed L s u (toSlot k) := by
  have hroom' : t.free L + 8 ≤ L.limit := by
    simp only [State.free, h.sp] at hroom ⊢
    omega
  have hwrap : CInteger.int.format.wrap n = n := by
    have hrange := (inRange_signed_iff (f := CInteger.int.format) rfl (n : Int)).mpr
    apply hrange
    have h31 : CInteger.int.format.width - 1 = 31 := rfl
    rw [h31]
    constructor <;> omega
  have himm : execData L { opcode := .push, type := .int32, d := .imm (vmImm 32 n) } t =
      some (t.push L (toSlot n)) := by
    rw [execData_pushImm (c := .int) rfl, immSlot_vmImm (c := .int) (by decide) (by decide), hwrap]
  have hcount : shiftCount .int (toSlot n) = n := by
    have hlt : (n : Nat) < 2 ^ 64 := by omega
    rw [toSlot_natCast hlt]
    exact hwrap
  have hpush : Pushed L t (t.push L (toSlot n)) (toSlot n) := Pushed.push hroom' (toSlot_lt _)
  rcases execShift_pushed (c := .int) h hpush (by omega) (hcount.symm ▸ hk) with ⟨w, hw, hpw⟩
  exact ⟨w, by simp [himm, hexec, hw], hpw⟩

theorem PushesSlot.shiftImm
    (h : PushesSlot L code s x)
    (hroom : s.free L + 16 ≤ L.limit) (hn : n < 32)
    (hexec : ∀ u, execData L { opcode := op, type := .int32 } u = execShift L o .int u)
    (hpop : op ≠ .pop) (hk : CInteger.binary o .int (slotInt .int x) n = some k) :
    PushesSlot L
      (code ++ [{ opcode := .push, type := .int32, d := .imm (vmImm 32 n) },
        { opcode := op, type := .int32 }]) s (toSlot k) := by
  refine h.append ?_ fun t ht => ht.shiftImm hroom hn hexec hk
  intro d hd
  simp only [mem_cons, not_mem_nil, or_false] at hd
  rcases hd with rfl | rfl
  · simp
  · exact hpop

theorem binary_and_mask (hn : n ≤ 32) :
    CInteger.binary .and .uint (slotInt .uint x)
      (slotInt .uint (toSlot (CInteger.uint.format.wrap (2 ^ n - 1 : Nat)))) =
        some ((x % 2 ^ n : Nat) : Int) := by
  have hpow : (2 : Nat) ^ n ≤ 2 ^ 32 := Nat.pow_le_pow_right (by decide) hn
  have hmask : CInteger.uint.format.wrap (2 ^ n - 1 : Nat) = (2 ^ n - 1 : Nat) := by
    have hrange := inRange_unsigned_iff (f := CInteger.uint.format) rfl
    apply (hrange _).mpr
    have hwidth : CInteger.uint.format.width = 32 := rfl
    rw [hwidth]
    constructor <;> omega
  have hdvd : (2 : Int) ^ n ∣ 2 ^ CInteger.uint.format.width := pow_dvd_pow 2 hn
  rw [slotInt_toSlot, hmask, hmask]
  refine congrArg some ((ofBits_and_mask rfl hn _).trans ?_)
  rw [slotInt, ← Int.emod_emod_of_dvd _ hdvd, wrap_emod_width, Int.emod_emod_of_dvd _ hdvd]
  norm_cast

theorem emitVmMask_pushes {x n mask : Nat}
    (hgen : Emits g g' code image) (h : PushesSlot L code s x)
    (hroom : s.free L + 16 ≤ L.limit) (hmask : lowMask n = some mask) :
    ∃ code', Emits g (emitVmMask mask g') code' image ∧ PushesSlot L code' s (x % 2 ^ n) := by
  simp only [lowMask, ite_none_right_eq_some, some.injEq] at hmask
  rcases hmask with ⟨hn, rfl⟩
  have hop : binaryOpcode .and = some (CInteger.BinaryOp.and, false) := rfl
  have htype : optypeInteger .uint32 = some CInteger.uint := rfl
  have hpushes := h.binaryImm hroom hop htype htype rfl (binary_and_mask (x := x) hn.le)
  have hlt : x % 2 ^ n < 2 ^ 64 := by
    have hpow : (2 : Nat) ^ n ≤ 2 ^ 32 := Nat.pow_le_pow_right (by decide) hn.le
    have := Nat.mod_lt x (show 0 < 2 ^ n by positivity)
    omega
  rw [toSlot_natCast hlt] at hpushes
  refine ⟨_, ?_, hpushes⟩
  have hemits := (hgen.concat
    { opcode := .push, type := .uint32, d := .imm (vmImm 32 (2 ^ n - 1)) }).concat
      { opcode := .and, type := .uint32 }
  simpa [emitVmMask, emitVmOp, emitVmPushImm] using hemits

theorem emitVmFieldShift_pushes
    (hgen : Emits g g' code image) (h : PushesSlot L code s x)
    (hroom : s.free L + 16 ≤ L.limit) (hoffset : v.fieldOffset < 32) :
    ∃ code' y, Emits g (emitVmFieldShift .shr v g') code' image ∧ PushesSlot L code' s y ∧
      (y : Int) % 2 ^ 32 = slotInt .int x / 2 ^ v.fieldOffset % 2 ^ 32 := by
  by_cases hzero : v.fieldOffset = 0
  · refine ⟨code, x, by simpa [emitVmFieldShift, hzero] using hgen, h, ?_⟩
    have := wrap_emod_width (f := CInteger.int.format) x
    rw [hzero, pow_zero, Int.ediv_one]
    exact this.symm
  · have hcount : (0 : Int) ≤ v.fieldOffset ∧ (v.fieldOffset : Int) < CInteger.int.format.width := by
      have hwidth : CInteger.int.format.width = 32 := rfl
      rw [hwidth]
      omega
    have hk : CInteger.binary .shr .int (slotInt .int x) v.fieldOffset =
        some (slotInt .int x / 2 ^ v.fieldOffset) := by
      simp only [CInteger.binary, hcount, and_self, if_true, Int.toNat_natCast]
    have hexec : ∀ u, execData L { opcode := .shr, type := .int32 } u =
        execShift L .shr .int u := by
      intro u
      simp [execData, optypeInteger]
    have hpushes := h.shiftImm hroom hoffset hexec (by decide) hk
    refine ⟨_, _, ?_, hpushes, ?_⟩
    · have hpos : 0 < v.fieldOffset := by omega
      have hemits := (hgen.concat
        { opcode := .push, type := .int32, d := .imm (vmImm 32 v.fieldOffset) }).concat
          { opcode := .shr, type := .int32 }
      simpa [emitVmFieldShift, hpos, emitVmOp, emitVmPushImm] using hemits
    · rw [cast_toSlot]
      exact Int.emod_emod_of_dvd _ (by decide)

theorem emitVmFieldLoad_pushes {x mask : Nat}
    (hgen : Emits g g' code image) (h : PushesSlot L code s x)
    (hroom : s.free L + 16 ≤ L.limit) (hmask : lowMask v.fieldWidth = some mask)
    (hoffset : v.fieldOffset < 32) :
    ∃ code', Emits g (emitVmMask mask (emitVmFieldShift .shr v g')) code' image ∧
      PushesSlot L code' s (slotInt .int x / 2 ^ v.fieldOffset % 2 ^ v.fieldWidth).toNat := by
  rcases emitVmFieldShift_pushes hgen h hroom hoffset with ⟨code1, y, hgen1, h1, hy⟩
  rcases emitVmMask_pushes hgen1 h1 hroom hmask with ⟨code2, hgen2, h2⟩
  refine ⟨code2, hgen2, ?_⟩
  have hwidth : v.fieldWidth ≤ 32 := by
    simp only [lowMask, ite_none_right_eq_some] at hmask
    omega
  have hdvd : (2 : Int) ^ v.fieldWidth ∣ 2 ^ 32 := pow_dvd_pow 2 hwidth
  have hslot : slotInt .int x / 2 ^ v.fieldOffset % 2 ^ v.fieldWidth =
      ((y % 2 ^ v.fieldWidth : Nat) : Int) := by
    rw [← Int.emod_emod_of_dvd _ hdvd, ← hy, Int.emod_emod_of_dvd _ hdvd]
    norm_cast
  rw [hslot]
  exact h2

/-- The store that a load of the given size takes back. -/
def takenBack (env : GenEnv) (v : Var) (sym : Symbol) (size : Int) (g : GenState) : Option VmCode :=
  g.last.filter fun c => !g.protectRemoveTempvar && !v.isField && isReloaded env c v sym size

variable {sym : Symbol}

theorem emitVmLoad_pushes (hmode : g.isGlobalMode = false)
    (hsym : v.symbol = some sym) (hword : wordOf v.type = some c) (hfield : v.isField = false)
    (hkeep : takenBack env v sym (byteSize c) g = none) (hroom : s.free L + 8 ≤ L.limit)
    (hgen : emitVmLoad env v g = some g') :
    ∃ code, Emits g g' code [] ∧ PushesSlot L code s (toSlot (c.format.wrap
      (s.mem.load (varAddr L s (vmAddress env v sym 0)) (byteSize c)))) := by
  simp only [emitVmLoad, hsym, bind_some, intSizeOf_wordOf hword, hfield] at hgen
  unfold takenBack at hkeep
  simp only [hfield] at hkeep
  simp only [Bool.false_eq_true, if_false, bind_some, hkeep, some.injEq] at hgen
  subst hgen
  refine ⟨_, Emits.code hmode _, PushesSlot.single (by simp) (toSlot_lt _) hroom ?_⟩
  exact execData_pushVar hword rfl

theorem emitVmLoad_field_pushes (hmode : g.isGlobalMode = false)
    (hsym : v.symbol = some sym) (hword : (wordOf v.type).isSome) (hfield : v.isField = true)
    (hoffset : v.fieldOffset < 32) (hroom : s.free L + 16 ≤ L.limit)
    (hgen : emitVmLoad env v g = some g') :
    ∃ code, Emits g g' code [] ∧ PushesSlot L code s
      (slotInt .int (s.mem.load (varAddr L s (vmAddress env v sym 0)) 4) / 2 ^ v.fieldOffset %
        2 ^ v.fieldWidth).toNat := by
  rcases isSome_iff_exists.mp hword with ⟨c, hc⟩
  have hkeep : (g.last.filter fun _ => false) = none := by
    cases g.last <;> rfl
  simp only [emitVmLoad, hsym, bind_some, hfield, Bool.not_true, Bool.and_false,
    Bool.false_and, hkeep, if_true, map_eq_some_iff] at hgen
  rcases hgen with ⟨mask, hmask, rfl⟩
  -- The unit is pushed as 32 bits of either signedness.
  have hunit : ∃ x,
      execData L
        { opcode := .push, type := getVmopVarType v, d := .addr (vmAddress env v sym 4) } s =
        some (s.push L x) ∧
      x < 2 ^ 64 ∧
      slotInt .int x = slotInt .int (s.mem.load (varAddr L s (vmAddress env v sym 0)) 4) := by
    refine ⟨toSlot ((IntFormat.bits32 (!v.type.isUnsignedType)).wrap
      (s.mem.load (varAddr L s (vmAddress env v sym 4)) 4)), ?_, toSlot_lt _, ?_⟩
    · rw [getVmopVarType_eq hc]
      cases v.type.isUnsignedType <;> rfl
    · rw [slotInt_toSlot]
      apply wrap_congr
      exact wrap_emod_width (f := IntFormat.bits32 _) _
  rcases hunit with ⟨x, hexec, hx, hslot⟩
  rw [← hslot]
  exact emitVmFieldLoad_pushes (Emits.code hmode _)
    (PushesSlot.single (by simp) hx (by omega) hexec) hroom hmask hoffset

theorem varDirect_type (sym : Symbol) : (varDirect sym).type = sym.type := by
  unfold varDirect
  split <;> rfl

theorem varDirect_symbol (sym : Symbol) : (varDirect sym).symbol = some sym := by
  unfold varDirect
  split <;> rfl

theorem varDirect_isField (sym : Symbol) : (varDirect sym).isField = false := by
  unfold varDirect
  split <;> rfl

theorem emitVmPushString_pushes (string : List (BitVec 8)) (hmode : g.isGlobalMode = false)
    (hroom : s.free L + 8 ≤ L.limit) :
    ∃ code, Emits g (emitVmPushString string g) code (string ++ [0]) ∧
      PushesSlot L code s ((L.global + g.globalImage.length) % 2 ^ 64) := by
  refine ⟨[{ opcode := .push, type := .charp, d := .str g.globalImage.length }], ?_, ?_⟩
  · constructor <;> simp [emitVmPushString, emitVmCode, GenState.setCode, GenState.code, hmode]
  · refine PushesSlot.single (by simp) (Nat.mod_lt _ (by decide)) hroom ?_
    rw [State.push_mod]
    rfl

theorem vmLoadPointer_pushes (hmode : g.isGlobalMode = false)
    (hsym : sym.type.isPointerType = true ∨ (varDirect sym).isString = true)
    (hroom : s.free L + 8 ≤ L.limit) (hgen : vmLoadPointer env sym g = some g') :
    ∃ code,
      Emits g g' code (if (varDirect sym).isString then env.string sym.id ++ [0] else []) ∧
        PushesSlot L code s (pointerValue env L g.context s sym) := by
  unfold vmLoadPointer at hgen
  unfold pointerValue
  by_cases hstring : (varDirect sym).isString = true
  · simp only [hstring, if_true, some.injEq] at hgen ⊢
    subst hgen
    exact emitVmPushString_pushes _ hmode hroom
  · have hpointer : sym.type.isPointerType = true := by
      rcases hsym with h | h
      · exact h
      · exact absurd h hstring
    have hword : wordOf (varDirect sym).type = some .ulong := by
      simp [varDirect_type, wordOf, CType.wordType, hpointer]
    simp only [hstring, if_false, Bool.false_eq_true, map_eq_some_iff] at hgen ⊢
    rcases hgen with ⟨g1, hload, rfl⟩
    have hkeep : takenBack env (varDirect sym) sym (byteSize .ulong)
        { g with protectRemoveTempvar := true } = none := by
      unfold takenBack
      simp only [Bool.not_true, Bool.false_and]
      cases GenState.last _ <;> rfl
    rcases emitVmLoad_pushes (g := { g with protectRemoveTempvar := true }) (L := L) (s := s)
      hmode (varDirect_symbol sym) hword
      (varDirect_isField sym) hkeep hroom hload with ⟨code, hemits, hpushes⟩
    refine ⟨code, ⟨hemits.prog, hemits.mode, hemits.labels, hemits.image⟩, ?_⟩
    have hlt := Memory.load_lt s.mem (varAddr L s (vmAddress env (varDirect sym) sym 8)) 8
    rw [toSlot_wrap_word rfl] at hpushes
    have hslot := toSlot_natCast (n := s.mem.load
      (varAddr L s (vmAddress env (varDirect sym) sym 8)) 8) (by norm_num at hlt ⊢; exact hlt)
    exact hslot ▸ hpushes

theorem emitVmLoadAddress_pushes (hmode : g.isGlobalMode = false)
    (hroom : s.free L + 8 ≤ L.limit) (hslot : addressValue env L g.context s v = some x)
    (hgen : emitVmLoadAddress env v g = some g') :
    ∃ code, Emits g g' code [] ∧ PushesSlot L code s x := by
  unfold addressValue at hslot
  unfold emitVmLoadAddress at hgen
  cases hsym : v.symbol with
  | none => simp [hsym] at hslot
  | some sym =>
    simp only [hsym, bind_some, map_eq_some_iff, GenState.context] at hslot hgen
    rcases hgen with ⟨size, hsize, hgen⟩
    split at hgen
    · rename_i hlabel
      simp only [hlabel, if_true, map_eq_some_iff] at hslot
      rcases hslot with ⟨i, hi, rfl⟩
      subst hgen
      refine ⟨_, Emits.code hmode _, PushesSlot.single (by simp) (Nat.mod_lt _ (by decide)) hroom ?_⟩
      rw [State.push_mod]
      simp [execData, execPush, hi]
    · rename_i hlabel
      simp only [hlabel, if_false, some.injEq, Bool.false_eq_true] at hslot
      subst hslot hgen
      refine ⟨_, Emits.code hmode _, PushesSlot.single (by simp) (Nat.mod_lt _ (by decide)) hroom ?_⟩
      rw [State.push_mod]
      rfl

/-- Pushing an integer constant of a type, or a constant pointer as a character. -/
theorem vmLoadImmediate_pushes (hmode : g.isGlobalMode = false)
    (hkind : v.kind = .immediate) (hword : wordOf v.type = some c)
    (hroom : s.free L + 16 ≤ L.limit) (hslot : operandSlot env L g.context s v = some x)
    (hgen : vmLoadImmediate env v g = some g') :
    ∃ code, Emits g g' code (loadedString env v) ∧ PushesSlot L code s x := by
  have hint : ∀ (width : Nat) (unsigned signed : VmOptype) (d : CInteger),
      optypeInteger (if v.type.isUnsignedType then unsigned else signed) = some d →
      d.format.width ≤ width → width ≤ 64 →
      ∃ code, Emits g (emitVmPushInt v width unsigned signed g) code [] ∧
        PushesSlot L code s (toSlot (d.format.wrap v.imm.u)) := by
    intro width unsigned signed d hd hle hword
    refine ⟨_, Emits.code hmode _, PushesSlot.single (by simp) (toSlot_lt _) (by omega) ?_⟩
    rw [execData_pushImm hd, immSlot_vmImm hle hword]
  rcases wordOf_cases hword with ⟨hp, rfl⟩ | ⟨hp, hop, hsize, hinteger, hsigned⟩
  · have htype : v.type.typeOf = .pointer := by simpa [CType.isPointerType] using hp
    simp only [vmLoadImmediate, htype] at hgen
    cases hsym : v.symbol with
    | none =>
      have hconstant : isPointerConstant v = true := by simp [isPointerConstant, hkind, hp, hsym]
      simp only [operandSlot, hconstant, if_true, some.injEq] at hslot
      simp only [hsym, some.injEq] at hgen
      subst hslot hgen
      have hstring : loadedString env v = [] := by simp [loadedString, hkind, hp, hsym]
      rw [hstring]
      apply hint
      · cases v.type.isUnsignedType <;> rfl
      · cases v.type.isUnsignedType <;> decide
      · decide
    | some sym =>
      have hconstant : isPointerConstant v = false := by simp [isPointerConstant, hsym]
      have hstring : loadedString env v = env.string sym.id ++ [0] := by
        simp [loadedString, hkind, hp, hsym]
      simp only [hsym, ite_none_right_eq_some, some.injEq] at hgen
      rcases hgen with ⟨hsymtype, rfl⟩
      simp [operandSlot, operandInt, hconstant, hkind, hword, hp, hsym, hsymtype] at hslot
      have hlt : addOffset ((L.global + g.context.pos) % 2 ^ 64) v.offset < 2 ^ 64 := toSlot_lt _
      have hx : x = addOffset ((L.global + g.context.pos) % 2 ^ 64) v.offset := by
        rw [← hslot]
        exact toSlot_natCast hlt
      rw [hstring, hx]
      rcases emitVmPushString_pushes (env.string sym.id) hmode
        (show s.free L + 8 ≤ L.limit by omega) with ⟨code, hemits, hpushes⟩
      exact emitVmAddOffset_pushes _ hemits hpushes (Nat.mod_lt _ (by decide)) hroom
  · have hconstant : isPointerConstant v = false := by simp [isPointerConstant, hp]
    have hstring : loadedString env v = [] := by simp [loadedString, hkind, hp]
    have hx : x = toSlot (c.format.wrap v.imm.u) := by
      simp [operandSlot, operandInt, hconstant, hkind, hword, hp] at hslot
      exact hslot.symm
    rw [hstring, hx]
    unfold CType.isInteger at hinteger
    unfold getVmOptype at hop
    unfold vmLoadImmediate at hgen
    have hwidth : ∀ unsigned signed : VmOptype, ∀ width : Nat,
        optypeInteger (if v.type.isUnsignedType then unsigned else signed) = some c →
        (∀ d, optypeInteger unsigned = some d → d.format.width = width) →
        (∀ d, optypeInteger signed = some d → d.format.width = width) →
        c.format.width = width := by
      intro unsigned signed width h hu hs
      split at h
      · exact hu c h
      · exact hs c h
    cases htype : v.type.typeOf <;> rw [htype] at hinteger hop hgen <;>
      first
        | exact absurd hinteger (by decide)
        | (simp only [some.injEq] at hgen
           subst hgen
           apply hint _ _ _ c hop
           · apply le_of_eq
             apply hwidth _ _ _ hop <;> (intro d hd; cases hd; rfl)
           · decide)

theorem pointerValue_lt (k : LoadContext) (sym : Symbol) : pointerValue env L k s sym < 2 ^ 64 := by
  unfold pointerValue
  split
  · exact Nat.mod_lt _ (by decide)
  · have hlt := Memory.load_lt s.mem (varAddr L s (vmAddress env (varDirect sym) sym 8)) 8
    norm_num at hlt ⊢
    exact hlt

/-- The instruction that reads through the pointer on top. -/
def derefCode (env : GenEnv) (v : Var) (sym : Symbol) (size : Int) : VmCode where
  opcode := .deref
  type := storeOptype v
  d := .addr (vmAddress env v sym size)

theorem vmLoadDeref_address (hmode : g.isGlobalMode = false)
    (hkind : v.kind = .deref) (hsym : v.symbol = some sym)
    (hpointer : sym.type.isPointerType = true ∨ (varDirect sym).isString = true)
    (hroom : s.free L + 16 ≤ L.limit) (hgen : vmLoadVar env v g = some g') :
    ∃ code size,
      Emits g g' (code ++ [derefCode env v sym size]) (loadedString env v) ∧
      PushesSlot L code s (addOffset (pointerValue env L g.context s sym) v.offset) := by
  simp only [vmLoadVar, hkind, hsym, bind_some, bind_eq_some_iff] at hgen
  rcases hgen with ⟨g1, hload, hderef⟩
  rcases vmLoadPointer_pushes hmode hpointer (show s.free L + 8 ≤ L.limit by omega) hload with
    ⟨code1, hemits1, hpushes1⟩
  rcases emitVmAddOffset_pushes v.offset hemits1 hpushes1 (pointerValue_lt _ _) hroom with
    ⟨code2, hemits2, hpushes2⟩
  simp only [emitVmDeref, hsym, bind_some, map_eq_some_iff] at hderef
  rcases hderef with ⟨size, -, rfl⟩
  have hstring : loadedString env v =
      if (varDirect sym).isString then env.string sym.id ++ [0] else [] := by
    simp [loadedString, hkind, hsym]
  rw [hstring]
  exact ⟨code2, size, hemits2.concat _, hpushes2⟩

theorem vmLoadDeref_pushes {a : Nat} (hmode : g.isGlobalMode = false)
    (hkind : v.kind = .deref) (hword : wordOf v.type = some c)
    (hroom : s.free L + 16 ≤ L.limit) (haddr : operandAddr env L g.context s v = some a)
    (hclear : Clear L s a (byteSize c)) (hgen : vmLoadVar env v g = some g') :
    ∃ code, Emits g g' code (loadedString env v) ∧
      PushesSlot L code s (toSlot (c.format.wrap (s.mem.load a (byteSize c)))) := by
  cases hsym : v.symbol with
  | none => simp [vmLoadVar, hkind, hsym] at hgen
  | some sym =>
    simp only [operandAddr, hkind, hsym, bind_some, ite_none_right_eq_some,
      ite_none_left_eq_some, some.injEq, not_lt] at haddr
    rcases haddr with ⟨hpointer, hnull, haddr⟩
    rcases vmLoadDeref_address hmode hkind hsym hpointer hroom hgen with
      ⟨code, size, hemits, hpushes⟩
    refine ⟨_, hemits, hpushes.concat (by simp [derefCode]) ?_⟩
    intro t ht
    rw [haddr] at ht hnull
    rw [derefCode, execData_deref hword (ht.top.symm ▸ hnull), ht.top, ht.load hclear]
    exact ⟨_, rfl, ht.replace (by omega) (toSlot_lt _)⟩

/-- A load that takes nothing back pushes the slot of the operand. -/
theorem vmLoadVar_pushes (hmode : g.isGlobalMode = false)
    (hword : wordOf v.type = some c) (hkeep : reloads env g v = false)
    (hroom : s.free L + 16 ≤ L.limit)
    (hclear : ∀ r ∈ operandReads env L g.context s v, Clear L s r.1 r.2)
    (hslot : operandSlot env L g.context s v = some x) (hgen : vmLoadVar env v g = some g') :
    ∃ code, Emits g g' code (loadedString env v) ∧ PushesSlot L code s x := by
  cases hkind : v.kind with
  | immediate =>
    simp only [vmLoadVar, hkind] at hgen
    exact vmLoadImmediate_pushes hmode hkind hword hroom hslot hgen
  | address =>
    have hconstant : isPointerConstant v = false := by simp [isPointerConstant, hkind]
    have hstring : loadedString env v = [] := by simp [loadedString, hkind]
    simp only [vmLoadVar, hkind] at hgen
    simp [operandSlot, hconstant, hkind] at hslot
    rw [hstring]
    exact emitVmLoadAddress_pushes hmode (by omega) hslot hgen
  | direct =>
    have hconstant : isPointerConstant v = false := by simp [isPointerConstant, hkind]
    have hstring : loadedString env v = [] := by simp [loadedString, hkind]
    simp only [vmLoadVar, hkind] at hgen
    rw [hstring]
    cases hsym : v.symbol with
    | none => simp [emitVmLoad, hsym] at hgen
    | some sym =>
      have haddr : operandAddr env L g.context s v =
          some (varAddr L s (vmAddress env v sym 0)) := by simp [operandAddr, hkind, hsym]
      by_cases hfield : v.isField = true
      · simp [operandSlot, hconstant, hkind, hfield, haddr] at hslot
        rcases hslot with ⟨⟨hoffset, -⟩, rfl⟩
        exact emitVmLoad_field_pushes hmode hsym (by simp [hword]) hfield hoffset hroom hgen
      · have hfield' : v.isField = false := by simpa using hfield
        simp [operandSlot, operandInt, hconstant, hkind, hfield', haddr, hword] at hslot
        subst hslot
        refine emitVmLoad_pushes hmode hsym hword hfield' ?_ (by omega) hgen
        simp only [reloads, hkind, hsym, intSizeOf_wordOf hword, hfield'] at hkeep
        unfold takenBack
        rw [filter_eq_none_iff]
        intro d hd
        simp only [hd, hfield', any_some, decide_true, Bool.true_and, Bool.not_false,
          Bool.and_true] at hkeep ⊢
        simpa using hkeep
  | deref =>
    have hconstant : isPointerConstant v = false := by simp [isPointerConstant, hkind]
    cases haddr : operandAddr env L g.context s v with
    | none => simp [operandSlot, operandInt, hconstant, hkind, haddr, hword] at hslot
    | some a =>
      have hx : x = toSlot (c.format.wrap (s.mem.load a (byteSize c))) := by
        by_cases hfield : v.isField = true
        · simp [operandSlot, hconstant, hkind, hfield, haddr, hword] at hslot
          exact hslot.symm
        · simp [operandSlot, operandInt, hconstant, hkind, hfield, haddr, hword] at hslot
          exact hslot.symm
      have hmem : (a, byteSize c) ∈ operandReads env L g.context s v := by
        simp [operandReads, hkind, haddr, hword]
      rw [hx]
      exact vmLoadDeref_pushes hmode hkind hword hroom haddr (hclear _ hmem) hgen

theorem operandSlot_lt {k : LoadContext} (h : operandSlot env L k s v = some x) :
    x < 2 ^ 64 := by
  unfold operandSlot at h
  split at h
  · simp only [some.injEq] at h
    rw [← h]
    exact toSlot_lt _
  · split at h
    · simp only [bind_eq_some_iff, ite_none_right_eq_some, some.injEq] at h
      rcases h with ⟨a, -, ⟨-, hwidth⟩, rfl⟩
      have hpow : (2 : Int) ^ v.fieldWidth ≤ 2 ^ 32 := pow_le_pow_right₀ (by decide) hwidth.le
      have hpos : (0 : Int) < 2 ^ v.fieldWidth := by positivity
      have hlt := Int.emod_lt_of_pos (slotInt .int (s.mem.load a 4) / 2 ^ v.fieldOffset) hpos
      omega
    · split at h
      · simp only [bind_eq_some_iff, map_eq_some_iff] at h
        rcases h with ⟨a, -, c, -, rfl⟩
        exact toSlot_lt _
      · split at h
        · unfold addressValue at h
          simp only [bind_eq_some_iff] at h
          rcases h with ⟨sym, -, h⟩
          split at h
          · rcases map_eq_some_iff.mp h with ⟨i, -, rfl⟩
            exact Nat.mod_lt _ (by decide)
          · simp only [some.injEq] at h
            rw [← h]
            exact Nat.mod_lt _ (by decide)
        · rcases map_eq_some_iff.mp h with ⟨n, -, rfl⟩
          exact toSlot_lt _

end Kcs.Vm
