import Kcs.Lib.CInteger
import Kcs.Lib.Memory
import Kcs.Vm.Code

/-!
# The virtual machine

Execution of the instructions of `vmrunlir.c` on integers and addresses.  The
machine evaluates on a stack of 64-bit slots that lies above the variables of
the running function in one byte memory.  Floating values are moved as bytes;
arithmetic on them and conversions of them have no successor state here.

Main results:

- Lemma {lit}`execCode_append`: code runs in sequence.
- Lemma {lit}`State.top_push`: what is pushed is on top.
-/

namespace Kcs.Vm

open Memory

/-! ## Slots -/

/-- Registers and memory. -/
structure State where
  mem : Memory
  sp : Nat
  bp : Nat
  gp : Nat
  retsize : Nat := 0
  retval : Nat := 0

/-- What the machine runs in: where its two arrays are and where the first one
ends, the instruction at which a function starts, and what a call does until the
function returns. -/
structure Layout where
  stack : Nat
  limit : Nat
  global : Nat
  function : String → Option Nat
  call : VmCode → State → Option State

variable (L : Layout)

/-- Address of the next free slot, `STACK_TOPA`. -/
def State.free (s : State) : Nat := L.stack + s.sp

/-- Address of the slot on top. -/
def State.topAddr (s : State) : Nat := L.stack + s.sp - 8

/-- The slot on top. -/
def State.top (s : State) : Nat := s.mem.load (s.topAddr L) 8

/-- `PUSHI` -/
def State.push (s : State) (x : Nat) : State :=
  { s with mem := s.mem.store (s.free L) 8 x, sp := s.sp + 8 }

/-- Assignment to the low bytes of the slot on top. -/
def State.setTop (s : State) (size x : Nat) : State :=
  { s with mem := s.mem.store (s.topAddr L) size x }

/-- Take the slot on top off the stack. -/
def State.drop (s : State) : State := { s with sp := s.sp - 8 }

/-- Copy bytes from one place to another. -/
def copyBytes (m : Memory) (dst src size : Nat) : Memory := fun b =>
  if dst ≤ b ∧ b < dst + size then m (src + (b - dst)) else m b

/-- A C integer as a slot: conversion to `uint64_t`. -/
def toSlot (n : Int) : Nat := (n % 2 ^ 64).toNat

/-- The integer type in which an instruction of the given operand type
computes. -/
def optypeInteger : VmOptype → Option CInteger
  | .int8 => some .char
  | .int16 => some .short
  | .int32 => some .int
  | .int64 => some .long
  | .uint8 => some .uchar
  | .uint16 => some .ushort
  | .uint32 => some .uint
  | .uint64 => some .ulong
  | _ => none

/-- A slot read in an integer type. -/
def slotInt (c : CInteger) (x : Nat) : Int := c.format.wrap x

/-- Bytes of an integer type. -/
def byteSize (c : CInteger) : Nat := c.format.width / 8

/-- Bytes that a store of one slot writes. -/
def storeBytes (type : VmOptype) : Option Nat :=
  if type = .charp then some 8 else (optypeInteger type).map byteSize

/-- Address of a variable. -/
def varAddr (s : State) (a : VmAddress) : Nat :=
  ((L.stack + (if a.isGlobal then s.gp else s.bp) : Nat) + a.index).toNat

/-! ## Instructions without jumps -/

/-- A member of `union vm_imm` read in an integer type. -/
def immSlot (c : CInteger) (v : Value) : Nat := toSlot (c.format.wrap v.u)

/-- Load a variable of the given size, extended by the given signedness. -/
def pushVar (s : State) (signed : Bool) (a : VmAddress) : State :=
  let addr := varAddr L s a
  match a.size with
  | 1 => s.push L (toSlot ((IntFormat.bits8 signed).wrap (s.mem.load addr 1)))
  | 2 => s.push L (toSlot ((IntFormat.bits16 signed).wrap (s.mem.load addr 2)))
  | 4 => s.push L (toSlot ((IntFormat.bits32 signed).wrap (s.mem.load addr 4)))
  | 8 => s.push L (toSlot ((IntFormat.bits64 signed).wrap (s.mem.load addr 8)))
  | size =>
    { s with
      mem := copyBytes s.mem (s.free L) addr size.toNat
      sp := s.sp + (pad8 size).toNat }

/-- Bytes of a floating value. -/
def realSize : VmOptype → Option Nat
  | .flt => some 4
  | .dbl => some 8
  | .ldbl => some 16
  | _ => none

/-- Bytes of the slots that a value of the given size takes. -/
def slotSize (size : Nat) : Nat := if size = 16 then 16 else 8

/-- Load a floating variable; another size is left alone. -/
def pushReal (s : State) (a : VmAddress) : State :=
  if a.size = 4 ∨ a.size = 8 ∨ a.size = 16 then
    { s with
      mem := copyBytes s.mem (s.free L) (varAddr L s a) a.size.toNat
      sp := s.sp + slotSize a.size.toNat }
  else s

/-- `VM_PUSH`.  The name of a function is replaced by its address before the
program runs. -/
def execPush (c : VmCode) (s : State) : Option State :=
  match c.type, c.d with
  | .vari, .addr a => some (pushVar L s true a)
  | .varu, .addr a => some (pushVar L s false a)
  | .varobj, .addr a =>
    some { s with
      mem := copyBytes s.mem (s.free L) (varAddr L s a) a.size.toNat
      sp := s.sp + (pad8 a.size).toNat }
  | .varfl, .addr a => some (pushReal L s a)
  | .addr, .addr a => some (s.push L (varAddr L s a))
  | .funcname, .addr a => (L.function a.name).map fun i => s.push L i
  | .funcaddr, .addr a => some (s.push L (toSlot a.index))
  | .charp, .str pos => some (s.push L (L.global + pos))
  | type, .imm v =>
    match optypeInteger type with
    | some c => some (s.push L (immSlot c v))
    | none =>
      (realSize type).map fun size =>
        { s with
          mem := s.mem.store (s.free L) size (v.lo.toNat + 2 ^ 64 * v.hi.toNat)
          sp := s.sp + slotSize size }
  | _, _ => none

/-- `VM_STORE`: the slot stays on top. -/
def execStore (c : VmCode) (s : State) : Option State :=
  match c.d with
  | .addr a =>
    match storeBytes c.type with
    | some size => some { s with mem := s.mem.store (varAddr L s a) size (s.top L) }
    | none =>
      match realSize c.type with
      | some size =>
        some { s with
          mem := copyBytes s.mem (varAddr L s a) (L.stack + (s.sp - slotSize size)) size }
      | none =>
        -- The source is the free slot, not the object on top.
        some { s with mem := copyBytes s.mem (varAddr L s a) (s.free L) a.size.toNat }
  | _ => none

/-- Take an object off the stack and copy it to an address. -/
def popObject (s : State) (addr size slot : Nat) : State :=
  { s with
    mem := copyBytes s.mem addr (L.stack + (s.sp - slot)) size
    sp := s.sp - slot }

/-- `VM_POP` -/
def execPop (c : VmCode) (s : State) : Option State :=
  match c.type, c.d with
  | .none, .size n => some { s with sp := s.sp - n.toNat }
  | type, .addr a =>
    match storeBytes type with
    | some size => some { s.drop with mem := s.mem.store (varAddr L s a) size (s.top L) }
    | none =>
      match realSize type with
      | some size => some (popObject L s (varAddr L s a) size (slotSize size))
      | none => some (popObject L s (varAddr L s a) a.size.toNat (pad8 a.size).toNat)
  | _, _ => none

/-- The pages that `NULLCHK` refuses. -/
def nullPage : Nat := 0x1000

/-- `VM_DEPOP`: the pointer is a variable. -/
def execDepop (c : VmCode) (s : State) : Option State :=
  match c.d with
  | .addr a =>
    let pointer := s.mem.load (varAddr L s { a with index := a.base }) 8
    if pointer < nullPage then none
    else
      let addr := ((pointer + a.offset) % 2 ^ 64).toNat
      match storeBytes c.type with
      | some size => some { s.drop with mem := s.mem.store addr size (s.top L) }
      | none =>
        match realSize c.type with
        | some size => some (popObject L s addr size (slotSize size))
        | none => some (popObject L s addr a.size.toNat (pad8 a.size).toNat)
  | _ => none

/-- `VM_DEREF`: the pointer is on top. -/
def execDeref (c : VmCode) (s : State) : Option State :=
  let addr := s.top L
  match optypeInteger c.type with
  | some i =>
    if addr < nullPage then none
    else some (s.drop.push L (toSlot (i.format.wrap (s.mem.load addr (byteSize i)))))
  | none =>
    let t := s.drop
    match realSize c.type with
    | some size =>
      if addr < nullPage then none
      else
        some { t with
          mem := copyBytes t.mem (t.free L) addr size
          sp := t.sp + slotSize size }
    | none =>
      some { t with
        mem := copyBytes t.mem (t.free L) addr c.addr.size.toNat
        sp := t.sp + (pad8 c.addr.size).toNat }

/-- The integer types between which `CAST_FROM` converts, by the kind of the
source; `unsigned` is the type of the same width. -/
def castSource (src : CType) : Option CInteger :=
  match src.typeOf with
  | .bool | .char => some (if src.isSigned then .char else .uchar)
  | .short => some (if src.isSigned then .short else .ushort)
  | .int => some (if src.isSigned then .int else .uint)
  | .long => some (if src.isSigned then .long else .ulong)
  | _ => none

/-- `VM_CAST`: the low bytes of the slot are replaced; other types than integers
are left alone. -/
def execCast (src dst : CType) (s : State) : Option State :=
  if src.isReal ∨ dst.isReal then none
  else
    match castSource src with
    | none => some s
    | some c =>
      let n := toSlot (slotInt c (s.top L))
      match dst.typeOf with
      | .bool => some (s.setTop L 1 (if s.top L = 0 then 0 else 1))
      | .char => some (s.setTop L 1 n)
      | .short => some (s.setTop L 2 n)
      | .int => some (s.setTop L 4 n)
      | .long => some (s.setTop L 8 n)
      | _ => some s

/-- The binary operators; the last two compare with the operands exchanged. -/
def binaryOpcode : VmOpcode → Option (CInteger.BinaryOp × Bool)
  | .add => some (.add, false)
  | .sub => some (.sub, false)
  | .mul => some (.mul, false)
  | .div => some (.div, false)
  | .mod => some (.mod, false)
  | .and => some (.and, false)
  | .or => some (.or, false)
  | .xor => some (.xor, false)
  | .eq => some (.eq, false)
  | .ne => some (.ne, false)
  | .ge => some (.ge, false)
  | .gt => some (.gt, false)
  | .le => some (.ge, true)
  | .lt => some (.gt, true)
  | _ => none

/-- `OP2I`: both operands are read in the type, and C promotes them. -/
def execBinary (op : CInteger.BinaryOp) (swap : Bool) (c : CInteger) (s : State) : Option State :=
  let b := slotInt c (s.top L)
  let t := s.drop
  let a := slotInt c (t.top L)
  (if swap then CInteger.binary op c.promote b a else CInteger.binary op c.promote a b).map
    fun n => t.setTop L 8 (toSlot n)

/-- The mask of `OP2S` on the count. -/
def shiftCount (c : CInteger) (x : Nat) : Int :=
  CInteger.int.format.wrap (if c.format.width < 32 then x % 2 ^ c.format.width else x : Nat)

/-- `OP2S` -/
def execShift (op : CInteger.BinaryOp) (c : CInteger) (s : State) : Option State :=
  let count := shiftCount c (s.top L)
  let t := s.drop
  (CInteger.binary op c.promote (slotInt c (t.top L)) count).map
    fun n => t.drop.push L (toSlot n)

/-- `VM_NOT` and `VM_NEG` -/
def execUnary (op : CInteger.UnaryOp) (c : CInteger) (s : State) : State :=
  s.setTop L 8 (toSlot (CInteger.unary op c.promote (slotInt c (s.top L))))

/-- `VM_INC` and `VM_DEC` work on the low four bytes of the slot. -/
def execIncrement (n : Int) (s : State) : State :=
  s.setTop L 4 (toSlot (slotInt .int (s.top L) + n))

/-- `VM_FZERO` -/
def execFzero (c : VmCode) (s : State) : Option State :=
  match c.d with
  | .addr a =>
    if 8 < a.size ∨ a.size = 1 ∨ a.size = 2 ∨ a.size = 4 ∨ a.size = 8 then
      some { s with mem := s.mem.store (varAddr L s a) a.size.toNat 0 }
    else some s
  | _ => none

/-- Move a result of the size of the last return down over the arguments. -/
def moveResult (s : State) (vp sp size : Nat) : State :=
  let m :=
    if 8 < size then copyBytes s.mem (L.stack + sp) (L.stack + vp) size
    else s.mem.store (L.stack + sp) 8 (s.mem.load (L.stack + vp) 8)
  { s with mem := m, sp := sp + size }

/-- An instruction that goes on with the next one.  Labels are left out of the
code that is run. -/
def execData (c : VmCode) (s : State) : Option State :=
  match c.opcode with
  | .nop | .alloca | .label => some s
  | .store => execStore L c s
  | .fzero => execFzero L c s
  | .clup =>
    match c.d with
    | .size n => some (moveResult L s (s.sp - s.retsize) (s.sp - s.retsize - n.toNat) s.retsize)
    | _ => none
  | .clpop =>
    match c.d with
    | .size n => some { s with sp := s.sp - n.toNat }
    | _ => none
  | .enter =>
    match c.d with
    | .size n =>
      let t := s.push L s.bp
      some { t with bp := t.sp, sp := t.sp + n.toNat }
    | _ => none
  | .deref => execDeref L c s
  | .cast =>
    match c.d with
    | .cast src dst => execCast L src dst s
    | _ => none
  | .push => execPush L c s
  | .pop => execPop L c s
  | .depop => execDepop L c s
  | .not => (optypeInteger c.type).map fun i => execUnary L .not i s
  | .neg => (optypeInteger c.type).map fun i => execUnary L .neg i s
  | .shl => (optypeInteger c.type).bind fun i => execShift L .shl i s
  | .shr => (optypeInteger c.type).bind fun i => execShift L .shr i s
  | .inc => some (execIncrement L 1 s)
  | .dec => some (execIncrement L (-1) s)
  | .saveRetval => some { s with retval := s.top L }
  | .call => L.call c s
  | op =>
    (binaryOpcode op).bind fun (o, swap) =>
      (optypeInteger c.type).bind fun i => execBinary L o swap i s

/-- `VM_JNZ`: all bits of the slot on top are tested. -/
def execJnz (index : Int) (s : State) (ip : Int) : State × Int :=
  (s.drop, if s.top L = 0 then ip + 1 else ip + index)

/-- Code without jumps. -/
def execCode (code : List VmCode) (s : State) : Option State :=
  code.foldlM (fun s c => execData L c s) s

@[simp]
theorem execCode_nil (s : State) : execCode L [] s = some s := rfl

@[simp]
theorem execCode_cons (c : VmCode) (code : List VmCode) (s : State) :
    execCode L (c :: code) s = (execData L c s).bind (execCode L code) := rfl

/-- Code runs in sequence. -/
theorem execCode_append (code code' : List VmCode) (s : State) :
    execCode L (code ++ code') s = (execCode L code s).bind (execCode L code') := by
  induction code generalizing s with
  | nil => rfl
  | cons c code ih =>
    simp only [List.cons_append, execCode_cons, Option.bind_assoc]
    congr 1
    funext t
    exact ih t

theorem opcode_ne_jmp_of_execCode {code : List VmCode} {s t : State}
    (h : execCode L code s = some t) : ∀ c ∈ code, c.opcode ≠ .jmp := by
  induction code generalizing s with
  | nil => simp
  | cons d code ih =>
    rw [execCode_cons, Option.bind_eq_some_iff] at h
    rcases h with ⟨u, hd, hrest⟩
    intro c hc
    rcases List.mem_cons.mp hc with rfl | hc
    · intro hjmp
      simp [execData, hjmp, binaryOpcode] at hd
    · exact ih hrest c hc

/-! ## Slots and integers -/

theorem toSlot_lt (n : Int) : toSlot n < 2 ^ 64 := by
  unfold toSlot
  have hpos := Int.emod_nonneg n (b := 2 ^ 64) (by decide)
  have hlt := Int.emod_lt_of_pos n (b := 2 ^ 64) (by decide)
  omega

theorem cast_toSlot (n : Int) : (toSlot n : Int) = n % 2 ^ 64 :=
  Int.toNat_of_nonneg (Int.emod_nonneg n (by decide))

theorem slotInt_toSlot (c : CInteger) (n : Int) : slotInt c (toSlot n) = c.format.wrap n := by
  unfold slotInt
  rw [cast_toSlot, IntFormat.wrap_emod]

theorem toSlot_congr {m n : Int} (h : m % 2 ^ 64 = n % 2 ^ 64) : toSlot m = toSlot n := by
  unfold toSlot
  rw [h]

theorem toSlot_natCast {n : Nat} (h : n < 2 ^ 64) : toSlot n = n := by
  unfold toSlot
  omega

theorem load_copyBytes (m : Memory) (dst src n : Nat) :
    (copyBytes m dst src n).load dst n = m.load src n := by
  have hgen : ∀ k j, j + k = n → (copyBytes m dst src n).load (dst + j) k = m.load (src + j) k := by
    intro k
    induction k with
    | zero =>
      intro j hj
      rfl
    | succ k ih =>
      intro j hj
      have hbyte : copyBytes m dst src n (dst + j) = m (src + j) := by
        simp only [copyBytes]
        rw [if_pos (by omega)]
        congr 2
        omega
      rw [Memory.load, Memory.load, hbyte]
      have := ih (j + 1) (by omega)
      rw [← Nat.add_assoc, ← Nat.add_assoc] at this
      rw [this]
  have := hgen n 0 (by omega)
  simpa using this

theorem copyBytes_outside {m : Memory} {dst src n b : Nat} (h : b < dst ∨ dst + n ≤ b) :
    copyBytes m dst src n b = m b := by
  rw [copyBytes, if_neg]
  omega

/-! ## The stack -/

/-- Whether bytes lie outside the free part of the stack. -/
def Clear (s : State) (a n : Nat) : Prop := a + n ≤ s.free L ∨ L.limit ≤ a

instance (s : State) (a n : Nat) : Decidable (Clear L s a n) :=
  inferInstanceAs (Decidable (a + n ≤ s.free L ∨ L.limit ≤ a))

/-- A value has been pushed: it is on top, and only the free part of the stack
has changed. -/
structure Pushed (s t : State) (x : Nat) : Prop where
  sp : t.sp = s.sp + 8
  bp : t.bp = s.bp
  gp : t.gp = s.gp
  top : t.top L = x
  mem : ∀ b, b < s.free L ∨ L.limit ≤ b → t.mem b = s.mem b

variable {L} {s t u : State} {x y a n : Nat}

theorem State.topAddr_push : (s.push L x).topAddr L = s.free L := by
  simp only [State.topAddr, State.push, State.free]
  omega

theorem State.top_push : (s.push L x).top L = x % 2 ^ 64 := by
  have h : (256 : Nat) ^ 8 = 2 ^ 64 := by norm_num
  rw [State.top, State.topAddr_push, ← h]
  exact load_store_self _ _ _ _

theorem State.push_mod : s.push L (x % 2 ^ 64) = s.push L x := by
  have h : (2 : Nat) ^ 64 = 256 ^ 8 := by norm_num
  simp only [State.push, h, store_mod]

theorem State.drop_push : (s.push L x).drop = { s.push L x with sp := s.sp } := by
  simp [State.drop, State.push]

theorem Pushed.push (hroom : s.free L + 8 ≤ L.limit) (hx : x < 2 ^ 64) :
    Pushed L s (s.push L x) x where
  sp := rfl
  bp := rfl
  gp := rfl
  top := by rw [State.top_push, Nat.mod_eq_of_lt hx]
  mem := by
    intro b hb
    apply store_outside
    omega

theorem Pushed.load (h : Pushed L s t x) (hclear : Clear L s a n) :
    t.mem.load a n = s.mem.load a n := by
  apply load_congr
  intro b hlo hhi
  apply h.mem
  rcases hclear with hclear | hclear
  · left
    omega
  · right
    omega

theorem Pushed.below (h : Pushed L s t x) (h' : Pushed L t u y) : u.drop.top L = x := by
  have haddr : u.drop.topAddr L = t.topAddr L := by
    simp only [State.topAddr, State.drop, h'.sp]
    omega
  have hfree : t.topAddr L + 8 = t.free L := by
    simp only [State.topAddr, State.free, h.sp]
    omega
  rw [← h.top, State.top, State.top, haddr]
  apply load_congr
  intro b hlo hhi
  apply h'.mem
  left
  omega

theorem Pushed.trans_mem (h : Pushed L s t x) (h' : Pushed L t u y) :
    ∀ b, b < s.free L ∨ L.limit ≤ b → u.mem b = s.mem b := by
  intro b hb
  rw [h'.mem b, h.mem b hb]
  rcases hb with hb | hb
  · left
    simp only [State.free, h.sp] at hb ⊢
    omega
  · exact Or.inr hb

/-- A slot whose low bytes are replaced. -/
def replaceLow (x size v : Nat) : Nat := x / 256 ^ size * 256 ^ size + v % 256 ^ size

theorem Pushed.setLow {size v : Nat} (h : Pushed L s t x) (hroom : s.free L + 8 ≤ L.limit)
    (hsize : size ≤ 8) : Pushed L s (t.setTop L size v) (replaceLow x size v) where
  sp := h.sp
  bp := h.bp
  gp := h.gp
  top := by
    have haddr : (t.setTop L size v).topAddr L = t.topAddr L := rfl
    rw [State.top, haddr, State.setTop, load_store_low _ _ _ hsize, ← h.top]
    rfl
  mem := by
    intro b hb
    have haddr : t.topAddr L = s.free L := by
      simp only [State.topAddr, State.free, h.sp]
      omega
    rw [← h.mem b hb]
    apply store_outside
    omega

theorem Pushed.setTop (h : Pushed L s t x) (hroom : s.free L + 8 ≤ L.limit) (hy : y < 2 ^ 64) :
    Pushed L s (t.setTop L 8 y) y := by
  have hx : x < 256 ^ 8 := h.top ▸ load_lt _ _ _
  have hpow : (256 : Nat) ^ 8 = 2 ^ 64 := by norm_num
  have hslot : replaceLow x 8 y = y := by
    rw [replaceLow, Nat.div_eq_of_lt hx, hpow, Nat.mod_eq_of_lt hy]
    omega
  have hlow := h.setLow (v := y) hroom le_rfl
  rwa [hslot] at hlow

theorem Pushed.replace (h : Pushed L s t x) (hroom : s.free L + 8 ≤ L.limit) (hy : y < 2 ^ 64) :
    Pushed L s (t.drop.push L y) y := by
  have hsp : t.drop.sp = s.sp := by
    simp only [State.drop, h.sp]
    omega
  have hfree : t.drop.free L = s.free L := by
    rw [State.free, hsp, State.free]
  have hpush := Pushed.push (s := t.drop) (L := L) (by omega) hy
  refine ⟨by rw [hpush.sp, hsp], hpush.bp.trans h.bp, hpush.gp.trans h.gp, hpush.top, ?_⟩
  intro b hb
  rw [hpush.mem b (by omega)]
  exact h.mem b hb

theorem Pushed.drop (h : Pushed L s t x) (h' : Pushed L t u y) : Pushed L s u.drop x := by
  have hmem := h.trans_mem h'
  refine ⟨?_, h'.bp.trans h.bp, h'.gp.trans h.gp, h.below h', hmem⟩
  simp only [State.drop, h'.sp, h.sp]
  omega

theorem Pushed.combine {z : Nat} (h : Pushed L s t x) (h' : Pushed L t u y)
    (hroom : s.free L + 8 ≤ L.limit) (hz : z < 2 ^ 64) :
    Pushed L s (u.drop.setTop L 8 z) z :=
  (h.drop h').setTop hroom hz

theorem execBinary_pushed {op : CInteger.BinaryOp} (swap : Bool) {c : CInteger} {k : Int}
    (h : Pushed L s t x) (h' : Pushed L t u y) (hroom : s.free L + 8 ≤ L.limit)
    (hk : (if swap then CInteger.binary op c.promote (slotInt c y) (slotInt c x)
      else CInteger.binary op c.promote (slotInt c x) (slotInt c y)) = some k) :
    ∃ w, execBinary L op swap c u = some w ∧ Pushed L s w (toSlot k) := by
  refine ⟨u.drop.setTop L 8 (toSlot k), ?_, h.combine h' hroom (toSlot_lt k)⟩
  simp only [execBinary, h.below h', h'.top, hk, Option.map_some]

theorem execShift_pushed {op : CInteger.BinaryOp} {c : CInteger} {k : Int}
    (h : Pushed L s t x) (h' : Pushed L t u y) (hroom : s.free L + 8 ≤ L.limit)
    (hk : CInteger.binary op c.promote (slotInt c x) (shiftCount c y) = some k) :
    ∃ w, execShift L op c u = some w ∧ Pushed L s w (toSlot k) := by
  refine ⟨u.drop.drop.push L (toSlot k), ?_, ?_⟩
  · simp only [execShift, h.below h', h'.top, hk, Option.map_some]
  · exact (h.drop h').replace hroom (toSlot_lt k)

end Kcs.Vm
