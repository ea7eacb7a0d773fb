import Kcs.Lib.Memory

/-!
# A part of the x86-64 instruction set

Moves, bitwise operations and shifts of general registers and memory: their bytes and what
they do.  No instruction of this part reads the flags, which are left out.

Main results:

- Lemmas {lit}`getLsbD_merge` and {lit}`getLsbD_read_memory`: registers and memory bit by
  bit.
-/

namespace X86

open BitVec

/-! ## Machine -/

/-- The general registers by their numbers, and a memory. -/
structure Machine where
  reg : Nat → BitVec 64
  mem : Memory

/-- A register, the memory at a displacement from a register, or the memory at an address. -/
inductive Operand where
  | reg (r : Nat)
  | based (base : Nat) (disp : BitVec 64)
  | fixed (address : BitVec 64)
deriving DecidableEq, Repr

/-- The low bytes of a word. -/
def low (w : Nat) (x : BitVec 64) : BitVec 64 := (x.setWidth (8 * w)).setWidth 64

/-- The low bytes of a word, with their sign. -/
def lowSigned (w : Nat) (x : BitVec 64) : BitVec 64 := (x.setWidth (8 * w)).signExtend 64

/-- A register after its low bytes have been written: one or two bytes keep the others,
four clear the upper half. -/
def merge (w : Nat) (old x : BitVec 64) : BitVec 64 :=
  if w < 4 then (old >>> (8 * w)) <<< (8 * w) ||| low w x else low w x

/-- The address of an operand in memory. -/
def Operand.address (m : Machine) : Operand → Nat
  | .reg _ => 0
  | .based base disp => (m.reg base + disp).toNat
  | .fixed address => address.toNat

/-- The value of an operand. -/
def read (m : Machine) (w : Nat) : Operand → BitVec 64
  | .reg r => low w (m.reg r)
  | o => BitVec.ofNat 64 (m.mem.load (o.address m) w)

/-- Write a register. -/
def writeReg (m : Machine) (w r : Nat) (x : BitVec 64) : Machine :=
  { m with reg := Function.update m.reg r (merge w (m.reg r) x) }

/-- Write an operand. -/
def write (m : Machine) (w : Nat) (o : Operand) (x : BitVec 64) : Machine :=
  match o with
  | .reg r => writeReg m w r x
  | o => { m with mem := m.mem.store (o.address m) w x.toNat }

/-! ## Words bit by bit -/

section Bits

variable {w n i r : Nat} {x old : BitVec 64} {m : Machine}

@[simp]
theorem getLsbD_low : (low w x).getLsbD i = (decide (i < 8 * w) && x.getLsbD i) := by
  unfold low
  rw [getLsbD_setWidth, getLsbD_setWidth]
  by_cases hi : i < 64
  · simp [hi]
  · rw [getLsbD_of_ge x i (by omega)]
    simp

theorem getLsbD_lowSigned (hw : 0 < w) (hle : 8 * w ≤ 64) (hi : i < 64) :
    (lowSigned w x).getLsbD i = x.getLsbD (if i < 8 * w then i else 8 * w - 1) := by
  unfold lowSigned
  rw [getLsbD_signExtend, msb_eq_getLsbD_last]
  have hlast : 8 * w - 1 < 8 * w := by omega
  split <;> simp [*]

/-- Bytes that are not written keep their value, unless four are written. -/
theorem getLsbD_merge : (merge w old x).getLsbD i =
    if i < 8 * w then x.getLsbD i else decide (w < 4) && old.getLsbD i := by
  unfold merge
  by_cases hi : i < 8 * w
  · split <;> simp [hi]
  · have hsub : 8 * w + (i - 8 * w) = i := by omega
    split
    · rename_i hw
      rw [getLsbD_or, getLsbD_shiftLeft, getLsbD_ushiftRight, getLsbD_low, hsub]
      by_cases h64 : i < 64
      · simp only [hi, hw, h64, decide_true, decide_false, Bool.not_false, Bool.true_and,
          Bool.false_and, Bool.or_false]
      · simp [hi, h64, getLsbD_of_ge old i (by omega)]
    · rename_i hw
      simp [hi, hw]

@[simp]
theorem writeReg_mem : (writeReg m w r x).mem = m.mem := rfl

@[simp]
theorem writeReg_self : (writeReg m w r x).reg r = merge w (m.reg r) x := by
  simp [writeReg]

@[simp]
theorem writeReg_of_ne {r' : Nat} (h : r' ≠ r) : (writeReg m w r x).reg r' = m.reg r' := by
  simp [writeReg, h]

@[simp]
theorem getLsbD_read_reg : (read m w (.reg r)).getLsbD i =
    (decide (i < 8 * w) && (m.reg r).getLsbD i) :=
  getLsbD_low

/-- An operand in memory. -/
def Operand.IsMemory : Operand → Prop
  | .reg _ => False
  | _ => True

/-- The bits of an operand in memory. -/
theorem getLsbD_read_memory {o : Operand} (ho : o.IsMemory) (hi : i < 64) :
    (read m w o).getLsbD i = (decide (i < 8 * w) && m.mem.bit (8 * o.address m + i)) := by
  cases o with
  | reg r => exact ho.elim
  | based base disp =>
    simp only [read, getLsbD_ofNat, Memory.testBit_load, hi, decide_true, Bool.true_and]
  | fixed address =>
    simp only [read, getLsbD_ofNat, Memory.testBit_load, hi, decide_true, Bool.true_and]

theorem write_memory {o : Operand} (ho : o.IsMemory) :
    write m w o x = { m with mem := m.mem.store (o.address m) w x.toNat } := by
  cases o with
  | reg r => exact ho.elim
  | based base disp => rfl
  | fixed address => rfl

end Bits

/-! ## Instructions -/

/-- Bitwise operations. -/
inductive BitOp where
  | or
  | and
deriving DecidableEq, Repr

/-- The result of a bitwise operation. -/
def BitOp.eval (x y : BitVec 64) : BitOp → BitVec 64
  | .or => x ||| y
  | .and => x &&& y

/-- Shifts. -/
inductive ShiftOp where
  | shl
  | shr
  | sar
deriving DecidableEq, Repr

/-- The bits of a count that count. -/
def shiftCount (w n : Nat) : Nat := if w = 8 then n % 64 else n % 32

/-- The result of a shift by a count. -/
def ShiftOp.eval (w n : Nat) (x : BitVec 64) : ShiftOp → BitVec 64
  | .shl => x <<< shiftCount w n
  | .shr => low w x >>> shiftCount w n
  | .sar => (lowSigned w x).sshiftRight (shiftCount w n)

/-- Instructions; the source stands first, and widths are in bytes. -/
inductive Instr where
  | mov (w : Nat) (src dst : Operand)
  | movzx (n w : Nat) (src : Operand) (dst : Nat)
  | movsx (n w : Nat) (src : Operand) (dst : Nat)
  | bit (op : BitOp) (w : Nat) (src dst : Operand)
  | bitImm (op : BitOp) (w : Nat) (imm : BitVec 64) (dst : Operand)
  | shift (op : ShiftOp) (w n : Nat) (dst : Operand)
deriving DecidableEq, Repr

/-- The effect of an instruction. -/
def Instr.step (m : Machine) : Instr → Machine
  | .mov w src dst => write m w dst (read m w src)
  | .movzx n w src dst => writeReg m w dst (read m n src)
  | .movsx n w src dst => writeReg m w dst (lowSigned n (read m n src))
  | .bit op w src dst => write m w dst (op.eval (read m w dst) (read m w src))
  | .bitImm op w imm dst => write m w dst (op.eval (read m w dst) imm)
  | .shift op w n dst => write m w dst (op.eval w n (read m w dst))

/-- The effect of instructions one after another. -/
def run (code : List Instr) (m : Machine) : Machine := code.foldl Instr.step m

/-! ## Decoding -/

/-- Bytes. -/
abbrev Byte := BitVec 8

/-- The four bytes of an instruction that the linker fills in, by their offset, and the
address that they make an operand of the code that ends behind them. -/
structure Fixup where
  offset : Nat
  target : BitVec 64
deriving DecidableEq, Repr

/-- The REX prefix; without one all its bits are clear. -/
structure Rex where
  present : Bool := false
  w : Bool := false
  r : Bool := false
  b : Bool := false
deriving DecidableEq, Repr

/-- The number of a register with its bit of the REX prefix. -/
def extend (n : Nat) (bit : Bool) : Nat := if bit then n + 8 else n

/-- The displacement behind a ModR/M byte. -/
def decodeDisp (mod : Nat) : List Byte → Option (BitVec 64 × List Byte)
  | bytes =>
    match mod, bytes with
    | 0, rest => some (0, rest)
    | 1, d :: rest => some (d.signExtend 64, rest)
    | 2, d0 :: d1 :: d2 :: d3 :: rest => some ((d3 ++ d2 ++ d1 ++ d0).signExtend 64, rest)
    | _, _ => none

/-- The operand that a ModR/M byte describes.  Of the SIB bytes only those without an index
register are decoded. -/
def decodeOperand (fix : Option Fixup) (len : Nat) (rex : Rex) (mod rm : Nat)
    (bytes : List Byte) : Option (Operand × List Byte) :=
  if mod = 3 then some (.reg (extend rm rex.b), bytes)
  else if rm = 4 then
    match bytes with
    | [] => none
    | sib :: rest =>
      if (sib >>> 3) &&& 7 = 4 ∧ ¬(mod = 0 ∧ sib &&& 7 = 5) then
        (decodeDisp mod rest).map fun (disp, rest) =>
          (.based (extend (sib &&& 7).toNat rex.b) disp, rest)
      else none
  else if mod = 0 ∧ rm = 5 then
    match fix, bytes with
    | some fix, _ :: _ :: _ :: _ :: rest =>
      if fix.offset + bytes.length = len then
        some (.fixed (fix.target + BitVec.ofNat 64 rest.length), rest)
      else none
    | _, _ => none
  else
    (decodeDisp mod bytes).map fun (disp, rest) => (.based (extend rm rex.b) disp, rest)

/-- A ModR/M byte: the field for a register or for more bits of the opcode, and an operand. -/
def decodeModrm (fix : Option Fixup) (len : Nat) (rex : Rex) :
    List Byte → Option (Nat × Operand × List Byte)
  | [] => none
  | b :: rest =>
    (decodeOperand fix len rex (b >>> 6).toNat (b &&& 7).toNat rest).map fun (o, rest) =>
      (((b >>> 3) &&& 7).toNat, o, rest)

/-- Without a REX prefix the byte registers four to seven are the second bytes of others. -/
def isPlain (rex : Rex) (w : Nat) : Operand → Bool
  | .reg r => w ≠ 1 || rex.present || r < 4
  | _ => true

/-- The constant that ends an instruction. -/
def decodeImm (w : Nat) : List Byte → Option (BitVec 64)
  | bytes =>
    match w, bytes with
    | 1, [d] => some (d.signExtend 64)
    | 2, [d0, d1] => some ((d1 ++ d0).signExtend 64)
    | _, [d0, d1, d2, d3] =>
      if w = 4 ∨ w = 8 then some ((d3 ++ d2 ++ d1 ++ d0).signExtend 64) else none
    | _, _ => none

/-- The operation of opcodes `80`, `81` and `83`. -/
def bitOpOf : Nat → Option BitOp
  | 1 => some .or
  | 4 => some .and
  | _ => none

/-- The operation of opcodes `C0`, `C1`, `D0` and `D1`. -/
def shiftOpOf : Nat → Option ShiftOp
  | 4 => some .shl
  | 5 => some .shr
  | 7 => some .sar
  | _ => none

/-- An instruction with a register and an operand that ends it. -/
def decodePair (fix : Option Fixup) (len : Nat) (rex : Rex) (w v : Nat)
    (f : Nat → Operand → Instr) (bytes : List Byte) : Option Instr :=
  (decodeModrm fix len rex bytes).bind fun (r, o, rest) =>
    let r := extend r rex.r
    if rest = [] ∧ isPlain rex w (.reg r) ∧ isPlain rex v o then some (f r o) else none

/-- A bitwise operation with a constant of the given width. -/
def decodeBitImm (fix : Option Fixup) (len : Nat) (rex : Rex) (w n : Nat) (bytes : List Byte) :
    Option Instr :=
  (decodeModrm fix len rex bytes).bind fun (f, o, rest) =>
    (bitOpOf f).bind fun op =>
      if isPlain rex w o then (decodeImm n rest).map fun imm => .bitImm op w imm o else none

/-- A shift by a constant, which may be one without standing there. -/
def decodeShift (fix : Option Fixup) (len : Nat) (rex : Rex) (w : Nat) (one : Bool)
    (bytes : List Byte) : Option Instr :=
  (decodeModrm fix len rex bytes).bind fun (f, o, rest) =>
    (shiftOpOf f).bind fun op =>
      if isPlain rex w o then
        match one, rest with
        | true, [] => some (.shift op w 1 o)
        | false, [n] => some (.shift op w n.toNat o)
        | _, _ => none
      else none

/-- The width of an operation: bit 0 of most opcodes is clear for bytes. -/
def opWidth (opsize : Bool) (rex : Rex) (op : Byte) : Nat :=
  if op.getLsbD 0 then if rex.w then 8 else if opsize then 2 else 4 else 1

/-- The width of a register that receives an extended value. -/
def regWidth (opsize : Bool) (rex : Rex) : Nat := opWidth opsize rex 1

/-- An instruction behind its prefixes. -/
def decodeBody (fix : Option Fixup) (len : Nat) (opsize : Bool) (rex : Rex) :
    List Byte → Option Instr
  | [] => none
  | op :: rest =>
    let w := opWidth opsize rex op
    if op = 0x0F#8 then
      match rest with
      | [] => none
      | op :: rest =>
        let n := if op.getLsbD 0 then 2 else 1
        let v := regWidth opsize rex
        if op = 0xB6#8 ∨ op = 0xB7#8 then
          decodePair fix len rex v n (fun r o => .movzx n v o r) rest
        else if op = 0xBE#8 ∨ op = 0xBF#8 then
          decodePair fix len rex v n (fun r o => .movsx n v o r) rest
        else none
    else if op = 0x88#8 ∨ op = 0x89#8 then
      decodePair fix len rex w w (fun r o => .mov w (.reg r) o) rest
    else if op = 0x8A#8 ∨ op = 0x8B#8 then
      decodePair fix len rex w w (fun r o => .mov w o (.reg r)) rest
    else if op = 0x63#8 then
      decodePair fix len rex w 4 (fun r o => .movsx 4 (regWidth opsize rex) o r) rest
    else if op = 0x08#8 ∨ op = 0x09#8 then
      decodePair fix len rex w w (fun r o => .bit .or w (.reg r) o) rest
    else if op = 0x20#8 ∨ op = 0x21#8 then
      decodePair fix len rex w w (fun r o => .bit .and w (.reg r) o) rest
    else if op = 0x0C#8 ∨ op = 0x0D#8 then
      (decodeImm w rest).map fun imm => .bitImm .or w imm (.reg 0)
    else if op = 0x24#8 ∨ op = 0x25#8 then
      (decodeImm w rest).map fun imm => .bitImm .and w imm (.reg 0)
    else if op = 0x80#8 ∨ op = 0x81#8 then decodeBitImm fix len rex w w rest
    else if op = 0x83#8 then decodeBitImm fix len rex w 1 rest
    else if op = 0xC0#8 ∨ op = 0xC1#8 then decodeShift fix len rex w false rest
    else if op = 0xD0#8 ∨ op = 0xD1#8 then decodeShift fix len rex w true rest
    else none

/-- An instruction behind the prefix for two bytes. -/
def decodeRex (fix : Option Fixup) (len : Nat) (opsize : Bool) : List Byte → Option Instr
  | [] => none
  | b :: rest =>
    if b >>> 4 = 4#8 then
      if b.getLsbD 1 then none
      else
        decodeBody fix len opsize
          { present := true, w := b.getLsbD 3, r := b.getLsbD 2, b := b.getLsbD 0 } rest
    else decodeBody fix len opsize {} (b :: rest)

/-- The instruction that consists of the given bytes. -/
def decode (fix : Option Fixup) (bytes : List Byte) : Option Instr :=
  match bytes with
  | [] => none
  | b :: rest =>
    if b = 0x66#8 then decodeRex fix bytes.length true rest
    else decodeRex fix bytes.length false bytes

end X86
