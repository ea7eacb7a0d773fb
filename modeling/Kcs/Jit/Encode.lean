import Kcs.Ir.Syntax
import Kcs.Lib.X86

/-!
# Encoding of instructions

The moves, bitwise operations and shifts of `instr.c`: the bytes that stand for an instruction
of the code generator, and what they mean to the processor.

Main results:

- Lemmas {lit}`meaning_mov_memReg`, {lit}`meaning_shift_immReg` and the like: what is encoded is
  read back.
- Lemma {lit}`meaning_bitwise_immReg`: a bitwise operation of a constant and a wider register
  reads and writes the width of the constant only.
-/

namespace Kcs.Jit

open Option hiding or_assoc

open X86 (Byte)

/-! ## Operands -/

/-- `enum reg`, the general registers. -/
inductive Reg where
  | ax | cx | dx | bx | sp | bp | si | di | r8 | r9 | r10 | r11 | r12 | r13 | r14 | r15
deriving DecidableEq, Repr, Inhabited

/-- The number of a register, one less than its value in the source. -/
def Reg.number : Reg → Nat
  | .ax => 0 | .cx => 1 | .dx => 2 | .bx => 3 | .sp => 4 | .bp => 5 | .si => 6 | .di => 7
  | .r8 => 8 | .r9 => 9 | .r10 => 10 | .r11 => 11 | .r12 => 12 | .r13 => 13 | .r14 => 14
  | .r15 => 15

/-- `struct registr` -/
structure Registr where
  r : Reg
  w : Nat
deriving DecidableEq, Repr

/-- `struct immediate` of type `IMM_INT`. -/
structure Immediate where
  w : Nat
  qword : BitVec 64
deriving DecidableEq, Repr

/-- `struct address` without an index register: relative to a symbol, or to its entry in the
global offset table, or to a register. -/
inductive Address where
  | symbol (sym : SymbolId) (global : Bool) (disp : BitVec 32)
  | based (base : Reg) (disp : BitVec 32)
deriving DecidableEq, Repr

/-- `struct memory` -/
structure MemoryOperand where
  addr : Address
  w : Nat
deriving DecidableEq, Repr

/-- `enum instr_optype` with the operands, of which the source stands first. -/
inductive Operands where
  | immReg (a : Immediate) (b : Registr)
  | regReg (a b : Registr)
  | memReg (a : MemoryOperand) (b : Registr)
  | regMem (a : Registr) (b : MemoryOperand)
  | immMem (a : Immediate) (b : MemoryOperand)
deriving DecidableEq, Repr

/-- `enum opcode` -/
inductive Opcode where
  | mov | movsx | movzx | movaps | and | or | shl | shr | sar
deriving DecidableEq, Repr

/-- `struct instruction` -/
structure Instruction where
  opcode : Opcode
  operands : Operands
deriving DecidableEq, Repr

/-! ## Bytes -/

/-- `enum rel_type` -/
inductive RelType where
  | pc32
  | gotpcrel
deriving DecidableEq, Repr

/-- An entry of `elf_add_reloc_text`, with its offset in the instruction. -/
structure Reloc where
  symbol : SymbolId
  type : RelType
  offset : Nat
  addend : BitVec 32
deriving DecidableEq, Repr

/-- `struct code` -/
structure Code where
  bytes : List Byte
  reloc : Option Reloc := none
deriving DecidableEq, Repr

/-- `regi` -/
def regi (a : Registr) : Byte := BitVec.ofNat 8 (a.r.number % 8)

/-- `is_64_bit` -/
def is64Bit (w : Nat) : Bool := w = 8

/-- `is_64_bit_reg` -/
def is64BitReg (r : Reg) : Bool := 8 ≤ r.number

/-- `rrex` -/
def rrex (a : Registr) : Bool :=
  is64Bit a.w || is64BitReg a.r || (a.w = 1 && (a.r = .di || a.r = .si))

/-- `mrex` -/
def mrex : Address → Bool
  | .symbol .. => false
  | .based base _ => is64BitReg base

/-- `REX | W | R | B` -/
def rexByte (w r b : Bool) : Byte :=
  0x40#8 ||| (if w then 8#8 else 0#8) ||| (if r then 4#8 else 0#8) ||| (if b then 1#8 else 0#8)

/-- The macro `w` -/
def wBit (w : Nat) : Byte := if w % 2 = 0 then 1#8 else 0#8

/-- `in_byte_range` -/
def inByteRange {n : Nat} (x : BitVec n) : Bool := -128 ≤ x.toInt && x.toInt ≤ 127

/-- `in_32bit_range` -/
def in32BitRange (x : BitVec 64) : Bool := -2 ^ 31 ≤ x.toInt && x.toInt ≤ 2 ^ 31 - 1

/-- The low bytes of an integer, as `memcpy` copies them. -/
def bytesOf {n : Nat} (x : BitVec n) (k : Nat) : List Byte :=
  (List.range k).map fun i => x.extractLsb' (8 * i) 8

/-- `is_byte_imm` -/
def isByteImm (imm : Immediate) : Bool :=
  imm.w = 1 || (imm.w = 2 && inByteRange (imm.qword.setWidth 16)) ||
    (imm.w = 4 && inByteRange (imm.qword.setWidth 32)) || inByteRange imm.qword

/-- `is_32bit_imm` -/
def is32BitImm (imm : Immediate) : Bool := imm.w < 8 || in32BitRange imm.qword

/-- A byte when a condition holds. -/
def byteIf (c : Bool) (b : Byte) : List Byte := if c then [b] else []

/-- `encode_addr` behind the given number of bytes. -/
def encodeAddr (len : Nat) (reg : Byte) (addr : Address) (addend : BitVec 32)
    (requireOffset : Bool) : Option Code :=
  match addr with
  | .symbol sym global disp =>
    some {
      bytes := [((reg &&& 7#8) <<< 3) ||| 0x5#8, 0#8, 0#8, 0#8, 0#8]
      reloc := some {
        symbol := sym
        type := if global then .gotpcrel else .pc32
        offset := len + 1
        addend := disp - addend } }
  | .based base disp =>
    let offset := disp ≠ 0 || requireOffset
    if base = .sp then
      if inByteRange disp then
        let mod := if disp = 0 || requireOffset then 0x00#8 else 0x40#8
        some { bytes := [mod ||| (reg <<< 3) ||| 0x04#8, 0x24#8] ++
          byteIf offset (disp.setWidth 8) }
      else none
    else
      let modrm := ((reg &&& 7#8) <<< 3) ||| BitVec.ofNat 8 (base.number % 8)
      if inByteRange disp then
        if offset then some { bytes := [modrm ||| 0x40#8, disp.setWidth 8] }
        else some { bytes := [modrm] }
      else some { bytes := (modrm ||| 0x80#8) :: bytesOf disp 4 }

/-- Bytes in front of an address and behind it. -/
def withAddr (front : List Byte) (reg : Byte) (addr : Address) (behind : List Byte) :
    Option Code :=
  (encodeAddr front.length reg addr (BitVec.ofNat 32 behind.length) false).map fun c =>
    { c with bytes := front ++ c.bytes ++ behind }

/-! ## Instructions -/

/-- `mov` -/
def mov : Operands → Option Code
  | .immReg a b =>
    let rex := byteIf (rrex b) (rexByte (is64Bit b.w) false (is64BitReg b.r))
    let op := 0xB8#8 ||| (wBit b.w <<< 3) ||| regi b
    if a.w = 1 then some { bytes := rex ++ op :: bytesOf a.qword 1 }
    else if a.w = 2 then some { bytes := rex ++ op :: bytesOf a.qword 2 }
    else if is32BitImm a then
      if is64Bit b.w then
        some { bytes := rex ++ 0xC7#8 :: (0xC0#8 ||| regi b) :: bytesOf a.qword 4 }
      else some { bytes := rex ++ op :: bytesOf a.qword 4 }
    else if a.w = 8 then some { bytes := rex ++ op :: bytesOf a.qword 8 }
    else none
  | .regReg a b =>
    if a.w = b.w then
      some { bytes :=
        byteIf (rrex a || rrex b) (rexByte (is64Bit a.w) (is64BitReg a.r) (is64BitReg b.r)) ++
          [0x88#8 ||| wBit a.w, 0xC0#8 ||| (regi a <<< 3) ||| regi b] }
    else none
  | .regMem a b =>
    withAddr (byteIf (a.w = 2) 0x66#8 ++
      byteIf (rrex a || mrex b.addr) (rexByte (is64Bit a.w) (is64BitReg a.r) (mrex b.addr)) ++
        [0x88#8 ||| wBit a.w]) (regi a) b.addr []
  | .memReg a b =>
    withAddr (byteIf (rrex b || mrex a.addr)
      (rexByte (is64Bit b.w) (is64BitReg b.r) (mrex a.addr)) ++ [0x8A#8 + wBit b.w])
      (regi b) a.addr []
  | .immMem a b =>
    if is32BitImm a ∧ a.w = b.w then
      let front := byteIf (b.w = 2) 0x66#8 ++
        byteIf (a.w = 8 || mrex b.addr) (rexByte (is64Bit a.w) false (mrex b.addr)) ++
          [0xC6#8 ||| wBit b.w]
      withAddr front 0 b.addr
        (bytesOf a.qword (if b.w = 1 then 1 else if b.w = 2 then 2 else 4))
    else none

/-- `movsx` -/
def movsx : Operands → Option Code
  | .regReg a b =>
    let rex := rexByte (is64Bit b.w) (is64BitReg b.r) (is64BitReg a.r)
    let modrm := 0xC0#8 ||| (regi b <<< 3) ||| regi a
    if a.w = 4 then some { bytes := [rex, 0x63#8, modrm] }
    else if a.w = 1 ∨ a.w = 2 then some { bytes := [rex, 0x0F#8, 0xBE#8 ||| wBit a.w, modrm] }
    else none
  | .memReg a b =>
    let rex := byteIf (rrex b || mrex a.addr)
      (rexByte (is64Bit b.w) (is64BitReg b.r) (mrex a.addr))
    if a.w = 4 ∧ is64Bit b.w then withAddr (rex ++ [0x63#8]) (regi b) a.addr []
    else withAddr (rex ++ [0x0F#8, 0xBE#8 ||| wBit a.w]) (regi b) a.addr []
  | _ => none

/-- `movzx` -/
def movzx : Operands → Option Code
  | .regReg a b =>
    some { bytes :=
      byteIf (rrex a || rrex b) (rexByte (is64Bit b.w) (is64BitReg b.r) (is64BitReg a.r)) ++
        [0x0F#8, 0xB6#8 ||| wBit a.w, 0xC0#8 ||| (regi b <<< 3) ||| regi a] }
  | .memReg a b =>
    withAddr (byteIf (mrex a.addr || rrex b)
      (rexByte (is64Bit b.w) (is64BitReg b.r) (mrex a.addr)) ++ [0x0F#8, 0xB6#8 ||| wBit a.w])
      (regi b) a.addr []
  | _ => none

/-- `movaps`, which stores a register `XMM0` to `XMM7`; the operands here have none. -/
def movaps : Operands → Option Code := fun _ => none

/-- `encode_bitwise` -/
def encodeBitwise (opcode : Byte) : Operands → Option Code
  | .regReg a b =>
    some { bytes :=
      byteIf (rrex a || rrex b) (rexByte (is64Bit a.w) (is64BitReg a.r) (is64BitReg b.r)) ++
        [opcode ||| wBit a.w, 0xC0#8 ||| (regi a <<< 3) ||| regi b] }
  | .immReg a b =>
    if a.w ≤ b.w ∧ (a.w = 1 ∨ a.w = 2 ∨ a.w = 4) then
      let front := byteIf (a.w = 2) 0x66#8 ++
        byteIf (is64BitReg b.r) (rexByte false false (is64BitReg b.r))
      if b.r = .ax ∧ (¬isByteImm a ∨ b.w = 1) then
        some { bytes := front ++ (opcode ||| 0x04#8 ||| wBit a.w) :: bytesOf a.qword a.w }
      else
        let s := isByteImm a && 1 < b.w
        some { bytes := front ++ (0x80#8 ||| (if s then 2#8 else 0#8) ||| wBit a.w) ::
          ((0xC0#8 + opcode) ||| regi b) ::
            bytesOf a.qword (if isByteImm a then 1 else a.w) }
    else none
  | _ => none

/-- `encode_shift` -/
def encodeShift (opcode : Byte) : Operands → Option Code
  | .regReg a b =>
    if a.r = .cx ∧ a.w = 1 then
      some { bytes := byteIf (rrex b) (rexByte (is64Bit b.w) false (is64BitReg b.r)) ++
        [0xD2#8 ||| wBit b.w, (opcode + 0xE0#8) ||| regi b] }
    else none
  | .immReg a b =>
    if isByteImm a then
      let front := byteIf (rrex b) (rexByte (is64Bit b.w) false (is64BitReg b.r))
      let byte := a.qword.setWidth 8
      if byte = 1#8 then
        some { bytes := front ++ [0xD0#8 ||| wBit b.w, (opcode + 0xE0#8) ||| regi b] }
      else
        some { bytes := front ++ [0xC0#8 ||| wBit b.w, (opcode + 0xE0#8) ||| regi b, byte] }
    else none
  | _ => none

/-- `encode` -/
def encode (instr : Instruction) : Option Code :=
  match instr.opcode with
  | .mov => mov instr.operands
  | .movsx => movsx instr.operands
  | .movzx => movzx instr.operands
  | .movaps => movaps instr.operands
  | .and => encodeBitwise 0x20#8 instr.operands
  | .or => encodeBitwise 0x08#8 instr.operands
  | .shl => encodeShift 0x00#8 instr.operands
  | .shr => encodeShift 0x08#8 instr.operands
  | .sar => encodeShift 0x18#8 instr.operands

/-! ## Meaning -/

/-- The addresses that the linker and the loader choose. -/
structure Link where
  symbol : SymbolId → BitVec 64
  got : SymbolId → BitVec 64

/-- What the linker makes of a relocation. -/
def Link.fixup (link : Link) (r : Reloc) : X86.Fixup where
  offset := r.offset
  target := (if r.type = .gotpcrel then link.got r.symbol else link.symbol r.symbol) +
    r.addend.signExtend 64

/-- The instruction of the processor that the bytes are. -/
def meaning (link : Link) (i : Instruction) : Option X86.Instr :=
  (encode i).bind fun c => X86.decode (c.reloc.map link.fixup) c.bytes

/-- The operand that an address describes. -/
def Address.operand (link : Link) : Address → X86.Operand
  | .symbol sym global disp =>
    .fixed ((if global then link.got sym else link.symbol sym) + disp.signExtend 64)
  | .based base disp => .based base.number (disp.signExtend 64)

/-- The addresses that `encode_addr` encodes as the processor reads them: a base register
`r12` would need one byte more, and `r13` and `rbp` a displacement. -/
def Address.Encodable : Address → Prop
  | .symbol .. => True
  | .based base disp => base.number % 8 ≠ 4 ∧ (base.number % 8 = 5 → disp ≠ 0)

/-- The widths of registers. -/
def IsWidth (w : Nat) : Prop := w = 1 ∨ w = 2 ∨ w = 4 ∨ w = 8

section Bytes

variable {link : Link} {addr : Address} {len : Nat}

theorem modrm_fields : ∀ mod : Fin 3, ∀ n k : Fin 8,
    let b := ((BitVec.ofNat 8 n &&& 7#8) <<< 3) ||| BitVec.ofNat 8 k |||
      (BitVec.ofNat 8 mod <<< 6)
    (b >>> 6).toNat = mod ∧ ((b >>> 3) &&& 7).toNat = n ∧ (b &&& 7).toNat = k := by
  decide

theorem modrm_direct : ∀ n k : Fin 8,
    let b := 0xC0#8 ||| (BitVec.ofNat 8 n <<< 3) ||| BitVec.ofNat 8 k
    (b >>> 6).toNat = 3 ∧ ((b >>> 3) &&& 7).toNat = n ∧ (b &&& 7).toNat = k := by
  decide

variable {n v : Nat}

theorem signExtend_low_byte {x : BitVec n} (hn : 8 ≤ n) (hv : n ≤ v)
    (h : inByteRange x = true) : (x.setWidth 8).signExtend v = x.signExtend v := by
  simp only [inByteRange, Bool.and_eq_true, decide_eq_true_eq] at h
  have hbyte : (x.setWidth 8).toInt = x.toInt := by
    rw [← BitVec.signExtend_eq_setWidth_of_le x hn, BitVec.toInt_signExtend_eq_toInt_bmod_of_le x hn]
    exact Int.bmod_eq_of_le (by omega) (by omega)
  apply BitVec.eq_of_toInt_eq
  rw [BitVec.toInt_signExtend_of_le (by omega), BitVec.toInt_signExtend_of_le hv, hbyte]

theorem bytesOf_four (x : BitVec n) : ∃ d0 d1 d2 d3 : Byte,
    bytesOf x 4 = [d0, d1, d2, d3] ∧ d3 ++ d2 ++ d1 ++ d0 = x.setWidth 32 := by
  refine ⟨_, _, _, _, rfl, ?_⟩
  apply BitVec.eq_of_getLsbD_eq
  intro i hi
  simp only [BitVec.getLsbD_append, BitVec.getLsbD_extractLsb', BitVec.getLsbD_setWidth]
  grind

theorem bytesOf_two (x : BitVec n) : ∃ d0 d1 : Byte,
    bytesOf x 2 = [d0, d1] ∧ d1 ++ d0 = x.setWidth 16 := by
  refine ⟨_, _, rfl, ?_⟩
  apply BitVec.eq_of_getLsbD_eq
  intro i hi
  simp only [BitVec.getLsbD_append, BitVec.getLsbD_extractLsb', BitVec.getLsbD_setWidth]
  grind

theorem number_lt (r : Reg) : r.number < 16 := by
  cases r <;> decide

theorem extend_number (r : Reg) : X86.extend (r.number % 8) (is64BitReg r) = r.number := by
  cases r <;> rfl

variable {rex : X86.Rex} {fix : Option X86.Fixup}

theorem decodeModrm_fields {total n k : Nat} (mod : Fin 3)
    (hn : n < 8) (hk : k < 8) (rest : List Byte) :
    X86.decodeModrm fix total rex
      ((((BitVec.ofNat 8 n &&& 7#8) <<< 3) ||| BitVec.ofNat 8 k |||
        (BitVec.ofNat 8 mod <<< 6)) :: rest) =
      (X86.decodeOperand fix total rex mod k rest).map fun (o, rest) => (n, o, rest) := by
  rcases modrm_fields mod ⟨n, hn⟩ ⟨k, hk⟩ with ⟨hmod, hreg, hrm⟩
  simp only [X86.decodeModrm, hmod, hreg, hrm]

variable {base : Reg}

theorem encodeAddr_based (len : Nat) (reg : Byte) (hbase : base ≠ .sp)
    (disp : BitVec 32) :
    ∃ (mod : Fin 3) (tail : List Byte),
      encodeAddr len reg (.based base disp) 0#32 false = some { bytes :=
        (((reg &&& 7#8) <<< 3) ||| BitVec.ofNat 8 (base.number % 8) |||
          (BitVec.ofNat 8 mod <<< 6)) :: tail } ∧
      X86.decodeDisp mod tail = some (disp.signExtend 64, []) ∧ (mod = 0 ↔ disp = 0) := by
  simp only [encodeAddr, if_neg hbase, Bool.or_false, decide_eq_true_eq]
  by_cases hbyte : inByteRange disp = true
  · rw [if_pos hbyte]
    by_cases hdisp : disp = 0
    · rw [if_neg (by simpa using hdisp)]
      refine ⟨0, [], ?_, by simp [X86.decodeDisp, hdisp], by simp [hdisp]⟩
      rw [show (BitVec.ofNat 8 (0 : Fin 3) <<< 6 : Byte) = 0#8 from rfl, BitVec.or_zero]
    · rw [if_pos (by simpa using hdisp)]
      refine ⟨1, [disp.setWidth 8], rfl, ?_, by simpa using hdisp⟩
      rw [← signExtend_low_byte (v := 64) (by decide) (by decide) hbyte]
      rfl
  · rw [if_neg hbyte]
    rcases bytesOf_four disp with ⟨d0, d1, d2, d3, hbytes, hword⟩
    have hdisp : disp ≠ 0 := by
      rintro rfl
      exact hbyte rfl
    refine ⟨2, bytesOf disp 4, rfl, ?_, by simpa using hdisp⟩
    rw [hbytes, ← BitVec.setWidth_eq disp, ← hword]
    rfl

theorem decodeModrm_encodeAddr (link : Link) (len : Nat) (hn : n < 8)
    (h : addr.Encodable) :
    ∃ c, encodeAddr len (BitVec.ofNat 8 n) addr 0#32 false = some c ∧
      ∀ rex : X86.Rex, rex.b = mrex addr →
        X86.decodeModrm (c.reloc.map link.fixup) (len + c.bytes.length) rex c.bytes =
          some (n, addr.operand link, []) := by
  cases addr with
  | symbol sym global disp =>
    refine ⟨_, rfl, ?_⟩
    intro rex _
    have hmodrm : (((BitVec.ofNat 8 n &&& 7#8) <<< 3) ||| 0x5#8 : Byte) =
        ((BitVec.ofNat 8 n &&& 7#8) <<< 3) ||| BitVec.ofNat 8 5 |||
          (BitVec.ofNat 8 (0 : Fin 3) <<< 6) := by
      generalize ((BitVec.ofNat 8 n &&& 7#8) <<< 3) = x
      exact (BitVec.or_zero).symm
    rw [hmodrm, decodeModrm_fields _ hn (by decide : 5 < 8)]
    cases global <;>
      simp [X86.decodeOperand, Link.fixup, Address.operand, Nat.add_assoc]
  | based base disp =>
    rcases h with ⟨hsp, hbp⟩
    have hbase : base ≠ .sp := by
      rintro rfl
      exact hsp rfl
    rcases encodeAddr_based len (BitVec.ofNat 8 n) hbase disp with ⟨mod, tail, hcode, hdisp, hmod⟩
    refine ⟨_, hcode, ?_⟩
    intro rex hrex
    have hdirect : (mod : Nat) ≠ 3 := by omega
    have hrip : ¬((mod : Nat) = 0 ∧ base.number % 8 = 5) := by
      rintro ⟨h0, h5⟩
      exact hbp h5 (hmod.mp (Fin.ext h0))
    rw [decodeModrm_fields mod hn (Nat.mod_lt _ (by decide))]
    simp only [X86.decodeOperand, if_neg hdirect, if_neg hsp, if_neg hrip, hdisp, map_some,
      hrex, mrex, extend_number, Address.operand]

theorem rexByte_bits (w r b : Bool) : (rexByte w r b) >>> 4 = 4#8 ∧
    (rexByte w r b)[1] = false ∧ (rexByte w r b)[3] = w ∧
      (rexByte w r b)[2] = r ∧ (rexByte w r b)[0] = b ∧ rexByte w r b ≠ 0x66#8 := by
  cases w <;> cases r <;> cases b <;> decide

theorem decode_prefixes {op : Byte} (opsize hasRex w r b : Bool)
    (hop : op ≠ 0x66#8 ∧ op >>> 4 ≠ 4#8)
    (hno : hasRex = false → w = false ∧ r = false ∧ b = false) (rest : List Byte) :
    X86.decode fix (byteIf opsize 0x66#8 ++ byteIf hasRex (rexByte w r b) ++ op :: rest) =
      X86.decodeBody fix
        (byteIf opsize 0x66#8 ++ byteIf hasRex (rexByte w r b) ++ op :: rest).length opsize
        { present := hasRex, w := w, r := r, b := b } (op :: rest) := by
  rcases rexByte_bits w r b with ⟨hhigh, hx, hw, hr, hb, hne⟩
  cases opsize <;> cases hasRex
  · rcases hno rfl with ⟨rfl, rfl, rfl⟩
    simp [X86.decode, byteIf, hop.1, X86.decodeRex, hop.2]
  · simp [X86.decode, byteIf, hne, X86.decodeRex, hhigh, hx, hw, hr, hb]
  · rcases hno rfl with ⟨rfl, rfl, rfl⟩
    simp [X86.decode, byteIf, X86.decodeRex, hop.2]
  · simp [X86.decode, byteIf, X86.decodeRex, hhigh, hx, hw, hr, hb]

/-- A register that an instruction with the given prefix names in full. -/
def Named (hasRex : Bool) (w : Nat) (r : Reg) : Prop := w ≠ 1 ∨ hasRex = true ∨ r.number < 4

variable {w : Nat} {r : Reg}

theorem Named.isPlain (h : Named rex.present w r) :
    X86.isPlain rex w (.reg r.number) = true := by
  simpa [X86.isPlain, Named, or_assoc] using h

theorem isPlain_operand (rex : X86.Rex) (w : Nat) :
    X86.isPlain rex w (addr.operand link) = true := by
  cases addr <;> rfl

/-- Bytes that are read as a register and an operand, by a prefix that names both. -/
def ReadsPair (fix : Option X86.Fixup) (len : Nat) (r : Reg) (b : Bool) (o : X86.Operand)
    (bytes : List Byte) : Prop :=
  ∀ (rex : X86.Rex) (w v : Nat) (f : Nat → X86.Operand → X86.Instr),
    rex.b = b → rex.r = is64BitReg r → Named rex.present w r →
      X86.decodePair fix len rex w v f bytes = some (f r.number o)

theorem readsPair_encodeAddr (link : Link) (len : Nat) (r : Reg) (h : addr.Encodable) :
    ∃ c, encodeAddr len (BitVec.ofNat 8 (r.number % 8)) addr 0#32 false = some c ∧
      ReadsPair (c.reloc.map link.fixup) (len + c.bytes.length) r (mrex addr)
        (addr.operand link) c.bytes := by
  rcases decodeModrm_encodeAddr link len (Nat.mod_lt r.number (by decide)) h with ⟨c, hc, hread⟩
  refine ⟨c, hc, ?_⟩
  intro rex w v f hb hr hnamed
  simp [X86.decodePair, hread rex hb, hr, extend_number, hnamed.isPlain, isPlain_operand]

theorem decode_withAddr (opsize hasRex w : Bool) (r : Reg) (op : Byte) (more : List Byte)
    {result : X86.Instr} (hop : op ≠ 0x66#8 ∧ op >>> 4 ≠ 4#8)
    (hno : hasRex = false → w = false ∧ is64BitReg r = false ∧ mrex addr = false)
    (h : addr.Encodable)
    (hbody : ∀ fix len bytes, ReadsPair fix len r (mrex addr) (addr.operand link) bytes →
      X86.decodeBody fix len opsize
        { present := hasRex, w := w, r := is64BitReg r, b := mrex addr } (op :: more ++ bytes) =
          some result) :
    ((withAddr (byteIf opsize 0x66#8 ++ byteIf hasRex (rexByte w (is64BitReg r) (mrex addr)) ++
      op :: more) (BitVec.ofNat 8 (r.number % 8)) addr []).bind fun c =>
        X86.decode (c.reloc.map link.fixup) c.bytes) = some result := by
  unfold withAddr
  set front := byteIf opsize 0x66#8 ++ byteIf hasRex (rexByte w (is64BitReg r) (mrex addr)) ++
    op :: more with hfront
  rcases readsPair_encodeAddr link front.length r h with ⟨c, hc, hread⟩
  rw [List.length_nil, hc, map_some, bind_some]
  have hbytes : front ++ c.bytes ++ [] = byteIf opsize 0x66#8 ++
      byteIf hasRex (rexByte w (is64BitReg r) (mrex addr)) ++ op :: (more ++ c.bytes) := by
    simp [hfront]
  have hlen : (front ++ c.bytes ++ []).length = front.length + c.bytes.length := by simp
  simp only
  rw [hbytes, decode_prefixes _ _ _ _ _ hop hno, ← hbytes, hlen]
  exact hbody _ _ _ hread

theorem rexBits_of_not (h : (rrex ⟨r, w⟩ || mrex addr) = false) :
    is64Bit w = false ∧ is64BitReg r = false ∧ mrex addr = false := by
  simp only [rrex, Bool.or_eq_false_iff] at h
  exact ⟨h.1.1.1, h.1.1.2, h.2⟩

/-- A load of four or eight bytes. -/
theorem meaning_mov_memReg (h : addr.Encodable) (hw : w = 4 ∨ w = 8) :
    meaning link ⟨.mov, .memReg ⟨addr, v⟩ ⟨r, w⟩⟩ =
      some (.mov w (addr.operand link) (.reg r.number)) := by
  have hop : (0x8A#8 + wBit w : Byte) = 0x8B#8 := by
    rcases hw with rfl | rfl <;> rfl
  simp only [meaning, encode, mov, hop]
  apply decode_withAddr false _ _ r 0x8B#8 [] (by decide) rexBits_of_not h
  intro fix len bytes hread
  rcases hw with rfl | rfl
  · exact hread _ 4 4 (fun r o => .mov 4 o (.reg r)) rfl rfl (Or.inl (by decide))
  · exact hread _ 8 8 (fun r o => .mov 8 o (.reg r)) rfl rfl (Or.inl (by decide))

theorem meaning_mov_regMem (h : addr.Encodable) (hw : IsWidth w)
    (hr : w = 1 → r ≠ .sp ∧ r ≠ .bp) :
    meaning link ⟨.mov, .regMem ⟨r, w⟩ ⟨addr, v⟩⟩ =
      some (.mov w (.reg r.number) (addr.operand link)) := by
  simp only [meaning, encode, mov]
  have hnamed : Named (rrex ⟨r, w⟩ || mrex addr) w r := by
    unfold Named
    by_cases h1 : w = 1
    · right
      rcases hr h1 with ⟨hsp, hbp⟩
      subst h1
      cases r <;> simp [rrex, is64Bit, is64BitReg, Reg.number] at hsp hbp ⊢
    · exact Or.inl h1
  apply decode_withAddr (decide (w = 2)) _ _ r (0x88#8 ||| wBit w) [] _ rexBits_of_not h
  · intro fix len bytes hread
    rcases hw with rfl | rfl | rfl | rfl
    · exact hread _ 1 1 (fun r o => .mov 1 (.reg r) o) rfl rfl hnamed
    · exact hread _ 2 2 (fun r o => .mov 2 (.reg r) o) rfl rfl hnamed
    · exact hread _ 4 4 (fun r o => .mov 4 (.reg r) o) rfl rfl hnamed
    · exact hread _ 8 8 (fun r o => .mov 8 (.reg r) o) rfl rfl hnamed
  · rcases hw with rfl | rfl | rfl | rfl <;> decide

theorem meaning_movzx_memReg (h : addr.Encodable) (hn : n = 1 ∨ n = 2)
    (hw : w = 4 ∨ w = 8) :
    meaning link ⟨.movzx, .memReg ⟨addr, n⟩ ⟨r, w⟩⟩ =
      some (.movzx n w (addr.operand link) r.number) := by
  simp only [meaning, encode, movzx, Bool.or_comm (mrex addr)]
  apply decode_withAddr false _ _ r 0x0F#8 [0xB6#8 ||| wBit n] (by decide) rexBits_of_not h
  intro fix len bytes hread
  rcases hn with rfl | rfl <;> rcases hw with rfl | rfl
  · exact hread _ 4 1 (fun r o => .movzx 1 4 o r) rfl rfl (Or.inl (by decide))
  · exact hread _ 8 1 (fun r o => .movzx 1 8 o r) rfl rfl (Or.inl (by decide))
  · exact hread _ 4 2 (fun r o => .movzx 2 4 o r) rfl rfl (Or.inl (by decide))
  · exact hread _ 8 2 (fun r o => .movzx 2 8 o r) rfl rfl (Or.inl (by decide))

theorem meaning_movsx_memReg (h : addr.Encodable) (hn : n = 1 ∨ n = 2)
    (hw : w = 4 ∨ w = 8) :
    meaning link ⟨.movsx, .memReg ⟨addr, n⟩ ⟨r, w⟩⟩ =
      some (.movsx n w (addr.operand link) r.number) := by
  have hn4 : ¬(n = 4 ∧ is64Bit w = true) := by omega
  simp only [meaning, encode, movsx, if_neg hn4]
  have hfront : byteIf (rrex ⟨r, w⟩ || mrex addr)
      (rexByte (is64Bit w) (is64BitReg r) (mrex addr)) ++ [0x0F#8, 0xBE#8 ||| wBit n] =
        byteIf false 0x66#8 ++ byteIf (rrex ⟨r, w⟩ || mrex addr)
          (rexByte (is64Bit w) (is64BitReg r) (mrex addr)) ++ 0x0F#8 :: [0xBE#8 ||| wBit n] := rfl
  rw [hfront]
  apply decode_withAddr false _ _ r 0x0F#8 [0xBE#8 ||| wBit n] (by decide) rexBits_of_not h
  intro fix len bytes hread
  rcases hn with rfl | rfl <;> rcases hw with rfl | rfl
  · exact hread _ 4 1 (fun r o => .movsx 1 4 o r) rfl rfl (Or.inl (by decide))
  · exact hread _ 8 1 (fun r o => .movsx 1 8 o r) rfl rfl (Or.inl (by decide))
  · exact hread _ 4 2 (fun r o => .movsx 2 4 o r) rfl rfl (Or.inl (by decide))
  · exact hread _ 8 2 (fun r o => .movsx 2 8 o r) rfl rfl (Or.inl (by decide))

variable {b : Reg}

theorem decodeModrm_direct {len n : Nat}
    (hn : n < 8) (hb : rex.b = is64BitReg b) (rest : List Byte) :
    X86.decodeModrm fix len rex
      ((0xC0#8 ||| (BitVec.ofNat 8 n <<< 3) ||| BitVec.ofNat 8 (b.number % 8)) :: rest) =
        some (n, .reg b.number, rest) := by
  rcases modrm_direct ⟨n, hn⟩ ⟨b.number % 8, Nat.mod_lt _ (by decide)⟩ with ⟨hmod, hreg, hrm⟩
  simp only [X86.decodeModrm, hmod, hreg, hrm, X86.decodeOperand, if_true, hb, extend_number,
    map_some]

variable {a : Reg}

theorem decodePair_direct {len : Nat}
    (w v : Nat) (f : Nat → X86.Operand → X86.Instr) (hr : rex.r = is64BitReg a)
    (hb : rex.b = is64BitReg b) (ha : Named rex.present w a) (hv : Named rex.present v b) :
    X86.decodePair fix len rex w v f
      [0xC0#8 ||| (BitVec.ofNat 8 (a.number % 8) <<< 3) ||| BitVec.ofNat 8 (b.number % 8)] =
        some (f a.number (.reg b.number)) := by
  simp only [X86.decodePair, decodeModrm_direct (Nat.mod_lt _ (by decide)) hb, hr, extend_number,
    bind_some, ha.isPlain, hv.isPlain, and_self, if_true]

theorem named_of_rrex {c : Bool} (hr : w = 1 → r ≠ .sp ∧ r ≠ .bp)
    (hc : rrex ⟨r, w⟩ = true → c = true) : Named c w r := by
  unfold Named
  by_cases h1 : w = 1
  · right
    rcases hr h1 with ⟨hsp, hbp⟩
    subst h1
    cases r <;> simp [rrex, is64Bit, is64BitReg, Reg.number] at hsp hbp hc ⊢ <;> exact hc
  · exact Or.inl h1

theorem rexBits_of_not_pair (h : (rrex ⟨a, w⟩ || rrex ⟨b, w⟩) = false) :
    is64Bit w = false ∧ is64BitReg a = false ∧ is64BitReg b = false := by
  simp only [rrex, Bool.or_eq_false_iff] at h
  exact ⟨h.1.1.1, h.1.1.2, h.2.1.2⟩

theorem meaning_mov_regReg :
    meaning link ⟨.mov, .regReg ⟨a, 8⟩ ⟨b, 8⟩⟩ = some (.mov 8 (.reg a.number) (.reg b.number)) := by
  simp only [meaning, encode, mov, if_true, bind_some, map_none]
  refine (decode_prefixes false _ _ _ _ ?_ (@rexBits_of_not_pair 8 b a) _).trans ?_
  · decide
  exact decodePair_direct 8 8 (fun r o => .mov 8 (.reg r) o) rfl rfl (Or.inl (by decide))
    (Or.inl (by decide))

theorem meaning_movsx_regReg :
    meaning link ⟨.movsx, .regReg ⟨a, 4⟩ ⟨b, 8⟩⟩ = some (.movsx 4 8 (.reg a.number) b.number) := by
  simp only [meaning, encode, movsx, if_true, bind_some, map_none]
  refine (decode_prefixes false true _ _ _ (by decide) (by simp) _).trans ?_
  exact decodePair_direct 8 4 (fun r o => .movsx 4 8 o r) rfl rfl (Or.inl (by decide))
    (Or.inl (by decide))

/-- The width of an operation that has no prefix for two bytes. -/
def plainWidth (w : Nat) : Nat := if w = 2 then 4 else w

theorem meaning_or_regReg (hw : IsWidth w)
    (ha : w = 1 → a ≠ .sp ∧ a ≠ .bp) (hb : w = 1 → b ≠ .sp ∧ b ≠ .bp) :
    meaning link ⟨.or, .regReg ⟨a, w⟩ ⟨b, w⟩⟩ =
      some (.bit .or (plainWidth w) (.reg a.number) (.reg b.number)) := by
  have hna : Named (rrex ⟨a, w⟩ || rrex ⟨b, w⟩) w a := named_of_rrex ha (by simp +contextual)
  have hnb : Named (rrex ⟨a, w⟩ || rrex ⟨b, w⟩) w b := named_of_rrex hb (by simp +contextual)
  simp only [meaning, encode, encodeBitwise, bind_some, map_none]
  refine (decode_prefixes false _ _ _ _ ?_ rexBits_of_not_pair _).trans ?_
  · rcases hw with rfl | rfl | rfl | rfl <;> decide
  · rcases hw with rfl | rfl | rfl | rfl
    · exact decodePair_direct 1 1 (fun r o => .bit .or 1 (.reg r) o) rfl rfl hna hnb
    · exact decodePair_direct 4 4 (fun r o => .bit .or 4 (.reg r) o) rfl rfl (Or.inl (by decide))
        (Or.inl (by decide))
    · exact decodePair_direct 4 4 (fun r o => .bit .or 4 (.reg r) o) rfl rfl hna hnb
    · exact decodePair_direct 8 8 (fun r o => .bit .or 8 (.reg r) o) rfl rfl hna hnb

theorem rexBits_of_not_single (h : rrex ⟨r, w⟩ = false) :
    is64Bit w = false ∧ false = false ∧ is64BitReg r = false := by
  simp only [rrex, Bool.or_eq_false_iff] at h
  exact ⟨h.1.1, rfl, h.1.2⟩

/-- The operation of a shift opcode, and its bits of the encoding. -/
def shiftOf : Opcode → Option (X86.ShiftOp × Byte × Nat)
  | .shl => some (.shl, 0x00#8, 4)
  | .shr => some (.shr, 0x08#8, 5)
  | .sar => some (.sar, 0x18#8, 7)
  | _ => none

theorem count_byte (hn : n < 64) (v : Nat) :
    isByteImm ⟨v, BitVec.ofNat 64 n⟩ = true ∧ ((BitVec.ofNat 64 n).setWidth 8).toNat = n := by
  have hnat : (BitVec.ofNat 64 n).toNat = n := by
    rw [BitVec.toNat_ofNat]
    omega
  have hint : (BitVec.ofNat 64 n).toInt = n := by
    rw [BitVec.toInt_eq_toNat_of_lt (by omega), hnat]
  constructor
  · have hrange : inByteRange (BitVec.ofNat 64 n) = true := by
      simp only [inByteRange, hint, Bool.and_eq_true, decide_eq_true_eq]
      omega
    simp [isByteImm, hrange]
  · rw [BitVec.toNat_setWidth, hnat]
    omega

variable {f : Nat}

theorem decodeShift_direct (fix : Option X86.Fixup) (len : Nat)
    {op : X86.ShiftOp} (hf : f < 8) (hb : rex.b = is64BitReg b) (hop : X86.shiftOpOf f = some op)
    (hplain : X86.isPlain rex w (.reg b.number) = true) :
    X86.decodeShift fix len rex w true
        [0xC0#8 ||| (BitVec.ofNat 8 f <<< 3) ||| BitVec.ofNat 8 (b.number % 8)] =
      some (.shift op w 1 (.reg b.number)) ∧
    ∀ n, X86.decodeShift fix len rex w false
        [0xC0#8 ||| (BitVec.ofNat 8 f <<< 3) ||| BitVec.ofNat 8 (b.number % 8), n] =
      some (.shift op w n.toNat (.reg b.number)) := by
  simp [X86.decodeShift, decodeModrm_direct hf hb, hop, hplain]

variable {opc : Opcode} {code : Byte}

/-- A shift by a constant; of two bytes it is one of four. -/
theorem meaning_shift_immReg {op : X86.ShiftOp}
    (hopc : shiftOf opc = some (op, code, f)) (hn : n < 64) (hw : IsWidth w)
    (hr : w = 1 → r ≠ .sp ∧ r ≠ .bp) (v : Nat) :
    meaning link ⟨opc, .immReg ⟨v, BitVec.ofNat 64 n⟩ ⟨r, w⟩⟩ =
      some (.shift op (plainWidth w) n (.reg r.number)) := by
  have hencode : encode ⟨opc, .immReg ⟨v, BitVec.ofNat 64 n⟩ ⟨r, w⟩⟩ =
      encodeShift code (.immReg ⟨v, BitVec.ofNat 64 n⟩ ⟨r, w⟩) := by
    cases opc <;> simp_all [shiftOf, encode]
  have hgroup : (code + 0xE0#8 : Byte) = 0xC0#8 ||| (BitVec.ofNat 8 f <<< 3) ∧ f < 8 ∧
      X86.shiftOpOf f = some op := by
    cases opc <;> simp_all [shiftOf] <;> (rcases hopc with ⟨rfl, rfl, rfl⟩; decide)
  rcases hgroup with ⟨hgroup, hf, hop⟩
  rcases count_byte hn v with ⟨hbyte, hcount⟩
  have hplain : X86.isPlain ⟨rrex ⟨r, w⟩, is64Bit w, false, is64BitReg r⟩ (plainWidth w)
      (.reg r.number) = true := by
    apply Named.isPlain
    rcases hw with rfl | rfl | rfl | rfl
    · exact named_of_rrex hr id
    all_goals exact Or.inl (by decide)
  rw [meaning, hencode, encodeShift, if_pos hbyte, hgroup]
  by_cases hone : (BitVec.ofNat 64 n).setWidth 8 = 1#8
  · have h1 : n = 1 := by
      rw [← hcount, hone]
      rfl
    simp only [if_pos hone, bind_some, map_none]
    refine (decode_prefixes false _ _ _ _ ?_ (@rexBits_of_not_single w r) _).trans ?_
    · rcases hw with rfl | rfl | rfl | rfl <;> decide
    · rw [h1]
      rcases hw with rfl | rfl | rfl | rfl <;> exact (decodeShift_direct none _ hf rfl hop hplain).1
  · simp only [if_neg hone, bind_some, map_none]
    refine (decode_prefixes false _ _ _ _ ?_ (@rexBits_of_not_single w r) _).trans ?_
    · rcases hw with rfl | rfl | rfl | rfl <;> decide
    · have hread := fun len =>
        (decodeShift_direct none len hf rfl hop hplain).2
          ((BitVec.ofNat 64 n).setWidth 8)
      rw [hcount] at hread
      rcases hw with rfl | rfl | rfl | rfl <;> exact hread _

/-- The operation of a bitwise opcode, and its bits of the encoding. -/
def bitOf : Opcode → Option (X86.BitOp × Byte × Nat)
  | .or => some (.or, 0x08#8, 1)
  | .and => some (.and, 0x20#8, 4)
  | _ => none

theorem getLsbD_signExtend_setWidth {x : BitVec 64} {k i : Nat} (hk : k ≤ 64) (hi : i < k) :
    ((x.setWidth k).signExtend 64).getLsbD i = x.getLsbD i := by
  rw [BitVec.getLsbD_signExtend, if_pos hi, BitVec.getLsbD_setWidth]
  simp [hi, show i < 64 by omega]

theorem decodeImm_bytesOf (a : Immediate) (ha : a.w = 1 ∨ a.w = 2 ∨ a.w = 4) :
    ∃ imm, X86.decodeImm a.w (bytesOf a.qword a.w) = some imm ∧
      ∀ i < 8 * a.w, imm.getLsbD i = a.qword.getLsbD i := by
  rcases ha with h | h | h <;> rw [h]
  · refine ⟨_, rfl, ?_⟩
    intro i hi
    exact getLsbD_signExtend_setWidth (by decide) hi
  · rcases bytesOf_two a.qword with ⟨d0, d1, hbytes, hword⟩
    refine ⟨_, by rw [hbytes]; rfl, ?_⟩
    intro i hi
    rw [hword]
    exact getLsbD_signExtend_setWidth (by decide) hi
  · rcases bytesOf_four a.qword with ⟨d0, d1, d2, d3, hbytes, hword⟩
    refine ⟨_, by rw [hbytes]; rfl, ?_⟩
    intro i hi
    rw [hword]
    exact getLsbD_signExtend_setWidth (by decide) hi

theorem decodeImm_byte (a : Immediate) (hbyte : isByteImm a = true) :
    ∃ imm, X86.decodeImm 1 (bytesOf a.qword 1) = some imm ∧
      ∀ i < 8 * a.w, imm.getLsbD i = a.qword.getLsbD i := by
  refine ⟨(a.qword.setWidth 8).signExtend 64, rfl, ?_⟩
  intro i hi
  simp only [isByteImm, Bool.or_eq_true, Bool.and_eq_true, decide_eq_true_eq] at hbyte
  rcases hbyte with ((h1 | ⟨h2, hrange⟩) | ⟨h4, hrange⟩) | hrange
  · exact getLsbD_signExtend_setWidth (by decide) (by omega)
  · have h := signExtend_low_byte (v := 64) (by decide) (by decide) hrange
    rw [BitVec.setWidth_setWidth_of_le _ (by decide)] at h
    rw [h]
    exact getLsbD_signExtend_setWidth (by decide) (by omega)
  · have h := signExtend_low_byte (v := 64) (by decide) (by decide) hrange
    rw [BitVec.setWidth_setWidth_of_le _ (by decide)] at h
    rw [h]
    exact getLsbD_signExtend_setWidth (by decide) (by omega)
  · rw [signExtend_low_byte (by decide) (by decide) hrange, BitVec.signExtend_eq]

variable {op : X86.BitOp}

theorem decodeBitImm_direct (fix : Option X86.Fixup) (len : Nat)
    {imm : BitVec 64} {bytes : List Byte} (hf : f < 8)
    (hb : rex.b = is64BitReg b) (hop : X86.bitOpOf f = some op)
    (hplain : X86.isPlain rex w (.reg b.number) = true)
    (himm : X86.decodeImm n bytes = some imm) :
    X86.decodeBitImm fix len rex w n
        ((0xC0#8 ||| (BitVec.ofNat 8 f <<< 3) ||| BitVec.ofNat 8 (b.number % 8)) :: bytes) =
      some (.bitImm op w imm (.reg b.number)) := by
  simp [X86.decodeBitImm, decodeModrm_direct hf hb, hop, hplain, himm]

theorem decodeBody_accumulator (fix : Option X86.Fixup) (len : Nat)
    (hcode : code = 0x08#8 ∧ op = .or ∨ code = 0x20#8 ∧ op = .and)
    (hv : v = 1 ∨ v = 2 ∨ v = 4) (hrex : rex.w = false) (bytes : List Byte) :
    X86.decodeBody fix len (decide (v = 2)) rex ((code ||| 0x04#8 ||| wBit v) :: bytes) =
      (X86.decodeImm v bytes).map fun imm => .bitImm op v imm (.reg 0) := by
  rcases rex with ⟨present, w, r, b⟩
  subst hrex
  rcases hcode with ⟨rfl, rfl⟩ | ⟨rfl, rfl⟩ <;> rcases hv with rfl | rfl | rfl <;> rfl

theorem decodeBody_constant (fix : Option X86.Fixup) (len : Nat)
    {s : Bool} (hv : v = 1 ∨ v = 2 ∨ v = 4) (hs : v = 1 → s = false) (hrex : rex.w = false)
    (bytes : List Byte) :
    X86.decodeBody fix len (decide (v = 2)) rex
        ((0x80#8 ||| (if s then 2#8 else 0#8) ||| wBit v) :: bytes) =
      X86.decodeBitImm fix len rex v (if s then 1 else v) bytes := by
  rcases rex with ⟨present, w, r, b⟩
  subst hrex
  cases s <;> rcases hv with rfl | rfl | rfl <;> first | rfl | exact nomatch hs rfl

/-- A bitwise operation with a constant: its width is the one of the constant, whatever the
width of the register. -/
theorem meaning_bitwise_immReg (link : Link)
    (q : BitVec 64) (hopc : bitOf opc = some (op, code, f))
    (hv : v = 1 ∨ v = 2 ∨ v = 4) (hle : v ≤ w)
    (hbyte : v = 1 → w = 1 ∧ (r.number < 4 ∨ 8 ≤ r.number)) :
    ∃ imm, meaning link ⟨opc, .immReg ⟨v, q⟩ ⟨r, w⟩⟩ = some (.bitImm op v imm (.reg r.number)) ∧
      ∀ i < 8 * v, imm.getLsbD i = q.getLsbD i := by
  have hencode : encode ⟨opc, .immReg ⟨v, q⟩ ⟨r, w⟩⟩ =
      encodeBitwise code (.immReg ⟨v, q⟩ ⟨r, w⟩) := by
    cases opc <;> simp_all [bitOf, encode]
  have hcode : (code = 0x08#8 ∧ f = 1 ∧ op = .or) ∨ (code = 0x20#8 ∧ f = 4 ∧ op = .and) := by
    cases opc <;> simp_all [bitOf]
  have hplain : X86.isPlain ⟨is64BitReg r, false, false, is64BitReg r⟩ v (.reg r.number) = true := by
    apply Named.isPlain
    by_cases h1 : v = 1
    · rcases (hbyte h1).2 with h | h
      · exact Or.inr (Or.inr h)
      · exact Or.inr (Or.inl (by simpa [is64BitReg] using h))
    · exact Or.inl h1
  have hno : is64BitReg r = false → false = false ∧ false = false ∧ is64BitReg r = false :=
    fun h => ⟨rfl, rfl, h⟩
  simp only [meaning, hencode, encodeBitwise, if_pos (show _ ∧ _ from ⟨hle, hv⟩)]
  by_cases hshort : r = .ax ∧ (¬isByteImm ⟨v, q⟩ = true ∨ w = 1)
  · -- the short form for `rax`
    rcases decodeImm_bytesOf ⟨v, q⟩ hv with ⟨imm, himm, hbits⟩
    refine ⟨imm, ?_, hbits⟩
    simp only [if_pos hshort, bind_some, map_none]
    refine (decode_prefixes (decide (v = 2)) _ _ _ _ ?_ hno _).trans ?_
    · rcases hcode with ⟨rfl, -, -⟩ | ⟨rfl, -, -⟩ <;> rcases hv with rfl | rfl | rfl <;> decide
    · rw [hshort.1, decodeBody_accumulator _ _ (by tauto) hv rfl, himm]
      rfl
  · simp only [if_neg hshort, bind_some, map_none]
    have hgroup : (0xC0#8 + code : Byte) = 0xC0#8 ||| (BitVec.ofNat 8 f <<< 3) ∧ f < 8 ∧
        X86.bitOpOf f = some op := by
      rcases hcode with ⟨rfl, rfl, rfl⟩ | ⟨rfl, rfl, rfl⟩ <;> decide
    have hs : v = 1 → (isByteImm ⟨v, q⟩ && decide (1 < w)) = false := by
      intro h1
      simp [(hbyte h1).1]
    have hread : ∃ imm, X86.decodeImm (if (isByteImm ⟨v, q⟩ && decide (1 < w)) = true then 1 else v)
        (bytesOf q (if isByteImm ⟨v, q⟩ = true then 1 else v)) = some imm ∧
          ∀ i < 8 * v, imm.getLsbD i = q.getLsbD i := by
      by_cases hsmall : isByteImm ⟨v, q⟩ = true
      · have hwidth : (if (isByteImm ⟨v, q⟩ && decide (1 < w)) = true then 1 else v) = 1 := by
          split
          · rfl
          · rename_i hw
            simp only [hsmall, Bool.true_and, decide_eq_true_eq] at hw
            omega
        rw [hwidth, if_pos hsmall]
        exact decodeImm_byte ⟨v, q⟩ hsmall
      · rw [if_neg (by simp [hsmall]), if_neg hsmall]
        exact decodeImm_bytesOf ⟨v, q⟩ hv
    rcases hread with ⟨imm, himm, hbits⟩
    refine ⟨imm, ?_, hbits⟩
    refine (decode_prefixes (decide (v = 2)) _ _ _ _ ?_ hno _).trans ?_
    · cases h : (isByteImm ⟨v, q⟩ && decide (1 < w)) <;> rcases hv with rfl | rfl | rfl <;> decide
    · rw [decodeBody_constant _ _ hv hs rfl, hgroup.1]
      exact decodeBitImm_direct _ _ hgroup.2.1 rfl hgroup.2.2 hplain himm

/-! ## Addresses that are not read back -/

variable {disp : BitVec 32}

theorem decodeModrm_unencodable (len : Nat)
    (hn : n < 8) (hbase : base ≠ .sp) (h : ¬(Address.based base disp).Encodable) :
    ∃ c, encodeAddr len (BitVec.ofNat 8 n) (.based base disp) 0#32 false = some c ∧
      c.reloc = none ∧ ∀ total rex, X86.decodeModrm none total rex c.bytes = none := by
  rcases encodeAddr_based len (BitVec.ofNat 8 n) hbase disp with ⟨mod, tail, hcode, hdisp, hmod⟩
  refine ⟨_, hcode, rfl, ?_⟩
  intro total rex
  have hdirect : (mod : Nat) ≠ 3 := by omega
  rw [decodeModrm_fields mod hn (Nat.mod_lt _ (by decide)), map_eq_none_iff]
  by_cases hsib : base.number % 8 = 4
  · -- behind a SIB byte the displacement is one byte short
    have hshort : ∀ sib rest, tail = sib :: rest → X86.decodeDisp mod rest = none := by
      rintro sib rest rfl
      fin_cases mod
      · simp [X86.decodeDisp] at hdisp
      · cases rest <;> simp_all [X86.decodeDisp]
      · rcases rest with _ | ⟨d1, _ | ⟨d2, _ | ⟨d3, _ | ⟨d4, rest⟩⟩⟩⟩ <;> simp_all [X86.decodeDisp]
    simp only [X86.decodeOperand, if_neg hdirect, if_pos hsib]
    cases tail with
    | nil => rfl
    | cons sib rest => simp [hshort sib rest rfl]
  · -- without a displacement `r13` stands for an address that the linker fills in
    have hzero : disp = 0 ∧ base.number % 8 = 5 := by
      simp only [Address.Encodable, not_and, Classical.not_imp, not_not] at h
      exact (h hsib).symm
    have hmod0 : (mod : Nat) = 0 := by rw [hmod.mpr hzero.1]; rfl
    simp only [X86.decodeOperand, if_neg hdirect, if_neg hsib, if_pos (And.intro hmod0 hzero.2)]

theorem decode_withAddr_unencodable (hasRex w : Bool) (r : Reg)
    (op : Byte) (more : List Byte) (hop : op ≠ 0x66#8 ∧ op >>> 4 ≠ 4#8)
    (hno : hasRex = false → w = false ∧ is64BitReg r = false ∧ is64BitReg base = false)
    (hbase : base ≠ .sp) (h : ¬(Address.based base disp).Encodable)
    (hbody : ∀ len bytes, (∀ rex w v f, X86.decodePair none len rex w v f bytes = none) →
      X86.decodeBody none len false
        { present := hasRex, w := w, r := is64BitReg r, b := is64BitReg base }
          (op :: more ++ bytes) = none) :
    ((withAddr (byteIf false 0x66#8 ++ byteIf hasRex (rexByte w (is64BitReg r) (is64BitReg base)) ++
      op :: more) (BitVec.ofNat 8 (r.number % 8)) (.based base disp) []).bind fun c =>
        X86.decode (c.reloc.map link.fixup) c.bytes) = none := by
  unfold withAddr
  set front := byteIf false 0x66#8 ++ byteIf hasRex (rexByte w (is64BitReg r) (is64BitReg base)) ++
    op :: more with hfront
  rcases decodeModrm_unencodable front.length (Nat.mod_lt r.number (by decide)) hbase h with
    ⟨c, hc, hreloc, hread⟩
  rw [List.length_nil, hc, map_some, bind_some]
  have hbytes : front ++ c.bytes ++ [] = byteIf false 0x66#8 ++
      byteIf hasRex (rexByte w (is64BitReg r) (is64BitReg base)) ++ op :: (more ++ c.bytes) := by
    simp [hfront]
  simp only
  rw [hbytes, hreloc, map_none, decode_prefixes _ _ _ _ _ hop hno]
  apply hbody
  intro rex w v f
  rw [X86.decodePair, hread, bind_none]

theorem meaning_load_unencodable
    (hopc : opc = .mov ∨ opc = .movzx ∨ opc = .movsx) (hw : w = 4 ∨ w = 8)
    (hn : n = 4 → opc = .mov) (hbase : base ≠ .sp) (h : ¬(Address.based base disp).Encodable) :
    meaning link ⟨opc, .memReg ⟨.based base disp, n⟩ ⟨r, w⟩⟩ = none := by
  rcases hopc with rfl | rfl | rfl
  · have hop : (0x8A#8 + wBit w : Byte) = 0x8B#8 := by
      rcases hw with rfl | rfl <;> rfl
    simp only [meaning, encode, mov, hop]
    apply decode_withAddr_unencodable _ _ r 0x8B#8 [] (by decide)
      (@rexBits_of_not (.based base disp) w r) hbase h
    intro len bytes hbad
    simp [X86.decodeBody, hbad]
  · simp only [meaning, encode, movzx, Bool.or_comm (mrex _)]
    apply decode_withAddr_unencodable _ _ r 0x0F#8 [0xB6#8 ||| wBit n] (by decide)
      (@rexBits_of_not (.based base disp) w r) hbase h
    intro len bytes hbad
    unfold wBit
    split <;> simp [X86.decodeBody, hbad]
  · have hn4 : ¬(n = 4 ∧ is64Bit w = true) := by
      rintro ⟨h4, -⟩
      exact nomatch hn h4
    simp only [meaning, encode, movsx, if_neg hn4]
    apply decode_withAddr_unencodable _ _ r 0x0F#8 [0xBE#8 ||| wBit n] (by decide)
      (@rexBits_of_not (.based base disp) w r) hbase h
    intro len bytes hbad
    unfold wBit
    split <;> simp [X86.decodeBody, hbad]

end Bytes
end Kcs.Jit
