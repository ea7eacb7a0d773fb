import Kcs.Ir.Syntax

/-!
# Code of the virtual machine

Instructions, operands and labels of the virtual machine, as
`backend/vm/vminstr.h` declares them, and the search for a label by its name.

Main results:

- Lemma {lit}`getVmLabel_eq_some_iff`: the entry found is the first one with the name.
-/

namespace Kcs

open List

/-- `enum vm_opcode` -/
inductive VmOpcode
  | nop
  | label
  | halt
  | store
  | fzero
  | call
  | ret
  | clup
  | clpop
  | enter
  | deref
  | cast
  | alloca
  | jmp
  | jz
  | jnz
  | push
  | pop
  | depop
  | not
  | neg
  | add
  | sub
  | mul
  | div
  | mod
  | and
  | or
  | xor
  | shl
  | shr
  | eq
  | ne
  | ge
  | gt
  | le
  | lt
  | inc
  | dec
  | jmptbl
  | tblEntry
  | global
  | reflib
  | saveRetval
  | setjmp
  | longjmp
deriving DecidableEq, Repr, Inhabited

/-- `enum vm_optype` -/
inductive VmOptype
  | none
  | label
  | int8
  | int16
  | int32
  | int64
  | uint8
  | uint16
  | uint32
  | uint64
  | flt
  | dbl
  | ldbl
  | charp
  | vari
  | varu
  | varfl
  | varobj
  | addr
  | funcname
  | funcaddr
  | builtin
deriving DecidableEq, Repr, Inhabited

/-- `struct vm_address`, without the pointer to a built-in function. -/
structure VmAddress where
  name : String := ""
  isGlobal : Bool := false
  index : Int := 0
  base : Int := 0
  offset : Int := 0
  size : Int := 0
deriving DecidableEq, Repr, Inhabited

/-- The union `d` of `struct vm_code`.  A string constant is a position in the
memory of global data, and the integer and floating constants are the bytes of
`union vm_imm`. -/
inductive VmOperand
  | none
  | lindex (i : Int)
  | size (n : Int)
  | name (s : String)
  | cast (src dst : CType)
  | addr (a : VmAddress)
  | imm (v : Value)
  | str (pos : Nat)
deriving DecidableEq, Repr, Inhabited

/-- `struct vm_code`, without its own index, which nothing but the listing of
the program reads. -/
structure VmCode where
  opcode : VmOpcode
  type : VmOptype := .none
  d : VmOperand := .none
deriving DecidableEq, Repr, Inhabited

/-- The member `d.addr`. -/
def VmCode.addr (c : VmCode) : VmAddress :=
  match c.d with
  | .addr a => a
  | _ => {}

/-- `struct vm_label` -/
structure VmLabel where
  index : Int := -1
  name : String
deriving DecidableEq, Repr, Inhabited

/-- `get_vm_label`: position of the first entry with the given name. -/
def getVmLabel (labels : List VmLabel) (name : String) : Option Nat :=
  labels.findIdx? (·.name = name)

variable {labels : List VmLabel} {name : String} {p : Nat}

/-- The entry found has the name, and no entry before it does. -/
theorem getVmLabel_eq_some_iff :
    getVmLabel labels name = some p ↔
      (∃ label, labels[p]? = some label ∧ label.name = name) ∧
        ∀ q label, q < p → labels[q]? = some label → label.name ≠ name := by
  unfold getVmLabel
  rw [findIdx?_eq_some_iff_getElem]
  constructor
  · rintro ⟨hp, hname, hbefore⟩
    constructor
    · exact ⟨labels[p], getElem?_eq_getElem hp, by simpa using hname⟩
    · intro q label hq hlabel
      have hqlt : q < labels.length := by omega
      rw [getElem?_eq_getElem hqlt, Option.some.injEq] at hlabel
      subst hlabel
      simpa using hbefore q hq
  · rintro ⟨⟨label, hlabel, hname⟩, hbefore⟩
    rcases List.getElem?_eq_some_iff.mp hlabel with ⟨hp, rfl⟩
    refine ⟨hp, by simpa using hname, ?_⟩
    intro q hq
    simpa using hbefore q labels[q] hq (getElem?_eq_getElem (by omega))

end Kcs
