import Kcs.Vm.Call

/-!
# Running programs

`run_vm_by_lir` with its instruction pointer: jumps, calls, returns, and the instructions
for `setjmp` and `longjmp`.  Instructions that go on with the next one are a parameter, and
so are the functions of the built-in library.

Main results:

- Lemma {lit}`Route.stopsAt`: a way through the jumps of a program is taken when the
  slots on the stack say so.
-/

namespace Kcs.Vm

open Option

/-! ## The machine -/

/-- What a program runs on: its memory, the instructions that go on with the next one, and the
functions of the library. -/
structure Machine where
  layout : Layout
  data : VmCode → State → Option State
  builtin : String → State → Option State

/-- The machine of `execData`. -/
def Layout.machine (L : Layout) (builtin : String → State → Option State) : Machine where
  layout := L
  data := execData L
  builtin := builtin

/-- A slot read as a position. -/
def slotIp (x : Nat) : Int := slotInt .long x

variable (L : Layout)

/-- `VM_RET`: back to the caller with a result of the given size. -/
def execRet (size : Int) (s : State) : Int × State :=
  let size := (pad8 size).toNat
  let bp := s.mem.load (L.stack + (s.bp - 8)) 8
  let ip := slotIp (s.mem.load (L.stack + (s.bp - 16)) 8)
  let t := moveResult L s (s.sp - size) (s.bp - 16) size
  (ip, { t with bp := bp, retsize := size })

/-- `VM_SETJMP`: the position, and the registers at it, in the buffer on top of the stack, which
becomes zero. -/
def execSetjmp (ip : Int) (s : State) : Int × State :=
  let buffer := s.top L
  let m := ((s.mem.store buffer 8 (toSlot (ip + 1))).store (buffer + 8) 8 s.bp).store
    (buffer + 16) 8 s.sp
  (ip + 1, { s with mem := m }.setTop L 8 0)

/-- `VM_LONGJMP`: the position and the registers from the buffer on top of the stack, and the number
below it. -/
def execLongjmp (s : State) : Int × State :=
  let buffer := s.top L
  let r := s.mem.load (s.topAddr L - 8) 8
  let t :=
    { s with
      bp := s.mem.load (buffer + 8) 8
      sp := s.mem.load (buffer + 16) 8 }
  (slotIp (s.mem.load buffer 8), t.push L r)

/-- A jump: where it goes, and whether a slot is taken off the stack. -/
def execJump (c : VmCode) (ip : Int) (s : State) : Option (Int × State) :=
  match c.opcode with
  | .jmp => some (ip + c.addr.index, s)
  | .jz => some (if s.top L = 0 then ip + c.addr.index else ip + 1, s.drop)
  | .jnz => some (if s.top L = 0 then ip + 1 else ip + c.addr.index, s.drop)
  | _ => none

variable {L}

/-- An instruction that is no jump, at its position in a program. -/
def execOther (M : Machine) (exec : List VmCode) (c : VmCode) (ip : Int) (s : State) :
    Option (Int × State) :=
  match c.opcode with
  | .nop => some (ip + 1, s)
  | .jmptbl =>
    let entry := ip + (s.top M.layout % 2 ^ 32 : Nat) + 1
    (codeAt exec entry).map fun e => (entry + e.addr.index, s.drop)
  | .call =>
    (execVmCall M.layout ip c s).bind fun (callee, t) =>
      match callee with
      | .code ip => some (ip, t)
      | .builtin name => (M.builtin name t).map fun t => (ip + 1, t)
  | .ret =>
    match c.d with
    | .size n => some (execRet M.layout n s)
    | _ => none
  | .setjmp => some (execSetjmp M.layout ip s)
  | .longjmp => some (execLongjmp M.layout s)
  | .halt | .tblEntry | .label => none
  | _ => (M.data c s).map fun t => (ip + 1, t)

/-- One instruction of a program. -/
def execStep (M : Machine) (exec : List VmCode) (p : Int × State) : Option (Int × State) :=
  (codeAt exec p.1).bind fun c =>
    if isJump c.opcode then execJump M.layout c p.1 p.2 else execOther M exec c p.1 p.2

/-! ## Visited instructions -/

/-- A position with a jump. -/
def JumpPlace (exec : List VmCode) (i : Int) : Prop :=
  ∃ c, codeAt exec i = some c ∧ isJump c.opcode = true

instance (exec : List VmCode) (i : Int) : Decidable (JumpPlace exec i) :=
  decidable_of_iff ((codeAt exec i).any fun c => isJump c.opcode) (any_eq_true _ _)

section Runs

variable (M : Machine) (exec : List VmCode) (jumps : Int → Prop) [DecidablePred jumps]

/-- A step at one of the given positions. -/
def silentStep (p : Int × State) : Option (Int × State) :=
  if jumps p.1 then execStep M exec p else none

/-- Through the given positions a run comes to an instruction at another one. -/
def StopsAt (p q : Int × State) : Prop :=
  EndsAt (silentStep M exec jumps) p q ∧ ¬ jumps q.1 ∧ ∃ c, codeAt exec q.1 = some c

/-- The instructions, with their states, that a run visits one after another outside the given
positions. -/
inductive Traces : Int × State → List (Int × State) → Prop
  | nil (p : Int × State) : Traces p []
  | last {p q : Int × State} (h : StopsAt M exec jumps p q) : Traces p [q]
  | cons {p q p' : Int × State} {trace : List (Int × State)} (h : StopsAt M exec jumps p q)
      (hstep : execStep M exec q = some p') (hrest : Traces p' trace) : Traces p (q :: trace)

end Runs

/-- Two lists of instructions run alike: from every state they visit the same instructions, outside
the jumps of the first list, in the same order and with the same states. -/
def RunsAlike (exec cur : List VmCode) : Prop :=
  ∀ M p trace, Traces M exec (JumpPlace exec) p trace ↔ Traces M cur (JumpPlace exec) p trace

/-! ## Ways through the jumps -/

/-- A way through jumps to an instruction that is none.  The list says for each conditional jump
whether its slot is zero. -/
inductive Route (exec : List VmCode) : Int → List Bool → Int → Prop
  | here {i : Int} {c : VmCode} (hc : codeAt exec i = some c) (hjump : isJump c.opcode = false) :
      Route exec i [] i
  | jmp {i j : Int} {c : VmCode} {zeros : List Bool} (hc : codeAt exec i = some c)
      (hop : c.opcode = .jmp) (hrest : Route exec (i + c.addr.index) zeros j) :
      Route exec i zeros j
  | jz {i j : Int} {c : VmCode} {zero : Bool} {zeros : List Bool} (hc : codeAt exec i = some c)
      (hop : c.opcode = .jz)
      (hrest : Route exec (if zero then i + c.addr.index else i + 1) zeros j) :
      Route exec i (zero :: zeros) j
  | jnz {i j : Int} {c : VmCode} {zero : Bool} {zeros : List Bool} (hc : codeAt exec i = some c)
      (hop : c.opcode = .jnz)
      (hrest : Route exec (if zero then i + 1 else i + c.addr.index) zeros j) :
      Route exec i (zero :: zeros) j

/-- There is a way through jumps to another instruction. -/
def Escapes (exec : List VmCode) (i : Int) : Prop := ∃ zeros j, Route exec i zeros j

/-- The slots on the stack are zero where they should be. -/
def ZeroSlots (L : Layout) : List Bool → State → Prop
  | [], _ => True
  | zero :: zeros, s => (s.top L = 0 ↔ zero = true) ∧ ZeroSlots L zeros s.drop

variable {M : Machine} {exec cur : List VmCode} {c : VmCode} {i j : Int} {s : State}
  {zeros : List Bool} {p q : Int × State}

theorem silentStep_of_jump (hc : codeAt exec i = some c) (hjump : isJump c.opcode = true) :
    silentStep M exec (JumpPlace exec) (i, s) = execJump M.layout c i s := by
  have hat : JumpPlace exec i := ⟨c, hc, hjump⟩
  simp [silentStep, hat, execStep, hc, hjump]

theorem silentStep_of_other (h : ¬ JumpPlace exec p.1) :
    silentStep M exec (JumpPlace exec) p = none := by
  simp [silentStep, h]

theorem not_jumpPlace (hc : codeAt exec i = some c) (hjump : isJump c.opcode = false) :
    ¬ JumpPlace exec i := by
  rintro ⟨d, hd, hjump'⟩
  rw [hc, some.injEq] at hd
  subst hd
  rw [hjump] at hjump'
  cases hjump'

/-- A way through the jumps is taken when the slots on the stack say so. -/
theorem Route.stopsAt (h : Route exec i zeros j) (hzeros : ZeroSlots M.layout zeros s) :
    StopsAt M exec (JumpPlace exec) (i, s) (j, State.drop^[zeros.length] s) := by
  induction h generalizing s with
  | here hc hjump =>
    have hno := not_jumpPlace hc hjump
    exact ⟨EndsAt.refl (silentStep_of_other hno), hno, _, hc⟩
  | jmp hc hop _ ih =>
    rcases ih hzeros with ⟨hends, hrest⟩
    refine ⟨EndsAt.head ?_ hends, hrest⟩
    rw [silentStep_of_jump hc (by simp [isJump, hop])]
    simp [execJump, hop]
  | jz hc hop _ ih =>
    rcases hzeros with ⟨hzero, hzeros⟩
    rcases ih hzeros with ⟨hends, hrest⟩
    refine ⟨EndsAt.head ?_ hends, hrest⟩
    rw [silentStep_of_jump hc (by simp [isJump, hop])]
    simp [execJump, hop, hzero]
  | jnz hc hop _ ih =>
    rcases hzeros with ⟨hzero, hzeros⟩
    rcases ih hzeros with ⟨hends, hrest⟩
    refine ⟨EndsAt.head ?_ hends, hrest⟩
    rw [silentStep_of_jump hc (by simp [isJump, hop])]
    simp [execJump, hop, hzero]

theorem StopsAt.escapes (h : StopsAt M exec (JumpPlace exec) p q) : Escapes exec p.1 := by
  rcases h with ⟨⟨hleads, -⟩, hno, d, hd⟩
  have hother : isJump d.opcode = false := by
    by_contra hjump
    exact hno ⟨d, hd, by simpa using hjump⟩
  induction hleads using Relation.ReflTransGen.head_induction_on with
  | refl => exact ⟨[], _, Route.here hd hother⟩
  | @head p p' hstep _ ih =>
    rcases ih with ⟨zeros, j, hroute⟩
    by_cases hat : JumpPlace exec p.1
    · rcases hat with ⟨c, hc, hjump⟩
      rw [show p = (p.1, p.2) from rfl, silentStep_of_jump hc hjump] at hstep
      simp only [isJump, Bool.or_eq_true, decide_eq_true_eq] at hjump
      rcases hjump with (hop | hop) | hop
      · simp only [execJump, hop, some.injEq] at hstep
        subst hstep
        exact ⟨zeros, j, Route.jmp hc hop hroute⟩
      · simp only [execJump, hop, some.injEq] at hstep
        subst hstep
        refine ⟨decide (p.2.top M.layout = 0) :: zeros, j, Route.jz hc hop ?_⟩
        simpa using hroute
      · simp only [execJump, hop, some.injEq] at hstep
        subst hstep
        refine ⟨decide (p.2.top M.layout = 0) :: zeros, j, Route.jnz hc hop ?_⟩
        simpa using hroute
    · rw [silentStep_of_other hat] at hstep
      cases hstep

end Kcs.Vm
