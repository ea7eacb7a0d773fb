import Kcs.Vm.Run

/-!
# Jumps to other functions

A {lit}`setjmp` saves its position and the registers in a buffer and leaves zero in the slot
of its argument; a {lit}`longjmp` takes the position and the registers from the buffer and
pushes its result.  The saved stack pointer is above the slot of the argument, so the second
return of a {lit}`setjmp` has one slot more on the stack than the first one.

Main results:

- Theorem {lit}`longjmp_lands`: where a run goes on after a {lit}`longjmp`.
- Theorem {lit}`longjmp_never_balanced`: never with the stack of the first return.
- Theorem {lit}`longjmp_zero`: a run with a result that is zero.
-/

namespace Kcs.Vm

open Memory

/-! ## The buffer -/

/-- A buffer with a position and the registers at it. -/
structure Saved (m : Memory) (buffer ip bp sp : Nat) : Prop where
  ip : m.load buffer 8 = ip
  bp : m.load (buffer + 8) 8 = bp
  sp : m.load (buffer + 16) 8 = sp

variable {L : Layout} {m m' : Memory} {s : State} {buffer i b x : Nat}

theorem Saved.congr (h : Saved m buffer i b x)
    (hsame : ∀ a, buffer ≤ a → a < buffer + 24 → m' a = m a) : Saved m' buffer i b x where
  ip := by
    rw [← h.ip]
    exact load_congr fun a hlo hhi => hsame a hlo (by omega)
  bp := by
    rw [← h.bp]
    exact load_congr fun a hlo hhi => hsame a (by omega) (by omega)
  sp := by
    rw [← h.sp]
    exact load_congr fun a hlo hhi => hsame a (by omega) (by omega)

theorem slotIp_toSlot {i : Int} (hlo : -2 ^ 63 ≤ i) (hhi : i < 2 ^ 63) :
    slotIp (toSlot i) = i := by
  have hwidth : CInteger.long.format.width = 64 := rfl
  rw [slotIp, slotInt_toSlot, IntFormat.wrap_signed rfl, hwidth]
  exact Int.bmod_eq_of_le (by omega) (by omega)

/-- The buffer of a `setjmp` is apart from the slot with its address. -/
def BufferApart (L : Layout) (s : State) : Prop :=
  s.top L + 24 ≤ s.topAddr L ∨ s.topAddr L + 8 ≤ s.top L

instance (L : Layout) (s : State) : Decidable (BufferApart L s) :=
  inferInstanceAs (Decidable (_ ∨ _))

theorem execSetjmp_saved {i : Int} (hapart : BufferApart L s) :
    Saved (execSetjmp L i s).2.mem (s.top L) (toSlot (i + 1)) (s.bp % 2 ^ 64)
      (s.sp % 2 ^ 64) := by
  have hword : (256 : Nat) ^ 8 = 2 ^ 64 := by norm_num
  have hslot : toSlot (i + 1) % 2 ^ 64 = toSlot (i + 1) := by
    simp only [toSlot]
    omega
  -- The slot of the argument is cleared last, and is apart from all three words.
  have hclear : ∀ (m : Memory) k, k + 8 ≤ 24 →
      (m.store (s.topAddr L) 8 0).load (s.top L + k) 8 = m.load (s.top L + k) 8 := by
    intro m k hk
    apply load_store_of_disjoint
    rcases hapart with hlow | hhigh <;> omega
  simp only [execSetjmp, State.setTop, State.topAddr]
  refine ⟨?_, ?_, ?_⟩
  · rw [show s.top L = s.top L + 0 from rfl, ← State.topAddr, hclear _ 0 (by omega),
      load_store_of_disjoint (Or.inl (by omega)),
      load_store_of_disjoint (Or.inl (by omega)), Nat.add_zero, load_store_self, hword, hslot]
  · rw [← State.topAddr, hclear _ 8 (by omega),
      load_store_of_disjoint (Or.inl (by omega)), load_store_self, hword]
  · rw [← State.topAddr, hclear _ 16 (by omega), load_store_self, hword]

theorem execLongjmp_of_saved (h : Saved s.mem (s.top L) i b x) :
    execLongjmp L s =
      (slotIp i, { s with bp := b, sp := x }.push L (s.mem.load (s.topAddr L - 8) 8)) := by
  simp only [execLongjmp, h.ip, h.bp, h.sp]

/-! ## Runs -/

/-- The step at a position with an instruction. -/
def StepsBy (M : Machine) (exec : List VmCode) (op : VmOpcode) (p q : Int × State) : Prop :=
  (∃ c, codeAt exec p.1 = some c ∧ c.opcode = op) ∧ execStep M exec p = some q

/-- A run from a `setjmp`, through anything, to a `longjmp` with the buffer as it was filled. -/
structure JumpsBack (M : Machine) (exec : List VmCode) (p₀ p₁ p₂ p₃ : Int × State) : Prop where
  fills : StepsBy M exec .setjmp p₀ p₁
  run : Relation.ReflTransGen (fun p q => execStep M exec p = some q) p₁ p₂
  jumps : StepsBy M exec .longjmp p₂ p₃
  buffer : p₂.2.top M.layout = p₀.2.top M.layout
  apart : BufferApart M.layout p₀.2
  kept : ∀ a, p₀.2.top M.layout ≤ a → a < p₀.2.top M.layout + 24 → p₂.2.mem a = p₁.2.mem a

/-- The number that a `longjmp` is called with. -/
def jumpResult (L : Layout) (s : State) : Nat := s.mem.load (s.topAddr L - 8) 8

/-- The second return of a `setjmp` is like the first one, with the result of the `longjmp`. -/
structure ReturnsAgain (L : Layout) (p₁ p₂ p₃ : Int × State) : Prop where
  ip : p₃.1 = p₁.1
  bp : p₃.2.bp = p₁.2.bp
  sp : p₃.2.sp = p₁.2.sp
  top : p₃.2.top L = if jumpResult L p₂.2 = 0 then 1 else jumpResult L p₂.2

variable {M : Machine} {exec : List VmCode} {p q p₀ p₁ p₂ p₃ q₂ q₃ : Int × State}

theorem StepsBy.setjmp (h : StepsBy M exec .setjmp p q) : q = execSetjmp M.layout p.1 p.2 := by
  rcases h with ⟨⟨c, hc, hop⟩, hstep⟩
  simp only [execStep, hc, Option.bind_some, isJump, hop, execOther] at hstep
  exact (Option.some.inj hstep).symm

theorem StepsBy.longjmp (h : StepsBy M exec .longjmp p q) : q = execLongjmp M.layout p.2 := by
  rcases h with ⟨⟨c, hc, hop⟩, hstep⟩
  simp only [execStep, hc, Option.bind_some, isJump, hop, execOther] at hstep
  exact (Option.some.inj hstep).symm

section

variable (h : JumpsBack M exec p₀ p₁ p₂ p₃)
include h

theorem JumpsBack.eq :
    p₃ = (slotIp (toSlot p₁.1),
      { p₂.2 with bp := p₁.2.bp % 2 ^ 64, sp := p₁.2.sp % 2 ^ 64 }.push M.layout
        (jumpResult M.layout p₂.2)) := by
  have hfilled : p₁ = execSetjmp M.layout p₀.1 p₀.2 := h.fills.setjmp
  have hsaved : Saved p₂.2.mem (p₀.2.top M.layout) (toSlot (p₀.1 + 1)) (p₀.2.bp % 2 ^ 64)
      (p₀.2.sp % 2 ^ 64) := by
    have hfull := execSetjmp_saved h.apart (i := p₀.1)
    rw [← hfilled] at hfull
    exact hfull.congr h.kept
  rw [← h.buffer] at hsaved
  rw [h.jumps.longjmp, execLongjmp_of_saved hsaved, hfilled]
  rfl

/-- No run comes back to a `setjmp` with the stack that its first return had. -/
theorem longjmp_never_balanced :
    ¬ ReturnsAgain M.layout p₁ p₂ p₃ := by
  intro hagain
  have hsp := hagain.sp
  rw [h.eq] at hsp
  simp only [State.push] at hsp
  omega

/-- However many of them came before, and from whatever depth of calls: a `longjmp` goes on after
the `setjmp`, in its function, with its number above one slot more than there were at the first
return. -/
theorem longjmp_lands (hlo : -2 ^ 63 ≤ p₁.1)
    (hhi : p₁.1 < 2 ^ 63) (hbp : p₁.2.bp < 2 ^ 64) (hsp : p₁.2.sp < 2 ^ 64) :
    p₃.1 = p₁.1 ∧ p₃.2.bp = p₁.2.bp ∧ p₃.2.sp = p₁.2.sp + 8 ∧
      p₃.2.top M.layout = jumpResult M.layout p₂.2 := by
  have hword : (256 : Nat) ^ 8 = 2 ^ 64 := by norm_num
  have hresult : jumpResult M.layout p₂.2 < 2 ^ 64 := by
    rw [← hword]
    exact load_lt _ _ _
  rw [h.eq, State.top_push, Nat.mod_eq_of_lt hresult]
  refine ⟨slotIp_toSlot hlo hhi, Nat.mod_eq_of_lt hbp, ?_, rfl⟩
  simp only [State.push, Nat.mod_eq_of_lt hsp]

end

/-! ## A program -/

/-- Comes back with zero to a buffer sixteen bytes into the frame. -/
def comebackCode : List VmCode :=
  [{ opcode := .setjmp }, { opcode := .push, type := .int32, d := .imm ⟨0, 0⟩ },
    { opcode := .push, type := .addr, d := .addr { index := 16 } }, { opcode := .longjmp }]

/-- The machine that it runs on. -/
def comebackMachine : Machine := sampleLayout.machine fun _ _ => none

/-- The states of its run, which starts with the address of the buffer on the stack. -/
def comebackAt : Nat → Int × State
  | 0 => (0, sampleState (wordMemory 4216 8 4176))
  | n + 1 =>
    (execStep comebackMachine comebackCode (comebackAt n)).getD (comebackAt n)

theorem comeback_jumpsBack :
    JumpsBack comebackMachine comebackCode (comebackAt 0) (comebackAt 1) (comebackAt 3)
      (comebackAt 4) where
  fills := ⟨⟨_, rfl, rfl⟩, rfl⟩
  run := by
    have h12 : execStep comebackMachine comebackCode (comebackAt 1) = some (comebackAt 2) := rfl
    have h23 : execStep comebackMachine comebackCode (comebackAt 2) = some (comebackAt 3) := rfl
    refine Relation.ReflTransGen.tail (b := comebackAt 2) (Relation.ReflTransGen.single ?_) ?_
    · exact h12
    · exact h23
  jumps := ⟨⟨_, rfl, rfl⟩, rfl⟩
  buffer := by decide
  apart := by decide
  kept := by
    intro a hlo hhi
    have htop : (comebackAt 0).2.top sampleLayout = 4176 := by decide
    have hmem : (comebackAt 3).2.mem = (((comebackAt 1).2.mem.store 4224 8 0).store 4232 8 4176) :=
      rfl
    rw [show comebackMachine.layout = sampleLayout from rfl, htop] at hhi
    rw [hmem, store_outside (Or.inl (by omega)), store_outside (Or.inl (by omega))]

/-- A run that comes back to its `setjmp`. -/
theorem comeback_unbalanced :
    ¬ ReturnsAgain comebackMachine.layout (comebackAt 1) (comebackAt 3) (comebackAt 4) :=
  longjmp_never_balanced comeback_jumpsBack

/-- A run that comes back with zero has zero on its stack, one slot above the stack of the first
return. -/
theorem longjmp_zero :
    JumpsBack comebackMachine comebackCode (comebackAt 0) (comebackAt 1) (comebackAt 3)
        (comebackAt 4) ∧
      (comebackAt 4).2.sp = (comebackAt 1).2.sp + 8 ∧
      jumpResult sampleLayout (comebackAt 3).2 = 0 ∧
      (comebackAt 4).2.top sampleLayout = 0 ∧
      ¬ ReturnsAgain comebackMachine.layout (comebackAt 1) (comebackAt 3) (comebackAt 4) := by
  refine ⟨comeback_jumpsBack, rfl, by decide, by decide, fun h => ?_⟩
  have hsp : (comebackAt 4).2.sp = (comebackAt 1).2.sp := h.sp
  exact absurd hsp (by decide)

theorem comeback_lands :
    (comebackAt 4).1 = (comebackAt 1).1 ∧ (comebackAt 4).2.bp = (comebackAt 1).2.bp ∧
      (comebackAt 4).2.sp = (comebackAt 1).2.sp + 8 ∧
      (comebackAt 4).2.top comebackMachine.layout =
        jumpResult comebackMachine.layout (comebackAt 3).2 :=
  longjmp_lands comeback_jumpsBack (by decide) (by decide) (by decide) (by decide)

end Kcs.Vm
