import Kcs.Vm.Run

/-!
# Threaded jumps

What {lit}`jump_optimization` does to a program.  A jump goes to the end of the chain of
unconditional jumps at its target, and a jump to the next instruction becomes one that
does nothing.  That is right for an unconditional jump, but a conditional one takes its
slot off the stack.

Main results:

- Theorem {lit}`jumpOptimization_threaded`: the jumps after the optimization.
- Theorem {lit}`jumpOptimization_idempotent`: a second optimization changes nothing.
- Theorem {lit}`jump_optimization_iff`: the programs for which it ends and keeps the
  behaviour.
- Theorem {lit}`jump_optimization_wrong`: an empty infinite loop, and a conditional jump to
  the next instruction.
-/

namespace Kcs.Vm

open List
open Option hiding or_assoc

/-! ## Targets -/

/-- The jumps of a list go to instructions of the list. -/
def JumpsInRange (exec : List VmCode) : Prop :=
  ∀ (i : Nat) c, exec[i]? = some c → isJump c.opcode = true →
    0 ≤ (i : Int) + c.addr.index ∧ (i : Int) + c.addr.index < exec.length

/-- A jump after the optimization goes along the chain of its target, to the end of the chain or to
an earlier jump to the next instruction there. -/
structure Threaded (exec : List VmCode) (i : Nat) (c d : VmCode) (t : Int) : Prop where
  leads : Leads (jumpNext exec) (i + c.addr.index) t
  index : d.addr.index = t - i
  opcode : d.opcode = if t = i + 1 then .nop else c.opcode
  stop : jumpNext exec t = none ∨ (t < i ∧ EndsAt (jumpNext exec) t (t + 1))

/-- The instructions before a position have been optimized. -/
structure ThreadedTo (exec cur : List VmCode) (n : Nat) : Prop where
  before : ∀ i c, i < n → exec[i]? = some c → isJump c.opcode = true →
    ∃ d t, cur[i]? = some d ∧ Threaded exec i c d t
  optimized : OptimizedTo exec cur n

variable {exec cur cur' : List VmCode} {c d : VmCode} {i n fuel : Nat} {a b t : Int}

theorem JumpsInRange.inside (h : JumpsInRange exec) : JumpsInside exec :=
  fun i c hc hjump => (h i c hc hjump).1

theorem JumpsInRange.leads (h : JumpsInRange exec) (hab : Leads (jumpNext exec) a b)
    (ha : 0 ≤ a ∧ a < exec.length) : 0 ≤ b ∧ b < exec.length := by
  induction hab with
  | refl => exact ha
  | tail _ hstep _ =>
    rcases jumpNext_eq_some_iff.mp hstep with ⟨i, c, rfl, hc, hjmp, rfl⟩
    exact h i c hc (by simp [isJump, hjmp])

theorem followJumps_stop (h : followJumps cur fuel a = some b) :
    cur.length ≤ b ∨ ∃ c, codeAt cur b = some c ∧ c.opcode ≠ .jmp := by
  induction fuel generalizing a with
  | zero => simp [followJumps] at h
  | succ fuel ih =>
    rw [followJumps] at h
    split at h
    · cases h
      exact Or.inl ‹_›
    · rw [bind_eq_some_iff] at h
      rcases h with ⟨c, hc, h⟩
      split at h
      · exact ih h
      · cases h
        exact Or.inr ⟨c, hc, ‹_›⟩

theorem ThreadedTo.stop (h : ThreadedTo exec cur n) (hb : 0 ≤ b ∧ b < exec.length)
    (hf : followJumps cur fuel a = some b) :
    jumpNext exec b = none ∨ (b < n ∧ EndsAt (jumpNext exec) b (b + 1)) := by
  rcases followJumps_stop hf with hlen | ⟨d, hd, hno⟩
  · rw [h.optimized.length] at hlen
    omega
  · rcases codeAt_eq_some_iff.mp hd with ⟨j, rfl, hj⟩
    have hlt : j < exec.length := by omega
    have hget : exec[j]? = some exec[j] := getElem?_eq_getElem hlt
    by_cases hjmp : exec[j].opcode = .jmp
    · -- The jump has become one that does nothing.
      have hbefore : j < n := by
        by_contra hn
        rw [h.optimized.behind j (by omega), hget, some.injEq] at hj
        exact hno (hj ▸ hjmp)
      rcases h.before j _ hbefore hget (by simp [isJump, hjmp]) with ⟨d', t, hd', hthreaded⟩
      rw [hj, some.injEq] at hd'
      subst hd'
      have hnext : jumpNext exec j = some (j + exec[j].addr.index) :=
        jumpNext_eq_some_iff.mpr ⟨j, _, rfl, hget, hjmp, rfl⟩
      have ht : t = j + 1 := by
        by_contra hne
        rw [hthreaded.opcode, if_neg hne] at hno
        exact hno hjmp
      subst ht
      refine Or.inr ⟨by omega, EndsAt.head hnext ⟨hthreaded.leads, ?_⟩⟩
      rcases hthreaded.stop with hnone | ⟨hlt, -⟩
      · exact hnone
      · omega
    · refine Or.inl ?_
      rw [jumpNext, codeAt_natCast, hget, bind_some, if_neg hjmp]

theorem ThreadedTo.step (h : ThreadedTo exec cur n) (hin : JumpsInRange exec)
    (hn : n < exec.length) (hstep : optimizeCode fuel cur n = some cur') :
    ThreadedTo exec cur' (n + 1) := by
  refine ⟨?_, optimizeCode_step h.optimized hn hstep⟩
  have hget : exec[n]? = some exec[n] := getElem?_eq_getElem hn
  have hlt : n < cur.length := by rw [h.optimized.length]; exact hn
  rw [optimizeCode, h.optimized.behind n (le_refl n), hget] at hstep
  simp only at hstep
  intro i c hi hc hjump
  by_cases hnew : i = n
  · subst hnew
    rw [hget, some.injEq] at hc
    subst hc
    rw [if_pos hjump, map_eq_some_iff] at hstep
    rcases hstep with ⟨d, hd, rfl⟩
    have hrange := hin i _ hget hjump
    rw [optimizeJump, if_neg (by rw [h.optimized.length]; omega), map_eq_some_iff] at hd
    rcases hd with ⟨t, hf, rfl⟩
    have hleads := followJumps_leads h.optimized hf
    refine ⟨_, t, getElem?_set_self hlt, hleads, rfl, ?_, h.stop (hin.leads hleads hrange) hf⟩
    by_cases ht : t = i + 1
    · rw [if_pos ht, if_pos (by omega)]
    · rw [if_neg ht, if_neg (by omega)]
  · rcases h.before i c (by omega) hc hjump with ⟨d, t, hd, hthreaded⟩
    refine ⟨d, t, ?_, hthreaded⟩
    split at hstep
    · rw [map_eq_some_iff] at hstep
      rcases hstep with ⟨e, -, rfl⟩
      rw [getElem?_set_ne (Ne.symm hnew), hd]
    · cases hstep
      exact hd

theorem foldlM_threadedTo (hin : JumpsInRange exec) (hn : n ≤ exec.length)
    (h : (List.range n).foldlM (optimizeCode fuel) exec = some cur) : ThreadedTo exec cur n := by
  induction n generalizing cur with
  | zero =>
    exact ⟨fun i c hi => absurd hi (Nat.not_lt_zero i), foldlM_optimizedTo hn h⟩
  | succ n ih =>
    rw [range_succ, foldlM_append] at h
    simp only [bind_eq_bind, bind_eq_some_iff, foldlM_cons, foldlM_nil,
      Option.pure_def, some.injEq] at h
    rcases h with ⟨cur1, h1, cur2, h2, rfl⟩
    exact (ih (by omega) h1).step hin hn h2

theorem jumpOptimization_threaded (hin : JumpsInRange exec)
    (h : jumpOptimization fuel exec = some cur) : ThreadedTo exec cur exec.length :=
  foldlM_threadedTo hin (le_refl _) h

/-! ## Once is enough -/

/-- A jump behind the program, or to an instruction that is neither the next one nor an
unconditional jump. -/
def Settled (exec : List VmCode) (i : Nat) (c : VmCode) : Prop :=
  exec.length ≤ i + c.addr.index ∨ (c.d = .addr c.addr ∧ c.addr.index ≠ 1 ∧
    ∃ d, codeAt exec (i + c.addr.index) = some d ∧ d.opcode ≠ .jmp)

/-- The jumps before a position are settled. -/
def SettledTo (exec : List VmCode) (n : Nat) : Prop :=
  ∀ i c, i < n → exec[i]? = some c → isJump c.opcode = true → Settled exec i c

theorem Settled.optimizeJump (h : Settled exec i c) :
    Vm.optimizeJump exec (fuel + 1) i c = some c := by
  unfold Vm.optimizeJump
  split
  · rfl
  rename_i hin
  rcases h with hout | ⟨hd, hone, d, hcode, hno⟩
  · exact absurd hout hin
  rw [followJumps, if_neg hin, hcode, bind_some, if_neg hno, map_some]
  have hindex : (i : Int) + c.addr.index - i = c.addr.index := by omega
  rw [hindex, if_neg hone, ← hd]

theorem Settled.jumpNext_eq_none (h : Settled exec i c) :
    jumpNext exec (i + c.addr.index) = none := by
  rcases h with hout | ⟨-, -, d, hcode, hno⟩
  · have hnone : codeAt exec (i + c.addr.index) = none := by
      rw [eq_none_iff_forall_ne_some]
      intro d hd
      rcases codeAt_eq_some_iff.mp hd with ⟨j, hj, hget⟩
      have hlt := (List.getElem?_eq_some_iff.mp hget).1
      omega
    rw [jumpNext, hnone, bind_none]
  · rw [jumpNext, hcode, bind_some, if_neg hno]

/-- Replacing a jump by another one, or by none, settles no jump less. -/
theorem Settled.set (h : Settled exec i c) (hn : exec[n]? = some d) {e : VmCode}
    (he : e.opcode = .nop ∨ e.opcode = d.opcode) : Settled (exec.set n e) i c := by
  rcases h with hout | ⟨hd, hone, d', hcode, hno⟩
  · exact Or.inl (by rwa [length_set])
  refine Or.inr ⟨hd, hone, ?_⟩
  rcases codeAt_eq_some_iff.mp hcode with ⟨j, hj, hget⟩
  rw [hj, codeAt_natCast]
  by_cases hjn : j = n
  · subst hjn
    have hlt := (List.getElem?_eq_some_iff.mp hget).1
    rw [hn, some.injEq] at hget
    refine ⟨e, getElem?_set_self hlt, ?_⟩
    rcases he with he | he
    · simp [he]
    · rwa [he, hget]
  · exact ⟨d', by rw [getElem?_set_ne (Ne.symm hjn), hget], hno⟩

theorem SettledTo.step (h : SettledTo cur n) (hstep : optimizeCode fuel cur n = some cur') :
    SettledTo cur' (n + 1) := by
  unfold optimizeCode at hstep
  cases hget : cur[n]? with
  | none =>
    rw [hget] at hstep
    cases hstep
    intro i c hi hc
    rcases Nat.lt_succ_iff_lt_or_eq.mp hi with hi | rfl
    · exact h i c hi hc
    · rw [hget] at hc
      cases hc
  | some c =>
    rw [hget] at hstep
    dsimp only at hstep
    split at hstep
    · rcases map_eq_some_iff.mp hstep with ⟨e, he, rfl⟩
      have hlt := (List.getElem?_eq_some_iff.mp hget).1
      have hspec : (e.opcode = .nop ∨ e.opcode = c.opcode) ∧
          (isJump e.opcode = true → Settled cur n e) := by
        unfold optimizeJump at he
        split at he
        · rename_i hout
          cases he
          exact ⟨Or.inr rfl, fun _ => Or.inl hout⟩
        · rcases map_eq_some_iff.mp he with ⟨t, ht, rfl⟩
          refine ⟨?_, fun hjump => ?_⟩
          · by_cases hone : t - n = 1 <;> simp [hone]
          · have hone : t - n ≠ 1 := by
              intro hone
              simp [hone, isJump] at hjump
            have hplace : (n : Int) + (t - n) = t := by omega
            rcases followJumps_stop ht with hout | ⟨d, hd, hno⟩
            · exact Or.inl (show _ ≤ (n : Int) + (t - n) by rwa [hplace])
            · exact Or.inr ⟨rfl, hone, d, show codeAt cur (n + (t - n)) = _ by rwa [hplace], hno⟩
      intro i c' hi hc' hjump
      by_cases hin : i = n
      · subst hin
        rw [getElem?_set_self hlt, some.injEq] at hc'
        subst hc'
        exact (hspec.2 hjump).set hget hspec.1
      · rw [getElem?_set_ne (Ne.symm hin)] at hc'
        exact (h i c' (by omega) hc' hjump).set hget hspec.1
    · rename_i hno
      cases hstep
      intro i c' hi hc' hjump
      rcases Nat.lt_succ_iff_lt_or_eq.mp hi with hi | rfl
      · exact h i c' hi hc' hjump
      · rw [hget, some.injEq] at hc'
        subst hc'
        exact absurd hjump hno

theorem foldlM_settledTo (h : (List.range n).foldlM (optimizeCode fuel) exec = some cur) :
    SettledTo cur n := by
  induction n generalizing cur with
  | zero => exact fun i c hi => absurd hi (Nat.not_lt_zero i)
  | succ n ih =>
    rw [range_succ, foldlM_append] at h
    simp only [bind_eq_bind, bind_eq_some_iff, foldlM_cons, foldlM_nil, Option.pure_def,
      some.injEq] at h
    rcases h with ⟨mid, hmid, cur', hstep, rfl⟩
    exact (ih hmid).step hstep

/-- After the optimization no jump goes to an unconditional jump, and a second one, however few
steps along a chain it may take, changes nothing. -/
theorem jumpOptimization_idempotent (h : jumpOptimization fuel exec = some cur) (fuel' : Nat) :
    jumpOptimization (fuel' + 1) cur = some cur ∧
      ∀ (i : Nat) c, cur[i]? = some c → isJump c.opcode = true →
        jumpNext cur (i + c.addr.index) = none := by
  have hsettled : SettledTo cur cur.length := by
    rw [(jumpOptimization_spec h).1]
    exact foldlM_settledTo h
  have hget : ∀ (i : Nat) c, cur[i]? = some c → i < cur.length := fun i c hc =>
    (List.getElem?_eq_some_iff.mp hc).1
  refine ⟨?_, fun i c hc hjump => (hsettled i c (hget i c hc) hc hjump).jumpNext_eq_none⟩
  have hcode : ∀ i, optimizeCode (fuel' + 1) cur i = some cur := by
    intro i
    unfold optimizeCode
    cases hc : cur[i]? with
    | none => rfl
    | some c =>
      dsimp only
      split
      · rename_i hjump
        rw [(hsettled i c (hget i c hc) hc hjump).optimizeJump, map_some, some.injEq]
        rcases List.getElem?_eq_some_iff.mp hc with ⟨hlt, rfl⟩
        exact set_getElem_self hlt
      · rfl
  unfold jumpOptimization
  generalize List.range cur.length = l
  induction l with
  | nil => rfl
  | cons i l ih => rw [foldlM_cons, hcode i, bind_eq_bind, bind_some, ih]

/-! ## Steps through jumps -/

/-- Where a jump with the given target goes. -/
def jumpTo (L : Layout) (op : VmOpcode) (target ip : Int) (s : State) : Int × State :=
  match op with
  | .jz => (if s.top L = 0 then target else ip + 1, s.drop)
  | .jnz => (if s.top L = 0 then ip + 1 else target, s.drop)
  | _ => (target, s)

variable {L : Layout} {M : Machine} {s : State} {p p' q : Int × State}

theorem isJump_cases (h : isJump c.opcode = true) :
    c.opcode = .jmp ∨ c.opcode = .jz ∨ c.opcode = .jnz := by
  simpa [isJump, or_assoc] using h

theorem execJump_eq (h : isJump c.opcode = true) (ip : Int) :
    execJump L c ip s = some (jumpTo L c.opcode (ip + c.addr.index) ip s) := by
  rcases isJump_cases h with hop | hop | hop <;> simp [execJump, jumpTo, hop]

theorem leads_silentStep (h : Leads (jumpNext exec) a b) :
    Leads (silentStep M exec (JumpPlace exec)) (a, s) (b, s) := by
  induction h with
  | refl => exact Leads.refl _
  | tail _ hstep ih =>
    refine ih.trans (Leads.head ?_ (Leads.refl _))
    rcases jumpNext_eq_some_iff.mp hstep with ⟨i, c, rfl, hc, hjmp, rfl⟩
    have hjump : isJump c.opcode = true := by simp [isJump, hjmp]
    rw [silentStep_of_jump ((codeAt_natCast _ _).trans hc) hjump, execJump_eq hjump, hjmp]
    rfl

theorem leads_jumpTo (op : VmOpcode) (h : Leads (jumpNext exec) a b) (ip : Int) :
    Leads (silentStep M exec (JumpPlace exec)) (jumpTo M.layout op a ip s)
      (jumpTo M.layout op b ip s) := by
  unfold jumpTo
  split
  · split
    · exact leads_silentStep h
    · exact Leads.refl _
  · split
    · exact Leads.refl _
    · exact leads_silentStep h
  · exact leads_silentStep h

theorem ThreadedTo.silentStep (h : ThreadedTo exec cur exec.length) (hc : exec[i]? = some c)
    (hjump : isJump c.opcode = true) :
    ∃ t, Leads (jumpNext exec) (i + c.addr.index) t ∧
      (jumpNext exec t = none ∨ (t < i ∧ EndsAt (jumpNext exec) t (t + 1))) ∧
      ∀ M s, Vm.silentStep M exec (JumpPlace exec) ((i : Int), s) =
          some (jumpTo M.layout c.opcode (i + c.addr.index) i s) ∧
        Vm.silentStep M cur (JumpPlace exec) ((i : Int), s) =
          some (if t = i + 1 then ((i : Int) + 1, s) else jumpTo M.layout c.opcode t i s) := by
  have hlt := (List.getElem?_eq_some_iff.mp hc).1
  rcases h.before i c hlt hc hjump with ⟨d, t, hd, hthreaded⟩
  refine ⟨t, hthreaded.leads, hthreaded.stop, fun M s => ⟨?_, ?_⟩⟩
  · rw [silentStep_of_jump ((codeAt_natCast _ _).trans hc) hjump, execJump_eq hjump]
  · have hat : JumpPlace exec i := ⟨c, (codeAt_natCast _ _).trans hc, hjump⟩
    have hcode : codeAt cur i = some d := (codeAt_natCast _ _).trans hd
    simp only [Vm.silentStep, hat, if_true, execStep, hcode, bind_some]
    by_cases ht : t = i + 1
    · have hop : d.opcode = .nop := hthreaded.opcode.trans (if_pos ht)
      rw [if_pos ht, if_neg (by simp [hop, isJump])]
      simp [execOther, hop]
    · have hop : d.opcode = c.opcode := hthreaded.opcode.trans (if_neg ht)
      rw [if_neg ht, hop, if_pos hjump, execJump_eq (hop ▸ hjump), hop, hthreaded.index,
        add_sub_cancel]

/-! ## The same instructions -/

/-- No conditional jump goes to the next instruction along a chain, unless no way leads from there
to an instruction that is no jump. -/
def SlotsTaken (exec : List VmCode) : Prop :=
  ∀ (i : Nat) c, exec[i]? = some c → c.opcode = .jz ∨ c.opcode = .jnz →
    EndsAt (jumpNext exec) (i + c.addr.index) (i + 1) → ¬ Escapes exec (i + 1)

/-- Every chain of unconditional jumps at the target of a jump ends. -/
def JumpsSettle (exec : List VmCode) : Prop :=
  ∀ (i : Nat) c, exec[i]? = some c → isJump c.opcode = true →
    Settles (jumpNext exec) (i + c.addr.index)

theorem jumpPlace_iff : JumpPlace exec a ↔
    ∃ (i : Nat) (c : VmCode), a = i ∧ exec[i]? = some c ∧ isJump c.opcode = true := by
  constructor
  · rintro ⟨c, hc, hjump⟩
    rcases codeAt_eq_some_iff.mp hc with ⟨i, rfl, hi⟩
    exact ⟨i, c, rfl, hi, hjump⟩
  · rintro ⟨i, c, rfl, hc, hjump⟩
    exact ⟨c, (codeAt_natCast _ _).trans hc, hjump⟩

theorem ThreadedTo.codeAt_iff (h : ThreadedTo exec cur n) (i : Int) :
    (∃ c, codeAt cur i = some c) ↔ ∃ c, codeAt exec i = some c := by
  have hlength := h.optimized.length
  simp only [codeAt_eq_some_iff, List.getElem?_eq_some_iff]
  constructor
  · rintro ⟨c, j, rfl, hj, -⟩
    exact ⟨_, j, rfl, by omega, rfl⟩
  · rintro ⟨c, j, rfl, hj, -⟩
    exact ⟨_, j, rfl, by omega, rfl⟩

theorem ThreadedTo.codeAt_eq_none (h : ThreadedTo exec cur n) {i : Int} :
    codeAt cur i = none ↔ codeAt exec i = none := by
  have hiff := not_congr (h.codeAt_iff i)
  simpa [eq_none_iff_forall_ne_some] using hiff

theorem SlotsTaken.not_stopsAt (h : SlotsTaken exec) (hc : exec[i]? = some c)
    (hop : c.opcode = .jz ∨ c.opcode = .jnz)
    (hends : EndsAt (jumpNext exec) (i + c.addr.index) (i + 1)) :
    ¬ StopsAt M exec (JumpPlace exec) ((i : Int) + 1, s) q :=
  fun hstops => h i c hc hop hends hstops.escapes

theorem jumpTo_of_next {op : VmOpcode} (hop : op = .jmp) (ht : t = i + 1) :
    ((i : Int) + 1, s) = jumpTo L op t i s := by
  subst hop ht
  rfl

/-- A run that comes to an instruction also comes to it after the optimization. -/
theorem ThreadedTo.stopsAt (h : ThreadedTo exec cur exec.length) (hslots : SlotsTaken exec)
    (hstops : StopsAt M exec (JumpPlace exec) p q) : StopsAt M cur (JumpPlace exec) p q := by
  rcases hstops with ⟨hends, hno, hcode⟩
  have hend : Vm.silentStep M cur (JumpPlace exec) q = none := by
    simp [Vm.silentStep, hno]
  refine ⟨?_, hno, (h.codeAt_iff q.1).mpr hcode⟩
  induction Acc.transGen hends.settles with
  | intro p _ ih =>
    rcases hends.1.cases_head with rfl | ⟨p₁, hstep, -⟩
    · exact EndsAt.refl hend
    · have hat : JumpPlace exec p.1 := by
        by_contra hat
        rw [silentStep_of_other hat] at hstep
        cases hstep
      rcases jumpPlace_iff.mp hat with ⟨i, c, hi, hc, hjump⟩
      rcases p with ⟨_, s⟩
      subst hi
      rcases h.silentStep hc hjump with ⟨t, hleads, hstop, hsteps⟩
      rw [(hsteps M s).1, some.injEq] at hstep
      subst hstep
      have halong := leads_jumpTo (M := M) (s := s) c.opcode hleads i
      have hrest := (endsAt_iff_of_leads halong).mp ((endsAt_iff_of_next (hsteps M s).1).mp hends)
      have hcur : Vm.silentStep M cur (JumpPlace exec) ((i : Int), s) =
          some (jumpTo M.layout c.opcode t i s) := by
        rw [(hsteps M s).2]
        split
        · rename_i ht
          rcases isJump_cases hjump with hop | hop
          · rw [← jumpTo_of_next hop ht]
          · exfalso
            subst ht
            have hlast : jumpNext exec (i + 1) = none := by
              rcases hstop with hnone | ⟨hlt, -⟩
              · exact hnone
              · omega
            have hnext : jumpTo M.layout c.opcode (i + 1) i s = ((i : Int) + 1, s.drop) := by
              rcases hop with hop | hop <;> simp [jumpTo, hop]
            rw [hnext] at hrest
            exact hslots.not_stopsAt hc hop ⟨hleads, hlast⟩ ⟨hrest, hno, hcode⟩
        · rfl
      refine EndsAt.head hcur (ih _ ?_ hrest)
      have hswap : Relation.ReflTransGen
          (fun b a => Vm.silentStep M exec (JumpPlace exec) a = some b)
          (jumpTo M.layout c.opcode t i s) (jumpTo M.layout c.opcode (i + c.addr.index) i s) := by
        rw [← Relation.reflTransGen_swap]
        exact halong
      exact Relation.TransGen.tail' hswap (hsteps M s).1

/-- A run that comes to an instruction after the optimization came to it before. -/
theorem ThreadedTo.stopsAt_of_cur (h : ThreadedTo exec cur exec.length)
    (hslots : SlotsTaken exec) (hstops : StopsAt M cur (JumpPlace exec) p q) :
    StopsAt M exec (JumpPlace exec) p q := by
  rcases hstops with ⟨⟨hleads, -⟩, hno, hcode⟩
  have hcode' := (h.codeAt_iff q.1).mp hcode
  refine ⟨?_, hno, hcode'⟩
  induction hleads using Relation.ReflTransGen.head_induction_on with
  | refl => exact EndsAt.refl (silentStep_of_other hno)
  | @head p p' hstep _ ih =>
    have hat : JumpPlace exec p.1 := by
      by_contra hat
      simp [Vm.silentStep, hat] at hstep
    rcases jumpPlace_iff.mp hat with ⟨i, c, hi, hc, hjump⟩
    rcases p with ⟨_, s⟩
    subst hi
    rcases h.silentStep hc hjump with ⟨t, hchain, hstop, hsteps⟩
    rw [(hsteps M s).2, some.injEq] at hstep
    have halong := leads_jumpTo (M := M) (s := s) c.opcode hchain i
    have hnext : jumpTo M.layout c.opcode t i s = p' := by
      rw [← hstep]
      split
      · rename_i ht
        rcases isJump_cases hjump with hop | hop
        · rw [← jumpTo_of_next hop ht]
        · exfalso
          subst ht
          have hlast : jumpNext exec (i + 1) = none := by
            rcases hstop with hnone | ⟨hlt, -⟩
            · exact hnone
            · omega
          rw [if_pos rfl] at hstep
          subst hstep
          exact hslots.not_stopsAt hc hop ⟨hchain, hlast⟩ ⟨ih, hno, hcode'⟩
      · rfl
    rw [hnext] at halong
    exact EndsAt.head (hsteps M s).1 ((endsAt_iff_of_leads halong).mpr ih)

/-- An instruction that is no jump does the same, but for the chain behind an entry of a table. -/
theorem ThreadedTo.execStep (h : ThreadedTo exec cur exec.length) (hno : ¬ JumpPlace exec q.1) :
    (Vm.execStep M exec q = none ∧ Vm.execStep M cur q = none) ∨
      ∃ p p', Vm.execStep M exec q = some p ∧ Vm.execStep M cur q = some p' ∧
        Leads (Vm.silentStep M exec (JumpPlace exec)) p p' := by
  have hsame : ∀ c, codeAt exec q.1 = some c → codeAt cur q.1 = some c := by
    intro c hc
    rcases codeAt_eq_some_iff.mp hc with ⟨i, hi, hget⟩
    rcases h.optimized.before i c (List.getElem?_eq_some_iff.mp hget).1 hget with ⟨d, hd, hopt⟩
    have hjump : isJump c.opcode = false := by
      by_contra hjump
      exact hno ⟨c, hc, by simpa using hjump⟩
    rw [hi, codeAt_natCast, hd, hopt.other hjump]
  cases hc : codeAt exec q.1 with
  | none =>
    have hc' : codeAt cur q.1 = none := h.codeAt_eq_none.mpr hc
    simp [Vm.execStep, hc, hc']
  | some c =>
    have hjump : isJump c.opcode = false := by
      by_contra hjump
      exact hno ⟨c, hc, by simpa using hjump⟩
    simp only [Vm.execStep, hc, hsame c hc, bind_some, hjump, Bool.false_eq_true, if_false]
    by_cases htable : c.opcode = .jmptbl
    · simp only [execOther, htable]
      generalize q.1 + ((q.2.top M.layout % 2 ^ 32 : Nat) : Int) + 1 = entry
      cases he : codeAt exec entry with
      | none =>
        have he' : codeAt cur entry = none := h.codeAt_eq_none.mpr he
        simp [he']
      | some e =>
        rcases codeAt_eq_some_iff.mp he with ⟨i, rfl, hget⟩
        have hlt := (List.getElem?_eq_some_iff.mp hget).1
        by_cases hjump : isJump e.opcode = true
        · rcases h.before i e hlt hget hjump with ⟨d, t, hd, hthreaded⟩
          refine Or.inr ⟨(i + e.addr.index, q.2.drop), (i + d.addr.index, q.2.drop), by simp, ?_,
            ?_⟩
          · rw [codeAt_natCast, hd, map_some]
          · rw [hthreaded.index, add_sub_cancel]
            exact leads_silentStep hthreaded.leads
        · rcases h.optimized.before i e hlt hget with ⟨d, hd, hopt⟩
          have hsame := hopt.other (by simpa using hjump)
          subst hsame
          refine Or.inr ⟨(i + d.addr.index, q.2.drop), (i + d.addr.index, q.2.drop), by simp, ?_,
            Leads.refl _⟩
          rw [codeAt_natCast, hd, map_some]
    · have heq : execOther M cur c q.1 q.2 = execOther M exec c q.1 q.2 := by
        unfold execOther
        cases hop : c.opcode <;> first | rfl | exact absurd hop htable
      rw [heq]
      cases hrun : execOther M exec c q.1 q.2 with
      | none => exact Or.inl ⟨rfl, rfl⟩
      | some p => exact Or.inr ⟨p, p, rfl, rfl, Leads.refl p⟩

theorem Traces.of_leads {jumps : Int → Prop} [DecidablePred jumps] {trace : List (Int × State)}
    (hleads : ∀ q, StopsAt M exec jumps p q ↔ StopsAt M exec jumps p' q) :
    Traces M exec jumps p trace ↔ Traces M exec jumps p' trace := by
  constructor
  · rintro (_ | hstops | ⟨hstops, hstep, hrest⟩)
    · exact Traces.nil _
    · exact Traces.last ((hleads _).mp hstops)
    · exact Traces.cons ((hleads _).mp hstops) hstep hrest
  · rintro (_ | hstops | ⟨hstops, hstep, hrest⟩)
    · exact Traces.nil _
    · exact Traces.last ((hleads _).mpr hstops)
    · exact Traces.cons ((hleads _).mpr hstops) hstep hrest

theorem stopsAt_iff_of_leads (h : Leads (silentStep M exec (JumpPlace exec)) p p') :
    StopsAt M exec (JumpPlace exec) p q ↔ StopsAt M exec (JumpPlace exec) p' q := by
  rw [StopsAt, StopsAt, endsAt_iff_of_leads h]

theorem ThreadedTo.runsAlike (h : ThreadedTo exec cur exec.length) (hslots : SlotsTaken exec) :
    RunsAlike exec cur := by
  have hstops : ∀ M p q, StopsAt M exec (JumpPlace exec) p q ↔ StopsAt M cur (JumpPlace exec) p q :=
    fun M p q => ⟨h.stopsAt hslots, h.stopsAt_of_cur hslots⟩
  have hcur : ∀ M p p' q, Leads (Vm.silentStep M exec (JumpPlace exec)) p p' →
      (StopsAt M cur (JumpPlace exec) p q ↔ StopsAt M cur (JumpPlace exec) p' q) := by
    intro M p p' q hleads
    rw [← hstops, ← hstops, stopsAt_iff_of_leads hleads]
  intro M p trace
  constructor
  · intro htrace
    induction htrace with
    | nil p => exact Traces.nil p
    | last hq => exact Traces.last ((hstops M _ _).mp hq)
    | cons hq hstep _ ih =>
      rcases h.execStep (M := M) hq.2.1 with ⟨hnone, -⟩ | ⟨p₁, p₂, hp₁, hp₂, hleads⟩
      · rw [hstep] at hnone
        cases hnone
      · rw [hstep, some.injEq] at hp₁
        subst hp₁
        exact Traces.cons ((hstops M _ _).mp hq) hp₂
          ((Traces.of_leads fun q => hcur M _ _ q hleads).mp ih)
  · intro htrace
    induction htrace with
    | nil p => exact Traces.nil p
    | last hq => exact Traces.last ((hstops M _ _).mpr hq)
    | cons hq hstep _ ih =>
      rcases h.execStep (M := M) hq.2.1 with ⟨-, hnone⟩ | ⟨p₁, p₂, hp₁, hp₂, hleads⟩
      · rw [hstep] at hnone
        cases hnone
      · rw [hstep, some.injEq] at hp₂
        subst hp₂
        exact Traces.cons ((hstops M _ _).mpr hq) hp₁
          ((Traces.of_leads fun q => stopsAt_iff_of_leads hleads).mpr ih)

/-! ## Slots that are lost -/

theorem traces_singleton {jumps : Int → Prop} [DecidablePred jumps] :
    Traces M exec jumps p [q] ↔ StopsAt M exec jumps p q := by
  constructor
  · rintro (_ | hstops | ⟨hstops, -, -⟩) <;> exact hstops
  · exact Traces.last

theorem StopsAt.unique {jumps : Int → Prop} [DecidablePred jumps] (h : StopsAt M exec jumps p q)
    (h' : StopsAt M exec jumps p p') : q = p' :=
  h.1.unique h'.1

/-- A memory in which the slots repeat: the given ones from the end, and one more. -/
def slotMemory (zeros : List Bool) : Memory := fun b =>
  if b % 8 = 0 ∧ (zeros[zeros.length - b / 8 % (zeros.length + 1)]?).getD true = false then 1 else 0

theorem slotMemory_load (zeros : List Bool) (n : Nat) :
    (slotMemory zeros).load (8 * n) 8 =
      if (zeros[zeros.length - n % (zeros.length + 1)]?).getD true then 0 else 1 := by
  have hrest : ∀ k, 0 < k → k < 8 → slotMemory zeros (8 * n + k) = 0 := by
    intro k hpos hlt
    rw [slotMemory, if_neg]
    rintro ⟨hmod, -⟩
    omega
  have hzero : (slotMemory zeros).load (8 * n + 1) 7 = 0 := by
    simp [Memory.load, hrest, add_assoc]
  have hfirst : slotMemory zeros (8 * n) =
      if (zeros[zeros.length - n % (zeros.length + 1)]?).getD true then 0 else 1 := by
    have hdiv : 8 * n / 8 = n := by omega
    have hmod : 8 * n % 8 = 0 := by omega
    rw [slotMemory, hdiv, hmod]
    cases (zeros[zeros.length - n % (zeros.length + 1)]?).getD true <;> simp
  rw [Memory.load, hzero, hfirst]
  split <;> rfl

/-- A machine whose stack begins at address zero. -/
def lowMachine : Machine where
  layout := { sampleLayout with stack := 0 }
  data := fun _ _ => none
  builtin := fun _ _ => none

/-- The repeated slots are those that a way through the jumps needs. -/
theorem zeroSlots_slotMemory {m : Nat} (pre zeros : List Bool) (hm : 0 < m)
    (hmem : s.mem = slotMemory (pre ++ zeros))
    (hsp : s.sp = 8 * (m * ((pre ++ zeros).length + 1) - pre.length)) :
    ZeroSlots lowMachine.layout zeros s := by
  induction zeros generalizing pre s with
  | nil => trivial
  | cons zero zeros ih =>
    have hlength : (pre ++ zero :: zeros).length = pre.length + zeros.length + 1 := by
      rw [length_append, length_cons, add_assoc]
    rcases Nat.exists_eq_add_of_lt hm with ⟨m', hm'⟩
    have hindex : m * ((pre ++ zero :: zeros).length + 1) - pre.length =
        ((pre ++ zero :: zeros).length + 1) * m' + (zeros.length + 1) + 1 := by
      rw [hm', zero_add, add_mul, one_mul, Nat.mul_comm m', hlength]
      omega
    constructor
    · have haddr : s.topAddr lowMachine.layout =
          8 * (((pre ++ zero :: zeros).length + 1) * m' + (zeros.length + 1)) := by
        have hstack : lowMachine.layout.stack = 0 := rfl
        rw [State.topAddr, hstack, hsp, hindex]
        omega
      have hmod : (((pre ++ zero :: zeros).length + 1) * m' + (zeros.length + 1)) %
          ((pre ++ zero :: zeros).length + 1) = zeros.length + 1 := by
        rw [Nat.mul_add_mod]
        exact Nat.mod_eq_of_lt (by omega)
      have hget : (pre ++ zero :: zeros)[(pre ++ zero :: zeros).length - (zeros.length + 1)]? =
          some zero := by
        rw [hlength, getElem?_append_right (by omega),
          show pre.length + zeros.length + 1 - (zeros.length + 1) - pre.length = 0 by omega]
        rfl
      rw [State.top, haddr, hmem, slotMemory_load, hmod, hget, getD_some]
      cases zero <;> simp
    · have happend : pre ++ zero :: zeros = pre ++ [zero] ++ zeros := by simp
      apply ih (pre ++ [zero])
      · rw [← happend]
        exact hmem
      · have hdrop : s.drop.sp = s.sp - 8 := rfl
        have hpre : (pre ++ [zero]).length = pre.length + 1 := by simp
        rw [← happend, hdrop, hsp, hpre]
        omega

theorem drop_iterate_sp (k : Nat) (s : State) : (State.drop^[k] s).sp = s.sp - 8 * k := by
  induction k generalizing s with
  | zero => rfl
  | succ k ih =>
    have hdrop : s.drop.sp = s.sp - 8 := rfl
    rw [Function.iterate_succ_apply, ih, hdrop]
    omega

theorem drop_iterate_mem (k : Nat) (s : State) : (State.drop^[k] s).mem = s.mem := by
  induction k generalizing s with
  | zero => rfl
  | succ k ih => rw [Function.iterate_succ_apply, ih, State.drop]

theorem not_escapes_of_drop (h : ∀ s q, StopsAt lowMachine exec (JumpPlace exec) (a, s) q ↔
    StopsAt lowMachine exec (JumpPlace exec) (a, s.drop) q) : ¬ Escapes exec a := by
  rintro ⟨zeros, j, hroute⟩
  have hdrop : ∀ k s q, StopsAt lowMachine exec (JumpPlace exec) (a, s) q ↔
      StopsAt lowMachine exec (JumpPlace exec) (a, State.drop^[k] s) q := by
    intro k
    induction k with
    | zero => exact fun _ _ => Iff.rfl
    | succ k ih =>
      intro s q
      rw [h, ih, Function.iterate_succ_apply]
  -- The way is taken from two heights of the stack, and ends at two heights.
  let s₂ : State := { sampleState (slotMemory zeros) with sp := 8 * (2 * (zeros.length + 1)) }
  have hslots₂ : ZeroSlots lowMachine.layout zeros s₂ :=
    zeroSlots_slotMemory (m := 2) [] zeros (by decide) rfl rfl
  have hslots₁ : ZeroSlots lowMachine.layout zeros (State.drop^[zeros.length + 1] s₂) := by
    apply zeroSlots_slotMemory (m := 1) [] zeros (by decide)
    · rw [drop_iterate_mem]
      rfl
    · rw [drop_iterate_sp]
      simp only [s₂, nil_append, length_nil]
      omega
  have hstops₂ := (hdrop (zeros.length + 1) _ _).mp (hroute.stopsAt hslots₂)
  have hsame := congrArg (fun q => q.2.sp) (hstops₂.unique (hroute.stopsAt hslots₁))
  simp only [drop_iterate_sp, s₂] at hsame
  omega

theorem ThreadedTo.slotsTaken (h : ThreadedTo exec cur exec.length) (halike : RunsAlike exec cur) :
    SlotsTaken exec := by
  intro i c hc hop hends
  have hstops : ∀ p q, StopsAt lowMachine exec (JumpPlace exec) p q ↔
      StopsAt lowMachine cur (JumpPlace exec) p q := by
    intro p q
    rw [← traces_singleton, ← traces_singleton]
    exact halike lowMachine p [q]
  have hjump : isJump c.opcode = true := by
    rcases hop with hop | hop <;> simp [isJump, hop]
  rcases h.silentStep hc hjump with ⟨t, hleads, hstop, hsteps⟩
  have ht : t = i + 1 := by
    rcases hstop with hnone | ⟨hlt, hnext⟩
    · exact EndsAt.unique ⟨hleads, hnone⟩ hends
    · have hsame := ((endsAt_iff_of_leads hleads).mpr hnext).unique hends
      omega
  apply not_escapes_of_drop
  intro s q
  have hexec := (hsteps lowMachine s).1
  have hcur := (hsteps lowMachine s).2
  rw [if_pos ht] at hcur
  -- The list before the optimization takes a slot, the list after it does not.
  have hdrop : StopsAt lowMachine exec (JumpPlace exec) ((i : Int), s) q ↔
      StopsAt lowMachine exec (JumpPlace exec) ((i : Int) + 1, s.drop) q := by
    have halong := leads_jumpTo (M := lowMachine) (s := s) c.opcode hends.1 i
    have hnext : jumpTo lowMachine.layout c.opcode (i + 1) i s = ((i : Int) + 1, s.drop) := by
      rcases hop with hop | hop <;> simp [jumpTo, hop]
    rw [hnext] at halong
    exact stopsAt_iff_of_leads (Leads.head hexec halong)
  have hkeep : StopsAt lowMachine cur (JumpPlace exec) ((i : Int), s) q ↔
      StopsAt lowMachine cur (JumpPlace exec) ((i : Int) + 1, s) q := by
    rw [StopsAt, StopsAt, endsAt_iff_of_next hcur]
  rw [← hdrop, hstops, hstops]
  exact hkeep.symm

/-! ## The optimization -/

theorem jumpsSettle_of_isSome (hin : JumpsInRange exec)
    (h : jumpOptimization fuel exec = some cur) : JumpsSettle exec := by
  intro i c hc hjump
  by_contra hsettles
  have hrange := hin i c hc hjump
  have hnext : ∀ b, Leads (jumpNext exec) (i + c.addr.index) b →
      ∃ b', jumpNext exec b = some b' := by
    intro b hb
    cases hnone : jumpNext exec b with
    | none => exact absurd (EndsAt.settles ⟨hb, hnone⟩) hsettles
    | some b' => exact ⟨b', rfl⟩
  rw [jumpOptimization_eq_none {j : Nat | Leads (jumpNext exec) (i + c.addr.index) j}] at h
  · cases h
  · refine ⟨((i : Int) + c.addr.index).toNat, ?_⟩
    rw [Set.mem_ofPred_eq, Int.toNat_of_nonneg hrange.1]
    exact Leads.refl _
  · intro j hj
    rcases hnext j hj with ⟨b, hb⟩
    have hleads := hj.trans (Leads.head hb (Leads.refl b))
    have hb0 := (hin.leads hleads hrange).1
    rcases jumpNext_eq_some_iff.mp hb with ⟨k, d, hk, hd, hjmp, rfl⟩
    rw [Int.natCast_inj] at hk
    subst hk
    exact ⟨d, ((j : Int) + d.addr.index).toNat, hd, hjmp,
      by rwa [Set.mem_ofPred_eq, Int.toNat_of_nonneg hb0], (Int.toNat_of_nonneg hb0).symm⟩

/-- The optimization of a program whose jumps are in range ends and keeps the behaviour if and only
if all chains of unconditional jumps end, and no conditional jump that is on a way to an instruction
goes to the next instruction along such a chain. -/
theorem jump_optimization_iff (hin : JumpsInRange exec) :
    (∃ fuel cur, jumpOptimization fuel exec = some cur ∧ RunsAlike exec cur) ↔
      JumpsSettle exec ∧ SlotsTaken exec := by
  constructor
  · rintro ⟨fuel, cur, hopt, halike⟩
    exact ⟨jumpsSettle_of_isSome hin hopt, (jumpOptimization_threaded hin hopt).slotsTaken halike⟩
  · rintro ⟨hsettle, hslots⟩
    rcases jumpOptimization_isSome hin.inside hsettle with ⟨fuel, cur, hopt⟩
    exact ⟨fuel, cur, hopt, (jumpOptimization_threaded hin hopt).runsAlike hslots⟩

/-- A jump of the given kind over a distance. -/
def sampleJump (op : VmOpcode) (distance : Int) : VmCode :=
  { opcode := op, d := .addr { index := distance } }

/-- A conditional jump to a jump to the end. -/
def jumpChain : List VmCode :=
  [sampleJump .jz 2, { opcode := .ret, d := .size 0 }, sampleJump .jmp 1,
    { opcode := .ret, d := .size 0 }]

/-- A chain of jumps is threaded. -/
theorem jump_optimization_chain :
    ∃ fuel cur, jumpOptimization fuel jumpChain = some cur ∧ RunsAlike jumpChain cur := by
  have hends : EndsAt (jumpNext jumpChain) 2 3 := EndsAt.head rfl (EndsAt.refl rfl)
  have hcases : ∀ (i : Nat) c, jumpChain[i]? = some c → isJump c.opcode = true →
      i = 0 ∧ c = sampleJump .jz 2 ∨ i = 2 ∧ c = sampleJump .jmp 1 := by
    intro i c hc hjump
    rcases i with _ | _ | _ | _ | i
    · cases hc
      exact Or.inl ⟨rfl, rfl⟩
    · cases hc
      cases hjump
    · cases hc
      exact Or.inr ⟨rfl, rfl⟩
    · cases hc
      cases hjump
    · cases hc
  refine (jump_optimization_iff ?_).mpr ⟨?_, ?_⟩
  · intro i c hc hjump
    rcases hcases i c hc hjump with ⟨rfl, rfl⟩ | ⟨rfl, rfl⟩ <;> decide
  · intro i c hc hjump
    rcases hcases i c hc hjump with ⟨rfl, rfl⟩ | ⟨rfl, rfl⟩
    · exact hends.settles
    · have hlast : EndsAt (jumpNext jumpChain) 3 3 := EndsAt.refl rfl
      exact hlast.settles
  · intro i c hc hop hnext
    have hjump : isJump c.opcode = true := by rcases hop with hop | hop <;> simp [isJump, hop]
    rcases hcases i c hc hjump with ⟨rfl, rfl⟩ | ⟨rfl, rfl⟩
    · exact absurd (hnext.unique hends) (by decide)
    · rcases hop with hop | hop <;> cases hop

/-- A chain of jumps is threaded once. -/
theorem jumpOptimization_idempotent_chain :
    ∃ cur, jumpOptimization 3 jumpChain = some cur ∧ jumpOptimization 1 cur = some cur := by
  have hthreaded : jumpOptimization 3 jumpChain = some _ := rfl
  exact ⟨_, hthreaded, (jumpOptimization_idempotent hthreaded 0).1⟩

/-- The optimization does not end on an empty infinite loop, and loses the slot of a conditional
jump to the next instruction. -/
theorem jump_optimization_wrong :
    (∀ fuel, jumpOptimization fuel [sampleJump .jmp 0] = none) ∧
      ∃ cur, jumpOptimization 1 [sampleJump .jz 1, { opcode := .ret, d := .size 0 }] = some cur ∧
        ¬ RunsAlike [sampleJump .jz 1, { opcode := .ret, d := .size 0 }] cur := by
  constructor
  · apply jumpOptimization_eq_none {0} ⟨0, rfl⟩
    rintro i rfl
    exact ⟨_, 0, rfl, rfl, rfl, rfl⟩
  · refine ⟨_, rfl, fun halike => ?_⟩
    have hin : JumpsInRange [sampleJump .jz 1, { opcode := .ret, d := .size 0 }] := by
      intro i c hc hjump
      rcases i with _ | _ | i <;> cases hc
      · decide
      · cases hjump
    have hopt : jumpOptimization 1 [sampleJump .jz 1, { opcode := .ret, d := .size 0 }] = some _ :=
      rfl
    exact (jumpOptimization_threaded hin hopt).slotsTaken halike 0 _ rfl (Or.inl rfl) (EndsAt.refl rfl)
      ⟨[], 1, Route.here rfl rfl⟩

end Kcs.Vm
