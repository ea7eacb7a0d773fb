import Kcs.Lib.Chain
import Kcs.Vm.Linearise

/-!
# Resolution of labels

`reassign_label_index` takes the labels out of a program, puts relative distances
into the jumps, and lets each jump to a jump go where that one goes.  A jump to the next
instruction becomes `VM_NOP`.

Main results:

- Theorem {lit}`jumpOptimization_spec`: every jump goes to a place on the chain of
  jumps that starts at its target.
- Theorem {lit}`jumpOptimization_isSome`: the optimization ends when all chains of
  jumps do.
- Theorem {lit}`jumpOptimization_eq_none`: it does not end on a cycle of jumps.
-/

namespace Kcs.Vm

open Option List

/-! ## Positions of labels -/

/-- One instruction of `update_label_index`. -/
def updateLabel (state : List VmCode × List VmLabel) (c : VmCode) :
    List VmCode × List VmLabel :=
  if c.opcode ≠ .label then (state.1 ++ [c], state.2)
  else
    match c.d with
    | .lindex i =>
      if 0 ≤ i then
        (state.1, state.2.modify i.toNat fun label => { label with index := state.1.length })
      else state
    | _ => state

/-- `update_label_index`: the instructions without the labels, and the labels with
their positions. -/
def updateLabelIndex (prog : List VmCode) (labels : List VmLabel) :
    List VmCode × List VmLabel :=
  prog.foldl updateLabel ([], labels)

/-- The number of instructions before a place. -/
def placeOf (prog : List VmCode) (q : Nat) : Nat :=
  (prog.take q).countP fun c => c.opcode ≠ .label

variable {prog : List VmCode} {labels : List VmLabel} {c d : VmCode} {q : Nat}

theorem updateLabelIndex_concat (prog : List VmCode) (labels : List VmLabel) (c : VmCode) :
    updateLabelIndex (prog ++ [c]) labels = updateLabel (updateLabelIndex prog labels) c := by
  rw [updateLabelIndex, foldl_append]
  rfl

theorem updateLabelIndex_fst (prog : List VmCode) (labels : List VmLabel) :
    (updateLabelIndex prog labels).1 = prog.filter fun c => c.opcode ≠ .label := by
  induction prog using List.reverseRecOn with
  | nil => rfl
  | append_singleton prog c ih =>
    rw [updateLabelIndex_concat, filter_append, ← ih]
    unfold updateLabel
    by_cases hc : c.opcode = .label
    · rw [if_neg (by simp [hc])]
      split
      · split <;> simp [hc]
      · simp [hc]
    · simp [hc]

theorem placeOf_length (prog : List VmCode) :
    placeOf prog prog.length = (prog.filter fun c => c.opcode ≠ .label).length := by
  rw [placeOf, take_length, countP_eq_length_filter]

theorem placeOf_append_of_le (prog more : List VmCode) (h : q ≤ prog.length) :
    placeOf (prog ++ more) q = placeOf prog q := by
  rw [placeOf, placeOf, take_append_of_le_length h]

theorem placeOf_succ (h : prog[q]? = some c) :
    placeOf prog (q + 1) = placeOf prog q + if c.opcode = .label then 0 else 1 := by
  rw [placeOf, placeOf, take_add_one, h, countP_append]
  by_cases hc : c.opcode = .label <;> simp [hc]

theorem getElem?_placeOf (h : prog[q]? = some c) (hc : c.opcode ≠ .label) :
    (prog.filter fun c => c.opcode ≠ .label)[placeOf prog q]? = some c := by
  have hsplit : ∃ xs ys, prog = xs ++ c :: ys ∧ xs.length = q := by
    rcases List.getElem?_eq_some_iff.mp h with ⟨hlt, hget⟩
    refine ⟨prog.take q, prog.drop (q + 1), ?_, by simp; omega⟩
    conv_lhs => rw [← take_append_drop q prog]
    rw [drop_eq_getElem_cons hlt, hget]
  rcases hsplit with ⟨xs, ys, rfl, rfl⟩
  rw [placeOf_append_of_le _ _ (le_refl _), placeOf_length, filter_append,
    getElem?_append_right (le_refl _)]
  simp [hc]

theorem updateLabelIndex_names (prog : List VmCode) (labels : List VmLabel) :
    (updateLabelIndex prog labels).2.map (·.name) = labels.map (·.name) := by
  induction prog using List.reverseRecOn with
  | nil => rfl
  | append_singleton prog c ih =>
    rw [updateLabelIndex_concat, ← ih]
    unfold updateLabel
    split
    · rfl
    · split
      · split
        · apply ext_getElem?
          intro j
          rename_i i _ _
          simp only [getElem?_map, getElem?_modify]
          cases (updateLabelIndex prog labels).2[j]? with
          | none => rfl
          | some label => by_cases hij : i.toNat = j <;> simp [hij]
        · rfl
      · rfl

/-- The position of a label is the number of instructions before it, and its name
stays. -/
theorem updateLabelIndex_index {i : Nat} {name : String} (hnodup : (lindexes prog).Nodup)
    (hcode : prog[q]? = some (labelCode i)) (hlabel : (labels[i]?).map (·.name) = some name) :
    (updateLabelIndex prog labels).2[i]? = some { index := placeOf prog q, name := name } := by
  induction prog using List.reverseRecOn with
  | nil => simp at hcode
  | append_singleton prog c ih =>
    rw [lindexes_append, nodup_append] at hnodup
    rcases hnodup with ⟨hnodup, -, hdisjoint⟩
    rw [updateLabelIndex_concat]
    by_cases hq : q < prog.length
    · rw [getElem?_append_left hq] at hcode
      have hmem : i ∈ lindexes prog := by
        rw [lindexes, mem_filterMap]
        exact ⟨labelCode i, mem_of_getElem? hcode, rfl⟩
      rw [placeOf_append_of_le _ _ (by omega), ← ih hnodup hcode]
      unfold updateLabel
      split
      · rfl
      · rename_i hc
        split
        · rename_i j hj
          split
          · -- Another label is marked, since no label is marked twice.
            have hne : j.toNat ≠ i := by
              rintro rfl
              apply hdisjoint _ hmem j.toNat
              · simp only [ne_eq, not_not] at hc
                simp [lindexes, hc, hj]
              · rfl
            simp [hne]
          · rfl
        · rfl
    · have hlast : q = prog.length := by
        have := (List.getElem?_eq_some_iff.mp hcode).1
        rw [length_append, length_singleton] at this
        omega
      subst hlast
      rw [getElem?_append_right (le_refl _), Nat.sub_self, getElem?_cons_zero, some.injEq] at hcode
      subst hcode
      have hname : ((updateLabelIndex prog labels).2[i]?).map (·.name) = some name := by
        rw [← getElem?_map, updateLabelIndex_names, getElem?_map, hlabel]
      rw [map_eq_some_iff] at hname
      rcases hname with ⟨label, hget, hname⟩
      rw [placeOf_append_of_le _ _ (le_refl _), placeOf_length, ← updateLabelIndex_fst prog labels]
      simp [updateLabel, labelCode, hget, ← hname]

/-! ## Distances -/

/-- `get_global_offset` -/
def getGlobalOffset (globals : List VmLabel) (name : String) : Int :=
  ((globals.find? (·.name = name)).map (·.index)).getD 0

/-- Move the address of a global variable. -/
def relocate (globals : List VmLabel) (c : VmCode) : VmCode :=
  if c.addr.isGlobal then
    { c with d := .addr { c.addr with index := c.addr.index + getGlobalOffset globals c.addr.name } }
  else c

/-- The distance from a jump or an entry of a table to its label. -/
def reassignJump (labels : List VmLabel) (i : Nat) (c : VmCode) : Option VmCode :=
  if c.addr.index = 0 then
    (getVmLabel labels c.addr.name).bind fun p =>
      (labels[p]?).bind fun label =>
        if 0 < label.index then
          some { c with d := .addr { c.addr with index := label.index - i } }
        else none
  else some c

/-- The address of a function.  A built-in function cannot be stored. -/
def reassignFunction (labels : List VmLabel) (c : VmCode) : Option VmCode :=
  if c.type = .funcname then
    match (getVmLabel labels c.addr.name).bind fun p => labels[p]? with
    | none => some c
    | some label =>
      if label.index < 0 then
        if c.opcode = .push then none else some { c with type := .builtin }
      else some { c with type := .funcaddr, d := .addr { c.addr with index := label.index } }
  else some c

/-- A pushed address is moved, and is the name of a function where there is a label of
its name. -/
def reassignPush (labels globals : List VmLabel) (c : VmCode) : VmCode :=
  let c := if c.type ∈ [.addr, .vari, .varu, .varobj, .varfl] then relocate globals c else c
  if c.type = .addr && c.addr.isGlobal && (getVmLabel labels c.addr.name).isSome then
    { c with type := .funcname }
  else c

/-- One instruction of `reassign_label_index`. -/
def reassignCode (labels globals : List VmLabel) (i : Nat) (c : VmCode) : Option VmCode :=
  match c.opcode with
  | .jmp | .jz | .jnz | .tblEntry => reassignJump labels i c
  | .store | .fzero | .deref | .depop => some (relocate globals c)
  | .pop => some (if c.type ≠ .none then relocate globals c else c)
  | .push => reassignFunction labels (reassignPush labels globals c)
  | .call => reassignFunction labels c
  | _ => some c

/-- The loop of `reassign_label_index`, from the given position on. -/
def reassignFrom (labels globals : List VmLabel) : Nat → List VmCode → Option (List VmCode)
  | _, [] => some []
  | i, c :: exec =>
    (reassignCode labels globals i c).bind fun c =>
      (reassignFrom labels globals (i + 1) exec).map (c :: ·)

/-! ## Jumps to jumps -/

/-- The instruction at a position. -/
def codeAt (exec : List VmCode) (i : Int) : Option VmCode :=
  if 0 ≤ i then exec[i.toNat]? else none

/-- The loop of `jump_optimization`, which ends behind the program or at an instruction
that is no jump. -/
def followJumps (exec : List VmCode) : Nat → Int → Option Int
  | 0, _ => none
  | fuel + 1, index =>
    if exec.length ≤ index then some index
    else
      (codeAt exec index).bind fun dst =>
        if dst.opcode = .jmp then followJumps exec fuel (index + dst.addr.index) else some index

/-- `VM_JMP`, `VM_JZ` and `VM_JNZ` -/
def isJump (op : VmOpcode) : Bool := op = .jmp || op = .jz || op = .jnz

/-- One jump of `jump_optimization`. -/
def optimizeJump (exec : List VmCode) (fuel i : Nat) (c : VmCode) : Option VmCode :=
  if exec.length ≤ i + c.addr.index then some c
  else
    (followJumps exec fuel (i + c.addr.index)).map fun (index : Int) =>
      { c with
        opcode := if index - i = 1 then .nop else c.opcode
        d := .addr { c.addr with index := index - i } }

/-- One instruction of `jump_optimization`. -/
def optimizeCode (fuel : Nat) (exec : List VmCode) (i : Nat) : Option (List VmCode) :=
  match exec[i]? with
  | some c =>
    if isJump c.opcode then (optimizeJump exec fuel i c).map fun c => exec.set i c else some exec
  | none => some exec

/-- `jump_optimization`.  The number bounds the steps along one chain of jumps. -/
def jumpOptimization (fuel : Nat) (exec : List VmCode) : Option (List VmCode) :=
  (List.range exec.length).foldlM (optimizeCode fuel) exec

/-- `reassign_label_index` -/
def reassignLabelIndex (fuel : Nat) (globals : List VmLabel) (prog : List VmCode)
    (labels : List VmLabel) : Option (List VmCode) :=
  let (exec, labels) := updateLabelIndex prog labels
  (reassignFrom labels globals 0 exec).bind (jumpOptimization fuel)

/-! ## What the optimization does -/

/-- The next place of a jump. -/
def jumpNext (exec : List VmCode) (i : Int) : Option Int :=
  (codeAt exec i).bind fun c => if c.opcode = .jmp then some (i + c.addr.index) else none

/-- A jump after the optimization: it goes to a place on the chain of jumps that starts at its
target. -/
structure Optimized (exec : List VmCode) (i : Nat) (c d : VmCode) : Prop where
  other : isJump c.opcode = false → d = c
  jump : isJump c.opcode = true → ∃ t, Leads (jumpNext exec) (i + c.addr.index) t ∧
    ((d.opcode = c.opcode ∧ d.addr.index = t - i) ∨ (d.opcode = .nop ∧ t = i + 1))

/-- The instructions before a position have been optimized. -/
structure OptimizedTo (exec cur : List VmCode) (n : Nat) : Prop where
  length : cur.length = exec.length
  before : ∀ i c, i < n → exec[i]? = some c → ∃ d, cur[i]? = some d ∧ Optimized exec i c d
  behind : ∀ i, n ≤ i → cur[i]? = exec[i]?

variable {exec cur cur' : List VmCode} {i n fuel : Nat} {a b : Int}

theorem codeAt_natCast (exec : List VmCode) (i : Nat) : codeAt exec (i : Int) = exec[i]? := by
  simp [codeAt]

theorem codeAt_eq_some_iff : codeAt exec a = some c ↔ ∃ i : Nat, a = i ∧ exec[i]? = some c := by
  constructor
  · intro h
    unfold codeAt at h
    split at h
    · exact ⟨a.toNat, by omega, h⟩
    · cases h
  · rintro ⟨i, rfl, h⟩
    rw [codeAt_natCast, h]

theorem OptimizedTo.leads (h : OptimizedTo exec cur n) (hc : codeAt cur a = some c)
    (hjmp : c.opcode = .jmp) :
    ∃ b, jumpNext exec a = some b ∧ Leads (jumpNext exec) b (a + c.addr.index) := by
  rcases codeAt_eq_some_iff.mp hc with ⟨i, rfl, hi⟩
  have hlt : i < exec.length := by
    rw [← h.length]
    exact (List.getElem?_eq_some_iff.mp hi).1
  by_cases hn : i < n
  · rcases h.before i _ hn (getElem?_eq_getElem hlt) with ⟨d, hd, hopt⟩
    rw [hi, some.injEq] at hd
    subst hd
    by_cases hjump : isJump exec[i].opcode = true
    · rcases hopt.jump hjump with ⟨t, hleads, ⟨hop, hindex⟩ | ⟨hop, -⟩⟩
      · refine ⟨i + exec[i].addr.index, ?_, ?_⟩
        · rw [jumpNext, codeAt_natCast, getElem?_eq_getElem hlt, bind_some,
            if_pos (hop.symm.trans hjmp)]
        · have ht : (i : Int) + c.addr.index = t := by omega
          rwa [ht]
      · rw [hjmp] at hop
        cases hop
    · have hjump : isJump exec[i].opcode = false := by simpa using hjump
      have heq := hopt.other hjump
      rw [← heq, isJump, hjmp] at hjump
      simp at hjump
  · rw [h.behind i (by omega)] at hi
    refine ⟨i + c.addr.index, ?_, Leads.refl _⟩
    rw [jumpNext, codeAt_natCast, hi, bind_some, if_pos hjmp]

theorem followJumps_leads (h : OptimizedTo exec cur n) (hf : followJumps cur fuel a = some b) :
    Leads (jumpNext exec) a b := by
  induction fuel generalizing a with
  | zero => simp [followJumps] at hf
  | succ fuel ih =>
    rw [followJumps] at hf
    split at hf
    · rw [some.injEq] at hf
      subst hf
      exact Leads.refl _
    · rw [bind_eq_some_iff] at hf
      rcases hf with ⟨c, hc, hf⟩
      split at hf
      · rename_i hjmp
        rcases h.leads hc hjmp with ⟨a', ha', hleads⟩
        exact Leads.head ha' (hleads.trans (ih hf))
      · rw [some.injEq] at hf
        subst hf
        exact Leads.refl _

/-- One step of the optimization. -/
theorem optimizeCode_step (h : OptimizedTo exec cur n) (hn : n < exec.length)
    (hstep : optimizeCode fuel cur n = some cur') : OptimizedTo exec cur' (n + 1) := by
  have hlt : n < cur.length := by rw [h.length]; exact hn
  have hget : cur[n]? = exec[n]? := h.behind n (le_refl n)
  have hbefore : ∀ i c, i < n → exec[i]? = some c → ∀ d, ∃ e, (cur.set n d)[i]? = some e ∧
      Optimized exec i c e := by
    intro i c hi hc d
    rcases h.before i c hi hc with ⟨e, he, hopt⟩
    exact ⟨e, by rw [getElem?_set_ne (by omega), he], hopt⟩
  rw [optimizeCode, hget, getElem?_eq_getElem hn] at hstep
  simp only at hstep
  split at hstep
  · rename_i hjump
    rw [map_eq_some_iff] at hstep
    rcases hstep with ⟨d, hd, rfl⟩
    have hopt : Optimized exec n exec[n] d := by
      refine ⟨fun hno => absurd hjump (by simp [hno]), fun _ => ?_⟩
      unfold optimizeJump at hd
      split at hd
      · rw [some.injEq] at hd
        subst hd
        exact ⟨n + exec[n].addr.index, Leads.refl _, Or.inl ⟨rfl, by omega⟩⟩
      · rw [map_eq_some_iff] at hd
        rcases hd with ⟨t, hf, rfl⟩
        refine ⟨t, followJumps_leads h hf, ?_⟩
        by_cases hone : t - n = 1
        · exact Or.inr ⟨by simp [hone], by omega⟩
        · exact Or.inl ⟨by simp [hone], rfl⟩
    refine ⟨by rw [length_set, h.length], ?_, ?_⟩
    · intro i c hi hc
      by_cases hin : i = n
      · subst hin
        rw [getElem?_eq_getElem hn, some.injEq] at hc
        subst hc
        exact ⟨d, by rw [getElem?_set_self hlt], hopt⟩
      · exact hbefore i c (by omega) hc d
    · intro i hi
      rw [getElem?_set_ne (by omega), h.behind i (by omega)]
  · rename_i hjump
    rw [some.injEq] at hstep
    subst hstep
    refine ⟨h.length, ?_, fun i hi => h.behind i (by omega)⟩
    intro i c hi hc
    by_cases hin : i = n
    · subst hin
      rw [getElem?_eq_getElem hn, some.injEq] at hc
      subst hc
      exact ⟨exec[i], by rw [hget, getElem?_eq_getElem hn], fun _ => rfl, fun hyes =>
        absurd hyes hjump⟩
    · exact h.before i c (by omega) hc

theorem foldlM_optimizedTo (hn : n ≤ exec.length)
    (h : (List.range n).foldlM (optimizeCode fuel) exec = some cur) : OptimizedTo exec cur n := by
  induction n generalizing cur with
  | zero =>
    simp only [range_zero, foldlM_nil, Option.pure_def, some.injEq] at h
    subst h
    exact ⟨rfl, fun i c hi => absurd hi (Nat.not_lt_zero i), fun _ _ => rfl⟩
  | succ n ih =>
    rw [range_succ, foldlM_append] at h
    simp only [bind_eq_bind, bind_eq_some_iff, foldlM_cons, foldlM_nil,
      Option.pure_def, some.injEq] at h
    rcases h with ⟨cur1, h1, cur2, h2, rfl⟩
    exact optimizeCode_step (ih (by omega) h1) hn h2

/-- Every jump goes to a place on the chain of jumps that starts at its target, and
nothing else changes. -/
theorem jumpOptimization_spec (h : jumpOptimization fuel exec = some cur) :
    cur.length = exec.length ∧
      ∀ i c, exec[i]? = some c → ∃ d, cur[i]? = some d ∧ Optimized exec i c d := by
  have hto := foldlM_optimizedTo (le_refl _) h
  exact ⟨hto.length, fun i c hc => hto.before i c (List.getElem?_eq_some_iff.mp hc).1 hc⟩

/-! ## When the optimization ends -/

/-- No jump goes to a place before the program. -/
def JumpsInside (exec : List VmCode) : Prop :=
  ∀ (i : Nat) c, exec[i]? = some c → isJump c.opcode = true → 0 ≤ (i : Int) + c.addr.index

theorem jumpNext_eq_some_iff : jumpNext exec a = some b ↔
    ∃ i c, a = (i : Nat) ∧ exec[i]? = some c ∧ c.opcode = .jmp ∧ b = a + c.addr.index := by
  constructor
  · intro h
    rw [jumpNext, bind_eq_some_iff] at h
    rcases h with ⟨c, hc, h⟩
    split at h
    · rename_i hjmp
      rcases codeAt_eq_some_iff.mp hc with ⟨i, hi, hget⟩
      rw [some.injEq] at h
      exact ⟨i, c, hi, hget, hjmp, h.symm⟩
    · cases h
  · rintro ⟨i, c, rfl, hc, hjmp, rfl⟩
    rw [jumpNext, codeAt_natCast, hc, bind_some, if_pos hjmp]

theorem JumpsInside.leads (h : JumpsInside exec) (hab : Leads (jumpNext exec) a b) (ha : 0 ≤ a) :
    0 ≤ b := by
  induction hab with
  | refl => exact ha
  | tail _ hstep _ =>
    rcases jumpNext_eq_some_iff.mp hstep with ⟨i, c, rfl, hc, hjmp, rfl⟩
    exact h i c hc (by simp [isJump, hjmp])

/-- Enough steps to reach the end of a chain of jumps. -/
theorem followJumps_isSome (hin : JumpsInside exec) (hsettles : Settles (jumpNext exec) a) :
    ∃ bound, ∀ n cur, OptimizedTo exec cur n → ∀ x, Leads (jumpNext exec) a x → 0 ≤ x →
      ∀ fuel, bound ≤ fuel → ∃ y, followJumps cur fuel x = some y := by
  induction hsettles with
  | intro a hacc ih =>
    -- One step of the loop, given that it goes on from the next place.
    have hstep : ∀ bound, (∀ b, jumpNext exec a = some b → ∀ n cur, OptimizedTo exec cur n →
        ∀ x, Leads (jumpNext exec) b x → 0 ≤ x → ∀ fuel, bound ≤ fuel →
          ∃ y, followJumps cur fuel x = some y) →
        ∀ n cur, OptimizedTo exec cur n → 0 ≤ a → ∀ fuel, bound + 1 ≤ fuel →
          ∃ y, followJumps cur fuel a = some y := by
      intro bound hnext n cur hopt ha fuel hfuel
      cases fuel with
      | zero => omega
      | succ fuel =>
        rw [followJumps]
        split
        · exact ⟨a, rfl⟩
        · rename_i hlen
          have hlt : a.toNat < cur.length := by omega
          have hc : codeAt cur a = some cur[a.toNat] := by
            rw [codeAt, if_pos ha, getElem?_eq_getElem hlt]
          rw [hc, bind_some]
          split
          · rename_i hjmp
            rcases hopt.leads hc hjmp with ⟨b, hb, hleads⟩
            have hb0 : 0 ≤ b := hin.leads (Leads.head hb (Leads.refl b)) ha
            exact hnext b hb n cur hopt _ hleads (hin.leads hleads hb0) fuel (by omega)
          · exact ⟨a, rfl⟩
    cases hb : jumpNext exec a with
    | none =>
      refine ⟨1, ?_⟩
      intro n cur hopt x hx hx0 fuel hfuel
      rcases hx.cases_head with rfl | ⟨b, hb', -⟩
      · exact hstep 0 (fun b hb' => by simp [hb] at hb') n cur hopt hx0 fuel hfuel
      · simp [hb] at hb'
    | some b =>
      rcases ih b hb with ⟨bound, hbound⟩
      refine ⟨bound + 1, ?_⟩
      intro n cur hopt x hx hx0 fuel hfuel
      rcases hx.cases_head with rfl | ⟨b', hb', hx⟩
      · refine hstep bound ?_ n cur hopt hx0 fuel hfuel
        intro b' hb'
        rw [hb, some.injEq] at hb'
        subst hb'
        exact hbound
      · rw [hb, some.injEq] at hb'
        subst hb'
        exact hbound n cur hopt x hx hx0 fuel (by omega)

/-- The optimization ends when the chains of jumps do. -/
theorem jumpOptimization_isSome (hin : JumpsInside exec)
    (hsettles : ∀ (i : Nat) c, exec[i]? = some c → isJump c.opcode = true →
      Settles (jumpNext exec) (i + c.addr.index)) :
    ∃ fuel cur, jumpOptimization fuel exec = some cur := by
  have hbound : ∀ i : Nat, ∃ bound, ∀ c, exec[i]? = some c → isJump c.opcode = true →
      ∀ n cur, OptimizedTo exec cur n → ∀ fuel, bound ≤ fuel →
        ∃ y, followJumps cur fuel (i + c.addr.index) = some y := by
    intro i
    by_cases hjump : ∃ c, exec[i]? = some c ∧ isJump c.opcode = true
    · rcases hjump with ⟨c, hc, hjump⟩
      rcases followJumps_isSome hin (hsettles i c hc hjump) with ⟨bound, hbound⟩
      refine ⟨bound, ?_⟩
      intro c' hc' _ n cur hopt fuel hfuel
      rw [hc, some.injEq] at hc'
      subst hc'
      exact hbound n cur hopt _ (Leads.refl _) (hin i c hc hjump) fuel hfuel
    · exact ⟨0, fun c hc hc' => absurd ⟨c, hc, hc'⟩ hjump⟩
  choose bound hbound using hbound
  let fuel := (Finset.range exec.length).sup bound
  have hrun : ∀ n, n ≤ exec.length →
      ∃ cur, (List.range n).foldlM (optimizeCode fuel) exec = some cur := by
    intro n
    induction n with
    | zero => exact fun _ => ⟨exec, rfl⟩
    | succ n ih =>
      intro hn
      rcases ih (by omega) with ⟨cur, hcur⟩
      have hopt := foldlM_optimizedTo (by omega) hcur
      have hstep : ∃ cur', optimizeCode fuel cur n = some cur' := by
        have hget : exec[n]? = some exec[n] := getElem?_eq_getElem (by omega)
        rw [optimizeCode, hopt.behind n (le_refl n), hget]
        simp only
        split
        · rename_i hjump
          unfold optimizeJump
          split
          · exact ⟨_, rfl⟩
          · have hfuel : bound n ≤ fuel := Finset.le_sup (by simp; omega)
            rcases hbound n exec[n] hget hjump n cur hopt fuel hfuel with ⟨y, hy⟩
            rw [hy]
            exact ⟨_, rfl⟩
        · exact ⟨cur, rfl⟩
      rcases hstep with ⟨cur', hcur'⟩
      exact ⟨cur', by simp [range_succ, foldlM_append, hcur, hcur']⟩
  rcases hrun exec.length (le_refl _) with ⟨cur, hcur⟩
  exact ⟨fuel, cur, hcur⟩

/-- The optimization does not end when a set of jumps has no way out. -/
theorem jumpOptimization_eq_none (places : Set Nat) (hne : places.Nonempty)
    (hclosed : ∀ i ∈ places, ∃ c j, exec[i]? = some c ∧ c.opcode = .jmp ∧ j ∈ places ∧
      (i : Int) + c.addr.index = (j : Nat)) (fuel : Nat) : jumpOptimization fuel exec = none := by
  classical
  -- The first of these jumps that is reached has not been changed, and neither have the others.
  have hfind : ∃ i, i ∈ places := hne
  let n := Nat.find hfind
  have hn : n ∈ places := Nat.find_spec hfind
  have hmin : ∀ i ∈ places, n ≤ i := fun i hi => Nat.find_le hi
  have hlt : n < exec.length := by
    rcases hclosed n hn with ⟨c, -, hc, -⟩
    exact (List.getElem?_eq_some_iff.mp hc).1
  have hloop : ∀ cur, OptimizedTo exec cur n → ∀ fuel : Nat, ∀ j ∈ places,
      followJumps cur fuel (j : Nat) = none := by
    intro cur hopt fuel
    induction fuel with
    | zero => exact fun _ _ => rfl
    | succ fuel ih =>
      intro j hj
      rcases hclosed j hj with ⟨c, k, hc, hjmp, hk, hnext⟩
      have hcode : codeAt cur (j : Nat) = some c := by
        rw [codeAt_natCast, hopt.behind j (hmin j hj), hc]
      have hjlt := (List.getElem?_eq_some_iff.mp hc).1
      rw [followJumps, if_neg (by rw [hopt.length]; omega), hcode, bind_some, if_pos hjmp,
        hnext, ih k hk]
  have hsplit : List.range exec.length = List.range n ++ n :: (List.range' (n + 1)
      (exec.length - (n + 1))) := by
    rw [range_eq_range', range_eq_range']
    have hcons : n :: List.range' (n + 1) (exec.length - (n + 1)) =
        List.range' (0 + 1 * n) (exec.length - n) := by
      have hsub : exec.length - n = (exec.length - (n + 1)) + 1 := by omega
      rw [hsub, range'_succ, Nat.one_mul, Nat.zero_add]
    rw [hcons, range'_append]
    congr 1
    omega
  rw [jumpOptimization, hsplit, foldlM_append]
  cases hcur : (List.range n).foldlM (optimizeCode fuel) exec with
  | none => rfl
  | some cur =>
    have hopt := foldlM_optimizedTo (by omega) hcur
    rcases hclosed n hn with ⟨c, j, hc, hjmp, hj, hnext⟩
    have hjlt : j < exec.length := by
      rcases hclosed j hj with ⟨c, -, hc, -⟩
      exact (List.getElem?_eq_some_iff.mp hc).1
    have hstep : optimizeCode fuel cur n = none := by
      rw [optimizeCode, hopt.behind n (le_refl n), hc]
      simp only [isJump, hjmp, decide_true, Bool.true_or, if_true]
      rw [optimizeJump, if_neg (by rw [hopt.length]; omega), hnext, hloop cur hopt fuel j hj]
      rfl
    simp [foldlM_cons, hstep]

/-! ## Labels that are found -/

variable {globals : List VmLabel} {name : String} {q' : Nat}

/-- The position of the label with the given name after `update_label_index`. -/
def labelPlace (prog : List VmCode) (labels : List VmLabel) (name : String) : Option Int :=
  let labels := (updateLabelIndex prog labels).2
  (getVmLabel labels name).bind fun p => (labels[p]?).map (·.index)

/-- A label that is found by its name stands at a place. -/
structure Target (prog : List VmCode) (labels : List VmLabel) (name : String) (q : Nat) : Prop where
  found : ∃ i, getVmLabel labels name = some i ∧ prog[q]? = some (labelCode i) ∧
    (labels[i]?).map (·.name) = some name
  pos : 0 < placeOf prog q

theorem labelCode_unique (hnodup : (lindexes prog).Nodup) (h : prog[q]? = some (labelCode i))
    (h' : prog[q']? = some (labelCode i)) : q = q' := by
  have hlt : ∀ q q' : Nat, prog[q]? = some (labelCode i) → prog[q']? = some (labelCode i) →
      ¬ q < q' := by
    intro q q' h h' hqq
    have hsplit : prog = prog.take q' ++ prog.drop q' := (take_append_drop q' prog).symm
    rw [hsplit, lindexes_append, nodup_append] at hnodup
    have hleft : i ∈ lindexes (prog.take q') := by
      rw [lindexes, mem_filterMap]
      have hget : (prog.take q')[q]? = some (labelCode i) := by
        rw [getElem?_take, if_pos hqq, h]
      exact ⟨labelCode i, mem_of_getElem? hget, rfl⟩
    have hright : i ∈ lindexes (prog.drop q') := by
      rw [lindexes, mem_filterMap]
      have hget : (prog.drop q')[0]? = some (labelCode i) := by
        rw [getElem?_drop, Nat.add_zero, h']
      exact ⟨labelCode i, mem_of_getElem? hget, rfl⟩
    exact hnodup.2.2 i hleft i hright rfl
  have h1 := hlt q q' h h'
  have h2 := hlt q' q h' h
  omega

theorem Target.unique (hnodup : (lindexes prog).Nodup) (h : Target prog labels name q)
    (h' : Target prog labels name q') : q = q' := by
  rcases h.found with ⟨i, hi, hcode, -⟩
  rcases h'.found with ⟨i', hi', hcode', -⟩
  rw [hi, some.injEq] at hi'
  subst hi'
  exact labelCode_unique hnodup hcode hcode'

theorem getVmLabel_eq_of_names {labels' : List VmLabel}
    (h : labels'.map (·.name) = labels.map (·.name)) :
    getVmLabel labels' name = getVmLabel labels name := by
  have hmap : ∀ ls : List VmLabel, getVmLabel ls name = (ls.map (·.name)).findIdx? (· = name) := by
    intro ls
    rw [getVmLabel, findIdx?_map]
    rfl
  rw [hmap, hmap, h]

theorem Target.updated (hnodup : (lindexes prog).Nodup) (h : Target prog labels name q) :
    ∃ i, getVmLabel (updateLabelIndex prog labels).2 name = some i ∧
      (updateLabelIndex prog labels).2[i]? = some { index := placeOf prog q, name := name } := by
  rcases h.found with ⟨i, hi, hcode, hname⟩
  refine ⟨i, ?_, updateLabelIndex_index hnodup hcode hname⟩
  rw [getVmLabel_eq_of_names (updateLabelIndex_names prog labels), hi]

theorem Target.labelPlace (hnodup : (lindexes prog).Nodup) (h : Target prog labels name q) :
    labelPlace prog labels name = some (placeOf prog q : Int) := by
  rcases h.updated hnodup with ⟨i, hi, hget⟩
  unfold Vm.labelPlace
  simp only [hi, bind_some, hget, map_some]

/-! ## Single instructions -/

/-- The operation of an instruction stays. -/
theorem reassignCode_opcode (h : reassignCode labels globals i c = some d) :
    d.opcode = c.opcode := by
  have hfunction : ∀ c d, reassignFunction labels c = some d → d.opcode = c.opcode := by
    intro c d h
    unfold reassignFunction at h
    split at h
    · split at h
      · rw [some.injEq] at h
        rw [← h]
      · split at h
        · split at h
          · cases h
          · rw [some.injEq] at h
            rw [← h]
        · rw [some.injEq] at h
          rw [← h]
    · rw [some.injEq] at h
      rw [← h]
  have hrelocate : ∀ c, (relocate globals c).opcode = c.opcode := by
    intro c
    unfold relocate
    split <;> rfl
  have hpush : (reassignPush labels globals c).opcode = c.opcode := by
    simp only [reassignPush]
    split
    · split
      · exact hrelocate c
      · exact hrelocate c
    · split
      · rfl
      · rfl
  have hjump : reassignJump labels i c = some d → d.opcode = c.opcode := by
    intro h
    unfold reassignJump at h
    split at h
    · simp only [bind_eq_some_iff] at h
      rcases h with ⟨p, -, label, -, h⟩
      split at h
      · rw [some.injEq] at h
        rw [← h]
      · cases h
    · rw [some.injEq] at h
      rw [← h]
  unfold reassignCode at h
  split at h
  · exact hjump h
  · exact hjump h
  · exact hjump h
  · exact hjump h
  · rw [← some.inj h, hrelocate]
  · rw [← some.inj h, hrelocate]
  · rw [← some.inj h, hrelocate]
  · rw [← some.inj h, hrelocate]
  · rw [← some.inj h]
    split
    · exact hrelocate c
    · rfl
  · rw [hfunction _ _ h, hpush]
  · exact hfunction _ _ h
  · rw [← some.inj h]

theorem reassignCode_reference (hnodup : (lindexes prog).Nodup) {size : Int} {op : VmOpcode}
    (href : isReference op = true) (ht : Target prog labels name q) :
    reassignCode (updateLabelIndex prog labels).2 globals i
        { opcode := op, d := .addr { name := name, size := size } } =
      some { opcode := op
             d := .addr { name := name, size := size, index := placeOf prog q - i } } := by
  rcases ht.updated hnodup with ⟨p, hp, hget⟩
  have hpos : placeOf prog q ≠ 0 := Nat.pos_iff_ne_zero.mp ht.pos
  have hjump : reassignJump (updateLabelIndex prog labels).2 i
      { opcode := op, d := .addr { name := name, size := size } } =
      some { opcode := op
             d := .addr { name := name, size := size, index := placeOf prog q - i } } := by
    simp [reassignJump, VmCode.addr, hp, hget, hpos]
  unfold reassignCode
  cases op <;> first | exact hjump | cases href

theorem reassignFrom_spec {codes : List VmCode} {k : Nat}
    (h : reassignFrom labels globals k codes = some exec) :
    exec.length = codes.length ∧ ∀ i c, codes[i]? = some c →
      ∃ d, exec[i]? = some d ∧ reassignCode labels globals (k + i) c = some d := by
  induction codes generalizing k exec with
  | nil =>
    rw [reassignFrom, some.injEq] at h
    subst h
    simp
  | cons c codes ih =>
    simp only [reassignFrom, bind_eq_some_iff, map_eq_some_iff] at h
    rcases h with ⟨d, hd, exec', hexec, rfl⟩
    rcases ih hexec with ⟨hlen, hget⟩
    refine ⟨by simp [hlen], ?_⟩
    intro i c' hc'
    cases i with
    | zero =>
      rw [getElem?_cons_zero, some.injEq] at hc'
      subst hc'
      exact ⟨d, rfl, hd⟩
    | succ i =>
      rw [getElem?_cons_succ] at hc'
      rcases hget i c' hc' with ⟨d', hd', hcode⟩
      refine ⟨d', by rw [getElem?_cons_succ, hd'], ?_⟩
      rwa [Nat.add_assoc, Nat.add_comm 1 i] at hcode

theorem reassignFrom_isSome {codes : List VmCode} {k : Nat}
    (h : ∀ i c, codes[i]? = some c → ∃ d, reassignCode labels globals (k + i) c = some d) :
    ∃ exec, reassignFrom labels globals k codes = some exec := by
  induction codes generalizing k with
  | nil => exact ⟨[], rfl⟩
  | cons c codes ih =>
    rcases h 0 c rfl with ⟨d, hd⟩
    have hrest : ∀ i c, codes[i]? = some c →
        ∃ d, reassignCode labels globals (k + 1 + i) c = some d := by
      intro i c hc
      rcases h (i + 1) c (by rwa [getElem?_cons_succ]) with ⟨d, hd⟩
      exact ⟨d, by rwa [Nat.add_assoc, Nat.add_comm 1 i]⟩
    rcases ih hrest with ⟨exec, hexec⟩
    rw [Nat.add_zero] at hd
    exact ⟨d :: exec, by simp [reassignFrom, hexec, hd]⟩

end Kcs.Vm
