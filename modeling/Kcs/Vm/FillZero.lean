import Kcs.Vm.Call
import Kcs.Vm.Elision

/-!
# Filling zeros

Assignments of zero to variables that follow each other become one instruction when each
begins at the frame index at which the one before ends.  The instruction has the frame of
the first of them, and the machine leaves out sizes that are none of a word and not above
eight.

Main results:

- Theorem {lit}`fillZeros_code`: the instructions of a sequence of assignments, one for
  each run of adjacent objects.
- Theorem {lit}`fills_right_iff`: the sequences for which exactly the bytes of the
  assigned objects become zero.
- Theorem {lit}`fill_three_wrong`: three characters that stay as they are.
-/

namespace Kcs.Vm

open Option List

/-! ## Objects -/

/-- A variable to which zero is assigned. -/
structure ZeroObject (env : GenEnv) where
  var : Var
  sym : Symbol
  size : Nat
  direct : var.kind = .direct
  symbol : var.symbol = some sym
  complete : sizeOf env.types var.type = some size

variable {env : GenEnv}

namespace ZeroObject

/-- The address operand of the object. -/
def address (o : ZeroObject env) : VmAddress := vmAddress env o.var o.sym (toInt32 o.size)

/-- Where the object is in its frame, when the program has been linked. -/
def place (globals : List VmLabel) (o : ZeroObject env) : Int :=
  baseOf env o.sym + (linkOffset env globals o.sym + o.var.offset.toInt)

/-- The bytes of the object in the global or in the local frame. -/
def Occupies (globals : List VmLabel) (o : ZeroObject env) (isGlobal : Bool) (b : Int) : Prop :=
  isGlobalVar env o.sym = isGlobal ∧ o.place globals ≤ b ∧ b < o.place globals + o.size

end ZeroObject

/-- Each object begins at the frame index at which the one before ends. -/
def Adjacent : Int → List (ZeroObject env) → Prop
  | _, [] => True
  | p, o :: os => o.address.index = p ∧ Adjacent (p + o.address.size) os

/-- Sizes of objects, as they are added up. -/
def totalSize (os : List (ZeroObject env)) : Int := (os.map (·.address.size)).sum

theorem totalSize_cons (o : ZeroObject env) (os : List (ZeroObject env)) :
    totalSize (o :: os) = o.address.size + totalSize os := by
  simp [totalSize]

theorem totalSize_concat (os : List (ZeroObject env)) (o : ZeroObject env) :
    totalSize (os ++ [o]) = totalSize os + o.address.size := by
  simp [totalSize]

theorem adjacent_concat {os : List (ZeroObject env)} {o : ZeroObject env} {p : Int} :
    Adjacent p (os ++ [o]) ↔ Adjacent p os ∧ o.address.index = p + totalSize os := by
  induction os generalizing p with
  | nil => simp [Adjacent, totalSize]
  | cons x os ih =>
    simp only [cons_append, Adjacent, ih, totalSize_cons, and_assoc, add_assoc]

/-- Objects that become one instruction. -/
structure ZeroRun (env : GenEnv) where
  first : ZeroObject env
  rest : List (ZeroObject env)
  adjacent : Adjacent first.address.index (first :: rest)

namespace ZeroRun

/-- The objects of a run. -/
def objects (r : ZeroRun env) : List (ZeroObject env) := r.first :: r.rest

/-- The run of one object. -/
def single (o : ZeroObject env) : ZeroRun env where
  first := o
  rest := []
  adjacent := ⟨rfl, trivial⟩

/-- The size of the instruction. -/
def size (r : ZeroRun env) : Int := totalSize r.objects

/-- A run with one object more. -/
def add (r : ZeroRun env) (o : ZeroObject env)
    (h : r.first.address.index + r.size = o.address.index) : ZeroRun env where
  first := r.first
  rest := r.rest ++ [o]
  adjacent := adjacent_concat.mpr ⟨r.adjacent, h.symm⟩

/-- The instruction of a run. -/
def code (r : ZeroRun env) : VmCode :=
  { opcode := .fzero, d := .addr { r.first.address with size := r.size } }

theorem size_add (r : ZeroRun env) (o : ZeroObject env)
    (h : r.first.address.index + r.size = o.address.index) :
    (r.add o h).size = r.size + o.address.size :=
  totalSize_concat r.objects o

end ZeroRun

/-- The runs of a sequence that follows a run. -/
def zeroRunsFrom (r : ZeroRun env) : List (ZeroObject env) → List (ZeroRun env)
  | [] => [r]
  | o :: os =>
    if h : r.first.address.index + r.size = o.address.index then zeroRunsFrom (r.add o h) os
    else r :: zeroRunsFrom (.single o) os

/-- The runs of a sequence of assignments. -/
def zeroRuns : List (ZeroObject env) → List (ZeroRun env)
  | [] => []
  | o :: os => zeroRunsFrom (.single o) os

theorem zeroRunsFrom_objects (r : ZeroRun env) (os : List (ZeroObject env)) :
    (zeroRunsFrom r os).flatMap (·.objects) = r.objects ++ os := by
  induction os generalizing r with
  | nil => simp [zeroRunsFrom]
  | cons o os ih =>
    rw [zeroRunsFrom]
    split
    · rw [ih]
      simp [ZeroRun.objects, ZeroRun.add]
    · rw [flatMap_cons, ih]
      simp [ZeroRun.objects, ZeroRun.single]

theorem zeroRuns_objects (os : List (ZeroObject env)) :
    (zeroRuns os).flatMap (·.objects) = os := by
  cases os with
  | nil => rfl
  | cons o os => exact (zeroRunsFrom_objects _ _).trans rfl

/-! ## The instructions -/

/-- The assignments of a sequence. -/
def fillZeros (env : GenEnv) (os : List (ZeroObject env)) (g : GenState) : Option GenState :=
  os.foldlM (fun g o => emitVmFillZero env o.var g) g

@[simp]
theorem setCode_code (code : List VmCode) (g : GenState) : (g.setCode code).code = code := by
  cases hmode : g.isGlobalMode <;> simp [GenState.setCode, GenState.code, hmode]

theorem emitVmFillZero_object (o : ZeroObject env) (g : GenState) :
    emitVmFillZero env o.var g =
      some (match g.last.filter fun c => joinsZero c o.address with
        | some c => g.setCode (g.code.dropLast ++ [grownZero c o.address])
        | none => emitVmCode (zeroCode o.address) g) := by
  have hsize : intSizeOf env o.var.type = some (toInt32 o.size) := by
    rw [intSizeOf, o.complete]
    rfl
  simp only [emitVmFillZero, o.symbol, hsize, bind_some, map_some]
  rfl

theorem ZeroRun.code_single (o : ZeroObject env) :
    (ZeroRun.single o).code = zeroCode o.address := by
  simp [ZeroRun.code, ZeroRun.single, ZeroRun.size, ZeroRun.objects, totalSize, zeroCode]

theorem ZeroRun.joinsZero_code (r : ZeroRun env) (o : ZeroObject env) :
    joinsZero r.code o.address = decide (r.first.address.index + r.size = o.address.index) := by
  rw [Bool.eq_iff_iff, decide_eq_true_iff]
  simp only [joinsZero, ZeroRun.code, VmCode.addr, decide_true, Bool.true_and]
  exact decide_eq_true_iff

theorem emitVmFillZero_run {base : List VmCode} {g : GenState} (r : ZeroRun env)
    (o : ZeroObject env) (hcode : g.code = base ++ [r.code]) :
    ∃ g', emitVmFillZero env o.var g = some g' ∧ g'.code =
      if h : r.first.address.index + r.size = o.address.index then base ++ [(r.add o h).code]
      else base ++ [r.code, (ZeroRun.single o).code] := by
  have hlast : g.last = some r.code := by
    rw [GenState.last, hcode]
    exact getLast?_concat
  refine ⟨_, emitVmFillZero_object o g, ?_⟩
  rw [hlast, filter_some, r.joinsZero_code]
  by_cases hjoin : r.first.address.index + r.size = o.address.index
  · have hgrown : grownZero r.code o.address = (r.add o hjoin).code := by
      simp only [ZeroRun.code, ZeroRun.size_add]
      rfl
    simp only [hjoin, decide_true, if_true, dif_pos, setCode_code, hcode, dropLast_concat, hgrown]
  · simp only [hjoin, decide_false, Bool.false_eq_true, if_false, dif_neg, not_false_eq_true,
      emitVmCode_code, hcode, ZeroRun.code_single, append_assoc, cons_append, nil_append]

theorem fillZeros_run {base : List VmCode} {g : GenState} (r : ZeroRun env)
    (os : List (ZeroObject env)) (hcode : g.code = base ++ [r.code]) :
    ∃ g', fillZeros env os g = some g' ∧
      g'.code = base ++ (zeroRunsFrom r os).map (·.code) := by
  induction os generalizing g base r with
  | nil => exact ⟨g, rfl, hcode⟩
  | cons o os ih =>
    rcases emitVmFillZero_run r o hcode with ⟨g₁, hgen, hcode₁⟩
    rw [zeroRunsFrom]
    split
    · rename_i hjoin
      rw [dif_pos hjoin] at hcode₁
      rcases ih (r.add o hjoin) hcode₁ with ⟨g', hrest, hcode'⟩
      refine ⟨g', ?_, hcode'⟩
      rw [fillZeros, foldlM_cons, hgen]
      exact hrest
    · rename_i hjoin
      rw [dif_neg hjoin, append_cons] at hcode₁
      rcases ih (ZeroRun.single o) hcode₁ with ⟨g', hrest, hcode'⟩
      refine ⟨g', ?_, ?_⟩
      · rw [fillZeros, foldlM_cons, hgen]
        exact hrest
      · rw [hcode', map_cons, append_assoc, singleton_append]

/-- The assignments of a sequence append one instruction for each run. -/
theorem fillZeros_code {g : GenState} (os : List (ZeroObject env))
    (hlast : ∀ c, g.last = some c → c.opcode ≠ .fzero) :
    ∃ g', fillZeros env os g = some g' ∧ g'.code = g.code ++ (zeroRuns os).map (·.code) := by
  cases os with
  | nil => exact ⟨g, rfl, by simp [zeroRuns]⟩
  | cons o os =>
    have hfilter : g.last.filter (fun c => joinsZero c o.address) = none := by
      rw [filter_eq_none_iff]
      intro c hc
      simp [joinsZero, hlast c hc]
    have hgen : emitVmFillZero env o.var g = some (emitVmCode (ZeroRun.single o).code g) := by
      rw [emitVmFillZero_object, hfilter, ZeroRun.code_single]
    rcases fillZeros_run (ZeroRun.single o) os (emitVmCode_code _ g) with ⟨g', hrest, hcode⟩
    refine ⟨g', ?_, hcode⟩
    rw [fillZeros, foldlM_cons, hgen]
    exact hrest

/-! ## Zeroed bytes -/

/-- Where the machine looks for the object, when the program has been linked. -/
def ZeroObject.target (globals : List VmLabel) (o : ZeroObject env) : Int :=
  o.address.index + linkOffset env globals o.sym

/-- The bytes of the global or the local frame that the instruction of a run sets to zero. -/
def ZeroRun.Zeroes (globals : List VmLabel) (r : ZeroRun env) (isGlobal : Bool) (b : Int) : Prop :=
  r.size ∉ [3, 5, 6, 7] ∧ isGlobalVar env r.first.sym = isGlobal ∧
    r.first.target globals ≤ b ∧ b < r.first.target globals + r.size

/-- Address of a frame. -/
def frameBase (L : Layout) (s : State) (isGlobal : Bool) : Int :=
  (L.stack + (if isGlobal then s.gp else s.bp) : Nat)

theorem relocate_code (globals : List VmLabel) (r : ZeroRun env) :
    relocate globals r.code =
      { r.code with
        d := .addr { r.first.address with index := r.first.target globals, size := r.size } } := by
  unfold relocate ZeroRun.code ZeroObject.target linkOffset
  cases hglobal : isGlobalVar env r.first.sym with
  | true => simp [VmCode.addr, ZeroObject.address, vmAddress, hglobal]
  | false => simp [VmCode.addr, ZeroObject.address, vmAddress, hglobal]

theorem execData_run (L : Layout) (globals : List VmLabel) (r : ZeroRun env) (s : State)
    (haddr : 0 ≤ frameBase L s (isGlobalVar env r.first.sym) + r.first.target globals) :
    ∃ t, execData L (relocate globals r.code) s = some t ∧ t = { s with mem := t.mem } ∧
      ∀ a : Nat, ((∃ f, r.Zeroes globals f (a - frameBase L s f)) → t.mem a = 0) ∧
        (¬ (∃ f, r.Zeroes globals f (a - frameBase L s f)) → t.mem a = s.mem a) := by
  have hexec : execData L (relocate globals r.code) s =
      execFzero L (relocate globals r.code) s := by
    rw [relocate_code]
    rfl
  have hplace : varAddr L s
      { r.first.address with index := r.first.target globals, size := r.size } =
      (frameBase L s (isGlobalVar env r.first.sym) + r.first.target globals).toNat := rfl
  rw [hexec, relocate_code, execFzero]
  simp only [hplace]
  split
  · rename_i hsize
    refine ⟨_, rfl, rfl, fun a => ⟨?_, ?_⟩⟩
    · rintro ⟨f, -, rfl, hlo, hhi⟩
      refine (Memory.store_inside ?_ ?_).trans (by rw [Nat.zero_div]; rfl)
      · omega
      · omega
    · intro hnot
      apply Memory.store_outside
      by_contra hin
      refine hnot ⟨_, ?_, rfl, ?_, ?_⟩
      · simp only [mem_cons, not_mem_nil, or_false]
        omega
      · omega
      · omega
  · rename_i hsize
    refine ⟨_, rfl, rfl, fun a => ⟨?_, fun _ => rfl⟩⟩
    rintro ⟨f, hkept, rfl, hlo, hhi⟩
    simp only [mem_cons, not_mem_nil, or_false] at hkept
    omega

theorem execCode_runs (L : Layout) (globals : List VmLabel) (rs : List (ZeroRun env)) (s : State)
    (haddr : ∀ r ∈ rs,
      0 ≤ frameBase L s (isGlobalVar env r.first.sym) + r.first.target globals) :
    ∃ t, execCode L (rs.map fun r => relocate globals r.code) s = some t ∧
      t = { s with mem := t.mem } ∧
      ∀ a : Nat, ((∃ r ∈ rs, ∃ f, r.Zeroes globals f (a - frameBase L s f)) → t.mem a = 0) ∧
        (¬ (∃ r ∈ rs, ∃ f, r.Zeroes globals f (a - frameBase L s f)) → t.mem a = s.mem a) := by
  induction rs generalizing s with
  | nil => exact ⟨s, rfl, rfl, fun a => ⟨by simp, fun _ => rfl⟩⟩
  | cons r rs ih =>
    rcases execData_run L globals r s (haddr r (by simp)) with ⟨u, hexec, hu, hbyte⟩
    have hframe : ∀ f, frameBase L u f = frameBase L s f := by
      intro f
      rw [hu]
      rfl
    rcases ih u (fun r' hr' => hframe _ ▸ haddr r' (by simp [hr'])) with ⟨t, hrest, ht, hbytes⟩
    refine ⟨t, by rw [map_cons, execCode_cons, hexec, bind_some, hrest], ?_, fun a => ⟨?_, ?_⟩⟩
    · rw [ht, hu]
    · rintro ⟨r', hr', f, hzero⟩
      by_cases hlater : ∃ r ∈ rs, ∃ f, r.Zeroes globals f (a - frameBase L u f)
      · exact (hbytes a).1 hlater
      · rw [(hbytes a).2 hlater]
        rcases mem_cons.mp hr' with rfl | hr'
        · exact (hbyte a).1 ⟨f, hzero⟩
        · exact absurd ⟨r', hr', f, hframe f ▸ hzero⟩ hlater
    · intro hnot
      rw [(hbytes a).2, (hbyte a).2]
      · rintro ⟨f, hzero⟩
        exact hnot ⟨r, by simp, f, hzero⟩
      · rintro ⟨r', hr', f, hzero⟩
        exact hnot ⟨r', by simp [hr'], f, hframe f ▸ hzero⟩

/-! ## Sequences that are filled right -/

section Conditions

variable (globals : List VmLabel)

/-- The addresses that the objects and the instructions of a sequence name are addresses of
memory. -/
def Addressable (L : Layout) (s : State) (os : List (ZeroObject env)) : Prop :=
  ∀ o ∈ os, 0 ≤ frameBase L s (isGlobalVar env o.sym) + o.place globals ∧
    0 ≤ frameBase L s (isGlobalVar env o.sym) + o.target globals

/-- An address of one of the objects of a sequence. -/
def AssignedZero (L : Layout) (s : State) (os : List (ZeroObject env)) (a : Nat) : Prop :=
  ∃ o ∈ os, linkedAddr L env globals s o.sym o.var.offset.toInt ≤ a ∧
    a < linkedAddr L env globals s o.sym o.var.offset.toInt + o.size

/-- The instructions that are emitted for a sequence of assignments, behind one that fills no zeros,
set exactly the bytes of the objects to zero, in every state. -/
def FillsRight (os : List (ZeroObject env)) : Prop :=
  ∀ L g s, (∀ c, g.last = some c → c.opcode ≠ .fzero) → Addressable globals L s os →
    ∃ g' code linked t, fillZeros env os g = some g' ∧ g'.code = g.code ++ code ∧
      List.Forall₂ (fun c d => ∀ final i, reassignCode final globals i c = some d) code linked ∧
      execCode L linked s = some t ∧ t = { s with mem := t.mem } ∧
      ∀ a, (AssignedZero globals L s os a → t.mem a = 0) ∧
        (¬ AssignedZero globals L s os a → t.mem a = s.mem a)

/-- A run that is filled by its instruction: the machine does not leave out its size, and its
objects are in the frame of the first one, where their indexes say. -/
def RunFits (r : ZeroRun env) : Prop :=
  r.size ∉ [3, 5, 6, 7] ∧ ∀ o ∈ r.objects,
    isGlobalVar env o.sym = isGlobalVar env r.first.sym ∧
      o.place globals = o.address.index + linkOffset env globals r.first.sym ∧
      o.address.size = o.size

/-- A run for which other assignments stand in: its objects are zeroed all the same, and its
instruction hits objects of the sequence only. -/
def MadeGood (os : List (ZeroObject env)) (r : ZeroRun env) : Prop :=
  (∀ o ∈ r.objects, ∀ f b, o.Occupies globals f b →
      ∃ r' ∈ zeroRuns os, r'.Zeroes globals f b) ∧
    ∀ f b, r.Zeroes globals f b → ∃ o ∈ os, o.Occupies globals f b

end Conditions

variable {globals : List VmLabel} {os : List (ZeroObject env)} {L : Layout} {s : State}

theorem Adjacent.cover {p : Int} (h : Adjacent p os) (hsize : ∀ o ∈ os, o.address.size = o.size)
    (b : Int) : (∃ o ∈ os, o.address.index ≤ b ∧ b < o.address.index + o.size) ↔
      p ≤ b ∧ b < p + totalSize os := by
  induction os generalizing p with
  | nil =>
    simp only [not_mem_nil, false_and, exists_false, totalSize, map_nil, sum_nil, false_iff]
    omega
  | cons o os ih =>
    rcases h with ⟨hindex, hrest⟩
    have hnonneg : ∀ os : List (ZeroObject env), (∀ o ∈ os, o.address.size = o.size) →
        0 ≤ totalSize os := by
      intro os hos
      apply sum_nonneg
      intro n hn
      rcases List.mem_map.mp hn with ⟨o, ho, rfl⟩
      rw [hos o ho]
      exact Int.natCast_nonneg _
    have hpos := hnonneg os (fun o ho => hsize o (by simp [ho]))
    have hfirst := hsize o (by simp)
    rw [exists_mem_cons_iff, ih hrest (fun o ho => hsize o (by simp [ho])), totalSize_cons]
    omega

theorem RunFits.zeroes_iff {r : ZeroRun env} (h : RunFits globals r) (f : Bool) (b : Int) :
    r.Zeroes globals f b ↔ ∃ o ∈ r.objects, o.Occupies globals f b := by
  have hcover := r.adjacent.cover (fun o ho => (h.2 o ho).2.2)
    (b - linkOffset env globals r.first.sym)
  unfold ZeroRun.Zeroes ZeroObject.target
  constructor
  · rintro ⟨-, hf, hlo, hhi⟩
    rcases hcover.mpr ⟨by omega, by unfold ZeroRun.size ZeroRun.objects at hhi; omega⟩ with
      ⟨o, ho, hlo', hhi'⟩
    rcases h.2 o ho with ⟨hframe, hplace, -⟩
    exact ⟨o, ho, hframe.trans hf, by omega, by omega⟩
  · rintro ⟨o, ho, hf, hlo, hhi⟩
    rcases h.2 o ho with ⟨hframe, hplace, -⟩
    have hin := hcover.mp ⟨o, ho, by omega, by omega⟩
    refine ⟨h.1, hframe.symm.trans hf, by omega, ?_⟩
    unfold ZeroRun.size ZeroRun.objects
    omega

theorem RunFits.madeGood {r : ZeroRun env} (h : RunFits globals r) (hr : r ∈ zeroRuns os) :
    MadeGood globals os r := by
  constructor
  · exact fun o ho f b hb => ⟨r, hr, (h.zeroes_iff f b).mpr ⟨o, ho, hb⟩⟩
  · intro f b hb
    rcases (h.zeroes_iff f b).mp hb with ⟨o, ho, hb⟩
    refine ⟨o, ?_, hb⟩
    rw [← zeroRuns_objects os]
    exact mem_flatMap.mpr ⟨r, hr, ho⟩

theorem zeroes_iff_occupies (h : ∀ r ∈ zeroRuns os, MadeGood globals os r) (f : Bool) (b : Int) :
    (∃ r ∈ zeroRuns os, r.Zeroes globals f b) ↔ ∃ o ∈ os, o.Occupies globals f b := by
  constructor
  · rintro ⟨r, hr, hb⟩
    exact (h r hr).2 f b hb
  · rintro ⟨o, ho, hb⟩
    rw [← zeroRuns_objects os] at ho
    rcases mem_flatMap.mp ho with ⟨r, hr, ho⟩
    exact (h r hr).1 o ho f b hb

theorem assignedZero_iff (h : Addressable globals L s os) (a : Nat) :
    AssignedZero globals L s os a ↔
      ∃ o ∈ os, ∃ f, o.Occupies globals f (a - frameBase L s f) := by
  have hplace : ∀ o : ZeroObject env, linkedAddr L env globals s o.sym o.var.offset.toInt =
      (frameBase L s (isGlobalVar env o.sym) + o.place globals).toNat := by
    intro o
    rw [linkedAddr, objectAddr, frameBase, ZeroObject.place]
    congr 1
    ring
  constructor
  · rintro ⟨o, ho, hlo, hhi⟩
    rw [hplace] at hlo hhi
    have hpos := (h o ho).1
    exact ⟨o, ho, _, rfl, by omega, by omega⟩
  · rintro ⟨o, ho, f, rfl, hlo, hhi⟩
    have hpos := (h o ho).1
    refine ⟨o, ho, ?_, ?_⟩ <;> rw [hplace] <;> omega

theorem first_mem {r : ZeroRun env} (hr : r ∈ zeroRuns os) : r.first ∈ os := by
  rw [← zeroRuns_objects os]
  exact mem_flatMap.mpr ⟨r, hr, mem_cons_self⟩

theorem links_runs (globals : List VmLabel) (rs : List (ZeroRun env)) :
    List.Forall₂ (fun c d => ∀ final i, reassignCode final globals i c = some d)
      (rs.map (·.code)) (rs.map fun r => relocate globals r.code) := by
  rw [forall₂_map_left_iff, forall₂_map_right_iff, forall₂_same]
  exact fun r _ final i => rfl

theorem FillsRight.of_madeGood (h : ∀ r ∈ zeroRuns os, MadeGood globals os r) :
    FillsRight globals os := by
  intro L g s hlast haddr
  rcases fillZeros_code os hlast with ⟨g', hgen, hcode⟩
  rcases execCode_runs L globals (zeroRuns os) s (fun r hr => (haddr _ (first_mem hr)).2) with
    ⟨t, hexec, ht, hbytes⟩
  refine ⟨g', _, _, t, hgen, hcode, links_runs globals _, hexec, ht, fun a => ?_⟩
  have hsame : (∃ r ∈ zeroRuns os, ∃ f, r.Zeroes globals f (a - frameBase L s f)) ↔
      AssignedZero globals L s os a := by
    rw [assignedZero_iff haddr]
    constructor
    · rintro ⟨r, hr, f, hb⟩
      rcases (zeroes_iff_occupies h f _).mp ⟨r, hr, hb⟩ with ⟨o, ho, hb⟩
      exact ⟨o, ho, f, hb⟩
    · rintro ⟨o, ho, f, hb⟩
      rcases (zeroes_iff_occupies h f _).mpr ⟨o, ho, hb⟩ with ⟨r, hr, hb⟩
      exact ⟨r, hr, f, hb⟩
  rw [← hsame]
  exact hbytes a

theorem exists_bound {α : Type} (f : α → Nat) (xs : List α) : ∃ m, ∀ x ∈ xs, f x ≤ m := by
  induction xs with
  | nil => exact ⟨0, by simp⟩
  | cons x xs ih =>
    rcases ih with ⟨m, hm⟩
    refine ⟨max (f x) m, fun y hy => ?_⟩
    rcases mem_cons.mp hy with rfl | hy
    · exact le_max_left _ _
    · exact (hm y hy).trans (le_max_right _ _)

theorem exists_apart (globals : List VmLabel) (os : List (ZeroObject env)) :
    ∃ s : State, ∃ m : Nat, Addressable globals { sampleLayout with stack := 0 } s os ∧
      (∀ b, s.mem b = 1) ∧ (∀ f, m ≤ frameBase { sampleLayout with stack := 0 } s f) ∧
      (∀ f f' (b b' : Int), frameBase { sampleLayout with stack := 0 } s f + b =
        frameBase { sampleLayout with stack := 0 } s f' + b' → b.natAbs ≤ m → b'.natAbs ≤ m →
          f' = f ∧ b' = b) ∧
      (∀ o ∈ os, ∀ f b, o.Occupies globals f b → b.natAbs ≤ m) ∧
      (∀ r ∈ zeroRuns os, ∀ f b, r.Zeroes globals f b → b.natAbs ≤ m) := by
  rcases exists_bound (fun o : ZeroObject env =>
    (o.place globals).natAbs + o.size + (o.target globals).natAbs) os with ⟨m₁, hm₁⟩
  rcases exists_bound (fun r : ZeroRun env => (r.first.target globals).natAbs + r.size.natAbs)
    (zeroRuns os) with ⟨m₂, hm₂⟩
  have hbase : ∀ f, frameBase { sampleLayout with stack := 0 }
      { mem := fun _ => 1, sp := 0, bp := 4 * (m₁ + m₂) + 1, gp := m₁ + m₂ } f =
        if f then ((m₁ + m₂ : Nat) : Int) else 4 * (m₁ + m₂ : Nat) + 1 := by
    intro f
    cases f <;> simp [frameBase]
  refine ⟨{ mem := fun _ => 1, sp := 0, bp := 4 * (m₁ + m₂) + 1, gp := m₁ + m₂ }, m₁ + m₂,
    ?_, fun _ => rfl, ?_, ?_, ?_, ?_⟩
  · intro o ho
    have hbound := hm₁ o ho
    rw [hbase]
    split <;> omega
  · intro f
    rw [hbase]
    split <;> omega
  · intro f f' b b' heq hb hb'
    rw [hbase, hbase] at heq
    cases f <;> cases f' <;> simp only [Bool.false_eq_true, if_true, if_false] at heq <;>
      first
        | exact ⟨rfl, by omega⟩
        | omega
  · rintro o ho f b ⟨-, hlo, hhi⟩
    have hbound := hm₁ o ho
    omega
  · rintro r hr f b ⟨-, -, hlo, hhi⟩
    have hbound := hm₂ r hr
    omega

/-- Filled right, a sequence has its runs made good. -/
theorem FillsRight.madeGood (h : FillsRight globals os) :
    ∀ r ∈ zeroRuns os, MadeGood globals os r := by
  rcases exists_apart globals os with ⟨s, m, haddr, hone, hbase, hapart, hobject, hrun⟩
  rcases h _ {} s (by simp [GenState.last, GenState.code]) haddr with
    ⟨g', code, linked, t, hgen, hcode, hlink, hexec, -, hbytes⟩
  rcases fillZeros_code (g := {}) os (by simp [GenState.last, GenState.code]) with
    ⟨g'', hgen', hcode'⟩
  rw [hgen, some.injEq] at hgen'
  subst hgen'
  rw [hcode, append_cancel_left_eq] at hcode'
  subst hcode'
  have hsame : linked = (zeroRuns os).map fun r => relocate globals r.code := by
    have hunique : Relator.RightUnique fun c d =>
        ∀ final i, reassignCode final globals i c = some d :=
      fun c d d' hd hd' => some.inj ((hd [] 0).symm.trans (hd' [] 0))
    exact hunique.forall₂ hlink (links_runs globals (zeroRuns os))
  subst hsame
  rcases execCode_runs _ globals (zeroRuns os) s (fun r hr => (haddr _ (first_mem hr)).2) with
    ⟨t', hexec', -, hbytes'⟩
  rw [hexec, some.injEq] at hexec'
  subst hexec'
  -- A byte of the memory becomes zero if it is assigned, and if an instruction hits it.
  have hzero : ∀ f (b : Int), b.natAbs ≤ m →
      ((∃ o ∈ os, o.Occupies globals f b) ↔ ∃ r ∈ zeroRuns os, r.Zeroes globals f b) := by
    intro f b hb
    have hpos := hbase f
    have hbyte : ((frameBase { sampleLayout with stack := 0 } s f + b).toNat : Int) =
        frameBase { sampleLayout with stack := 0 } s f + b :=
      Int.toNat_of_nonneg (by omega)
    have hassigned := (hbytes (frameBase { sampleLayout with stack := 0 } s f + b).toNat)
    have hhit := (hbytes' (frameBase { sampleLayout with stack := 0 } s f + b).toNat)
    rw [assignedZero_iff haddr, hbyte, hone] at hassigned
    rw [hbyte, hone] at hhit
    have hplace : ∀ f' : Bool, ∀ b' : Int, b' = frameBase { sampleLayout with stack := 0 } s f + b -
        frameBase { sampleLayout with stack := 0 } s f' → b'.natAbs ≤ m → f' = f ∧ b' = b :=
      fun f' b' hb' hbound => hapart f f' b b' (by omega) hb hbound
    constructor
    · rintro ⟨o, ho, hocc⟩
      have hcleared := hassigned.1 ⟨o, ho, f, by rwa [add_sub_cancel_left]⟩
      by_contra hnone
      rw [hhit.2] at hcleared
      · exact absurd hcleared (by decide)
      · rintro ⟨r, hr, f', hz⟩
        rcases hplace f' _ rfl (hrun r hr _ _ hz) with ⟨rfl, heq⟩
        exact hnone ⟨r, hr, heq ▸ hz⟩
    · rintro ⟨r, hr, hz⟩
      have hcleared := hhit.1 ⟨r, hr, f, by rwa [add_sub_cancel_left]⟩
      by_contra hnone
      rw [hassigned.2] at hcleared
      · exact absurd hcleared (by decide)
      · rintro ⟨o, ho, f', hocc⟩
        rcases hplace f' _ rfl (hobject o ho _ _ hocc) with ⟨rfl, heq⟩
        exact hnone ⟨o, ho, heq ▸ hocc⟩
  intro r hr
  constructor
  · intro o ho f b hb
    have hmem : o ∈ os := by
      rw [← zeroRuns_objects os]
      exact mem_flatMap.mpr ⟨r, hr, ho⟩
    exact (hzero f b (hobject o hmem f b hb)).mp ⟨o, hmem, hb⟩
  · intro f b hb
    exact (hzero f b (hrun r hr f b hb)).mpr ⟨r, hr, hb⟩

/-- A character at an offset of a local structure. -/
def sampleChar (offset : BitVec 64) : ZeroObject sampleEnv where
  var := { sampleVar 0 basicTypeChar with offset := offset }
  sym := { id := 0, name := "x", type := basicTypeChar }
  size := 1
  direct := rfl
  symbol := rfl
  complete := rfl

end Kcs.Vm
