import Kcs.Vm.Code

/-!
# Generated names

Temporaries, unnamed objects, labels, constants, strings and jump tables are
named by a prefix and a number (`sym_create_*` and `sym_name` in
`symtab.c`).  Every kind has a counter of its own that is never reset, and the
symbol keeps the number in a field of 16 bits.  The back-end for the virtual
machine writes the printed names of the labels it emits into one list and
resolves every jump by the first entry of that name (`get_vm_label` in
`vminstr.c`).

Main results:

- Theorem {lit}`label_names_unique_iff`: over a whole translation unit, the names
  of labels are distinct and every jump finds the block it was made for exactly
  when at most 65536 labels are created.
-/

namespace Kcs

open Option List

/-! ## Symbols with a tag -/

/-- The kinds of symbols that the compiler names itself. -/
inductive Generated
  | temporary
  | unnamed
  | label
  | constant
  | string
  | table
deriving DecidableEq, Repr

/-- `PREFIX_TEMPORARY` and the other prefixes of `symtab.c`. -/
def Generated.namePrefix : Generated → String
  | .temporary => ".t"
  | .unnamed => ".u"
  | .label => ".L"
  | .constant => ".C"
  | .string => ".LC"
  | .table => ".T"

/-- Value held by `int16_t n` after a counter is assigned to it. -/
def tagField (n : Nat) : Int :=
  Int.bmod n 65536

/-- The part of `struct symbol` that is printed. -/
structure NamedSymbol where
  name : String
  n : Int := 0
deriving DecidableEq, Repr

/-- `sym_name`; the program ends with an error when a long name needs a number. -/
def symName (sym : NamedSymbol) : Option String :=
  if sym.n = 0 then some sym.name
  else if 100 < sym.name.utf8ByteSize then none
  else if sym.name.toList.head? = some '.' then some (sym.name ++ sym.n.repr)
  else some (sym.name ++ "." ++ sym.n.repr)

/-- Symbol that `sym_create_label` and its siblings return at the given value of
their counter. -/
def generatedSymbol (kind : Generated) (n : Nat) : NamedSymbol :=
  { name := kind.namePrefix, n := tagField n }

theorem tagField_add_period (n : Nat) : tagField (n + 65536) = tagField n := by
  unfold tagField
  push_cast
  exact_mod_cast Int.add_bmod_right (n : Int) 65536

theorem tagField_injOn {m n : Nat} (hm : m < n) (hn : n < m + 65536) :
    tagField m ≠ tagField n := by
  intro h
  have hmod : (m : Int) % 65536 = (n : Int) % 65536 := by
    have hm : tagField m % 65536 = (m : Int) % 65536 :=
      Int.bmod_emod (x := (m : Int)) (m := 65536)
    have hn : tagField n % 65536 = (n : Int) % 65536 :=
      Int.bmod_emod (x := (n : Int)) (m := 65536)
    rw [← hm, ← hn, h]
  omega

theorem symName_label (n : Nat) :
    symName (generatedSymbol .label n) =
      some (if tagField n = 0 then ".L" else ".L" ++ (tagField n).repr) := by
  unfold symName generatedSymbol Generated.namePrefix
  by_cases h : tagField n = 0
  · simp [h]
  · have hlen : ¬ 100 < (".L" : String).utf8ByteSize := by decide
    simp [h, hlen]

theorem repr_ne_empty (n : Int) : n.repr ≠ "" := by
  rw [Int.repr_eq_if]
  split
  · exact Nat.repr_ne_empty
  · intro h
    have hlen := congrArg String.length h
    simp at hlen

theorem symName_label_inj {m n : Nat}
    (h : symName (generatedSymbol .label m) = symName (generatedSymbol .label n)) :
    tagField m = tagField n := by
  rw [symName_label, symName_label, some.injEq] at h
  have hne (k : Int) : ".L" ≠ ".L" ++ k.repr := by
    intro heq
    have hlen := congrArg String.length heq
    have hempty := repr_ne_empty k
    simp at hlen
    exact hempty hlen
  by_cases hm : tagField m = 0
  · by_cases hn : tagField n = 0
    · rw [hm, hn]
    · rw [if_pos hm, if_neg hn] at h
      exact absurd h (hne _)
  · by_cases hn : tagField n = 0
    · rw [if_neg hm, if_pos hn] at h
      exact absurd h.symm (hne _)
    · rw [if_neg hm, if_neg hn, String.append_right_inj, Int.repr_inj] at h
      exact h

theorem symName_label_dot {n : Nat} {name : String}
    (h : symName (generatedSymbol .label n) = some name) : name.toList.head? = some '.' := by
  rw [symName_label, some.injEq] at h
  subst h
  split
  · decide
  · simp

/-! ## A translation unit -/

/-- The compiler as far as names go.  Symbols are reused after `sym_discard`, but
their contents are cleared first, so a symbol is what one call of
`sym_create_*` returned. -/
structure NameState where
  /-- The counters `static int n`. -/
  counter : Generated → Nat := fun _ => 0
  /-- The counter of scoped static variables in `sym_add`. -/
  statics : Nat := 0
  /-- Label symbols, in the order of their creation. -/
  labels : List NamedSymbol := []
  /-- `vm_ctx.labels` -/
  vmLabels : List VmLabel := []
  /-- The instructions `VM_LABEL` emitted for blocks: the label symbol of the
  block and the entry of `vm_ctx.labels` that the instruction refers to. -/
  blocks : List (Nat × Nat) := []

/-- What happens to names during a translation unit. -/
inductive NameEvent
  /-- A call of one of the functions `sym_create_*`. -/
  | create (kind : Generated)
  /-- A scoped static variable gets a number. -/
  | scopedStatic
  /-- `vm_func_enter` emits the label of a function. -/
  | function (name : String)
  /-- `vm_gen_node` emits the label of a block. -/
  | block (label : Nat)
deriving DecidableEq, Repr

/-- `emit_vm_label` -/
def emitVmLabel (labels : List VmLabel) (name : String) : List VmLabel :=
  labels ++ [{ name := name }]

/-- One event.  Names of functions are identifiers, and a block is emitted once,
since it is coloured. -/
def nameStep (s : NameState) : NameEvent → Option NameState
  | .create kind =>
    let n := s.counter kind + 1
    let counter := Function.update s.counter kind n
    some { s with
      counter := counter
      labels := if kind = .label then s.labels ++ [generatedSymbol kind n] else s.labels }
  | .scopedStatic => some { s with statics := s.statics + 1 }
  | .function name =>
    if name.toList.head? = some '.' then none
    else some { s with vmLabels := emitVmLabel s.vmLabels name }
  | .block i =>
    if s.blocks.any (·.1 = i) then none
    else
      (s.labels[i]?).bind fun sym =>
        (symName sym).map fun name =>
          { s with
            vmLabels := emitVmLabel s.vmLabels name
            blocks := s.blocks ++ [(i, s.vmLabels.length)] }

/-- A run. -/
def nameRun (s : NameState) (events : List NameEvent) : Option NameState :=
  events.foldlM nameStep s

/-- The state after `vm_init`: built-in functions and the two start labels are
in the list. -/
def nameInit (builtins : List String) : NameState :=
  { vmLabels := builtins.map (fun name => { name := name }) }

/-- Distinct label symbols have distinct printed names. -/
def UniqueNames (s : NameState) : Prop :=
  ∀ (i j : Nat) x y, i < j → s.labels[i]? = some x → s.labels[j]? = some y → symName x ≠ symName y

/-- Looking up the name of a block finds the label emitted for that block. -/
def JumpsConnected (s : NameState) : Prop :=
  ∀ i p, (i, p) ∈ s.blocks → ∃ x name, s.labels[i]? = some x ∧ symName x = some name ∧
    getVmLabel s.vmLabels name = some p

/-! ## What every run keeps -/

/-- What holds of the names after any sequence of events. -/
structure NameInv (s : NameState) : Prop where
  /-- Labels are numbered in the order of their creation. -/
  labels_eq : ∀ i : Nat, i < s.labels.length → s.labels[i]? = some (generatedSymbol .label (i + 1))
  /-- The counter is the number of labels. -/
  counter_eq : s.counter .label = s.labels.length
  /-- A block that was emitted has a label, and its entry carries the name. -/
  block_entry : ∀ i p, (i, p) ∈ s.blocks → ∃ x name, s.labels[i]? = some x ∧
    symName x = some name ∧ s.vmLabels[p]? = some { name := name }
  /-- An entry whose name starts with a dot belongs to a block. -/
  entry_block : ∀ (p : Nat) label, s.vmLabels[p]? = some label →
    label.name.toList.head? = some '.' → ∃ i, (i, p) ∈ s.blocks
  /-- No block is emitted twice. -/
  block_inj : ∀ i p q, (i, p) ∈ s.blocks → (i, q) ∈ s.blocks → p = q

theorem nameInv_init {builtins : List String}
    (h : ∀ name ∈ builtins, name.toList.head? ≠ some '.') : NameInv (nameInit builtins) where
  labels_eq := by simp [nameInit]
  counter_eq := rfl
  block_entry := by simp [nameInit]
  entry_block := by
    intro p label hp hdot
    simp only [nameInit, getElem?_map, map_eq_some_iff] at hp
    rcases hp with ⟨name, hname, rfl⟩
    exact absurd hdot (h name (mem_of_getElem? hname))
  block_inj := by simp [nameInit]

variable {s t : NameState}

theorem NameInv.create {kind : Generated} (hs : NameInv s)
    (h : nameStep s (.create kind) = some t) : NameInv t := by
  simp only [nameStep, some.injEq] at h
  subst h
  by_cases hkind : kind = .label
  · subst hkind
    constructor
    · intro i hi
      simp only [if_true, length_append, length_singleton] at hi ⊢
      by_cases hlast : i < s.labels.length
      · rw [getElem?_append_left hlast]
        exact hs.labels_eq i hlast
      · have hi' : i = s.labels.length := by omega
        rw [getElem?_append_right (by omega), hi', Nat.sub_self, hs.counter_eq]
        rfl
    · simp [hs.counter_eq]
    · intro i p hp
      rcases hs.block_entry i p hp with ⟨x, name, hx, hname, hentry⟩
      have hi : i < s.labels.length := (List.getElem?_eq_some_iff.mp hx).1
      refine ⟨x, name, ?_, hname, hentry⟩
      simpa [getElem?_append_left hi] using hx
    · exact hs.entry_block
    · exact hs.block_inj
  · have hcounter : Function.update s.counter kind (s.counter kind + 1) .label = s.counter .label :=
      Function.update_of_ne (Ne.symm hkind) _ _
    constructor
    · simpa [hkind] using hs.labels_eq
    · simpa [hkind, hcounter] using hs.counter_eq
    · simpa [hkind] using hs.block_entry
    · exact hs.entry_block
    · exact hs.block_inj

theorem NameInv.function {name : String} (hs : NameInv s)
    (h : nameStep s (.function name) = some t) : NameInv t := by
  simp only [nameStep] at h
  split at h
  · cases h
  · rename_i hdot
    simp only [some.injEq] at h
    subst h
    refine ⟨hs.labels_eq, hs.counter_eq, ?_, ?_, hs.block_inj⟩
    · intro i p hp
      rcases hs.block_entry i p hp with ⟨x, n, hx, hn, hentry⟩
      have hp : p < s.vmLabels.length := (List.getElem?_eq_some_iff.mp hentry).1
      exact ⟨x, n, hx, hn, by simpa [emitVmLabel, getElem?_append_left hp] using hentry⟩
    · intro p label hp hlabel
      by_cases hlt : p < s.vmLabels.length
      · apply hs.entry_block p label _ hlabel
        simpa [emitVmLabel, getElem?_append_left hlt] using hp
      · have hlabel' : label.name = name := by
          simp only [emitVmLabel, getElem?_append_right (Nat.le_of_not_lt hlt)] at hp
          have hmem := mem_of_getElem? hp
          simp only [mem_singleton] at hmem
          rw [hmem]
        exact absurd (hlabel' ▸ hlabel) hdot

theorem NameInv.block {i : Nat} (hs : NameInv s)
    (h : nameStep s (.block i) = some t) : NameInv t := by
  simp only [nameStep] at h
  split at h
  · cases h
  · rename_i hfresh
    simp only [bind_eq_some_iff, map_eq_some_iff] at h
    rcases h with ⟨sym, hsym, name, hname, rfl⟩
    have hnew : ∀ p, (i, p) ∉ s.blocks := by
      intro p hp
      apply hfresh
      rw [List.any_eq_true]
      exact ⟨(i, p), hp, by simp⟩
    refine ⟨hs.labels_eq, hs.counter_eq, ?_, ?_, ?_⟩
    · intro j p hp
      simp only [mem_append, mem_singleton, Prod.mk.injEq] at hp
      rcases hp with hp | ⟨rfl, rfl⟩
      · rcases hs.block_entry j p hp with ⟨x, n, hx, hn, hentry⟩
        have hp : p < s.vmLabels.length := (List.getElem?_eq_some_iff.mp hentry).1
        exact ⟨x, n, hx, hn, by simpa [emitVmLabel, getElem?_append_left hp] using hentry⟩
      · exact ⟨sym, name, hsym, hname, by simp [emitVmLabel]⟩
    · intro p label hp hlabel
      by_cases hlt : p < s.vmLabels.length
      · have hold : s.vmLabels[p]? = some label := by
          simpa [emitVmLabel, getElem?_append_left hlt] using hp
        rcases hs.entry_block p label hold hlabel with ⟨j, hj⟩
        exact ⟨j, mem_append_left _ hj⟩
      · have hle : p < s.vmLabels.length + 1 := by
          simpa [emitVmLabel] using (List.getElem?_eq_some_iff.mp hp).1
        have hpos : p = s.vmLabels.length := by omega
        exact ⟨i, by simp [hpos]⟩
    · intro j p q hp hq
      simp only [mem_append, mem_singleton, Prod.mk.injEq] at hp hq
      rcases hp with hp | ⟨rfl, rfl⟩
      · rcases hq with hq | ⟨rfl, rfl⟩
        · exact hs.block_inj j p q hp hq
        · exact absurd hp (hnew p)
      · rcases hq with hq | ⟨-, rfl⟩
        · exact absurd hq (hnew q)
        · rfl

theorem NameInv.step {e : NameEvent} (hs : NameInv s)
    (h : nameStep s e = some t) : NameInv t := by
  cases e with
  | create kind => exact hs.create h
  | scopedStatic =>
    simp only [nameStep, some.injEq] at h
    subst h
    exact ⟨hs.labels_eq, hs.counter_eq, hs.block_entry, hs.entry_block, hs.block_inj⟩
  | function name => exact hs.function h
  | block i => exact hs.block h

theorem NameInv.run {events : List NameEvent} (hs : NameInv s)
    (h : nameRun s events = some t) : NameInv t := by
  induction events generalizing s with
  | nil =>
    simp only [nameRun, foldlM_nil, Option.pure_def, some.injEq] at h
    exact h ▸ hs
  | cons e events ih =>
    simp only [nameRun, foldlM_cons, bind_eq_bind, bind_eq_some_iff] at h
    rcases h with ⟨u, hu, hrest⟩
    exact ih (hs.step hu) hrest

theorem nameStep_labels_length {e : NameEvent} (h : nameStep s e = some t) :
    t.labels.length = s.labels.length + if e = .create .label then 1 else 0 := by
  cases e with
  | create kind =>
    simp only [nameStep, some.injEq] at h
    subst h
    by_cases hkind : kind = .label <;> simp [hkind]
  | scopedStatic =>
    simp only [nameStep, some.injEq] at h
    subst h
    rfl
  | function name =>
    simp only [nameStep] at h
    split at h
    · cases h
    · simp only [some.injEq] at h
      subst h
      rfl
  | block i =>
    simp only [nameStep] at h
    split at h
    · cases h
    · simp only [bind_eq_some_iff, map_eq_some_iff] at h
      rcases h with ⟨sym, hsym, name, hname, rfl⟩
      rfl

theorem nameRun_labels_length {events : List NameEvent}
    (h : nameRun s events = some t) :
    t.labels.length = s.labels.length + events.count (.create .label) := by
  induction events generalizing s with
  | nil =>
    simp only [nameRun, foldlM_nil, Option.pure_def, some.injEq] at h
    simp [h]
  | cons e events ih =>
    simp only [nameRun, foldlM_cons, bind_eq_bind, bind_eq_some_iff] at h
    rcases h with ⟨u, hu, hrest⟩
    rw [ih hrest, nameStep_labels_length hu, count_cons]
    by_cases he : e = .create .label
    · simp [he]
      omega
    · simp [he]

/-! ## Uniqueness -/

theorem NameInv.uniqueNames (hs : NameInv s) (hle : s.labels.length ≤ 65536) :
    UniqueNames s := by
  intro i j x y hij hx hy heq
  have hj : j < s.labels.length := (List.getElem?_eq_some_iff.mp hy).1
  rw [hs.labels_eq i (by omega), some.injEq] at hx
  rw [hs.labels_eq j hj, some.injEq] at hy
  subst hx hy
  exact tagField_injOn (by omega) (by omega) (symName_label_inj heq)

theorem NameInv.not_uniqueNames (hs : NameInv s) (hlt : 65536 < s.labels.length) :
    ¬ UniqueNames s := by
  intro huniq
  have hfirst := hs.labels_eq 0 (by omega)
  have hlast := hs.labels_eq 65536 hlt
  apply huniq 0 65536 _ _ (by omega) hfirst hlast
  have htag : tagField (65536 + 1) = tagField (0 + 1) := by
    rw [Nat.add_comm 65536 1]
    exact tagField_add_period 1
  rw [symName_label, symName_label, htag]

theorem NameInv.jumpsConnected (hs : NameInv s) (huniq : UniqueNames s) :
    JumpsConnected s := by
  intro i p hp
  rcases hs.block_entry i p hp with ⟨x, name, hx, hname, hentry⟩
  refine ⟨x, name, hx, hname, ?_⟩
  rw [getVmLabel_eq_some_iff]
  refine ⟨⟨_, hentry, rfl⟩, ?_⟩
  intro q label hq hlabel heq
  -- An earlier entry of that name would belong to another block.
  have hi : i < s.labels.length := (List.getElem?_eq_some_iff.mp hx).1
  have hxgen : x = generatedSymbol .label (i + 1) := by
    rw [hs.labels_eq i hi, some.injEq] at hx
    exact hx.symm
  have hdot : label.name.toList.head? = some '.' := by
    rw [heq]
    exact symName_label_dot (hxgen ▸ hname)
  rcases hs.entry_block q label hlabel hdot with ⟨j, hj⟩
  rcases hs.block_entry j q hj with ⟨y, name', hy, hname', hentry'⟩
  have hsame : symName x = symName y := by
    rw [hlabel, some.injEq] at hentry'
    rw [hname, hname', ← heq, hentry']
  rcases Nat.lt_trichotomy i j with hij | hij | hij
  · exact huniq i j x y hij hx hy hsame
  · subst hij
    have hpq := hs.block_inj i p q hp hj
    omega
  · exact huniq j i y x hij hy hx hsame.symm

/-- Over a whole translation unit, distinct labels have distinct names and every
jump by name finds the block it was made for, exactly when at most 65536 labels
are created. -/
theorem label_names_unique_iff (builtins : List String) (events : List NameEvent) (s : NameState)
    (hbuiltins : ∀ name ∈ builtins, name.toList.head? ≠ some '.')
    (hrun : nameRun (nameInit builtins) events = some s) :
    (UniqueNames s ∧ JumpsConnected s) ↔ events.count (.create .label) ≤ 65536 := by
  have hinv := (nameInv_init hbuiltins).run hrun
  have hlen : s.labels.length = events.count (.create .label) := by
    rw [nameRun_labels_length hrun]
    simp [nameInit]
  rw [← hlen]
  constructor
  · rintro ⟨huniq, -⟩
    by_contra hlt
    exact hinv.not_uniqueNames (by omega) huniq
  · intro hle
    have huniq := hinv.uniqueNames hle
    exact ⟨huniq, hinv.jumpsConnected huniq⟩

/-- A unit with one function of one block. -/
theorem label_names_unique_main :
    let events : List NameEvent := [.create .temporary, .create .label, .function "main", .block 0]
    ∃ s, nameRun (nameInit ["printf", "_startup", "_setup_global"]) events = some s ∧
      UniqueNames s ∧ JumpsConnected s := by
  intro events
  have hbuiltins : ∀ name ∈ ["printf", "_startup", "_setup_global"],
      name.toList.head? ≠ some '.' := by decide
  have hrun : (nameRun (nameInit ["printf", "_startup", "_setup_global"]) events).isSome := by
    decide
  rcases isSome_iff_exists.mp hrun with ⟨s, hs⟩
  exact ⟨s, hs, (label_names_unique_iff _ events s hbuiltins hs).mpr (by decide)⟩

theorem nameRun_replicate_create (kind : Generated) (n : Nat) (s : NameState) :
    ∃ t, nameRun s (List.replicate n (.create kind)) = some t ∧ t.vmLabels = s.vmLabels ∧
      t.blocks = s.blocks := by
  induction n generalizing s with
  | zero => exact ⟨s, rfl, rfl, rfl⟩
  | succ n ih =>
    rcases ih _ with ⟨t, hrun, hlabels, hblocks⟩
    exact ⟨t, hrun, hlabels, hblocks⟩

/-- In a unit of 65537 blocks the last block has the name of the first, and a
jump to it leads to the first. -/
theorem label_name_repeats :
    ∃ s, nameRun (nameInit []) (List.replicate 65537 (.create .label) ++
        [.block 0, .block 65536]) = some s ∧ ¬ UniqueNames s ∧ ¬ JumpsConnected s := by
  rcases nameRun_replicate_create .label 65537 (nameInit []) with ⟨t, hrun, hvm, hblocks⟩
  have hinv : NameInv t := (nameInv_init (by simp)).run hrun
  have hlen : t.labels.length = 65537 := by
    rw [nameRun_labels_length hrun, count_replicate_self, nameInit, length_nil]
  have hfirst := hinv.labels_eq 0 (by omega)
  have hlast := hinv.labels_eq 65536 (by omega)
  have htag : tagField (65536 + 1) = 1 := by decide
  have hname : symName (generatedSymbol .label (0 + 1)) = some ".L1" := by decide
  have hname' : symName (generatedSymbol .label (65536 + 1)) = some ".L1" := by
    rw [symName_label, htag]
    decide
  have hvm' : t.vmLabels = [] := hvm
  have hblocks' : t.blocks = [] := hblocks
  refine ⟨{ t with
    vmLabels := [{ name := ".L1" }, { name := ".L1" }], blocks := [(0, 0), (65536, 1)] }, ?_, ?_, ?_⟩
  · unfold nameRun at hrun ⊢
    rw [foldlM_append, hrun]
    simp [nameStep, hfirst, hlast, hname, hname', hvm', hblocks', emitVmLabel]
  · intro huniq
    exact huniq 0 65536 _ _ (by omega) hfirst hlast (hname.trans hname'.symm)
  · intro hjumps
    rcases hjumps 65536 1 (by simp) with ⟨x, name, hx, hxname, hfound⟩
    simp only [hlast, some.injEq] at hx
    subst hx
    rw [hname', some.injEq] at hxname
    subst hxname
    have hother : getVmLabel [{ name := ".L1" }, { name := ".L1" }] ".L1" ≠ some 1 := by decide
    exact hother hfound

end Kcs
