import Kcs.Types.Table

/-!
# Runs of the type constructors

A translation unit is, for the type table, a sequence of constructor calls.
This module runs such a sequence on an empty table and records for every call
the handle it returned and the number of the entry it created, if any.

The table only grows while the reference of a handle has sixteen bits, so a run
keeps its handles apart exactly as long as it creates at most 32767 entries.

Main results:

- Theorem {lit}`handlesUnique_iff_creates_le`: handles stay unique exactly when
  the calls create at most 32767 entries.
-/

namespace Kcs

open Option List

/-! ## Constructor calls -/

/-- One call of a type constructor. -/
inductive TypeOp
  | create (tt : TypeKind)
  | pointer (next : CType)
  | function (next : CType)
  | array (next : CType) (count : Nat)
  | incomplete (next : CType)
  | vla (next : CType) (count : SymbolId)
  | copyIncomplete (type : CType)
deriving DecidableEq, Repr

/-- Perform one call. -/
def typeOpStep (types : TypeTable) : TypeOp → Option (CType × TypeTable)
  | .create tt => some (typeCreate types tt)
  | .pointer next => typeCreatePointer types next
  | .function next => typeCreateFunction types next
  | .array next count => typeCreateArray types next count
  | .incomplete next => typeCreateIncomplete types next
  | .vla next count => typeCreateVla types next count
  | .copyIncomplete type => typeCopyIncomplete types type

/-- Does the call add an entry to the table?  Only the pointer to a type that is
not a pointer is expressed by the handle alone. -/
def TypeOp.creates : TypeOp → Bool
  | .pointer next => next.isPointer
  | _ => true

/-- Outcome of one call: the returned handle and the number of the entry that
the call created. -/
structure Returned where
  handle : CType
  entry : Option Nat
deriving DecidableEq, Repr

/-- Perform a sequence of calls, {lit}`none` when one of them aborts. -/
def typeOpRun : TypeTable → List TypeOp → Option (TypeTable × List Returned)
  | types, [] => some (types, [])
  | types, op :: ops =>
    (typeOpStep types op).bind fun (handle, types') =>
      (typeOpRun types' ops).map fun (types'', rs) =>
        (types'', ⟨handle, if op.creates then some types'.length else none⟩ :: rs)

/-- Number of entries that a sequence of calls creates. -/
def creationCount (ops : List TypeOp) : Nat :=
  ops.countP TypeOp.creates

/-! ## One call -/

/-- A call either adds one entry, whose number the handle stores in its
sixteen-bit field, or leaves the table as it is. -/
theorem typeOpStep_spec {types types' : TypeTable} {op : TypeOp} {handle : CType}
    (h : typeOpStep types op = some (handle, types')) :
    (op.creates = true ∧ types'.length = types.length + 1 ∧
      handle.ref = refField (types.length + 1)) ∨
    (op.creates = false ∧ types' = types) := by
  cases op with
  | create tt =>
    simp only [typeOpStep, some.injEq] at h
    left
    have hhandle : handle = (typeCreate types tt).1 := by rw [h]
    have htypes : types' = (typeCreate types tt).2 := by rw [h]
    rw [hhandle, htypes]
    exact ⟨rfl, typeCreate_length types tt, typeCreate_ref types tt⟩
  | pointer next =>
    simp only [typeOpStep, typeCreatePointer] at h
    split at h
    · rename_i hptr
      obtain ⟨href, hlen⟩ := typeCreateWith_eq_some h
      exact Or.inl ⟨hptr, hlen, href⟩
    · rename_i hptr
      simp only [some.injEq, Prod.mk.injEq] at h
      exact Or.inr ⟨by simpa [TypeOp.creates] using hptr, h.2.symm⟩
  | function next =>
    simp only [typeOpStep, typeCreateFunction] at h
    obtain ⟨href, hlen⟩ := typeCreateWith_eq_some h
    exact Or.inl ⟨rfl, hlen, href⟩
  | array next count =>
    simp only [typeOpStep] at h
    obtain ⟨href, hlen⟩ := typeCreateArray_eq_some h
    exact Or.inl ⟨rfl, hlen, href⟩
  | incomplete next =>
    simp only [typeOpStep, typeCreateIncomplete] at h
    obtain ⟨href, hlen⟩ := typeCreateWith_eq_some h
    exact Or.inl ⟨rfl, hlen, href⟩
  | vla next count =>
    simp only [typeOpStep, typeCreateVla, bind_eq_some_iff, map_eq_some_iff,
      Prod.exists, Prod.mk.injEq] at h
    obtain ⟨type, types₁, harray, t, -, types₂, hset, rfl, rfl⟩ := h
    obtain ⟨href, hlen⟩ := typeCreateArray_eq_some harray
    exact Or.inl ⟨rfl, by rw [setTypetree_length hset, hlen], href⟩
  | copyIncomplete type =>
    simp only [typeOpStep, typeCopyIncomplete, bind_eq_some_iff,
      map_eq_some_iff, Prod.mk.injEq] at h
    obtain ⟨tb, -, tn, -, types₂, hset, hhandle, rfl⟩ := h
    have hlen := setTypetree_length hset
    rw [typeCreate_length] at hlen
    refine Or.inl ⟨rfl, hlen, ?_⟩
    have href : handle.ref = (typeCreate types type.type).1.ref := by rw [← hhandle]
    rw [href, typeCreate_ref]

/-! ## Whole runs -/

/-- What a run started on `types` leaves: the table has grown by the number of
creating calls, each record of a creating call stores the number of its entry
cut to sixteen bits, and every new entry has a record. -/
structure RunRecorded (types : TypeTable) (ops : List TypeOp) (types' : TypeTable)
    (rs : List Returned) : Prop where
  length_eq : types'.length = types.length + creationCount ops
  ref_eq : ∀ r ∈ rs, ∀ n, r.entry = some n →
    types.length < n ∧ n ≤ types'.length ∧ r.handle.ref = refField n
  recorded : ∀ n, types.length < n → n ≤ types'.length → ∃ r ∈ rs, r.entry = some n

theorem typeOpRun_spec {types types' : TypeTable} {ops : List TypeOp} {rs : List Returned}
    (h : typeOpRun types ops = some (types', rs)) : RunRecorded types ops types' rs := by
  induction ops generalizing types types' rs with
  | nil =>
    simp only [typeOpRun, some.injEq, Prod.mk.injEq] at h
    obtain ⟨rfl, rfl⟩ := h
    refine ⟨by simp [creationCount], by simp, ?_⟩
    intro n hlt hle
    omega
  | cons op ops ih =>
    simp only [typeOpRun, bind_eq_some_iff, map_eq_some_iff, Prod.exists, Prod.mk.injEq] at h
    obtain ⟨handle, types₁, hstep, types₂, rs₁, hrun, rfl, rfl⟩ := h
    have hrest := ih hrun
    obtain ⟨hcreates, hlen, href⟩ | ⟨hcreates, rfl⟩ := typeOpStep_spec hstep
    · -- the call adds the entry with number `types.length + 1`
      have htotal := hrest.length_eq
      refine ⟨?_, ?_, ?_⟩
      · simp only [creationCount, countP_cons, hcreates, if_true] at htotal ⊢
        omega
      · intro r hr n hn
        rcases mem_cons.mp hr with rfl | hr
        · simp only [hcreates, if_true, some.injEq] at hn
          subst hn
          rw [hlen]
          exact ⟨by omega, by omega, href⟩
        · obtain ⟨hlo, hhi, hrn⟩ := hrest.ref_eq r hr n hn
          exact ⟨by omega, hhi, hrn⟩
      · intro n hlo hhi
        by_cases hn : n = types₁.length
        · exact ⟨_, mem_cons_self, by simp [hcreates, hn]⟩
        · obtain ⟨r, hr, hrn⟩ := hrest.recorded n (by omega) hhi
          exact ⟨r, mem_cons_of_mem _ hr, hrn⟩
    · refine ⟨?_, ?_, ?_⟩
      · simpa [creationCount, hcreates] using hrest.length_eq
      · intro r hr n hn
        rcases mem_cons.mp hr with rfl | hr
        · simp [hcreates] at hn
        · exact hrest.ref_eq r hr n hn
      · intro n hlo hhi
        obtain ⟨r, hr, hrn⟩ := hrest.recorded n hlo hhi
        exact ⟨r, mem_cons_of_mem _ hr, hrn⟩

/-! ## Uniqueness -/

/-- Every returned handle with a non-zero reference designates the entry created
for it, and the handles of distinct entries have distinct references. -/
structure HandlesUnique (types : TypeTable) (rs : List Returned) : Prop where
  designates : ∀ r ∈ rs, ∀ n, r.entry = some n → r.handle.ref ≠ 0 →
    typetreeIndex types r.handle.ref = some (n - 1)
  distinct : ∀ r ∈ rs, ∀ s ∈ rs, ∀ n m, r.entry = some n → s.entry = some m → n ≠ m →
    r.handle.ref ≠ s.handle.ref

theorem RunRecorded.handlesUnique {ops : List TypeOp} {types : TypeTable}
    {rs : List Returned} (h : RunRecorded [] ops types rs) (hle : types.length ≤ 32767) :
    HandlesUnique types rs := by
  have hself : ∀ r ∈ rs, ∀ n, r.entry = some n →
      0 < n ∧ n ≤ types.length ∧ r.handle.ref = (n : Int) := by
    intro r hr n hn
    obtain ⟨hlo, hhi, href⟩ := h.ref_eq r hr n hn
    rw [refField_of_le (by omega)] at href
    exact ⟨by simpa using hlo, hhi, href⟩
  refine ⟨?_, ?_⟩
  · intro r hr n hn _
    obtain ⟨hpos, hhi, href⟩ := hself r hr n hn
    rw [typetreeIndex_eq_some_iff, href]
    omega
  · intro r hr s hs n m hn hm hne heq
    obtain ⟨-, -, hrn⟩ := hself r hr n hn
    obtain ⟨-, -, hsm⟩ := hself s hs m hm
    omega

theorem RunRecorded.not_handlesUnique {ops : List TypeOp} {types : TypeTable}
    {rs : List Returned} (h : RunRecorded [] ops types rs) (hlt : 32767 < types.length) :
    ¬ HandlesUnique types rs := by
  intro hunique
  obtain ⟨r, hr, hentry⟩ := h.recorded 32768 (by simp) (by omega)
  obtain ⟨-, -, href⟩ := h.ref_eq r hr 32768 hentry
  rw [refField_first_lost] at href
  have hindex := hunique.designates r hr 32768 hentry (by rw [href]; decide)
  rw [href, typetreeIndex_eq_some_iff] at hindex
  omega

/-- Handles stay unique over a run of constructor calls exactly when the calls
create at most 32767 entries. -/
theorem handlesUnique_iff_creates_le {ops : List TypeOp} {types : TypeTable}
    {rs : List Returned} (h : typeOpRun [] ops = some (types, rs)) :
    HandlesUnique types rs ↔ creationCount ops ≤ 32767 := by
  have hrun := typeOpRun_spec h
  have hlen : types.length = creationCount ops := by simpa using hrun.length_eq
  constructor
  · intro hunique
    by_contra hgt
    exact hrun.not_handlesUnique (by omega) hunique
  · intro hle
    exact hrun.handlesUnique (by omega)

/-- A struct, a function, a pointer to a pointer and an array: four entries, all
with handles of their own. -/
theorem handlesUnique_four_types :
    ∃ types rs,
      typeOpRun []
        [.create .struct, .function basicTypeInt,
          .pointer { basicTypeChar with isPointer := true }, .array basicTypeLong 3]
        = some (types, rs) ∧ HandlesUnique types rs := by
  have hsome : (typeOpRun []
      [.create .struct, .function basicTypeInt,
        .pointer { basicTypeChar with isPointer := true }, .array basicTypeLong 3]).isSome := by
    decide
  obtain ⟨⟨types, rs⟩, hrun⟩ := isSome_iff_exists.mp hsome
  exact ⟨types, rs, hrun, (handlesUnique_iff_creates_le hrun).mpr (by decide)⟩

theorem typeOpRun_replicate_create (n : Nat) (types : TypeTable) (tt : TypeKind) :
    ∃ types' rs, typeOpRun types (List.replicate n (.create tt)) = some (types', rs) := by
  induction n generalizing types with
  | zero => exact ⟨types, [], rfl⟩
  | succ n ih =>
    obtain ⟨types', rs, hrun⟩ := ih (typeCreate types tt).2
    simp only [replicate_succ, typeOpRun, typeOpStep, bind_some, hrun,
      map_some, some.injEq, Prod.mk.injEq, exists_and_left, exists_eq_left']
    exact ⟨_, rfl⟩

theorem creationCount_replicate_create (n : Nat) (tt : TypeKind) :
    creationCount (List.replicate n (.create tt)) = n := by
  simp [creationCount, countP_replicate, TypeOp.creates]

/-- After 32768 calls of `type_create(T_STRUCT)` the last handle designates no
entry of the table. -/
theorem handles_lost_after_32768_structs :
    ∃ types rs,
      typeOpRun [] (List.replicate 32768 (.create .struct)) = some (types, rs) ∧
        ¬ HandlesUnique types rs := by
  obtain ⟨types, rs, hrun⟩ := typeOpRun_replicate_create 32768 [] .struct
  have hrecorded := typeOpRun_spec hrun
  have hlen := hrecorded.length_eq
  rw [creationCount_replicate_create, length_nil] at hlen
  exact ⟨types, rs, hrun, hrecorded.not_handlesUnique (by omega)⟩

end Kcs
