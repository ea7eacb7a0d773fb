import Kcs.Types.Uniqueness

/-!
# Pointer types

A pointer to a type that is no pointer is a flag of the handle.  The pointer to a pointer takes an
entry of the type table, that keeps the target without its flag and the qualifiers of the pointer.

Main results:

- Theorem {lit}`typeDeref_typeCreatePointer_iff`: when the pointer to a type leads back to it.
-/

namespace Kcs

open Option

/-! ## Pointer types -/

section PointerTypes

variable {types types' : TypeTable} {t p : CType}

/-- Qualifiers of pointers are those of handles with the pointer flag. -/
structure CType.Proper (t : CType) : Prop where
  isPointerConst : t.isPointer = false → t.isPointerConst = false
  isPointerVolatile : t.isPointer = false → t.isPointerVolatile = false
  isPointerRestrict : t.isPointer = false → t.isPointerRestrict = false

theorem getTypetreeHandle_append (types : TypeTable) (e : Typetree) :
    getTypetreeHandle (types ++ [e]) (types.length + 1) = some e := by
  have hindex : typetreeIndex (types ++ [e]) (types.length + 1) = some types.length :=
    typetreeIndex_eq_some_iff.mpr ⟨rfl, by simp⟩
  simp [getTypetreeHandle, hindex]

theorem typeCreateWith_eq (hroom : types.length < 32767) (kind : TypeKind)
    (fill : Typetree → Typetree) :
    typeCreateWith types kind fill =
      some ({ type := kind, ref := types.length + 1 }, types ++ [fill { type := kind }]) := by
  have href : refField (types.length + 1) = types.length + 1 := by
    rw [refField_of_le (by omega)]
    push_cast
    ring
  have hindex : typetreeIndex (types ++ [{ type := kind }]) (types.length + 1) =
      some types.length :=
    typetreeIndex_eq_some_iff.mpr ⟨rfl, by simp⟩
  simp [typeCreateWith, typeCreate, href, getTypetreeHandle, setTypetree, hindex]

theorem isPointerType_of_typeCreatePointer (h : typeCreatePointer types t = some (p, types')) :
    p.isPointerType = true := by
  unfold typeCreatePointer at h
  split at h
  · simp only [typeCreateWith, typeCreate, bind_eq_some_iff, map_eq_some_iff, Prod.mk.injEq] at h
    rcases h with ⟨-, -, -, -, rfl, -⟩
    simp [CType.isPointerType, CType.typeOf]
  · rw [some.injEq, Prod.mk.injEq] at h
    rw [← h.1]
    simp [CType.isPointerType]

/-- A type whose pointer leads back to it. -/
def KeepsType (types : TypeTable) (t : CType) : Prop :=
  ∃ p types', typeCreatePointer types t = some (p, types') ∧ typeDeref types' p = some t

theorem keepsType_of_room (ht : t.Proper)
    (hpointer : t.isPointer = true → t.isPointerRestrict = false ∧ types.length < 32767) :
    KeepsType types t := by
  cases hflag : t.isPointer with
  | false =>
    refine ⟨{ t with isPointer := true }, types, by simp [typeCreatePointer, hflag], ?_⟩
    have h1 := ht.isPointerConst hflag
    have h2 := ht.isPointerVolatile hflag
    have h3 := ht.isPointerRestrict hflag
    simp only [typeDeref, CType.isPointerType, CType.typeOf, if_true, decide_true, removeQualifiers]
    cases t
    simp_all
  | true =>
    rcases hpointer hflag with ⟨hrestrict, hroom⟩
    refine ⟨_, _, by rw [typeCreatePointer, if_pos hflag]; exact typeCreateWith_eq hroom _ _, ?_⟩
    simp only [typeDeref, CType.isPointerType, CType.typeOf, Bool.false_eq_true, if_false,
      decide_true, if_true, getTypeHandle, getTypetreeHandle_append, bind_some,
      removeQualifiers, hflag, CType.isConstType, CType.isVolatileType]
    cases t
    simp_all

theorem typeCreateWith_full (hlo : 32767 ≤ types.length) (hhi : types.length < 65536)
    (kind : TypeKind) (fill : Typetree → Typetree) : typeCreateWith types kind fill = none := by
  have href : refField (types.length + 1) ≤ 0 := by
    have hlow : ∀ x : Int, 32768 ≤ x → x ≤ 65536 → Int.bmod x 65536 ≤ 0 := by
      intro x h1 h2
      rw [Int.bmod_def]
      push_cast
      split_ifs <;> omega
    exact hlow _ (by push_cast; omega) (by push_cast; omega)
  have hindex : typetreeIndex (types ++ [{ type := kind }]) (refField (types.length + 1)) = none :=
    if_neg fun h => absurd h.1 (not_lt.mpr href)
  simp [typeCreateWith, typeCreate, getTypetreeHandle, hindex]

/-- There is room for the pointer to a type: a pointer to a pointer takes an entry. -/
def RoomForPointer (types : TypeTable) (t : CType) : Prop :=
  t.isPointer = true → types.length < 32767

theorem typeCreatePointer_ne_none_iff (hlen : types.length < 65536) :
    typeCreatePointer types t ≠ none ↔ RoomForPointer types t := by
  unfold typeCreatePointer RoomForPointer
  cases hflag : t.isPointer with
  | false =>
    rw [if_neg Bool.false_ne_true]
    exact ⟨fun _ h => absurd h Bool.false_ne_true, fun _ => some_ne_none _⟩
  | true =>
    by_cases hroom : types.length < 32767
    · rw [if_pos rfl, typeCreateWith_eq hroom]
      exact ⟨fun _ _ => hroom, fun _ => some_ne_none _⟩
    · rw [if_pos rfl, typeCreateWith_full (not_lt.mp hroom) hlen]
      exact ⟨fun h => absurd rfl h, fun h => absurd (h rfl) hroom⟩

theorem not_keepsType_of_restrict (hroom : types.length < 32767) (hflag : t.isPointer = true)
    (hrestrict : t.isPointerRestrict = true) : ¬ KeepsType types t := by
  rintro ⟨p, types', hcreate, hderef⟩
  rw [typeCreatePointer, if_pos hflag, typeCreateWith_eq hroom, some.injEq,
    Prod.mk.injEq] at hcreate
  rcases hcreate with ⟨rfl, rfl⟩
  simp only [typeDeref, CType.isPointerType, CType.typeOf, Bool.false_eq_true, if_false,
    decide_true, if_true, getTypeHandle, getTypetreeHandle_append, bind_some,
    removeQualifiers, hflag, some.injEq] at hderef
  have hlost := congrArg CType.isPointerRestrict hderef
  rw [hrestrict] at hlost
  cases hlost

theorem keepsType_iff (ht : t.Proper) (hlen : types.length < 65536) :
    KeepsType types t ↔
      RoomForPointer types t ∧ (t.isPointer = true → t.isPointerRestrict = false) := by
  constructor
  · intro hkeeps
    have hroom : RoomForPointer types t := by
      rcases hkeeps with ⟨p, types', hcreate, -⟩
      rw [← typeCreatePointer_ne_none_iff hlen, hcreate]
      exact some_ne_none _
    refine ⟨hroom, fun hflag => ?_⟩
    by_contra hrestrict
    exact not_keepsType_of_restrict (hroom hflag) hflag (by simpa using hrestrict) hkeeps
  · rintro ⟨hroom, hrestrict⟩
    exact keepsType_of_room ht fun hflag => ⟨hrestrict hflag, hroom hflag⟩

end PointerTypes

/-! ## Later entries -/

section Frames

variable {types types' : TypeTable} {ref : Int} {e : Typetree} {type : CType}

theorem getTypetreeHandle_append_of_some (h : getTypetreeHandle types ref = some e)
    (more : TypeTable) : getTypetreeHandle (types ++ more) ref = some e := by
  rcases bind_eq_some_iff.mp h with ⟨i, hi, hget⟩
  rcases typetreeIndex_eq_some_iff.mp hi with ⟨href, hlt⟩
  have hindex : typetreeIndex (types ++ more) ref = some i :=
    typetreeIndex_eq_some_iff.mpr ⟨href, by rw [List.length_append]; omega⟩
  rw [getTypetreeHandle, hindex, bind_some, List.getElem?_append_left hlt]
  exact hget

theorem getTypetreeHandle_setTypetree_of_ne {r : Int} {t : Typetree}
    (h : setTypetree types r t = some types') (hne : ref ≠ r) :
    getTypetreeHandle types' ref = getTypetreeHandle types ref := by
  rcases map_eq_some_iff.mp h with ⟨i, hi, rfl⟩
  rw [getTypetreeHandle, typetreeIndex_set, getTypetreeHandle]
  cases hindex : typetreeIndex types ref with
  | none => rfl
  | some k =>
    have hk := typetreeIndex_eq_some_iff.mp hindex
    have hik := typetreeIndex_eq_some_iff.mp hi
    have hdistinct : i ≠ k := by
      rintro rfl
      exact hne (hk.1.trans hik.1.symm)
    rw [bind_some, bind_some, List.getElem?_set_ne hdistinct]

theorem getTypetreeHandle_setTypetree {t : Typetree} (h : setTypetree types ref t = some types') :
    getTypetreeHandle types' ref = some t := by
  rcases map_eq_some_iff.mp h with ⟨i, hi, rfl⟩
  have hlt := (typetreeIndex_eq_some_iff.mp hi).2
  simp [getTypetreeHandle, hi, hlt]

theorem typeCreateWith_frame {tt : TypeKind} {fill : Typetree → Typetree}
    (h : typeCreateWith types tt fill = some (type, types'))
    (hne : ref ≠ refField (types.length + 1)) (he : getTypetreeHandle types ref = some e) :
    getTypetreeHandle types' ref = some e := by
  simp only [typeCreateWith, bind_eq_some_iff, map_eq_some_iff, Prod.mk.injEq] at h
  rcases h with ⟨t, -, types'', hset, -, rfl⟩
  rw [getTypetreeHandle_setTypetree_of_ne hset (by rwa [typeCreate_ref])]
  exact getTypetreeHandle_append_of_some he _

theorem typeCreateArray_frame {next : CType} {count : Nat}
    (h : typeCreateArray types next count = some (type, types'))
    (hne : ref ≠ refField (types.length + 1)) (he : getTypetreeHandle types ref = some e) :
    getTypetreeHandle types' ref = some e := by
  simp only [typeCreateArray, bind_eq_some_iff] at h
  rcases h with ⟨size, -, h⟩
  split at h
  · cases h
  · exact typeCreateWith_frame h hne he

theorem typeOpStep_frame {op : TypeOp} (h : typeOpStep types op = some (type, types'))
    (hne : ref ≠ refField (types.length + 1)) (he : getTypetreeHandle types ref = some e) :
    getTypetreeHandle types' ref = some e := by
  cases op with
  | create tt =>
    simp only [typeOpStep, some.injEq] at h
    have htypes : types' = (typeCreate types tt).2 := by rw [h]
    rw [htypes]
    exact getTypetreeHandle_append_of_some he _
  | pointer next =>
    simp only [typeOpStep, typeCreatePointer] at h
    split at h
    · exact typeCreateWith_frame h hne he
    · simp only [some.injEq, Prod.mk.injEq] at h
      rw [← h.2]
      exact he
  | function next =>
    rw [typeOpStep, typeCreateFunction] at h
    exact typeCreateWith_frame h hne he
  | array next count =>
    rw [typeOpStep] at h
    exact typeCreateArray_frame h hne he
  | incomplete next =>
    rw [typeOpStep, typeCreateIncomplete] at h
    exact typeCreateWith_frame h hne he
  | vla next count =>
    simp only [typeOpStep, typeCreateVla, bind_eq_some_iff, map_eq_some_iff,
      Prod.exists, Prod.mk.injEq] at h
    rcases h with ⟨type', types₁, harray, t, -, types₂, hset, rfl, rfl⟩
    have href := (typeCreateArray_eq_some harray).1
    rw [getTypetreeHandle_setTypetree_of_ne hset (by rwa [href])]
    exact typeCreateArray_frame harray hne he
  | copyIncomplete type' =>
    simp only [typeOpStep, typeCopyIncomplete, bind_eq_some_iff, map_eq_some_iff,
      Prod.mk.injEq] at h
    rcases h with ⟨tb, -, tn, -, types₂, hset, -, rfl⟩
    rw [typeCreate_ref] at hset
    rw [getTypetreeHandle_setTypetree_of_ne hset hne]
    exact getTypetreeHandle_append_of_some he _

theorem refField_ne {n m : Nat} (hlt : n < m) (hnear : m < n + 65536) :
    refField n ≠ refField m := by
  have hgeneral : ∀ k : Nat, Int.bmod n k = Int.bmod m k → (n : Int) % k = (m : Int) % k := by
    intro k heq
    rw [← Int.bmod_emod, heq, Int.bmod_emod]
  intro heq
  have hmod := hgeneral 65536 heq
  omega

theorem typeOpRun_frame {ops : List TypeOp} {rs : List Returned} {n : Nat}
    (h : typeOpRun types ops = some (types', rs)) (he : getTypetreeHandle types (refField n) = some e)
    (hn : n ≤ types.length) (hnear : types.length + creationCount ops < n + 65536) :
    getTypetreeHandle types' (refField n) = some e := by
  induction ops generalizing types types' rs with
  | nil =>
    simp only [typeOpRun, some.injEq, Prod.mk.injEq] at h
    rw [← h.1]
    exact he
  | cons op ops ih =>
    simp only [typeOpRun, bind_eq_some_iff, map_eq_some_iff, Prod.exists, Prod.mk.injEq] at h
    rcases h with ⟨handle, types₁, hstep, types₂, rs₁, hrun, rfl, rfl⟩
    rcases typeOpStep_spec hstep with ⟨hcreates, hlen, -⟩ | ⟨hcreates, rfl⟩
    · have hcount : creationCount (op :: ops) = creationCount ops + 1 := by
        simp [creationCount, hcreates]
      rw [hcount] at hnear
      have hne : refField n ≠ refField (types.length + 1) := refField_ne (by omega) (by omega)
      exact ih hrun (typeOpStep_frame hstep hne he) (by omega) (by omega)
    · have hcount : creationCount (op :: ops) = creationCount ops := by
        simp [creationCount, hcreates]
      rw [hcount] at hnear
      exact ih hrun he hn hnear

end Frames

/-! ## Round trips -/

/-- What the new entry of a pointer to a pointer holds before it is filled in.  It is a new entry
as long as its number fits the reference. -/
def pointerEntry (types : TypeTable) : Option Typetree :=
  getTypetreeHandle (types ++ [{ type := .pointer }]) (refField (types.length + 1))

/-- The pointer to a type leads back to it, also after further types have been created.  For a
pointer to a pointer these are so few that the number of its entry does not come up again. -/
def PointerLeadsBack (types : TypeTable) (t : CType) : Prop :=
  ∃ p types', typeCreatePointer types t = some (p, types') ∧
    ∀ ops types'' rs, (t.isPointer = true → creationCount ops < 65536) →
      typeOpRun types' ops = some (types'', rs) → typeDeref types'' p = some t

section RoundTrips

variable {types types' : TypeTable} {t p : CType}

theorem creationCount_nil_lt : creationCount [] < 65536 := by decide

theorem typeDeref_flag (hflag : t.isPointer = false) (types : TypeTable) :
    typeDeref types { t with isPointer := true } = some t ↔ t.Proper := by
  have hderef : typeDeref types { t with isPointer := true } = some { t with
      isPointerConst := false, isPointerVolatile := false, isPointerRestrict := false } := by
    simp only [typeDeref, CType.isPointerType, CType.typeOf, if_true, decide_true, removeQualifiers]
    cases t
    simp_all
  rw [hderef, some.injEq]
  constructor
  · intro heq
    rw [← heq]
    exact ⟨fun _ => rfl, fun _ => rfl, fun _ => rfl⟩
  · intro ht
    have h1 := ht.isPointerConst hflag
    have h2 := ht.isPointerVolatile hflag
    have h3 := ht.isPointerRestrict hflag
    cases t
    simp_all

theorem getTypeHandle_pointer {ref : Int} {e : Typetree} (hflag : t.isPointer = true)
    (he : getTypetreeHandle types ref = some { e with
      isConst := t.isConstType
      isVolatile := t.isVolatileType
      next := { removeQualifiers t with isPointer := false } }) :
    getTypeHandle types ref = some t ↔ e.type = .pointer ∧ e.isRestrict = t.isPointerRestrict := by
  unfold getTypeHandle
  rw [he, bind_some]
  cases hkind : e.type with
  | pointer =>
    simp only [Bool.false_eq_true, if_false, some.injEq, true_and]
    constructor
    · intro heq
      rw [← heq]
    · intro hrestrict
      simp only [removeQualifiers, hflag, if_true, CType.isConstType, CType.isVolatileType,
        hrestrict]
      cases t
      simp_all
  | _ =>
    simp only [some.injEq, reduceCtorEq, false_and, iff_false]
    intro heq
    rw [← heq] at hflag
    exact Bool.false_ne_true hflag

theorem typeCreateWith_eq_bind (types : TypeTable) (tt : TypeKind) (fill : Typetree → Typetree) :
    typeCreateWith types tt fill =
      (getTypetreeHandle (types ++ [{ type := tt }]) (refField (types.length + 1))).bind fun e =>
        (setTypetree (types ++ [{ type := tt }]) (refField (types.length + 1)) (fill e)).map
          fun types' => ({ type := tt, ref := refField (types.length + 1) }, types') := by
  simp only [typeCreateWith, typeCreate]

theorem typeCreatePointer_pointer (types : TypeTable) (hflag : t.isPointer = true) :
    (∀ p types', typeCreatePointer types t = some (p, types') →
      p = { type := .pointer, ref := refField (types.length + 1) } ∧
      types'.length = types.length + 1 ∧
      ∃ e, pointerEntry types = some e ∧
        getTypetreeHandle types' (refField (types.length + 1)) = some { e with
        isConst := t.isConstType
        isVolatile := t.isVolatileType
        next := { removeQualifiers t with isPointer := false } }) ∧
    ∀ e, pointerEntry types = some e → ∃ p types', typeCreatePointer types t = some (p, types') := by
  have hcreate : typeCreatePointer types t =
      (pointerEntry types).bind fun e =>
        (setTypetree (types ++ [{ type := .pointer }]) (refField (types.length + 1)) { e with
          isConst := t.isConstType
          isVolatile := t.isVolatileType
          next := { removeQualifiers t with isPointer := false } }).map fun types' =>
            ({ type := .pointer, ref := refField (types.length + 1) }, types') := by
    rw [typeCreatePointer, if_pos hflag, typeCreateWith_eq_bind, pointerEntry]
  refine ⟨fun p types' h => ?_, fun e he => ?_⟩
  · rw [hcreate] at h
    rcases bind_eq_some_iff.mp h with ⟨e, he, hmap⟩
    rcases map_eq_some_iff.mp hmap with ⟨types'', hset, heq⟩
    rw [Prod.mk.injEq] at heq
    rcases heq with ⟨rfl, rfl⟩
    have hlen := setTypetree_length hset
    rw [List.length_append, List.length_singleton] at hlen
    exact ⟨rfl, hlen, e, he, getTypetreeHandle_setTypetree hset⟩
  · have hread : getTypetreeHandle (types ++ [{ type := .pointer }])
        (refField (types.length + 1)) = some e := by rw [← he, pointerEntry]
    rcases setTypetree_isSome hread { e with
      isConst := t.isConstType
      isVolatile := t.isVolatileType
      next := { removeQualifiers t with isPointer := false } } with ⟨types', hset⟩
    refine ⟨{ type := .pointer, ref := refField (types.length + 1) }, types', ?_⟩
    rw [hcreate, he, bind_some, hset, map_some]

/-- The pointer to a type leads back to it when its qualifiers are those of its form and, for a
pointer to a pointer, when the new entry keeps whether that pointer is `restrict`. -/
theorem typeDeref_typeCreatePointer_iff (types : TypeTable) (t : CType) :
    PointerLeadsBack types t ↔
      t.Proper ∧ (t.isPointer = true → ∃ e, pointerEntry types = some e ∧ e.type = .pointer ∧
        e.isRestrict = t.isPointerRestrict) := by
  cases hflag : t.isPointer with
  | false =>
    have hcreate : typeCreatePointer types t = some ({ t with isPointer := true }, types) := by
      simp [typeCreatePointer, hflag]
    constructor
    · rintro ⟨p, types', h, hback⟩
      rw [hcreate, some.injEq, Prod.mk.injEq] at h
      rcases h with ⟨rfl, rfl⟩
      have hderef := hback [] types [] (fun hno => by simp [hflag] at hno) rfl
      exact ⟨(typeDeref_flag hflag types).mp hderef, fun hno => absurd hno Bool.false_ne_true⟩
    · rintro ⟨ht, -⟩
      exact ⟨_, _, hcreate, fun _ types'' _ _ _ => (typeDeref_flag hflag types'').mpr ht⟩
  | true =>
    have hproper : t.Proper := by
      refine ⟨?_, ?_, ?_⟩ <;>
      · intro hno
        rw [hflag] at hno
        cases hno
    have hread : ∀ types : TypeTable, ∀ ref : Int,
        typeDeref types { type := .pointer, ref := ref } = getTypeHandle types ref :=
      fun _ _ => rfl
    rcases typeCreatePointer_pointer types hflag with ⟨hcreated, hcreates⟩
    constructor
    · rintro ⟨p, types', h, hback⟩
      rcases hcreated p types' h with ⟨rfl, -, e, he, hentry⟩
      have hderef := hback [] types' [] (fun _ => creationCount_nil_lt) rfl
      rw [hread, getTypeHandle_pointer hflag hentry] at hderef
      exact ⟨hproper, fun _ => ⟨e, he, hderef⟩⟩
    · rintro ⟨-, hsame⟩
      rcases hsame rfl with ⟨e, he, hkind⟩
      rcases hcreates e he with ⟨p, types', h⟩
      refine ⟨p, types', h, fun ops types'' rs hfew hrun => ?_⟩
      rcases hcreated p types' h with ⟨rfl, hlen, e', he', hentry⟩
      rw [he, some.injEq] at he'
      subst he'
      have hnear := hfew hflag
      have hlater := typeOpRun_frame hrun hentry (by omega) (by omega)
      rw [hread, getTypeHandle_pointer hflag hlater]
      exact hkind

/-- The pointer to a `restrict` pointer leads to a pointer without `restrict`. -/
theorem not_pointerLeadsBack_restrict :
    ¬ PointerLeadsBack [] { type := .char, isPointer := true, isPointerRestrict := true } := by
  rintro ⟨p, types', h, hback⟩
  have hderef := hback [] types' [] (fun _ => creationCount_nil_lt) rfl
  cases h
  exact absurd hderef (by decide)

end RoundTrips

end Kcs
