import Kcs.Types.Layout

/-!
# Classification of parameters

`abi.c`: a value is passed as a series of eightbytes, each of a class.  The classes of a
struct are merged from those of the scalars in it.

Main results:

- Theorem {lit}`classify_abi`: away from flexible members the classes are those of the ABI.
-/

namespace Kcs.Jit

open Option List

/-! ## Classes -/

/-- The classes `PC_NO_CLASS` to `PC_MEMORY`. -/
inductive ParamClass where
  | noClass | integer | sse | sseup | x87 | x87up | complexX87 | memory
deriving DecidableEq, Repr

/-- `struct param_class` -/
abbrev Eightbytes := Fin 4 → ParamClass

/-- `EIGHTBYTES`, from the size of a type. -/
def eightbytes (size : Nat) : Nat := (size + 7) / 8

/-- `combine` -/
def combine (a b : ParamClass) : ParamClass :=
  if a = b then a
  else if a = .noClass then b
  else if b = .noClass then a
  else if a = .memory ∨ b = .memory then .memory
  else if a = .integer ∨ b = .integer then .integer
  else if a = .x87 ∨ b = .x87 then .memory
  else if a = .x87up ∨ b = .x87up then .memory
  else .sse

/-- The update of one eightbyte; an index beyond the array is undefined. -/
def combineAt (pc : Eightbytes) (i : Nat) (c : ParamClass) : Option Eightbytes :=
  if h : i < 4 then some (Function.update pc ⟨i, h⟩ (combine (pc ⟨i, h⟩) c)) else none

/-- `flatten` for a scalar type at an offset.  The assertion fails for all other types, and
for `_Bool`. -/
def flattenScalar (pc : Eightbytes) (kind : TypeKind) (offset : Nat) : Option Eightbytes :=
  let i := offset / 8
  match kind with
  | .float | .double => combineAt pc i .sse
  | .ldouble =>
    (combineAt pc i .x87).bind fun pc => if i < 3 then combineAt pc (i + 1) .x87up else some pc
  | .char | .int | .short | .long | .pointer => combineAt pc i .integer
  | _ => none

section Table

variable (types : TypeTable)

/-- The number of elements of an array, as `flatten` computes it. -/
def elementCount (type next : CType) : Option (Nat × Nat) :=
  (sizeOf types type).bind fun size =>
    (sizeOf types next).bind fun n => if n = 0 then none else some (size / n, n)

/-- `flatten`, with a bound on the nesting of arrays and aggregates. -/
def flattenAux : Nat → Eightbytes → CType → Nat → Option Eightbytes
  | fuel, pc, type, offset =>
    match type.typeOf with
    | .struct | .union =>
      match fuel with
      | 0 => none
      | fuel + 1 =>
        (getTypetreeHandle types type.ref).bind fun t =>
          t.members.foldlM (fun pc m => flattenAux fuel pc m.type (m.offset + offset)) pc
    | .array =>
      match fuel with
      | 0 => none
      | fuel + 1 =>
        (typeNext types type).bind fun next =>
          (elementCount types type next).bind fun e =>
            (List.range e.1).foldlM
              (fun pc i => flattenAux fuel pc next (i * e.2 + offset)) pc
    | kind => flattenScalar pc kind offset

/-- `flatten`.  The bound is the number of entries of the table. -/
def flatten (pc : Eightbytes) (type : CType) (offset : Nat) : Option Eightbytes :=
  flattenAux types types.length pc type offset

/-- `has_unaligned_fields` -/
def hasUnalignedFields (type : CType) : Option Bool :=
  (getTypetreeHandle types type.ref).bind fun t =>
    t.members.foldlM
      (fun found m =>
        if found then some true
        else
          (sizeOf types m.type).bind fun size =>
            if size = 0 then none else some (decide (m.offset % size ≠ 0)))
      false

end Table

/-- The eightbyte with an index, and no class beyond the array. -/
def Eightbytes.get (pc : Eightbytes) (i : Nat) : ParamClass :=
  if h : i < 4 then pc ⟨i, h⟩ else .noClass

/-- `merge`, whether the whole value goes to memory. -/
def mergesToMemory (pc : Eightbytes) (n : Nat) : Bool :=
  ((List.range n).any fun i =>
      pc.get i = .memory || (pc.get i = .x87up && (i = 0 || pc.get (i - 1) ≠ .x87))) ||
    (2 < n && (pc.get 0 ≠ .sse || !((List.range n).any fun i => pc.get i = .sseup)))

/-- The class of the whole value is that of its first eightbyte. -/
def Eightbytes.setMemory (pc : Eightbytes) : Eightbytes := Function.update pc 0 .memory

/-- `merge` -/
def merge (pc : Eightbytes) (n : Nat) : Eightbytes :=
  if mergesToMemory pc n then pc.setMemory else pc

/-- No class at all. -/
def noClasses : Eightbytes := fun _ => .noClass

/-- `classify` -/
def classify (types : TypeTable) (type : CType) : Option Eightbytes :=
  if type.isFunction then none
  else if type.isInteger || type.isPointerType then some (Function.update noClasses 0 .integer)
  else if type.isDouble || type.isFloat then some (Function.update noClasses 0 .sse)
  else if type.isLongDouble then
    some (Function.update (Function.update noClasses 0 .x87) 1 .x87up)
  else
    (sizeOf types type).bind fun size =>
      if eightbytes size ≤ 4 && type.isStructOrUnion then
        (isFlexible types type).bind fun flexible =>
          if flexible then some noClasses.setMemory
          else
            (hasUnalignedFields types type).bind fun unaligned =>
              if unaligned then some noClasses.setMemory
              else (flatten types noClasses type 0).map fun pc => merge pc (eightbytes size)
      else if type.isVoid then some noClasses
      else some noClasses.setMemory

/-! ## The scalars of a type -/

/-- The size of the scalars of a kind. -/
def kindSize : TypeKind → Nat
  | .bool | .char => 1
  | .short => 2
  | .int | .float => 4
  | .long | .double | .pointer => 8
  | .ldouble => 16
  | _ => 0

/-- A scalar in an object: its kind, its offset in bytes and the bits that it takes. -/
structure ScalarPart where
  kind : TypeKind
  offset : Nat
  bitStart : Nat
  bitEnd : Nat
deriving DecidableEq, Repr

/-- A scalar at an offset. -/
def scalarPart (kind : TypeKind) (offset : Nat) : ScalarPart :=
  { kind := kind, offset := offset, bitStart := 8 * offset,
    bitEnd := 8 * (offset + kindSize kind) }

/-- A bit-field takes the bits of the field only. -/
def ScalarPart.narrow (p : ScalarPart) (fieldOffset fieldWidth : Nat) : ScalarPart :=
  if fieldWidth = 0 then p
  else
    { p with
      bitStart := 8 * p.offset + fieldOffset
      bitEnd := 8 * p.offset + fieldOffset + fieldWidth }

/-- The scalars of a type at an offset, in the order of declaration. -/
def scalarPartsAux (types : TypeTable) : Nat → CType → Nat → Option (List ScalarPart)
  | fuel, type, offset =>
    match type.typeOf with
    | .struct | .union =>
      match fuel with
      | 0 => none
      | fuel + 1 =>
        (getTypetreeHandle types type.ref).bind fun t =>
          (t.members.mapM fun m =>
            (scalarPartsAux types fuel m.type (m.offset + offset)).map
              (List.map fun p => p.narrow m.fieldOffset m.fieldWidth)).map List.flatten
    | .array =>
      match fuel with
      | 0 => none
      | fuel + 1 =>
        (typeNext types type).bind fun next =>
          (elementCount types type next).bind fun e =>
            ((List.range e.1).mapM fun i =>
              scalarPartsAux types fuel next (i * e.2 + offset)).map List.flatten
    | kind => some [scalarPart kind offset]

/-- The scalars of a type. -/
def scalarParts (types : TypeTable) (type : CType) : Option (List ScalarPart) :=
  scalarPartsAux types types.length type 0

/-- Flattening a list of scalars. -/
def flattenParts (pc : Eightbytes) (parts : List ScalarPart) : Option Eightbytes :=
  parts.foldlM (fun pc p => flattenScalar pc p.kind p.offset) pc

theorem ScalarPart.narrow_spec (p : ScalarPart) (fieldOffset fieldWidth : Nat) :
    (p.narrow fieldOffset fieldWidth).kind = p.kind ∧
      (p.narrow fieldOffset fieldWidth).offset = p.offset := by
  unfold ScalarPart.narrow
  split <;> exact ⟨rfl, rfl⟩

theorem flattenParts_narrow (pc : Eightbytes) (parts : List ScalarPart) (o w : Nat) :
    flattenParts pc (parts.map fun p => p.narrow o w) = flattenParts pc parts := by
  unfold flattenParts
  rw [foldlM_map]
  simp only [(ScalarPart.narrow_spec _ o w).1, (ScalarPart.narrow_spec _ o w).2]

theorem flattenParts_append (pc : Eightbytes) (parts parts' : List ScalarPart) :
    flattenParts pc (parts ++ parts') =
      (flattenParts pc parts).bind fun pc => flattenParts pc parts' :=
  foldlM_append

theorem foldlM_flattenParts {α : Type} {f : Eightbytes → α → Option Eightbytes}
    {g : α → Option (List ScalarPart)}
    (h : ∀ pc a parts, g a = some parts → f pc a = flattenParts pc parts) {l : List α}
    {parts : List (List ScalarPart)} (hparts : l.mapM g = some parts) (pc : Eightbytes) :
    l.foldlM f pc = flattenParts pc parts.flatten := by
  induction l generalizing parts pc with
  | nil =>
    rw [mapM_nil] at hparts
    cases hparts
    rfl
  | cons a l ih =>
    rw [mapM_cons] at hparts
    rcases bind_eq_some_iff.mp hparts with ⟨first, hfirst, hrest⟩
    rcases bind_eq_some_iff.mp hrest with ⟨rest, htail, hall⟩
    cases hall
    rw [foldlM_cons, flatten_cons, flattenParts_append, h pc a first hfirst]
    congr 1
    ext1 pc
    exact ih htail pc

variable {parts : List ScalarPart} {type : CType}

theorem flattenAux_eq {types : TypeTable} {fuel : Nat} {offset : Nat}
    (h : scalarPartsAux types fuel type offset = some parts)
    (pc : Eightbytes) : flattenAux types fuel pc type offset = flattenParts pc parts := by
  induction fuel generalizing type offset parts pc with
  | zero =>
    unfold scalarPartsAux at h
    unfold flattenAux
    split at h
    · cases h
    · cases h
    · cases h
    · rename_i kind hstruct hunion harray
      cases h
      simp [flattenParts, scalarPart]
  | succ fuel ih =>
    have haggregate : ∀ {t : Typetree} {parts : List (List ScalarPart)},
        (t.members.mapM fun m =>
          (scalarPartsAux types fuel m.type (m.offset + offset)).map
            (List.map fun p => p.narrow m.fieldOffset m.fieldWidth)) = some parts →
        t.members.foldlM (fun pc m => flattenAux types fuel pc m.type (m.offset + offset)) pc =
          flattenParts pc parts.flatten := by
      intro t parts hparts
      refine foldlM_flattenParts (fun pc m parts hm => ?_) hparts pc
      rcases map_eq_some_iff.mp hm with ⟨inner, hinner, rfl⟩
      rw [ih hinner pc, flattenParts_narrow]
    unfold scalarPartsAux at h
    unfold flattenAux
    split at h
    · rcases bind_eq_some_iff.mp h with ⟨t, ht, h⟩
      rcases map_eq_some_iff.mp h with ⟨inner, hinner, rfl⟩
      simp only [ht, bind_some, haggregate hinner]
    · rcases bind_eq_some_iff.mp h with ⟨t, ht, h⟩
      rcases map_eq_some_iff.mp h with ⟨inner, hinner, rfl⟩
      simp only [ht, bind_some, haggregate hinner]
    · rcases bind_eq_some_iff.mp h with ⟨next, hnext, h⟩
      rcases bind_eq_some_iff.mp h with ⟨e, he, h⟩
      rcases map_eq_some_iff.mp h with ⟨inner, hinner, rfl⟩
      simp only [hnext, he, bind_some]
      exact foldlM_flattenParts (fun pc i parts hi => ih hi pc) hinner pc
    · rename_i kind hstruct hunion harray
      cases h
      simp [flattenParts, scalarPart]

/-! ## The classes of the ABI -/

/-- The merge rule of two classes. -/
def abiMerge (a b : ParamClass) : ParamClass :=
  if a = b then a
  else if a = .noClass then b
  else if b = .noClass then a
  else if a = .memory ∨ b = .memory then .memory
  else if a = .integer ∨ b = .integer then .integer
  else if a ∈ [.x87, .x87up, .complexX87] ∨ b ∈ [.x87, .x87up, .complexX87] then .memory
  else .sse

/-- The bits of a scalar, with their classes. -/
def ScalarPart.pieces (p : ScalarPart) : List (ParamClass × Nat × Nat) :=
  match p.kind with
  | .float | .double => [(.sse, p.bitStart, p.bitEnd)]
  | .ldouble =>
    [(.x87, p.bitStart, p.bitStart + 64), (.x87up, p.bitStart + 64, p.bitStart + 128)]
  | .bool | .char | .short | .int | .long | .pointer => [(.integer, p.bitStart, p.bitEnd)]
  | _ => []

/-- Some of the bits lie in an eightbyte. -/
def touches (j : Nat) (piece : ParamClass × Nat × Nat) : Bool :=
  piece.2.1 < 64 * (j + 1) && 64 * j < piece.2.2

/-- The class of an eightbyte: the classes of what lies in it are merged. -/
def abiClass (parts : List ScalarPart) (j : Nat) : ParamClass :=
  (((parts.flatMap ScalarPart.pieces).filter (touches j)).map Prod.fst).foldl abiMerge .noClass

/-- What the ABI says after merging: a class of memory, or an upper part of a `long double`
that does not follow its lower part, sends the whole value to memory. -/
def MergedToMemory (parts : List ScalarPart) (n : Nat) : Prop :=
  ∃ j < n, abiClass parts j = .memory ∨
    (abiClass parts j = .x87up ∧ (j = 0 ∨ abiClass parts (j - 1) ≠ .x87))

/-- A member lies at an offset that is not a multiple of its alignment. -/
def Misaligned (types : TypeTable) (t : Typetree) : Prop :=
  ∃ m ∈ t.members, ∃ a, typeAlignment types m.type = some a ∧ ¬ a ∣ m.offset

/-- A scalar at a multiple of its size inside the object; a bit-field lies in the eightbyte of
its offset. -/
structure ScalarPart.Placed (p : ScalarPart) (size : Nat) : Prop where
  positive : 0 < kindSize p.kind
  aligned : kindSize p.kind ∣ p.offset
  inside : p.offset + kindSize p.kind ≤ size
  bits : p = scalarPart p.kind p.offset ∨
    (p.kind ≠ .ldouble ∧ 8 * p.offset ≤ p.bitStart ∧ p.bitStart < p.bitEnd ∧
      p.bitEnd ≤ 64 * (p.offset / 8 + 1))

/-- The classes that occur here. -/
def Regular (c : ParamClass) : Prop := c ≠ .sseup ∧ c ≠ .complexX87

instance (c : ParamClass) : Decidable (Regular c) := inferInstanceAs (Decidable (_ ∧ _))

theorem combine_eq {a b : ParamClass} (ha : Regular a) (hb : Regular b) :
    combine a b = abiMerge a b := by
  revert ha hb
  cases a <;> cases b <;> decide

theorem Regular.combine {a b : ParamClass} (ha : Regular a) (hb : Regular b) :
    Regular (combine a b) := by
  revert ha hb
  cases a <;> cases b <;> decide

theorem foldl_combine {cs : List ParamClass} (hcs : ∀ c ∈ cs, Regular c) {a : ParamClass}
    (ha : Regular a) : cs.foldl combine a = cs.foldl abiMerge a ∧ Regular (cs.foldl combine a) := by
  induction cs generalizing a with
  | nil => exact ⟨rfl, ha⟩
  | cons c cs ih =>
    have hc := hcs c mem_cons_self
    have hrest := ih (fun d hd => hcs d (mem_cons_of_mem _ hd)) (ha.combine hc)
    rw [foldl_cons, foldl_cons, ← combine_eq ha hc]
    exact hrest

/-! ## Flattening by eightbytes -/

/-- The classes that flattening a scalar combines with an eightbyte. -/
def classesAt (kind : TypeKind) (offset j : Nat) : List ParamClass :=
  match kind with
  | .float | .double => if offset / 8 = j then [.sse] else []
  | .ldouble => if offset / 8 = j then [.x87] else if offset / 8 + 1 = j then [.x87up] else []
  | .char | .int | .short | .long | .pointer => if offset / 8 = j then [.integer] else []
  | _ => []

theorem combineAt_spec (pc : Eightbytes) {i : Nat} (hi : i < 4) (c : ParamClass) :
    ∃ pc', combineAt pc i c = some pc' ∧ ∀ j < 4,
      pc'.get j = (if i = j then [c] else []).foldl combine (pc.get j) := by
  refine ⟨_, dif_pos hi, fun j hj => ?_⟩
  by_cases h : i = j
  · subst h
    simp [Eightbytes.get, hj]
  · have hne : (⟨j, hj⟩ : Fin 4) ≠ ⟨i, hi⟩ := fun heq => h (Fin.mk.inj heq).symm
    simp [Eightbytes.get, hj, h, Function.update_of_ne hne]

theorem flattenScalar_spec (pc : Eightbytes) {kind : TypeKind} {offset : Nat}
    (hkind : 0 < kindSize kind) (hbool : kind ≠ .bool) (hoffset : offset / 8 < 4) :
    ∃ pc', flattenScalar pc kind offset = some pc' ∧ ∀ j < 4,
      pc'.get j = (classesAt kind offset j).foldl combine (pc.get j) := by
  cases kind with
  | ldouble =>
    rcases combineAt_spec pc hoffset .x87 with ⟨pc₁, h₁, hget₁⟩
    by_cases hlast : offset / 8 < 3
    · rcases combineAt_spec pc₁ (i := offset / 8 + 1) (by omega) .x87up with ⟨pc₂, h₂, hget₂⟩
      refine ⟨pc₂, ?_, fun j hj => ?_⟩
      · simp only [flattenScalar, h₁, bind_some, if_pos hlast, h₂]
      · rw [hget₂ j hj, hget₁ j hj, classesAt]
        by_cases hlow : offset / 8 = j
        · rw [if_pos hlow, if_pos hlow, if_neg (by omega)]
          rfl
        · rw [if_neg hlow, if_neg hlow]
          rfl
    · refine ⟨pc₁, ?_, fun j hj => ?_⟩
      · simp only [flattenScalar, h₁, bind_some, if_neg hlast]
      · rw [hget₁ j hj, classesAt, if_neg (show ¬ offset / 8 + 1 = j by omega)]
  | bool => exact absurd rfl hbool
  | placeholder | void | function | array | struct | union => exact absurd hkind (by decide)
  | float | double => exact combineAt_spec pc hoffset .sse
  | char | short | int | long | pointer => exact combineAt_spec pc hoffset .integer

theorem flattenParts_spec (pc : Eightbytes)
    (hkind : ∀ p ∈ parts, 0 < kindSize p.kind) (hbool : ∀ p ∈ parts, p.kind ≠ .bool)
    (hoffset : ∀ p ∈ parts, p.offset / 8 < 4) :
    ∃ pc', flattenParts pc parts = some pc' ∧ ∀ j < 4,
      pc'.get j = (parts.flatMap fun p => classesAt p.kind p.offset j).foldl combine (pc.get j) := by
  induction parts generalizing pc with
  | nil => exact ⟨pc, rfl, fun j _ => rfl⟩
  | cons p parts ih =>
    rcases flattenScalar_spec pc (hkind p mem_cons_self) (hbool p mem_cons_self)
      (hoffset p mem_cons_self) with ⟨pc₁, h₁, hget₁⟩
    rcases ih pc₁ (fun q hq => hkind q (mem_cons_of_mem _ hq))
      (fun q hq => hbool q (mem_cons_of_mem _ hq))
      (fun q hq => hoffset q (mem_cons_of_mem _ hq)) with ⟨pc₂, h₂, hget₂⟩
    refine ⟨pc₂, ?_, fun j hj => ?_⟩
    · rw [flattenParts, foldlM_cons, h₁]
      exact h₂
    · rw [hget₂ j hj, hget₁ j hj, flatMap_cons, foldl_append]

variable {size : Nat}

/-- A scalar that is placed touches the eightbytes that it is combined with. -/
theorem ScalarPart.Placed.pieces {p : ScalarPart} (h : p.Placed size)
    (j : Nat) : (p.pieces.filter (touches j)).map Prod.fst =
      if p.kind = .bool then if p.offset / 8 = j then [.integer] else []
      else classesAt p.kind p.offset j := by
  have haligned := h.aligned
  have hpositive := h.positive
  have hplain : p.kind ≠ .ldouble → 8 * p.offset ≤ p.bitStart ∧ p.bitStart < p.bitEnd ∧
      p.bitEnd ≤ 64 * (p.offset / 8 + 1) := by
    intro hkind
    rcases h.bits with hp | hp
    · have hstart : p.bitStart = 8 * p.offset := by rw [hp]; rfl
      have hend : p.bitEnd = 8 * (p.offset + kindSize p.kind) := by rw [hp]; rfl
      rw [hstart, hend]
      cases hk : p.kind <;> rw [hk] at haligned hpositive hkind <;>
        simp only [kindSize] at haligned hpositive ⊢ <;> first | omega | exact absurd rfl hkind
    · exact hp.2
  have hone : p.kind ≠ .ldouble → ∀ c : ParamClass,
      ([(c, p.bitStart, p.bitEnd)].filter (touches j)).map Prod.fst =
        if p.offset / 8 = j then [c] else [] := by
    intro hkind c
    have hbits := hplain hkind
    by_cases hj : p.offset / 8 = j
    · have : touches j (c, p.bitStart, p.bitEnd) = true := by
        simp only [touches, Bool.and_eq_true, decide_eq_true_eq]
        omega
      simp [this, hj]
    · have : touches j (c, p.bitStart, p.bitEnd) = false := by
        simp only [touches, Bool.and_eq_false_iff, decide_eq_false_iff_not]
        omega
      simp [this, hj]
  cases hk : p.kind <;> rw [hk] at haligned hpositive hone <;>
    simp only [ScalarPart.pieces, hk, classesAt, reduceCtorEq, if_false, if_true, ne_eq,
      not_false_eq_true, forall_const] at hone ⊢ <;>
    first
    | exact hone _
    | exact absurd hpositive (by decide)
    | skip
  have hstart : p.bitStart = 8 * p.offset := by
    rcases h.bits with hp | hp
    · rw [hp]
      rfl
    · exact absurd hk hp.1
  simp only [kindSize] at haligned
  have hlow : touches j (.x87, p.bitStart, p.bitStart + 64) = decide (p.offset / 8 = j) := by
    simp only [touches, ← Bool.decide_and, decide_eq_decide]
    omega
  have hhigh : touches j (.x87up, p.bitStart + 64, p.bitStart + 128) =
      decide (p.offset / 8 + 1 = j) := by
    simp only [touches, ← Bool.decide_and, decide_eq_decide]
    omega
  simp only [filter_cons, filter_nil, hlow, hhigh, decide_eq_true_eq]
  by_cases h₁ : p.offset / 8 = j
  · rw [if_pos h₁, if_pos h₁, if_neg (by omega)]
    rfl
  · rw [if_neg h₁, if_neg h₁]
    split <;> rfl

theorem regular_classesAt {kind : TypeKind} {offset j : Nat} {c : ParamClass}
    (h : c ∈ classesAt kind offset j) : Regular c := by
  unfold classesAt at h
  split at h
  all_goals first
    | exact absurd h not_mem_nil
    | (split at h
       · rw [mem_singleton.mp h]
         decide
       · first
         | exact absurd h not_mem_nil
         | (split at h
            · rw [mem_singleton.mp h]
              decide
            · exact absurd h not_mem_nil))

theorem abiClass_eq (hplaced : ∀ p ∈ parts, p.Placed size)
    (hbool : ∀ p ∈ parts, p.kind ≠ .bool) (j : Nat) :
    abiClass parts j = (parts.flatMap fun p => classesAt p.kind p.offset j).foldl combine .noClass := by
  have hclasses : ((parts.flatMap ScalarPart.pieces).filter (touches j)).map Prod.fst =
      parts.flatMap fun p => classesAt p.kind p.offset j := by
    rw [filter_flatMap, map_flatMap]
    refine flatMap_congr fun p hp => ?_
    rw [(hplaced p hp).pieces j, if_neg (hbool p hp)]
  have hregular : ∀ c ∈ parts.flatMap fun p => classesAt p.kind p.offset j, Regular c := by
    intro c hc
    rcases mem_flatMap.mp hc with ⟨p, -, hc⟩
    exact regular_classesAt hc
  rw [abiClass, hclasses, (foldl_combine hregular (by decide)).1]

theorem regular_abiClass
    (hplaced : ∀ p ∈ parts, p.Placed size) (hbool : ∀ p ∈ parts, p.kind ≠ .bool) (j : Nat) :
    Regular (abiClass parts j) := by
  rw [abiClass_eq hplaced hbool]
  refine (foldl_combine ?_ (by decide)).2
  intro c hc
  rcases mem_flatMap.mp hc with ⟨p, -, hc⟩
  exact regular_classesAt hc

variable {n : Nat}

theorem mergesToMemory_of_large {pc : Eightbytes} (hn : 2 < n)
    (hregular : ∀ i < n, Regular (pc.get i)) : mergesToMemory pc n = true := by
  have hsseup : ((List.range n).any fun i => pc.get i = .sseup) = false := by
    rw [List.any_eq_false]
    intro i hi
    simpa using (hregular i (mem_range.mp hi)).1
  simp only [mergesToMemory, hsseup, Bool.not_false, Bool.or_true, Bool.and_true, hn, decide_true]

theorem mergesToMemory_iff {pc : Eightbytes} (hn : n ≤ 2)
    (hclass : ∀ j < n, pc.get j = abiClass parts j) :
    mergesToMemory pc n = true ↔ MergedToMemory parts n := by
  have hlarge : ¬ 2 < n := by omega
  simp only [mergesToMemory, hlarge, decide_false, Bool.false_and, Bool.or_false, List.any_eq_true,
    mem_range, Bool.or_eq_true, Bool.and_eq_true, decide_eq_true_eq, MergedToMemory]
  refine exists_congr fun j => and_congr_right fun hj => ?_
  rw [hclass j hj, hclass (j - 1) (by omega)]

theorem ScalarPart.pieces_class {p : ScalarPart} {piece : ParamClass × Nat × Nat}
    (hkind : p.kind ≠ .ldouble) (h : piece ∈ p.pieces) :
    piece.1 = .integer ∨ piece.1 = .sse := by
  cases hk : p.kind <;>
    simp only [ScalarPart.pieces, hk, mem_singleton, not_mem_nil] at h <;>
    first
    | exact absurd hk hkind
    | exact Or.inl (congrArg Prod.fst h)
    | exact Or.inr (congrArg Prod.fst h)

theorem MergedToMemory.exists_ldouble
    (h : MergedToMemory parts n) : ∃ p ∈ parts, p.kind = .ldouble := by
  by_contra hnone
  have hclasses : ∀ j, abiClass parts j ∈ [ParamClass.noClass, .integer, .sse] := by
    intro j
    have hpieces : ∀ c ∈ ((parts.flatMap ScalarPart.pieces).filter (touches j)).map Prod.fst,
        c ∈ [ParamClass.integer, .sse] := by
      intro c hc
      rcases List.mem_map.mp hc with ⟨piece, hpiece, rfl⟩
      rcases mem_flatMap.mp (mem_of_mem_filter hpiece) with ⟨p, hp, hpiece⟩
      have hkind : p.kind ≠ .ldouble := fun hkind => hnone ⟨p, hp, hkind⟩
      rcases ScalarPart.pieces_class hkind hpiece with h | h <;> rw [h] <;> decide
    unfold abiClass
    generalize (((parts.flatMap ScalarPart.pieces).filter (touches j)).map Prod.fst) = cs at hpieces
    suffices hfold : ∀ a ∈ [ParamClass.noClass, .integer, .sse],
        cs.foldl abiMerge a ∈ [ParamClass.noClass, .integer, .sse] from hfold _ (by decide)
    induction cs with
    | nil => exact fun a ha => ha
    | cons c cs ih =>
      intro a ha
      refine ih (fun d hd => hpieces d (mem_cons_of_mem _ hd)) (abiMerge a c) ?_
      have hc := hpieces c mem_cons_self
      revert ha hc
      cases a <;> cases c <;> decide
  rcases h with ⟨j, -, h | h⟩
  · have := hclasses j
    rw [h] at this
    exact absurd this (by decide)
  · have := hclasses j
    rw [h.1] at this
    exact absurd this (by decide)

/-! ## Aggregates -/

variable {t : Typetree}

/-- The loop over the members finds one at an offset that is not a multiple of its size. -/
theorem hasUnalignedFields_spec {types : TypeTable}
    (ht : getTypetreeHandle types type.ref = some t)
    (hmembers : ∀ m ∈ t.members, ∃ n, sizeOf types m.type = some n ∧ 0 < n) :
    ∃ b, hasUnalignedFields types type = some b ∧
      (b = true ↔ ∃ m ∈ t.members, ∃ n, sizeOf types m.type = some n ∧ ¬ n ∣ m.offset) := by
  have hloop : ∀ (ms : List Member) (found : Bool),
      (∀ m ∈ ms, ∃ n, sizeOf types m.type = some n ∧ 0 < n) →
      ∃ b, ms.foldlM
          (fun found m =>
            if found then some true
            else
              (sizeOf types m.type).bind fun size =>
                if size = 0 then none else some (decide (m.offset % size ≠ 0))) found = some b ∧
        (b = true ↔ found = true ∨
          ∃ m ∈ ms, ∃ n, sizeOf types m.type = some n ∧ ¬ n ∣ m.offset) := by
    intro ms
    induction ms with
    | nil => exact fun found _ => ⟨found, rfl, by simp⟩
    | cons m ms ih =>
      intro found hms
      rcases hms m mem_cons_self with ⟨n, hn, hpos⟩
      have hrest : ∀ m ∈ ms, ∃ n, sizeOf types m.type = some n ∧ 0 < n :=
        fun m hm => hms m (mem_cons_of_mem _ hm)
      rw [foldlM_cons]
      cases found with
      | true =>
        rcases ih true hrest with ⟨b, hb, hiff⟩
        refine ⟨b, hb, ?_⟩
        rw [hiff]
        simp
      | false =>
        rcases ih (decide (m.offset % n ≠ 0)) hrest with ⟨b, hb, hiff⟩
        refine ⟨b, ?_, ?_⟩
        · simp only [Bool.false_eq_true, if_false, hn, bind_some, if_neg hpos.ne']
          exact hb
        · rw [hiff, decide_eq_true_eq]
          simp only [mem_cons, exists_eq_or_imp, hn, some.injEq, Bool.false_eq_true,
            false_or, Nat.dvd_iff_mod_eq_zero, ne_eq]
          constructor
          · rintro (h | h)
            · exact Or.inl ⟨n, rfl, h⟩
            · exact Or.inr h
          · rintro (⟨n', rfl, h⟩ | h)
            · exact Or.inl h
            · exact Or.inr h
  rcases hloop t.members false hmembers with ⟨b, hb, hiff⟩
  refine ⟨b, ?_, by simpa using hiff⟩
  rw [hasUnalignedFields, ht]
  exact hb

/-- What the amended rule asks of a struct or union that the type module laid out: the size
of a member is a multiple of its alignment, a member at a multiple of its alignment is at one of
its size, and then all scalars are placed, none of them a `_Bool`. -/
structure LaidOut (types : TypeTable) (t : Typetree) (parts : List ScalarPart) : Prop where
  members : ∀ m ∈ t.members, ∃ n a, sizeOf types m.type = some n ∧ 0 < n ∧
    typeAlignment types m.type = some a ∧ a ∣ n
  spaced : ∀ m ∈ t.members, ∀ n a, sizeOf types m.type = some n →
    typeAlignment types m.type = some a → a ∣ m.offset → n ∣ m.offset
  placed : ¬ Misaligned types t → ∀ p ∈ parts, p.Placed t.size
  bool : ∀ p ∈ parts, p.kind ≠ .bool

theorem LaidOut.unaligned_iff {types : TypeTable}
    (h : LaidOut types t parts) :
    (∃ m ∈ t.members, ∃ n, sizeOf types m.type = some n ∧ ¬ n ∣ m.offset) ↔
      Misaligned types t := by
  constructor
  · rintro ⟨m, hm, n, hn, hoffset⟩
    rcases h.members m hm with ⟨n', a, -, -, ha, -⟩
    exact ⟨m, hm, a, ha, fun hdvd => hoffset (h.spaced m hm n a hn ha hdvd)⟩
  · rintro ⟨m, hm, a, ha, hoffset⟩
    rcases h.members m hm with ⟨n, a', hn, -, ha', hdvd⟩
    cases ha.symm.trans ha'
    exact ⟨m, hm, n, hn, fun hsize => hoffset (hdvd.trans hsize)⟩

theorem sizeOf_aggregate {types : TypeTable}
    (hkind : type.isStructOrUnion = true) (ht : getTypetreeHandle types type.ref = some t) :
    sizeOf types type = some t.size := by
  simp only [CType.isStructOrUnion, CType.isStruct, CType.isUnion, Bool.or_eq_true,
    decide_eq_true_eq] at hkind
  unfold sizeOf sizeOfAux
  rcases hkind with h | h <;> simp only [h, ht, map_some]

theorem classify_aggregate {types : TypeTable}
    (hkind : type.isStructOrUnion = true) (ht : getTypetreeHandle types type.ref = some t)
    (hflexible : t.isFlexible = false) :
    classify types type =
      if eightbytes t.size ≤ 4 then
        (hasUnalignedFields types type).bind fun unaligned =>
          if unaligned then some noClasses.setMemory
          else (flatten types noClasses type 0).map fun pc => merge pc (eightbytes t.size)
      else some noClasses.setMemory := by
  have hflex : isFlexible types type = some false := by
    rw [isFlexible, if_pos hkind, ht, map_some, hflexible]
  have hsize := sizeOf_aggregate hkind ht
  have hor := hkind
  simp only [CType.isStructOrUnion, CType.isStruct, CType.isUnion, Bool.or_eq_true,
    decide_eq_true_eq] at hkind
  unfold classify
  rw [hsize]
  rcases hkind with h | h <;>
    simp [CType.isFunction, CType.isInteger, CType.isPointerType, CType.isDouble, CType.isFloat,
      CType.isLongDouble, CType.isVoid, h, hor, hflex, TypeKind.code]

/-- For every struct or union without a flexible member that is laid out naturally, the classes
are those of the ABI. -/
theorem classify_abi {types : TypeTable} {type : CType} {t : Typetree} {parts : List ScalarPart}
    (hkind : type.isStructOrUnion = true) (ht : getTypetreeHandle types type.ref = some t)
    (hflexible : t.isFlexible = false) (hparts : scalarParts types type = some parts)
    (hlaid : LaidOut types t parts) :
    ∃ pc, classify types type = some pc ∧
      (pc.get 0 = .memory ↔ 16 < t.size ∨ Misaligned types t ∨
        MergedToMemory parts (eightbytes t.size)) ∧
      (pc.get 0 ≠ .memory → ∀ j < eightbytes t.size, pc.get j = abiClass parts j) ∧
      (MergedToMemory parts (eightbytes t.size) → ∃ p ∈ parts, p.kind = .ldouble) := by
  have hsizes : ∀ m ∈ t.members, ∃ n, sizeOf types m.type = some n ∧ 0 < n := by
    intro m hm
    rcases hlaid.members m hm with ⟨n, a, hn, hpos, -, -⟩
    exact ⟨n, hn, hpos⟩
  have hmemory : noClasses.setMemory.get 0 = .memory := rfl
  rw [classify_aggregate hkind ht hflexible]
  by_cases hlarge : eightbytes t.size ≤ 4
  · rw [if_pos hlarge]
    rcases hasUnalignedFields_spec ht hsizes with ⟨b, hb, hiff⟩
    rw [hlaid.unaligned_iff] at hiff
    rw [hb, bind_some]
    by_cases hmis : Misaligned types t
    · rw [if_pos (hiff.mpr hmis)]
      refine ⟨_, rfl, ?_, fun hne => absurd hmemory hne, fun h => h.exists_ldouble⟩
      exact ⟨fun _ => Or.inr (Or.inl hmis), fun _ => hmemory⟩
    · rw [if_neg (fun h => hmis (hiff.mp h))]
      have hplaced := hlaid.placed hmis
      have hoffset : ∀ p ∈ parts, p.offset / 8 < 4 := by
        intro p hp
        have hinside := (hplaced p hp).inside
        have hpositive := (hplaced p hp).positive
        unfold eightbytes at hlarge
        omega
      rcases flattenParts_spec noClasses (fun p hp => (hplaced p hp).positive) hlaid.bool hoffset
        with ⟨pc, hpc, hget⟩
      have hclass : ∀ j < 4, pc.get j = abiClass parts j := by
        intro j hj
        have hnone : noClasses.get j = .noClass := by simp [Eightbytes.get, noClasses]
        rw [hget j hj, abiClass_eq hplaced hlaid.bool, hnone]
      refine ⟨merge pc (eightbytes t.size), ?_, ?_, ?_, fun h => h.exists_ldouble⟩
      · rw [flatten, flattenAux_eq hparts, hpc, map_some]
      · by_cases hsmall : eightbytes t.size ≤ 2
        · have hmerge := mergesToMemory_iff hsmall fun j hj => hclass j (by omega)
          have hsize : ¬ 16 < t.size := by
            unfold eightbytes at hsmall
            omega
          unfold merge
          by_cases hmerged : MergedToMemory parts (eightbytes t.size)
          · rw [if_pos (hmerge.mpr hmerged)]
            exact ⟨fun _ => Or.inr (Or.inr hmerged), fun _ => rfl⟩
          · rw [if_neg (fun h => hmerged (hmerge.mp h))]
            constructor
            · intro hzero
              rw [hclass 0 (by decide)] at hzero
              refine Or.inr (Or.inr ⟨0, ?_, Or.inl hzero⟩)
              by_contra hnone
              have hnil : parts = [] := by
                rw [eq_nil_iff_forall_not_mem]
                intro p hp
                have hinside := (hplaced p hp).inside
                have hpositive := (hplaced p hp).positive
                unfold eightbytes at hnone
                omega
              rw [hnil] at hzero
              exact absurd hzero (by decide)
            · rintro (h | h | h)
              · exact absurd h hsize
              · exact absurd h hmis
              · exact absurd h hmerged
        · have hmerge : mergesToMemory pc (eightbytes t.size) = true := by
            refine mergesToMemory_of_large (by omega) fun j hj => ?_
            rw [hclass j (by omega)]
            exact regular_abiClass hplaced hlaid.bool j
          rw [merge, if_pos hmerge]
          refine ⟨fun _ => Or.inl ?_, fun _ => rfl⟩
          unfold eightbytes at hsmall
          omega
      · intro hne j hj
        unfold merge at hne ⊢
        split
        · rename_i hmerge
          rw [if_pos hmerge] at hne
          exact absurd rfl hne
        · exact hclass j (by omega)
  · rw [if_neg hlarge]
    refine ⟨_, rfl, ?_, fun hne => absurd hmemory hne, fun h => h.exists_ldouble⟩
    refine ⟨fun _ => Or.inl ?_, fun _ => hmemory⟩
    unfold eightbytes at hlarge
    omega

/-- A struct of a `double` and an `int`. -/
def doubleAndInt : Typetree :=
  { type := .struct, size := 16
    members := [{ name := "d", type := basicTypeDouble },
      { name := "i", type := basicTypeInt, offset := 8 }] }

/-- The `double` is of class SSE and the `int` of class INTEGER. -/
theorem classify_doubleAndInt :
    ∃ pc, classify [doubleAndInt] { type := .struct, ref := 1 } = some pc ∧
      pc.get 0 = .sse ∧ pc.get 1 = .integer := by
  have hparts : scalarParts [doubleAndInt] { type := .struct, ref := 1 } =
      some [scalarPart .double 0, scalarPart .int 8] := by rfl
  have hlaid : LaidOut [doubleAndInt] doubleAndInt [scalarPart .double 0, scalarPart .int 8] := by
    refine ⟨?_, ?_, fun _ => ?_, by decide⟩
    · intro m hm
      rcases mem_pair.mp hm with rfl | rfl
      · exact ⟨8, 8, rfl, by decide, rfl, by decide⟩
      · exact ⟨4, 4, rfl, by decide, rfl, by decide⟩
    · intro m hm n a hn _ _
      rcases mem_pair.mp hm with rfl | rfl
      · exact Nat.dvd_zero n
      · cases hn
        decide
    · intro p hp
      rcases mem_pair.mp hp with rfl | rfl
      · exact ⟨by decide, by decide, by decide, Or.inl rfl⟩
      · exact ⟨by decide, by decide, by decide, Or.inl rfl⟩
  rcases classify_abi (by rfl) (by rfl) (by rfl) hparts hlaid with
    ⟨pc, hpc, hmemory, hclass, hldouble⟩
  have haligned : ¬ Misaligned [doubleAndInt] doubleAndInt := by
    rintro ⟨m, hm, a, ha, hoffset⟩
    rcases mem_pair.mp hm with rfl | rfl
    · exact hoffset (Nat.dvd_zero a)
    · cases ha
      exact hoffset (by decide)
  have hne : pc.get 0 ≠ .memory := by
    intro h
    rcases hmemory.mp h with h | h | h
    · exact absurd h (by decide)
    · exact haligned h
    · rcases hldouble h with ⟨p, hp, hkind⟩
      rcases mem_pair.mp hp with rfl | rfl <;> cases hkind
  refine ⟨pc, hpc, ?_, ?_⟩
  · rw [hclass hne 0 (by decide)]
    decide
  · rw [hclass hne 1 (by decide)]
    decide

/-- The classes are those of the merge rule, and memory is for types that are large or
misaligned. -/
def FollowsAbi (types : TypeTable) (type : CType) (t : Typetree) (parts : List ScalarPart) :
    Prop :=
  ∃ pc, classify types type = some pc ∧
    (pc.get 0 = .memory ↔ 16 < t.size ∨ Misaligned types t) ∧
    (pc.get 0 ≠ .memory → ∀ j < eightbytes t.size, pc.get j = abiClass parts j)

/-- A struct of an `int` and a flexible array of such. -/
def flexibleStruct : Typetree :=
  { type := .struct, size := 4, isFlexible := true
    members := [{ name := "n", type := basicTypeInt },
      { name := "a", type := { type := .array, ref := 1 }, offset := 4 }] }

/-- A struct of one `_Bool`. -/
def boolStruct : Typetree :=
  { type := .struct, size := 1, members := [{ name := "b", type := basicTypeBool }] }

/-- A struct of an `int` and an array of three. -/
def arrayStruct : Typetree :=
  { type := .struct, size := 16
    members := [{ name := "n", type := basicTypeInt },
      { name := "a", type := { type := .array, ref := 1 }, offset := 4 }] }

/-- A flexible member sends a small struct to memory, a `_Bool` fails an assertion, and an
array behind an `int` counts as misaligned. -/
theorem classify_not_abi :
    ¬ FollowsAbi [{ type := .array, size := 0, next := basicTypeInt }, flexibleStruct]
        { type := .struct, ref := 2 } flexibleStruct [scalarPart .int 0] ∧
      ¬ FollowsAbi [boolStruct] { type := .struct, ref := 1 } boolStruct [scalarPart .bool 0] ∧
      ¬ FollowsAbi [{ type := .array, size := 3, next := basicTypeInt }, arrayStruct]
        { type := .struct, ref := 2 } arrayStruct
        [scalarPart .int 0, scalarPart .int 4, scalarPart .int 8, scalarPart .int 12] := by
  have haligned : ∀ t : Typetree, ∀ table,
      t.members = [{ name := "n", type := basicTypeInt },
        { name := "a", type := { type := .array, ref := 1 }, offset := 4 }] →
      typeAlignment table { type := .array, ref := 1 } = some 4 → ¬ Misaligned table t := by
    rintro t table ht halign ⟨m, hm, a, ha, hoffset⟩
    rw [ht] at hm
    rcases mem_pair.mp hm with rfl | rfl
    · exact hoffset (Nat.dvd_zero a)
    · rw [halign] at ha
      cases ha
      exact hoffset (by decide)
  refine ⟨?_, ?_, ?_⟩
  · rintro ⟨pc, hpc, hmemory, -⟩
    have hcode : classify [{ type := .array, size := 0, next := basicTypeInt }, flexibleStruct]
        { type := .struct, ref := 2 } = some noClasses.setMemory := by rfl
    cases hcode.symm.trans hpc
    rcases hmemory.mp rfl with h | h
    · exact absurd h (by decide)
    · exact haligned _ _ rfl rfl h
  · rintro ⟨pc, hpc, -⟩
    have hcode : classify [boolStruct] { type := .struct, ref := 1 } = none := by rfl
    rw [hcode] at hpc
    cases hpc
  · rintro ⟨pc, hpc, hmemory, -⟩
    have hcode : classify [{ type := .array, size := 3, next := basicTypeInt }, arrayStruct]
        { type := .struct, ref := 2 } = some noClasses.setMemory := by rfl
    cases hcode.symm.trans hpc
    rcases hmemory.mp rfl with h | h
    · exact absurd h (by decide)
    · exact haligned _ _ rfl rfl h

end Kcs.Jit
