import Kcs.Types.Conversion

/-!
# Declaration specifiers

`declaration_specifiers` reads specifiers in any order and keeps a base type, a modifier and a
sign.  Each keyword decides by these whether it belongs to the same type; with a keyword that does
not the loop ends.

Main results:

- Theorem {lit}`specifiers_any_order_iff`: the lists of specifiers for which the order does not
  matter and nothing else is accepted.
- Theorem {lit}`specifiers_rejected`: combinations in an order that is not accepted, and keywords
  that are no combination and are accepted.
-/

namespace Kcs

open Option List

/-! ## Qualifiers -/

/-- `type_set_const` -/
def typeSetConst (type : CType) : CType :=
  if type.isPointer then { type with isPointerConst := true } else { type with isConst := true }

/-- `type_set_volatile` -/
def typeSetVolatile (type : CType) : CType :=
  if type.isPointer then { type with isPointerVolatile := true }
  else { type with isVolatile := true }

/-! ## The source -/

/-- A storage class. -/
inductive StorageClass
  | auto
  | static
  | external
  | typedef
deriving DecidableEq, Repr

/-- The tokens on which `declaration_specifiers` decides.  A name comes with the type that it stands
for, if it is one of a typedef; a specifier of a structure or union comes with its type, and one of
an enumeration is taken as a whole. -/
inductive SpecToken
  | void
  | bool
  | char
  | short
  | int
  | long
  | signed
  | unsigned
  | float
  | double
  | const
  | volatile
  | identifier (type : Option CType)
  | structOrUnion (type : CType)
  | enum
  | inline
  | register
  | storage (c : StorageClass)
  | other
deriving DecidableEq, Repr

/-- The variable `base`. -/
inductive SpecBase
  | none
  | void
  | bool
  | char
  | int
  | float
  | double
  | enum
  | aggregate
deriving DecidableEq, Repr

/-- The variable `modifier`. -/
inductive SpecModifier
  | none
  | short
  | long
  | longLong
deriving DecidableEq, Repr

/-- The variable `sign`. -/
inductive SpecSign
  | none
  | signed
  | unsigned
deriving DecidableEq, Repr

/-- Which of the pointers that `declaration_specifiers` gets are not null. -/
structure SpecParams where
  storageClass : Bool
  isInline : Bool
  isRegister : Bool

/-- The variables of the loop, and the errors that are reported. -/
structure SpecState where
  base : SpecBase := .none
  modifier : SpecModifier := .none
  sign : SpecSign := .none
  isConst : Bool := false
  isVolatile : Bool := false
  type : CType := { type := .void }
  storageClass : Option StorageClass := .none
  isInline : Bool := false
  isRegister : Bool := false
  errors : List String := []
deriving DecidableEq, Repr

/-- Has nothing of the type been read? -/
def SpecState.blank (s : SpecState) : Bool :=
  s.base = .none ∧ s.modifier = .none ∧ s.sign = .none

/-- `error` -/
def SpecState.error (s : SpecState) (message : String) : SpecState :=
  { s with errors := s.errors ++ [message] }

/-- One token; {lit}`none` ends the loop. -/
def specStep (p : SpecParams) (s : SpecState) : SpecToken → Option SpecState
  | .void => if s.blank then some { s with base := .void } else none
  | .bool => if s.blank then some { s with base := .bool } else none
  | .char =>
    if s.base ≠ .none ∨ s.modifier ≠ .none then none else some { s with base := .char }
  | .short =>
    if s.modifier ≠ .none ∨ (s.base ≠ .none ∧ s.base ≠ .int) then none
    else some { s with modifier := .short }
  | .int => if s.base ≠ .none then none else some { s with base := .int }
  | .long =>
    if (s.base ≠ .none ∧ (s.base ≠ .int ∨ s.base ≠ .double)) ∨
        (s.modifier ≠ .none ∧ s.modifier ≠ .long) then none
    else some { s with modifier := if s.modifier = .long then .longLong else .long }
  | .signed =>
    some (match s.sign with
      | .signed => s.error "Duplicate 'signed' specifier."
      | .unsigned => s.error "Conflicting 'signed' and 'unsigned' specifiers."
      | .none => { s with sign := .signed })
  | .unsigned =>
    some (match s.sign with
      | .unsigned => s.error "Duplicate 'unsigned' specifier."
      | .signed => s.error "Conflicting 'signed' and 'unsigned' specifiers."
      | .none => { s with sign := .unsigned })
  | .float => if s.blank then some { s with base := .float } else none
  | .double =>
    if s.base ≠ .none ∨ (s.modifier ≠ .none ∧ s.modifier ≠ .long) ∨ s.sign ≠ .none then none
    else some { s with base := .double }
  | .const => some { s with isConst := true }
  | .volatile => some { s with isVolatile := true }
  | .identifier type =>
    match type with
    | some type => if s.blank then some { s with type := type, base := .aggregate } else none
    | none => none
  | .structOrUnion type =>
    if s.blank then some { s with type := type, base := .aggregate } else none
  | .enum => if s.blank then some { s with base := .enum } else none
  | .inline =>
    some (if !p.isInline then s.error "Unexpected 'inline' specifier."
      else if s.isInline then s.error "Multiple 'inline' specifiers."
      else { s with isInline := true })
  | .register =>
    some (if !p.isRegister then s.error "Unexpected 'register' specifier."
      else if s.isRegister then s.error "Multiple 'register' specifiers."
      else { s with isRegister := true })
  | .storage c =>
    some (if !p.storageClass then s.error "Unexpected storage class in qualifier list."
      else if s.storageClass ≠ none then s.error "Multiple storage class specifiers."
      else { s with storageClass := some c })
  | .other => none

/-- The loop, with the tokens that are left. -/
def specLoop (p : SpecParams) (s : SpecState) : List SpecToken → SpecState × List SpecToken
  | [] => (s, [])
  | t :: ts =>
    match specStep p s t with
    | some s => specLoop p s ts
    | none => (s, t :: ts)

/-- The type, without qualifiers, after the loop. -/
def SpecState.baseType (s : SpecState) : CType :=
  match s.base with
  | .aggregate => s.type
  | .void => { s.type with type := .void }
  | .bool => { s.type with type := .bool }
  | .char => { s.type with type := .char, isUnsigned := s.sign = .unsigned }
  | .enum | .none | .int =>
    { s.type with
      type :=
        match s.modifier with
        | .short => .short
        | .long | .longLong => .long
        | .none => .int
      isUnsigned := s.sign = .unsigned }
  | .float => { s.type with type := .float }
  | .double => { s.type with type := .double }

/-- A type with qualifiers. -/
def qualify (isConst isVolatile : Bool) (type : CType) : CType :=
  let type := if isConst then typeSetConst type else type
  if isVolatile then typeSetVolatile type else type

/-- `declaration_specifiers`: the type, the errors, and the tokens that are left. -/
def declarationSpecifiers (p : SpecParams) (ts : List SpecToken) :
    CType × SpecState × List SpecToken :=
  let (s, rest) := specLoop p {} ts
  (qualify s.isConst s.isVolatile s.baseType, s, rest)

/-! ## What is claimed -/

/-- The combinations of keywords that the source lists, with their types. -/
def listedCombinations : List (List SpecToken × CType) :=
  let signed (kind : TypeKind) : CType := { type := kind }
  let unsigned (kind : TypeKind) : CType := { type := kind, isUnsigned := true }
  [([.void], signed .void),
    ([.char], signed .char), ([.signed, .char], signed .char), ([.unsigned, .char], unsigned .char),
    ([.short], signed .short), ([.signed, .short], signed .short),
    ([.short, .int], signed .short), ([.signed, .short, .int], signed .short),
    ([.unsigned, .short], unsigned .short), ([.unsigned, .short, .int], unsigned .short),
    ([.int], signed .int), ([.signed], signed .int), ([.signed, .int], signed .int),
    ([.unsigned], unsigned .int), ([.unsigned, .int], unsigned .int),
    ([.long], signed .long), ([.signed, .long], signed .long), ([.long, .int], signed .long),
    ([.signed, .long, .int], signed .long),
    ([.unsigned, .long], unsigned .long), ([.unsigned, .long, .int], unsigned .long),
    ([.long, .long], signed .long), ([.signed, .long, .long], signed .long),
    ([.long, .long, .int], signed .long), ([.signed, .long, .long, .int], signed .long),
    ([.unsigned, .long, .long], unsigned .long), ([.unsigned, .long, .long, .int], unsigned .long),
    ([.float], signed .float), ([.double], signed .double), ([.long, .double], signed .double),
    ([.bool], signed .bool)]

/-- The keywords that make up a type.  The type of `long double` is that of `double`. -/
inductive Combination : List SpecToken → CType → Prop
  | listed {ks : List SpecToken} {type : CType} (h : (ks, type) ∈ listedCombinations) :
      Combination ks type
  | aggregate (type : CType) : Combination [.structOrUnion type] type
  | enum : Combination [.enum] { type := .int }
  | name (type : CType) : Combination [.identifier (some type)] type

/-- The order of keywords does not matter for a type. -/
def MakesUp (ks : List SpecToken) (type : CType) : Prop :=
  ∃ cs, Combination cs type ∧ ks.Perm cs

/-- `const` and `volatile`. -/
def SpecToken.isQualifier : SpecToken → Bool
  | .const | .volatile => true
  | _ => false

/-- A keyword of a type, a name of a type, or a specifier with a tag. -/
def SpecToken.isKeyword : SpecToken → Bool
  | .identifier none | .inline | .register | .storage _ | .other | .const | .volatile => false
  | _ => true

/-- The keywords of a list. -/
def keywords (ts : List SpecToken) : List SpecToken := ts.filter fun t => !t.isQualifier

/-- The list is consumed without an error. -/
def Accepts (p : SpecParams) (ts : List SpecToken) (type : CType) : Prop :=
  ∃ s, declarationSpecifiers p ts = (type, s, []) ∧ s.errors = []

/-- Keywords are accepted in any order when they make up a type, which is the type that is returned,
and are not accepted when they make up none. -/
def AnyOrder (p : SpecParams) (ts : List SpecToken) : Prop :=
  (∀ type, MakesUp (keywords ts) type →
    Accepts p ts (qualify (SpecToken.const ∈ ts) (SpecToken.volatile ∈ ts) type)) ∧
  ((¬ ∃ type, MakesUp (keywords ts) type) → ¬ ∃ type, Accepts p ts type)

/-- A `long` comes after an `int` or a `double`. -/
def LongAfterBase : List SpecToken → Prop
  | [] => False
  | t :: ts => (t = .int ∨ t = .double) ∧ SpecToken.long ∈ ts ∨ LongAfterBase ts

instance : (ks : List SpecToken) → Decidable (LongAfterBase ks)
  | [] => inferInstanceAs (Decidable False)
  | _ :: ts =>
    have := instDecidableLongAfterBase ts
    inferInstanceAs (Decidable (_ ∨ _))

/-- A keyword, or specifier, that takes no sign. -/
def SpecToken.isUnsignable : SpecToken → Bool
  | .void | .bool | .float | .double | .enum | .structOrUnion _ | .identifier (some _) => true
  | _ => false

/-- `signed` or `unsigned` -/
def SpecToken.isSign : SpecToken → Bool
  | .signed | .unsigned => true
  | _ => false

/-- A sign comes after a type that takes none. -/
def SignAfterBase (ks : List SpecToken) : Prop :=
  (∃ base sign, ks = [base, sign] ∧ base.isUnsignable ∧ sign.isSign) ∨
    ∃ sign, ks = [.long, .double, sign] ∧ sign.isSign

/-! ## Lists that are consumed -/

variable {p : SpecParams} {s t : SpecState} {tok : SpecToken} {ts ks rest : List SpecToken}
  {type : CType}

/-- One token that is read without an error. -/
def cleanStep (p : SpecParams) (s : SpecState) (tok : SpecToken) : Option SpecState :=
  (specStep p s tok).filter fun t => t.errors = []

theorem specStep_errors (h : specStep p s tok = some t) (herrors : s.errors ≠ []) :
    t.errors ≠ [] := by
  have herror : ∀ message, (s.error message).errors ≠ [] := by simp [SpecState.error]
  cases tok <;> simp only [specStep] at h
  case signed | unsigned =>
    cases h
    split <;> first | exact herror _ | exact herrors
  case inline | register | storage =>
    cases h
    split
    · exact herror _
    · split <;> first | exact herror _ | exact herrors
  case identifier type =>
    cases type with
    | none => cases h
    | some type =>
      simp only at h
      split at h <;> cases h
      exact herrors
  case const | volatile =>
    cases h
    exact herrors
  case other => cases h
  all_goals
    split at h <;> cases h
    exact herrors

theorem specLoop_errors (h : specLoop p s ts = (t, rest)) (herrors : s.errors ≠ []) :
    t.errors ≠ [] := by
  induction ts generalizing s with
  | nil =>
    cases h
    exact herrors
  | cons tok ts ih =>
    rw [specLoop] at h
    split at h
    · rename_i s' hstep
      exact ih h (specStep_errors hstep herrors)
    · cases h
      exact herrors

theorem specLoop_iff :
    specLoop p s ts = (t, []) ∧ t.errors = [] ↔
      s.errors = [] ∧ ts.foldlM (cleanStep p) s = some t := by
  induction ts generalizing s with
  | nil =>
    simp only [specLoop, Prod.mk.injEq, and_true, foldlM_nil]
    constructor
    · rintro ⟨rfl, herrors⟩
      exact ⟨herrors, rfl⟩
    · rintro ⟨herrors, heq⟩
      cases heq
      exact ⟨rfl, herrors⟩
  | cons tok ts ih =>
    rw [specLoop, foldlM_cons]
    cases hstep : specStep p s tok with
    | none => simp [cleanStep, hstep]
    | some s' =>
      simp only [cleanStep, hstep]
      by_cases herrors' : s'.errors = []
      · have herrors : s.errors = [] := by
          by_contra hne
          exact specStep_errors hstep hne herrors'
        simp [Option.filter, herrors', herrors, ih]
      · simp only [Option.filter, herrors', decide_false, Bool.false_eq_true, if_false]
        constructor
        · rintro ⟨hloop, herrors⟩
          exact absurd herrors (specLoop_errors hloop herrors')
        · rintro ⟨-, hnone⟩
          cases hnone

/-! ## Qualifiers -/

/-- A state with other qualifiers. -/
def SpecState.withQualifiers (s : SpecState) (isConst isVolatile : Bool) : SpecState :=
  { s with isConst := isConst, isVolatile := isVolatile }

theorem specStep_withQualifiers (htok : tok.isKeyword = true) (c v : Bool) :
    specStep p (s.withQualifiers c v) tok =
      (specStep p s tok).map fun t => t.withQualifiers c v := by
  cases tok
  case identifier type =>
    cases type with
    | none => cases htok
    | some type =>
      simp only [specStep]
      rw [apply_ite (Option.map _)]
      rfl
  case signed | unsigned =>
    rcases s with ⟨base, modifier, sign⟩
    cases sign <;> rfl
  case inline | register | storage | other | const | volatile => cases htok
  all_goals
    simp only [specStep]
    rw [apply_ite (Option.map _)]
    rfl

theorem cleanStep_withQualifiers (htok : tok.isKeyword = true) (c v : Bool) :
    cleanStep p (s.withQualifiers c v) tok =
      (cleanStep p s tok).map fun t => t.withQualifiers c v := by
  unfold cleanStep
  rw [specStep_withQualifiers htok]
  cases specStep p s tok with
  | none => rfl
  | some t =>
    simp only [map_some, filter_some, SpecState.withQualifiers]
    split <;> rfl

/-- The order of qualifiers and keywords does not matter. -/
theorem foldlM_keywords (hts : ∀ t ∈ ts, t.isKeyword = true ∨ t.isQualifier = true)
    (herrors : s.errors = []) (c v : Bool) :
    ts.foldlM (cleanStep p) (s.withQualifiers c v) =
      ((keywords ts).foldlM (cleanStep p) s).map fun t =>
        t.withQualifiers (c || SpecToken.const ∈ ts) (v || SpecToken.volatile ∈ ts) := by
  induction ts generalizing s c v with
  | nil => simp [keywords]
  | cons tok ts ih =>
    have hrest := fun t ht => hts t (mem_cons_of_mem _ ht)
    rw [foldlM_cons]
    rcases hts tok mem_cons_self with hkey | hqual
    · have hno : tok.isQualifier = false := by
        cases tok <;> first | rfl | cases hkey
      have hkeep : keywords (tok :: ts) = tok :: keywords ts := by simp [keywords, hno]
      have hconst : (SpecToken.const ∈ tok :: ts) ↔ SpecToken.const ∈ ts := by
        rw [mem_cons, or_iff_right]
        rintro rfl
        cases hkey
      have hvolatile : (SpecToken.volatile ∈ tok :: ts) ↔ SpecToken.volatile ∈ ts := by
        rw [mem_cons, or_iff_right]
        rintro rfl
        cases hkey
      rw [cleanStep_withQualifiers hkey, hkeep, foldlM_cons]
      simp only [hconst, hvolatile]
      cases hstep : cleanStep p s tok with
      | none => rfl
      | some t =>
        have ht : t.errors = [] := by simpa using (filter_eq_some_iff.mp hstep).2
        exact ih hrest ht c v
    · have hkeep : keywords (tok :: ts) = keywords ts := by simp [keywords, hqual]
      rw [hkeep]
      cases tok
      case const =>
        have hstep : cleanStep p (s.withQualifiers c v) .const = some (s.withQualifiers true v) := by
          simp [cleanStep, specStep, SpecState.withQualifiers, Option.filter, herrors]
        rw [hstep]
        simp only [mem_cons, true_or, decide_true, Bool.or_true, reduceCtorEq, false_or]
        simpa using ih hrest herrors true v
      case volatile =>
        have hstep : cleanStep p (s.withQualifiers c v) .volatile =
            some (s.withQualifiers c true) := by
          simp [cleanStep, specStep, SpecState.withQualifiers, Option.filter, herrors]
        rw [hstep]
        simp only [mem_cons, true_or, decide_true, Bool.or_true, reduceCtorEq, false_or]
        simpa using ih hrest herrors c true
      all_goals cases hqual

theorem accepts_iff (hts : ∀ t ∈ ts, t.isKeyword = true ∨ t.isQualifier = true) :
    Accepts p ts type ↔ ∃ t, (keywords ts).foldlM (cleanStep p) {} = some t ∧
      type = qualify (SpecToken.const ∈ ts) (SpecToken.volatile ∈ ts) t.baseType := by
  have hfold := foldlM_keywords (p := p) hts (s := {}) rfl false false
  have hstart : ({} : SpecState).withQualifiers false false = {} := rfl
  simp only [hstart, Bool.false_or] at hfold
  constructor
  · rintro ⟨s, hdecl, herrors⟩
    simp only [declarationSpecifiers, Prod.mk.injEq] at hdecl
    rcases hdecl with ⟨rfl, rfl, hrest⟩
    have hloop : specLoop p {} ts = ((specLoop p {} ts).1, []) := by rw [← hrest]
    have hread := (specLoop_iff.mp ⟨hloop, herrors⟩).2
    rw [hfold] at hread
    rcases map_eq_some_iff.mp hread with ⟨t, ht, heq⟩
    refine ⟨t, ht, ?_⟩
    rw [← heq]
    rfl
  · rintro ⟨t, ht, rfl⟩
    rw [ht, map_some] at hfold
    have hloop := specLoop_iff.mpr ⟨rfl, hfold⟩
    refine ⟨_, ?_, hloop.2⟩
    rw [declarationSpecifiers, hloop.1]
    rfl

/-! ## What has been read -/

/-- The keywords of a sign. -/
def signTokens : SpecSign → List SpecToken
  | .none => []
  | .signed => [.signed]
  | .unsigned => [.unsigned]

/-- The keywords of a modifier. -/
def modifierTokens : SpecModifier → List SpecToken
  | .none => []
  | .short => [.short]
  | .long => [.long]
  | .longLong => [.long, .long]

/-- The keywords of a base. -/
def BaseTokens (s : SpecState) (bs : List SpecToken) : Prop :=
  match s.base with
  | .none => bs = []
  | .void => bs = [.void]
  | .bool => bs = [.bool]
  | .char => bs = [.char]
  | .int => bs = [.int]
  | .float => bs = [.float]
  | .double => bs = [.double]
  | .enum => bs = [.enum]
  | .aggregate => bs = [.structOrUnion s.type] ∨ bs = [.identifier (some s.type)]

/-- A sign may come before or after the base. -/
def SpecBase.takesSign : SpecBase → Bool
  | .none | .char | .int => true
  | _ => false

/-- The keywords that lead to a state. -/
structure Reads (ks : List SpecToken) (s : SpecState) : Prop where
  tokens : ∃ bs, BaseTokens s bs ∧
    if s.base.takesSign then ks.Perm (signTokens s.sign ++ modifierTokens s.modifier ++ bs)
    else ks = modifierTokens s.modifier ++ bs ++ signTokens s.sign
  modifier : s.base = .none ∨ s.base = .int ∨ s.modifier = .none ∨
    s.base = .double ∧ s.modifier = .long
  order : ¬ LongAfterBase ks
  type : s.base ≠ .aggregate → s.type = { type := .void }

theorem longAfterBase_append :
    LongAfterBase (ks ++ [tok]) ↔
      LongAfterBase ks ∨ tok = .long ∧ (SpecToken.int ∈ ks ∨ SpecToken.double ∈ ks) := by
  induction ks with
  | nil => simp [LongAfterBase]
  | cons k ks ih =>
    simp only [cons_append, LongAfterBase, ih, mem_append, mem_cons, not_mem_nil, or_false]
    constructor
    · rintro (⟨hk, hlong | hlong⟩ | hrest | ⟨hlong, hint | hdouble⟩)
      · exact Or.inl (Or.inl ⟨hk, hlong⟩)
      · rcases hk with rfl | rfl
        · exact Or.inr ⟨hlong.symm, Or.inl (Or.inl rfl)⟩
        · exact Or.inr ⟨hlong.symm, Or.inr (Or.inl rfl)⟩
      · exact Or.inl (Or.inr hrest)
      · exact Or.inr ⟨hlong, Or.inl (Or.inr hint)⟩
      · exact Or.inr ⟨hlong, Or.inr (Or.inr hdouble)⟩
    · rintro ((⟨hk, hlong⟩ | hrest) | ⟨rfl, (hint | hint) | (hdouble | hdouble)⟩)
      · exact Or.inl ⟨hk, Or.inl hlong⟩
      · exact Or.inr (Or.inl hrest)
      · exact Or.inl ⟨Or.inl hint.symm, Or.inr rfl⟩
      · exact Or.inr (Or.inr ⟨rfl, Or.inl hint⟩)
      · exact Or.inl ⟨Or.inr hdouble.symm, Or.inr rfl⟩
      · exact Or.inr (Or.inr ⟨rfl, Or.inr hdouble⟩)

theorem Reads.order_append (h : Reads ks s) (htok : tok ≠ .long) :
    ¬ LongAfterBase (ks ++ [tok]) := by
  rw [longAfterBase_append]
  rintro (hold | ⟨hlong, -⟩)
  · exact h.order hold
  · exact htok hlong

theorem Reads.blank (h : Reads ks s) (hblank : s.blank = true) : ks = [] := by
  simp only [SpecState.blank, decide_eq_true_eq] at hblank
  rcases hblank with ⟨hbase, hmodifier, hsign⟩
  rcases h.tokens with ⟨bs, hbs, htokens⟩
  rw [BaseTokens, hbase] at hbs
  rw [hbase, hmodifier, hsign, hbs] at htokens
  exact perm_nil.mp htokens

theorem Reads.noBase (h : Reads ks s) (hbase : s.base = .none) :
    ks.Perm (signTokens s.sign ++ modifierTokens s.modifier) := by
  rcases h.tokens with ⟨bs, hbs, htokens⟩
  rw [BaseTokens, hbase] at hbs
  rw [hbase, hbs, append_nil] at htokens
  exact htokens

theorem Reads.begins (h : Reads ks s) (hblank : s.blank = true) (hsign : s.sign = .none)
    (hmodifier : s.modifier = .none) {base : SpecBase} (hbase : base.takesSign = false)
    (hbs : BaseTokens { s with base := base, type := type } [tok]) (htok : tok ≠ .long)
    (htype : base ≠ .aggregate → type = { type := .void }) :
    Reads (ks ++ [tok]) { s with base := base, type := type } := by
  refine ⟨⟨[tok], hbs, ?_⟩, Or.inr (Or.inr (Or.inl hmodifier)), h.order_append htok, htype⟩
  rw [h.blank hblank]
  simp [hbase, hsign, hmodifier, modifierTokens, signTokens]

/-- One keyword more. -/
theorem Reads.step (h : Reads ks s) (hstep : specStep p s tok = some t) (herrors : t.errors = [])
    (htok : tok.isKeyword = true) : Reads (ks ++ [tok]) t := by
  have hblank : s.blank = true → s.base = .none ∧ s.modifier = .none ∧ s.sign = .none := by
    simp [SpecState.blank]
  cases tok <;> simp only [specStep] at hstep
  case void | bool | float | enum =>
    split at hstep
    · rename_i hb
      rcases hblank hb with ⟨hbase, hmodifier, hsign⟩
      cases hstep
      exact h.begins hb hsign hmodifier rfl rfl (by simp) fun _ => h.type (by simp [hbase])
    · cases hstep
  case structOrUnion type =>
    split at hstep
    · rename_i hb
      rcases hblank hb with ⟨hbase, hmodifier, hsign⟩
      cases hstep
      exact h.begins hb hsign hmodifier rfl (Or.inl rfl) (by simp) fun hne => absurd rfl hne
    · cases hstep
  case identifier type =>
    cases type with
    | none => cases hstep
    | some type =>
      simp only at hstep
      split at hstep
      · rename_i hb
        rcases hblank hb with ⟨hbase, hmodifier, hsign⟩
        cases hstep
        exact h.begins hb hsign hmodifier rfl (Or.inr rfl) (by simp) fun hne => absurd rfl hne
      · cases hstep
  case char =>
    split at hstep
    · cases hstep
    rename_i hguard
    simp only [not_or, not_not] at hguard
    cases hstep
    have hperm := h.noBase hguard.1
    rw [hguard.2, modifierTokens, append_nil] at hperm
    refine ⟨⟨[.char], rfl, ?_⟩, Or.inr (Or.inr (Or.inl hguard.2)), h.order_append (by simp),
      fun _ => h.type (by simp [hguard.1])⟩
    simpa [SpecBase.takesSign, hguard.2, modifierTokens] using hperm.append_right [.char]
  case short =>
    split at hstep
    · cases hstep
    rename_i hguard
    simp only [not_or, not_and, not_not] at hguard
    cases hstep
    rcases h.tokens with ⟨bs, hbs, htokens⟩
    have hbase : s.base = .none ∨ s.base = .int := or_iff_not_imp_left.mpr hguard.2
    have hsigned : s.base.takesSign = true := by rcases hbase with hbase | hbase <;> rw [hbase] <;> rfl
    rw [if_pos hsigned, hguard.1, modifierTokens, append_nil] at htokens
    refine ⟨⟨bs, hbs, ?_⟩, by tauto, h.order_append (by simp), h.type⟩
    rw [if_pos hsigned]
    refine (htokens.append_right [.short]).trans ?_
    simp only [modifierTokens, append_assoc]
    exact perm_append_comm.append_left _
  case int =>
    split at hstep
    · cases hstep
    rename_i hguard
    rw [not_not] at hguard
    cases hstep
    refine ⟨⟨[.int], rfl, ?_⟩, Or.inr (Or.inl rfl), h.order_append (by simp),
      fun _ => h.type (by simp [hguard])⟩
    exact (h.noBase hguard).append_right [.int]
  case long =>
    split at hstep
    · cases hstep
    rename_i hguard
    simp only [not_or, not_and, not_not] at hguard
    cases hstep
    have hbase : s.base = .none := by
      by_contra hne
      have hboth := hguard.1 hne
      rw [hboth.1] at hboth
      cases hboth.2
    have hperm := h.noBase hbase
    have hno : ∀ k, k = .int ∨ k = .double → k ∉ ks := by
      intro k hk hmem
      have hmem' := hperm.subset hmem
      rcases hk with rfl | rfl <;>
        (rcases s with ⟨base, modifier, sign⟩; cases modifier <;> cases sign <;>
          simp [signTokens, modifierTokens] at hmem')
    refine ⟨⟨[], by simp [BaseTokens, hbase], ?_⟩, Or.inl hbase, ?_, h.type⟩
    · rw [if_pos (by simp [hbase, SpecBase.takesSign]), append_nil]
      refine (hperm.append_right [.long]).trans ?_
      rw [append_assoc]
      by_cases hlong : s.modifier = .long
      · simp [hlong, modifierTokens]
      · simp [not_imp_comm.mp hguard.2 hlong, modifierTokens]
    · rw [longAfterBase_append]
      rintro (hold | ⟨-, hint | hdouble⟩)
      · exact h.order hold
      · exact hno _ (Or.inl rfl) hint
      · exact hno _ (Or.inr rfl) hdouble
  case signed | unsigned =>
    cases hsign : s.sign <;> rw [hsign] at hstep <;> cases hstep
    case signed | unsigned => simp [SpecState.error] at herrors
    case none =>
      rcases h.tokens with ⟨bs, hbs, htokens⟩
      refine ⟨⟨bs, hbs, ?_⟩, h.modifier, h.order_append (by simp), h.type⟩
      rw [hsign] at htokens
      simp only
      split
      · rename_i hsigned
        rw [if_pos hsigned] at htokens
        exact (htokens.append_right _).trans perm_append_comm
      · rename_i hsigned
        rw [if_neg hsigned] at htokens
        rw [htokens]
        simp [signTokens]
  case double =>
    split at hstep
    · cases hstep
    rename_i hguard
    simp only [not_or, not_and, not_not] at hguard
    cases hstep
    have hperm := h.noBase hguard.1
    rw [hguard.2.2, signTokens, nil_append] at hperm
    have hmodifier : s.modifier = .none ∨ s.modifier = .long := or_iff_not_imp_left.mpr hguard.2.1
    have hks : ks = modifierTokens s.modifier := by
      rcases hmodifier with hmodifier | hmodifier <;> rw [hmodifier] at hperm ⊢
      · exact perm_nil.mp hperm
      · exact perm_singleton.mp hperm
    refine ⟨⟨[.double], rfl, ?_⟩, by tauto, h.order_append (by simp),
      fun _ => h.type (by simp [hguard.1])⟩
    rw [if_neg (by simp [SpecBase.takesSign]), hks, hguard.2.2]
    simp [signTokens]
  all_goals cases htok

theorem reads_nil : Reads [] {} :=
  ⟨⟨[], rfl, List.Perm.refl _⟩, Or.inl rfl, fun h => h, fun _ => rfl⟩

theorem reads_of_foldlM (hks : ∀ k ∈ ks, k.isKeyword = true)
    (h : ks.foldlM (cleanStep p) {} = some t) : Reads ks t := by
  induction ks using List.reverseRecOn generalizing t with
  | nil =>
    cases h
    exact reads_nil
  | append_singleton ks tok ih =>
    rw [foldlM_append] at h
    rcases bind_eq_some_iff.mp h with ⟨s, hs, hstep⟩
    have hread := ih (fun k hk => hks k (mem_append_left _ hk)) hs
    simp only [foldlM_cons, foldlM_nil] at hstep
    rcases bind_eq_some_iff.mp hstep with ⟨s', hclean, heq⟩
    cases heq
    rcases filter_eq_some_iff.mp hclean with ⟨hspec, herrors⟩
    exact hread.step hspec (by simpa using herrors) (hks tok (by simp))

/-! ## Combinations -/

/-- Keywords with a type that the source lists. -/
def InTable (ks : List SpecToken) (s : SpecState) : Prop := (ks, s.baseType) ∈ listedCombinations

instance (ks : List SpecToken) (s : SpecState) : Decidable (InTable ks s) :=
  inferInstanceAs (Decidable (_ ∈ _))

theorem listed_int (modifier : SpecModifier) (sign : SpecSign) :
    (modifier = .none ∧ sign = .none ∨
      InTable (signTokens sign ++ modifierTokens modifier ++ [])
        { modifier := modifier, sign := sign }) ∧
    InTable (signTokens sign ++ modifierTokens modifier ++ [.int])
      { base := .int, modifier := modifier, sign := sign } := by
  cases modifier <;> cases sign <;> decide

theorem listed_char (sign : SpecSign) :
    InTable (signTokens sign ++ modifierTokens .none ++ [.char]) { base := .char, sign := sign } := by
  cases sign <;> decide

theorem signAfterBase_or (base : SpecToken) (hbase : base.isUnsignable = true) (sign : SpecSign) :
    sign = .none ∨ SignAfterBase ([base] ++ signTokens sign) := by
  cases sign with
  | none => exact Or.inl rfl
  | signed => exact Or.inr (Or.inl ⟨base, .signed, rfl, hbase, rfl⟩)
  | unsigned => exact Or.inr (Or.inl ⟨base, .unsigned, rfl, hbase, rfl⟩)

/-- The keywords of a state make up its type, unless there are none or a sign comes after a base that
takes none. -/
theorem Reads.cases (h : Reads ks s) :
    ks = [] ∨ SignAfterBase ks ∨ MakesUp ks s.baseType := by
  rcases h.tokens with ⟨bs, hbs, htokens⟩
  rcases s with ⟨base, modifier, sign, isConst, isVolatile, type⟩
  have htype := h.type
  have hmodifier := h.modifier
  simp only [BaseTokens] at hbs
  by_cases haggregate : base = .aggregate
  · subst haggregate
    simp only [reduceCtorEq, false_or, false_and, or_false] at hmodifier
    subst hmodifier
    simp only [SpecBase.takesSign, Bool.false_eq_true, if_false, modifierTokens,
      nil_append] at htokens
    subst htokens
    rcases hbs with rfl | rfl
    · rcases signAfterBase_or (.structOrUnion type) rfl sign with rfl | hsign
      · exact Or.inr (Or.inr ⟨_, .aggregate type, List.Perm.refl _⟩)
      · exact Or.inr (Or.inl hsign)
    · rcases signAfterBase_or (.identifier (some type)) rfl sign with rfl | hsign
      · exact Or.inr (Or.inr ⟨_, .name type, List.Perm.refl _⟩)
      · exact Or.inr (Or.inl hsign)
  have htype' := htype haggregate
  simp only at htype'
  subst htype'
  cases base
  case aggregate => exact absurd rfl haggregate
  case none =>
    subst hbs
    simp only [SpecBase.takesSign, if_true] at htokens
    rcases (listed_int modifier sign).1 with ⟨rfl, rfl⟩ | hlisted
    · exact Or.inl (perm_nil.mp htokens)
    · exact Or.inr (Or.inr ⟨_, .listed hlisted, htokens⟩)
  case int =>
    subst hbs
    simp only [SpecBase.takesSign, if_true] at htokens
    exact Or.inr (Or.inr ⟨_, .listed (listed_int modifier sign).2, htokens⟩)
  case double =>
    simp only [reduceCtorEq, false_or, true_and] at hmodifier
    subst hbs
    simp only [SpecBase.takesSign, Bool.false_eq_true, if_false] at htokens
    subst htokens
    rcases hmodifier with rfl | rfl
    · rcases signAfterBase_or .double rfl sign with rfl | hsign
      · exact Or.inr (Or.inr ⟨_, .listed (by decide : InTable [.double] { base := .double }),
          List.Perm.refl _⟩)
      · exact Or.inr (Or.inl hsign)
    · cases sign with
      | none =>
        exact Or.inr (Or.inr ⟨_, .listed (by decide : InTable [.long, .double]
          { base := .double, modifier := .long }), List.Perm.refl _⟩)
      | signed => exact Or.inr (Or.inl (Or.inr ⟨.signed, rfl, rfl⟩))
      | unsigned => exact Or.inr (Or.inl (Or.inr ⟨.unsigned, rfl, rfl⟩))
  all_goals
    simp only [reduceCtorEq, false_or, false_and, or_false] at hmodifier
    subst hbs hmodifier
  case char =>
    simp only [SpecBase.takesSign, if_true] at htokens
    exact Or.inr (Or.inr ⟨_, .listed (listed_char sign), htokens⟩)
  all_goals
    simp only [SpecBase.takesSign, Bool.false_eq_true, if_false, modifierTokens,
      nil_append] at htokens
    subst htokens
  case void =>
    rcases signAfterBase_or .void rfl sign with rfl | hsign
    · exact Or.inr (Or.inr ⟨_, .listed (by decide : InTable [.void] { base := .void }),
        List.Perm.refl _⟩)
    · exact Or.inr (Or.inl hsign)
  case bool =>
    rcases signAfterBase_or .bool rfl sign with rfl | hsign
    · exact Or.inr (Or.inr ⟨_, .listed (by decide : InTable [.bool] { base := .bool }),
        List.Perm.refl _⟩)
    · exact Or.inr (Or.inl hsign)
  case float =>
    rcases signAfterBase_or .float rfl sign with rfl | hsign
    · exact Or.inr (Or.inr ⟨_, .listed (by decide : InTable [.float] { base := .float }),
        List.Perm.refl _⟩)
    · exact Or.inr (Or.inl hsign)
  case enum =>
    rcases signAfterBase_or .enum rfl sign with rfl | hsign
    · exact Or.inr (Or.inr ⟨_, .enum, List.Perm.refl _⟩)
    · exact Or.inr (Or.inl hsign)

theorem cleanStep_params (p q : SpecParams) (htok : tok.isKeyword = true) :
    cleanStep p s tok = cleanStep q s tok := by
  cases tok <;> first | rfl | cases htok

theorem foldlM_params (p q : SpecParams) (hks : ∀ k ∈ ks, k.isKeyword = true) :
    ks.foldlM (cleanStep p) s = ks.foldlM (cleanStep q) s := by
  induction ks generalizing s with
  | nil => rfl
  | cons k ks ih =>
    rw [foldlM_cons, foldlM_cons, cleanStep_params p q (hks k mem_cons_self)]
    exact congrArg _ (funext fun t => ih fun k hk => hks k (mem_cons_of_mem _ hk))

/-- No pointer is there. -/
def noParams : SpecParams := ⟨false, false, false⟩

theorem listed_orders : ∀ c ∈ listedCombinations, ∀ ks ∈ c.1.permutations',
    LongAfterBase ks ∨
      (ks.foldlM (cleanStep noParams) {}).map SpecState.baseType = some c.2 := by
  decide

theorem MakesUp.reads (h : MakesUp ks type) (hks : ∀ k ∈ ks, k.isKeyword = true)
    (horder : ¬ LongAfterBase ks) :
    ∃ t, ks.foldlM (cleanStep p) {} = some t ∧ t.baseType = type := by
  rw [foldlM_params p noParams hks]
  rcases h with ⟨cs, hcs, hperm⟩
  cases hcs with
  | listed hlisted =>
    rcases listed_orders _ hlisted ks (mem_permutations'.mpr hperm) with hlong | hread
    · exact absurd hlong horder
    · exact map_eq_some_iff.mp hread
  | aggregate type =>
    rw [perm_singleton.mp hperm]
    exact ⟨_, rfl, rfl⟩
  | enum =>
    rw [perm_singleton.mp hperm]
    exact ⟨_, rfl, rfl⟩
  | name type =>
    rw [perm_singleton.mp hperm]
    exact ⟨_, rfl, rfl⟩

theorem Combination.signable (h : Combination ks type) {sign base : SpecToken} (hsign : sign ∈ ks)
    (hissign : sign.isSign = true) (hbase : base ∈ ks) : base.isUnsignable = false := by
  have hall : ∀ c ∈ listedCombinations, (∃ k ∈ c.1, k.isSign = true) →
      ∀ k ∈ c.1, k.isUnsignable = false := by decide
  cases h with
  | listed hlisted => exact hall _ hlisted ⟨sign, hsign, hissign⟩ base hbase
  | aggregate type | enum | name type =>
    rw [mem_singleton.mp hsign] at hissign
    cases hissign

theorem SignAfterBase.not_makesUp (h : SignAfterBase ks) : ¬ MakesUp ks type := by
  rintro ⟨cs, hcs, hperm⟩
  rcases h with ⟨base, sign, rfl, hbase, hsign⟩ | ⟨sign, rfl, hsign⟩
  · have hno := hcs.signable (hperm.subset (by simp)) hsign
      (hperm.subset (mem_cons_self : base ∈ [base, sign]))
    rw [hno] at hbase
    cases hbase
  · have hno := hcs.signable (hperm.subset (by simp)) hsign
      (hperm.subset (by simp : SpecToken.double ∈ [.long, .double, sign]))
    cases hno

theorem SignAfterBase.reads (h : SignAfterBase ks) :
    ∃ t, ks.foldlM (cleanStep p) {} = some t := by
  rcases h with ⟨base, sign, rfl, hbase, hsign⟩ | ⟨sign, rfl, hsign⟩
  · cases sign <;> try cases hsign
    all_goals
      cases base
      case identifier type =>
        cases type with
        | none => cases hbase
        | some type => exact ⟨_, rfl⟩
      all_goals first | exact ⟨_, rfl⟩ | cases hbase
  · cases sign <;> first | exact ⟨_, rfl⟩ | cases hsign

theorem not_makesUp_nil : ¬ MakesUp [] type := by
  rintro ⟨cs, hcs, hperm⟩
  rw [nil_perm.mp hperm] at hcs
  have hno : ∀ c ∈ listedCombinations, c.1 ≠ [] := by decide
  cases hcs with
  | listed hlisted => exact hno _ hlisted rfl

/-- The order of specifiers does not matter, and no other keywords are accepted, if and only if there
are keywords, no sign comes after a base that takes none, and in a combination no `long` comes after
an `int` or a `double`. -/
theorem specifiers_any_order_iff (p : SpecParams)
    (hts : ∀ t ∈ ts, t.isKeyword = true ∨ t.isQualifier = true) :
    AnyOrder p ts ↔ keywords ts ≠ [] ∧ ¬ SignAfterBase (keywords ts) ∧
      ((∃ type, MakesUp (keywords ts) type) → ¬ LongAfterBase (keywords ts)) := by
  have hks : ∀ k ∈ keywords ts, k.isKeyword = true := by
    intro k hk
    rcases mem_filter.mp hk with ⟨hmem, hno⟩
    rcases hts k hmem with hkey | hqual
    · exact hkey
    · simp [hqual] at hno
  constructor
  · rintro ⟨hmakes, hother⟩
    refine ⟨?_, ?_, ?_⟩
    · intro hnil
      have hread : (keywords ts).foldlM (cleanStep p) {} = some {} := by rw [hnil]; rfl
      refine hother ?_ ⟨_, (accepts_iff hts).mpr ⟨{}, hread, rfl⟩⟩
      rintro ⟨type, hmake⟩
      rw [hnil] at hmake
      exact not_makesUp_nil hmake
    · intro hsign
      rcases hsign.reads (p := p) with ⟨t, ht⟩
      refine hother ?_ ⟨_, (accepts_iff hts).mpr ⟨t, ht, rfl⟩⟩
      rintro ⟨type, hmake⟩
      exact hsign.not_makesUp hmake
    · rintro ⟨type, hmake⟩
      rcases (accepts_iff hts).mp (hmakes type hmake) with ⟨t, ht, -⟩
      exact (reads_of_foldlM hks ht).order
  · rintro ⟨hne, hsign, horder⟩
    constructor
    · intro type hmake
      rcases hmake.reads (p := p) hks (horder ⟨type, hmake⟩) with ⟨t, ht, rfl⟩
      exact (accepts_iff hts).mpr ⟨t, ht, rfl⟩
    · rintro hno ⟨type, haccept⟩
      rcases (accepts_iff hts).mp haccept with ⟨t, ht, -⟩
      rcases (reads_of_foldlM hks ht).cases with hnil | hafter | hmake
      · exact hne hnil
      · exact hsign hafter
      · exact hno ⟨_, hmake⟩

/-- `unsigned const long` is accepted in any order. -/
theorem specifiers_unsigned_long : AnyOrder noParams [.unsigned, .const, .long] := by
  refine (specifiers_any_order_iff noParams (by decide)).mpr ⟨by decide, ?_, fun _ => by decide⟩
  rintro (⟨base, sign, heq, hbase, -⟩ | ⟨sign, heq, -⟩)
  · cases heq
    cases hbase
  · cases heq

/-- `int long` is not accepted, and `void signed` and `const` are. -/
theorem specifiers_rejected :
    ¬ AnyOrder noParams [.int, .long] ∧ ¬ AnyOrder noParams [.void, .signed] ∧
      ¬ AnyOrder noParams [.const] := by
  refine ⟨?_, ?_, ?_⟩
  · rintro ⟨hmakes, -⟩
    have hmake : MakesUp (keywords [.int, .long]) { type := .long } :=
      ⟨[.long, .int], .listed (by decide), by decide⟩
    rcases hmakes _ hmake with ⟨s, hdecl, -⟩
    have hrest : (declarationSpecifiers noParams [.int, .long]).2.2 = [] := by rw [hdecl]
    exact absurd hrest (by decide)
  · rintro ⟨-, hother⟩
    refine hother ?_ ⟨_, _, rfl, rfl⟩
    rintro ⟨type, cs, hcs, hperm⟩
    have hsign : SpecToken.signed ∈ cs := hperm.subset (by decide)
    have hvoid : SpecToken.void ∈ cs := hperm.subset (by decide)
    have hall : ∀ c ∈ listedCombinations, SpecToken.signed ∈ c.1 → SpecToken.void ∉ c.1 := by decide
    cases hcs with
    | listed hlisted => exact hall _ hlisted hsign hvoid
    | aggregate type | enum | name type => simp at hvoid
  · rintro ⟨-, hother⟩
    refine hother ?_ ⟨_, _, rfl, rfl⟩
    rintro ⟨type, cs, hcs, hperm⟩
    have hall : ∀ c ∈ listedCombinations, c.1 ≠ [] := by decide
    rw [nil_perm.mp hperm] at hcs
    cases hcs with
    | listed hlisted => exact hall _ hlisted rfl

end Kcs
