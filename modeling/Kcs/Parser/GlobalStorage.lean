import Kcs.Lib.IntFormat
import Kcs.Ir.Syntax
import Kcs.Types.Conversion

/-!
# Storage of global variables

Every object with static storage gets an offset in one area of memory when it is
first declared (`init_declarator` and `compound_literal`); the area grows by
the size that its type has at that moment (`add_global_variable_size`).  This
module embeds declarations with the symbol table they work on, `sym_add`,
`sym_redeclare` and `sym_apply_type`.

Main results:

- Theorem {lit}`globalStorage_disjoint`: in every sequence of declarations that
  never changes the size of an object that has storage already, objects are
  disjoint and inside the area.
-/

namespace Kcs

open Option List

/-! ## The symbol table -/

/-- The members of `struct symbol` that declarations read. -/
structure DeclSymbol where
  name : String
  type : CType
  symtype : SymType
  linkage : Linkage
  depth : Nat
  globalOffset : Int := -1
deriving DecidableEq, Repr

/-- Types, symbols by number, the scopes of `ns_ident` with the innermost first,
the table of functions, and the size of the area.  The last member adds up the
space asked for without the bound of `int`. -/
structure DeclState where
  types : TypeTable := []
  symbols : List DeclSymbol := []
  scopes : List (List (String × Nat)) := [[]]
  functions : List (String × Nat) := []
  globalOffset : Int := 0
  total : Nat := 0
deriving Repr

/-- `current_scope_depth` -/
def DeclState.depth (s : DeclState) : Nat := s.scopes.length - 1

/-- `hash_lookup` -/
def hashLookup (table : List (String × Nat)) (name : String) : Option Nat :=
  (table.find? (·.1 = name)).map (·.2)

/-- `hash_insert`: an entry that exists stays. -/
def hashInsert (table : List (String × Nat)) (name : String) (id : Nat) : List (String × Nat) :=
  if (hashLookup table name).isSome then table else table ++ [(name, id)]

/-- `sym_lookup` -/
def symLookup (s : DeclState) (name : String) : Option Nat :=
  s.scopes.findSome? (hashLookup · name)

/-- `sym_make_visible` -/
def symMakeVisible (s : DeclState) (name : String) (id : Nat) : DeclState :=
  match s.scopes with
  | [] => s
  | scope :: rest => { s with scopes := hashInsert scope name id :: rest }

/-- Change one symbol. -/
def DeclState.setSymbol (s : DeclState) (id : Nat) (sym : DeclSymbol) : DeclState :=
  { s with symbols := s.symbols.set id sym }

/-- `is_compatible` -/
def isCompatible (types : TypeTable) (l r : CType) : Option Bool :=
  isCompatibleAux types ((2 * types.length + 2) ^ 2) l r

/-- The last check of `sym_apply_type`. -/
def sameType (types : TypeTable) (old type : CType) : Option (CType × TypeTable) :=
  (typeEqual types old type).bind fun equal => if equal then some (old, types) else none

/-- `sym_apply_type`: the type of the symbol and the type table afterwards. -/
def symApplyType (types : TypeTable) (old type : CType) : Option (CType × TypeTable) :=
  if old.isFunction && type.isFunction then do
    let next ← typeEqual types (← typeNext types old) (← typeNext types type)
    if next then
      if !(← isComplete types old) then sameType types type type
      else if (← isComplete types type) then
        if (← isCompatible types old type) then sameType types type type
        else sameType types old type
      else some (old, types)
    else sameType types old type
  else if old.isArray && type.isArray then do
    let next ← typeEqual types (← typeNext types old) (← typeNext types type)
    if next then
      if !(← isComplete types type) then some (old, types)
      else if !(← isComplete types old) then
        let types ← setArrayLength types old (← typeArrayLen types type)
        sameType types old type
      else sameType types old type
    else sameType types old type
  else sameType types old type

/-- `enum decltype` -/
inductive DeclType
  | normal
  | funcbody
deriving DecidableEq, Repr

/-- Linkage of a symbol that is declared again. -/
def redeclareLinkage (sym : DeclSymbol) (symtype : SymType) : Linkage → Option Linkage
  | .intern => if sym.linkage = .external then none else some .intern
  | .external =>
    if sym.linkage = .intern ∧ (symtype = .definition ∨ symtype = .tentative) then none
    else some sym.linkage
  | .none => some sym.linkage

/-- `sym_redeclare`.  The symbol is one of file scope, so that the check for a
duplicate in an inner scope does not apply. -/
def symRedeclare (s : DeclState) (id : Nat) (sym : DeclSymbol) (type : CType) (symtype : SymType)
    (linkage : Linkage) (decltype : DeclType) : Option DeclState := do
  let linkage ← redeclareLinkage sym symtype linkage
  let sym := { sym with linkage := linkage }
  match symtype with
  | .tentative | .declaration =>
    if sym.symtype = .definition then
      if !(← typeEqual s.types sym.type type) then none
      else if sym.type.isFunction && decltype = .funcbody then none
      else some (s.setSymbol id sym)
    else
      let symtype :=
        if symtype = .tentative ∧ sym.symtype = .declaration then .tentative else sym.symtype
      let (type, types) ← symApplyType s.types sym.type type
      some ({ s with types := types }.setSymbol id { sym with type := type, symtype := symtype })
  | .definition =>
    let (type, types) ← symApplyType s.types sym.type type
    some ({ s with types := types }.setSymbol id { sym with type := type, symtype := .definition })
  | .tag | .typedef | .constant =>
    if sym.symtype ≠ symtype then none
    else if !(← typeEqual s.types sym.type type) then none
    else some (s.setSymbol id sym)
  | _ => none

/-- A new symbol, with its number. -/
def symCreate (s : DeclState) (name : String) (type : CType) (symtype : SymType)
    (linkage : Linkage) : Nat × DeclState :=
  let id := s.symbols.length
  let sym : DeclSymbol :=
    { name := name, type := type, symtype := symtype, linkage := linkage, depth := s.depth }
  let s := symMakeVisible { s with symbols := s.symbols ++ [sym] } name id
  let functions :=
    if symtype ≠ .typedef ∧ type.isFunction then hashInsert s.functions name id else s.functions
  (id, { s with functions := functions })

/-- `sym_add` -/
def symAdd (s : DeclState) (name : String) (type : CType) (symtype : SymType) (linkage : Linkage)
    (decltype : DeclType) : Option (Nat × DeclState) :=
  match symLookup s name with
  | none =>
    match (if symtype ≠ .typedef ∧ type.isFunction then hashLookup s.functions name else none) with
    | some id => do
      let sym ← s.symbols[id]?
      let (type, types) ← symApplyType s.types sym.type type
      let sym := { sym with type := type, depth := min s.depth sym.depth }
      some (id, symMakeVisible ({ s with types := types }.setSymbol id sym) name id)
    | none => some (symCreate s name type symtype linkage)
  | some id => do
    let sym ← s.symbols[id]?
    if (s.depth = 0 ∨ linkage = .external) ∧ sym.depth = 0 then
      (symRedeclare s id sym type symtype linkage decltype).map fun s => (id, s)
    else some (symCreate s name type symtype linkage)

/-! ## Declarations -/

/-- The type `int`. -/
abbrev intFormat : IntFormat := IntFormat.bits32 true

/-- `add_global_variable_size`; the argument is converted to `int`. -/
def addGlobalVariableSize (offset : Int) (size : Nat) : Int :=
  let size := intFormat.wrap size
  if 0 < size then intFormat.wrap (offset + intFormat.wrap (pad8 size)) else offset

/-- Space that a reservation of the given size should take. -/
def paddedSize (size : Nat) : Nat :=
  if size = 0 then 0 else (pad8 size).toNat

/-- Give a symbol its place unless it has one. -/
def reserve (s : DeclState) (id : Nat) : Option DeclState := do
  let sym ← s.symbols[id]?
  if 0 ≤ sym.globalOffset then some s
  else
    let size ← sizeOf s.types sym.type
    some { s with
      symbols := s.symbols.set id { sym with globalOffset := s.globalOffset }
      globalOffset := addGlobalVariableSize s.globalOffset size
      total := s.total + paddedSize size }

/-- What follows a declarator: nothing, an initializer that gives an array
without length the given number of elements, or the body of a function. -/
inductive Init
  | none
  | value (length : Nat)
  | body
deriving DecidableEq, Repr

/-- Effect of an initializer on the type of its object: an array without length
gets one. -/
def initializeType (types : TypeTable) (type : CType) (length : Nat) : Option TypeTable := do
  let size ← sizeOf types type
  if type.isArray ∧ (!(← isComplete types type) ∨ size = 0) then setArrayLength types type length
  else some types

/-- An array whose length is known counts as complete. -/
def closeArray (types : TypeTable) (type : CType) : Option TypeTable := do
  let size ← sizeOf types type
  if !(← isComplete types type) ∧ type.isArray ∧ size ≠ 0 then
    setArrayLength types type (← typeArrayLen types type)
  else some types

/-- The initializer of `init_declarator`. -/
def initDeclared (s : DeclState) (id : Nat) : Init → Option DeclState
  | .value length => do
    let sym ← s.symbols[id]?
    if sym.symtype = .declaration then none
    else if sym.depth = 0 ∧ sym.symtype = .definition then none
    else if (← isVla s.types sym.type) then none
    else
      let types ← initializeType s.types sym.type length
      let size ← sizeOf types sym.type
      if size = 0 then none
      else some ({ s with types := types }.setSymbol id { sym with symtype := .definition })
  | _ => some s

/-- `init_declarator`, once symbol type and linkage are settled. -/
def declareSymbol (s : DeclState) (name : String) (type : CType) (symtype : SymType)
    (linkage : Linkage) (init : Init) : Option DeclState := do
  let decltype := if type.isFunction ∧ init = .body then .funcbody else .normal
  let (id, s) ← symAdd s name type symtype linkage decltype
  let s ← initDeclared s id init
  let sym ← s.symbols[id]?
  if init = .body ∧ sym.type.isFunction then
    some (s.setSymbol id { sym with symtype := .definition })
  else
    let types ← closeArray s.types sym.type
    let s := { s with types := types }
    if symtype = .tentative ∨ (symtype = .declaration ∧ linkage = .external) then reserve s id
    else some s

/-- `init_declarator`, after the declarator has been read.  The checks for
variably modified types and the parameters of old-style functions are left out. -/
def initDeclarator (s : DeclState) (name : String) (type : CType) (symtype : SymType)
    (linkage : Linkage) (init : Init) : Option DeclState :=
  if symtype ≠ .typedef ∧ type.isFunction then
    if linkage = .intern ∧ s.depth ≠ 0 then none
    else
      declareSymbol s name type .declaration (if linkage = .none then .external else linkage) init
  else declareSymbol s name type symtype linkage init

/-- `compound_literal` at file scope: an unnamed object with an initializer. -/
def compoundLiteral (s : DeclState) (type : CType) (length : Nat) : Option DeclState := do
  let id := s.symbols.length
  let sym : DeclSymbol :=
    { name := ".u", type := type, symtype := .definition, linkage := .intern, depth := 0 }
  let types ← initializeType s.types type length
  reserve { s with types := types, symbols := s.symbols ++ [sym] } id

/-- What the parser does to symbols and types. -/
inductive DeclEvent
  | declare (name : String) (type : CType) (symtype : SymType) (linkage : Linkage) (init : Init)
  | literal (type : CType) (length : Nat)
  | pushScope
  | popScope
  /-- The type table changes: types are created, and incomplete ones completed. -/
  | types (types : TypeTable)

/-- One step. -/
def declStep (s : DeclState) : DeclEvent → Option DeclState
  | .declare name type symtype linkage init => initDeclarator s name type symtype linkage init
  | .literal type length => if s.depth = 0 then compoundLiteral s type length else none
  | .pushScope => some { s with scopes := [] :: s.scopes }
  | .popScope => if s.depth = 0 then none else some { s with scopes := s.scopes.tail }
  | .types types => some { s with types := types }

/-- A run. -/
def declRun (s : DeclState) (events : List DeclEvent) : Option DeclState :=
  events.foldlM declStep s

/-- Bytes of the object that a symbol stands for. -/
def extent (s : DeclState) (sym : DeclSymbol) : Set Int :=
  Set.Ico sym.globalOffset (sym.globalOffset + ((sizeOf s.types sym.type).getD 0 : Nat))

/-- Objects with storage are disjoint and inside the area. -/
def GlobalsDisjoint (s : DeclState) : Prop :=
  (∀ (i j : Nat) x y, i ≠ j → s.symbols[i]? = some x → s.symbols[j]? = some y →
    0 ≤ x.globalOffset → 0 ≤ y.globalOffset → Disjoint (extent s x) (extent s y)) ∧
  ∀ (i : Nat) x, s.symbols[i]? = some x → 0 ≤ x.globalOffset →
    extent s x ⊆ Set.Ico 0 s.globalOffset

/-- No object that has storage changes its size. -/
def SizesKept (s t : DeclState) : Prop :=
  ∀ (i : Nat) x, s.symbols[i]? = some x → 0 ≤ x.globalOffset →
    ∀ y, t.symbols[i]? = some y → sizeOf t.types y.type = sizeOf s.types x.type

/-- A run none of whose steps changes the size of an object with storage. -/
def SizesKeptRun (s : DeclState) : List DeclEvent → Prop
  | [] => True
  | e :: events => ∀ t, declStep s e = some t → SizesKept s t ∧ SizesKeptRun t events

variable {s t : DeclState}

theorem sizesKept_iff_zip :
    SizesKept s t ↔ ∀ p ∈ s.symbols.zip t.symbols, 0 ≤ p.1.globalOffset →
      sizeOf t.types p.2.type = sizeOf s.types p.1.type := by
  constructor
  · intro h p hp hp0
    rcases mem_iff_getElem?.mp hp with ⟨i, hi⟩
    rcases getElem?_zip_eq_some.mp hi with ⟨hx, hy⟩
    exact h i p.1 hx hp0 p.2 hy
  · intro h i x hx hx0 y hy
    have hpair : (s.symbols.zip t.symbols)[i]? = some (x, y) :=
      getElem?_zip_eq_some.mpr ⟨hx, hy⟩
    exact h (x, y) (mem_of_getElem? hpair) hx0

instance (s t : DeclState) : Decidable (SizesKept s t) :=
  decidable_of_iff' _ sizesKept_iff_zip

instance decidableSizesKeptRun (s : DeclState) :
    (events : List DeclEvent) → Decidable (SizesKeptRun s events)
  | [] => isTrue trivial
  | e :: events =>
    match h : declStep s e with
    | none => isTrue fun t ht => by rw [h] at ht; cases ht
    | some t =>
      have := decidableSizesKeptRun t events
      decidable_of_iff (SizesKept s t ∧ SizesKeptRun t events) (by simp [SizesKeptRun, h])

/-! ## What a declaration does to offsets -/

/-- Between two states offsets and the area are the same, and new symbols have
no offset. -/
structure SameOffsets (s t : DeclState) : Prop where
  length_le : s.symbols.length ≤ t.symbols.length
  old : ∀ (i : Nat) x, s.symbols[i]? = some x →
    ∃ y, t.symbols[i]? = some y ∧ y.globalOffset = x.globalOffset
  new : ∀ (i : Nat) y, s.symbols.length ≤ i → t.symbols[i]? = some y → y.globalOffset < 0
  area : t.globalOffset = s.globalOffset
  total : t.total = s.total

theorem SameOffsets.of_symbols (hsymbols : t.symbols = s.symbols)
    (harea : t.globalOffset = s.globalOffset) (htotal : t.total = s.total) : SameOffsets s t := by
  refine ⟨by rw [hsymbols], ?_, ?_, harea, htotal⟩
  · intro i x hx
    exact ⟨x, by rw [hsymbols, hx], rfl⟩
  · intro i y hi hy
    rw [hsymbols] at hy
    have hlt := (List.getElem?_eq_some_iff.mp hy).1
    omega

theorem SameOffsets.trans {s t u : DeclState} (h : SameOffsets s t) (h' : SameOffsets t u) :
    SameOffsets s u := by
  refine ⟨h.length_le.trans h'.length_le, ?_, ?_, h'.area.trans h.area, h'.total.trans h.total⟩
  · intro i x hx
    rcases h.old i x hx with ⟨y, hy, hxy⟩
    rcases h'.old i y hy with ⟨z, hz, hyz⟩
    exact ⟨z, hz, hyz.trans hxy⟩
  · intro i z hi hz
    by_cases hlt : i < t.symbols.length
    · rcases h'.old i _ (getElem?_eq_getElem hlt) with ⟨z', hz', hoff⟩
      rw [hz, some.injEq] at hz'
      rw [hz', hoff]
      exact h.new i _ hi (getElem?_eq_getElem hlt)
    · exact h'.new i z (by omega) hz

variable {id : Nat} {sym : DeclSymbol}

theorem SameOffsets.setSymbol {sym sym' : DeclSymbol}
    (hsym : s.symbols[id]? = some sym) (hoff : sym'.globalOffset = sym.globalOffset) :
    SameOffsets s (s.setSymbol id sym') := by
  have hget : ∀ i : Nat, (s.setSymbol id sym').symbols[i]? =
      if i = id then some sym' else s.symbols[i]? := by
    intro i
    have hid := (List.getElem?_eq_some_iff.mp hsym).1
    simp only [DeclState.setSymbol, getElem?_set, eq_comm (a := id)]
    by_cases hi : i = id
    · simp [hi, hid]
    · simp [hi]
  refine ⟨by simp [DeclState.setSymbol], ?_, ?_, rfl, rfl⟩
  · intro i x hx
    rw [hget]
    by_cases hi : i = id
    · subst hi
      rw [hsym, some.injEq] at hx
      exact ⟨sym', by simp, hx ▸ hoff⟩
    · exact ⟨x, by simp [hi, hx], rfl⟩
  · intro i y hi hy
    have hlt := (List.getElem?_eq_some_iff.mp hy).1
    simp [DeclState.setSymbol] at hlt
    omega

theorem SameOffsets.append
    (hsymbols : t.symbols = s.symbols ++ [sym]) (hsym : sym.globalOffset < 0)
    (harea : t.globalOffset = s.globalOffset) (htotal : t.total = s.total) : SameOffsets s t := by
  refine ⟨by simp [hsymbols], ?_, ?_, harea, htotal⟩
  · intro i x hx
    have hlt := (List.getElem?_eq_some_iff.mp hx).1
    exact ⟨x, by rw [hsymbols, getElem?_append_left hlt, hx], rfl⟩
  · intro i y hi hy
    rw [hsymbols, getElem?_append_right hi] at hy
    have hmem := mem_of_getElem? hy
    rw [mem_singleton] at hmem
    rw [hmem]
    exact hsym

theorem symMakeVisible_same (s : DeclState) (name : String) (id : Nat) :
    (symMakeVisible s name id).symbols = s.symbols ∧
      (symMakeVisible s name id).globalOffset = s.globalOffset ∧
      (symMakeVisible s name id).total = s.total := by
  unfold symMakeVisible
  split <;> exact ⟨rfl, rfl, rfl⟩

variable {type : CType} {symtype : SymType} {linkage : Linkage} {decltype : DeclType}

theorem symRedeclare_form
        (h : symRedeclare s id sym type symtype linkage decltype = some t) :
    ∃ types sym', t = { s with types := types }.setSymbol id sym' ∧
      sym'.globalOffset = sym.globalOffset := by
  simp only [symRedeclare, bind, bind_eq_some_iff] at h
  rcases h with ⟨linkage', -, h⟩
  cases symtype
  case tentative | declaration =>
    simp only at h
    split at h
    · simp only [bind_eq_some_iff] at h
      rcases h with ⟨equal, -, h⟩
      split at h
      · cases h
      · split at h
        · cases h
        · simp only [some.injEq] at h
          exact ⟨s.types, _, h.symm, rfl⟩
    · simp only [bind_eq_some_iff, some.injEq] at h
      rcases h with ⟨⟨type', types'⟩, -, rfl⟩
      exact ⟨types', _, rfl, rfl⟩
  case definition =>
    simp only [bind_eq_some_iff, some.injEq] at h
    rcases h with ⟨⟨type', types'⟩, -, rfl⟩
    exact ⟨types', _, rfl, rfl⟩
  case tag | typedef | constant =>
    simp only at h
    split at h
    · cases h
    · simp only [bind_eq_some_iff] at h
      rcases h with ⟨equal, -, h⟩
      split at h
      · cases h
      · simp only [some.injEq] at h
        exact ⟨s.types, _, h.symm, rfl⟩
  all_goals cases h

theorem symRedeclare_same
    (hsym : s.symbols[id]? = some sym)
    (h : symRedeclare s id sym type symtype linkage decltype = some t) : SameOffsets s t := by
  rcases symRedeclare_form h with ⟨types, sym', rfl, hoff⟩
  have hs : SameOffsets s { s with types := types } := SameOffsets.of_symbols rfl rfl rfl
  exact hs.trans (SameOffsets.setSymbol hsym hoff)

theorem symCreate_same (s : DeclState) (name : String) (type : CType) (symtype : SymType)
    (linkage : Linkage) : SameOffsets s (symCreate s name type symtype linkage).2 := by
  let sym : DeclSymbol :=
    { name := name, type := type, symtype := symtype, linkage := linkage, depth := s.depth }
  rcases symMakeVisible_same { s with symbols := s.symbols ++ [sym] } name s.symbols.length with
    ⟨hsymbols, harea, htotal⟩
  have hsym : sym.globalOffset < 0 := by simp [sym]
  exact SameOffsets.append hsymbols hsym harea htotal

theorem symAdd_same {name : String}
        (h : symAdd s name type symtype linkage decltype = some (id, t)) : SameOffsets s t := by
  have hcreate : some (symCreate s name type symtype linkage) = some (id, t) → SameOffsets s t := by
    intro heq
    rw [some.injEq] at heq
    have hsame := symCreate_same s name type symtype linkage
    rwa [heq] at hsame
  unfold symAdd at h
  split at h
  · split at h
    · rename_i id' _
      simp only [bind, bind_eq_some_iff, some.injEq, Prod.mk.injEq] at h
      rcases h with ⟨sym, hsym, ⟨type', types'⟩, -, rfl, rfl⟩
      have hs : SameOffsets s { s with types := types' } := SameOffsets.of_symbols rfl rfl rfl
      rcases symMakeVisible_same ({ s with types := types' }.setSymbol id'
        { sym with type := type', depth := min s.depth sym.depth }) name id' with ⟨h1, h2, h3⟩
      refine (hs.trans ?_).trans (SameOffsets.of_symbols h1 h2 h3)
      exact SameOffsets.setSymbol hsym rfl
    · exact hcreate h
  · simp only [bind, bind_eq_some_iff] at h
    rcases h with ⟨sym, hsym, h⟩
    split at h
    · simp only [map_eq_some_iff, Prod.mk.injEq] at h
      rcases h with ⟨t', ht, -, rfl⟩
      exact symRedeclare_same hsym ht
    · exact hcreate h

theorem initDeclared_same {init : Init}
    (h : initDeclared s id init = some t) : SameOffsets s t := by
  cases init with
  | none =>
    simp only [initDeclared, some.injEq] at h
    exact h ▸ SameOffsets.of_symbols rfl rfl rfl
  | body =>
    simp only [initDeclared, some.injEq] at h
    exact h ▸ SameOffsets.of_symbols rfl rfl rfl
  | value length =>
    simp only [initDeclared, bind, bind_eq_some_iff] at h
    rcases h with ⟨sym, hsym, h⟩
    split at h
    · cases h
    · split at h
      · cases h
      · simp only [bind_eq_some_iff] at h
        rcases h with ⟨vla, -, h⟩
        split at h
        · cases h
        · simp only [bind_eq_some_iff] at h
          rcases h with ⟨types, -, size, -, h⟩
          split at h
          · cases h
          · simp only [some.injEq] at h
            have hs : SameOffsets s { s with types := types } := SameOffsets.of_symbols rfl rfl rfl
            exact h ▸ hs.trans (SameOffsets.setSymbol hsym rfl)

theorem declareSymbol_cases {name : String}
    {init : Init} (h : declareSymbol s name type symtype linkage init = some t) :
    ∃ u, SameOffsets s u ∧ (t = u ∨ ∃ id, reserve u id = some t) := by
  simp only [declareSymbol, bind, bind_eq_some_iff] at h
  rcases h with ⟨⟨id, s1⟩, hadd, s2, hinit, sym, hsym, h⟩
  have hsame := (symAdd_same hadd).trans (initDeclared_same hinit)
  split at h
  · simp only [some.injEq] at h
    exact ⟨t, h ▸ hsame.trans (SameOffsets.setSymbol hsym rfl), Or.inl rfl⟩
  · simp only [bind_eq_some_iff] at h
    rcases h with ⟨types, -, h⟩
    have hs : SameOffsets s { s2 with types := types } :=
      hsame.trans (SameOffsets.of_symbols rfl rfl rfl)
    split at h
    · exact ⟨_, hs, Or.inr ⟨id, h⟩⟩
    · simp only [some.injEq] at h
      exact ⟨_, hs, Or.inl h.symm⟩

variable {e : DeclEvent}

theorem declStep_cases (h : declStep s e = some t) :
    ∃ u, SameOffsets s u ∧ (t = u ∨ ∃ id, reserve u id = some t) := by
  cases e with
  | declare name type symtype linkage init =>
    simp only [declStep, initDeclarator] at h
    split at h
    · split at h
      · cases h
      · exact declareSymbol_cases h
    · exact declareSymbol_cases h
  | literal type length =>
    simp only [declStep] at h
    split at h
    · simp only [compoundLiteral, bind, bind_eq_some_iff] at h
      rcases h with ⟨types, -, h⟩
      let sym : DeclSymbol :=
        { name := ".u", type := type, symtype := .definition, linkage := .intern, depth := 0 }
      have hsym : sym.globalOffset < 0 := by simp [sym]
      exact ⟨{ s with types := types, symbols := s.symbols ++ [sym] },
        SameOffsets.append rfl hsym rfl rfl, Or.inr ⟨_, h⟩⟩
    · cases h
  | pushScope =>
    simp only [declStep, some.injEq] at h
    exact ⟨t, h ▸ SameOffsets.of_symbols rfl rfl rfl, Or.inl rfl⟩
  | popScope =>
    simp only [declStep] at h
    split at h
    · cases h
    · simp only [some.injEq] at h
      exact ⟨t, h ▸ SameOffsets.of_symbols rfl rfl rfl, Or.inl rfl⟩
  | types types =>
    simp only [declStep, some.injEq] at h
    exact ⟨t, h ▸ SameOffsets.of_symbols rfl rfl rfl, Or.inl rfl⟩

/-! ## Disjoint storage -/

/-- Size of the object of a symbol. -/
def objectSize (s : DeclState) (sym : DeclSymbol) : Nat :=
  (sizeOf s.types sym.type).getD 0

/-- Objects with storage follow each other inside the area. -/
structure Allotted (s : DeclState) : Prop where
  area : s.globalOffset = s.total
  inside : ∀ (i : Nat) x, s.symbols[i]? = some x → 0 ≤ x.globalOffset →
    x.globalOffset + objectSize s x ≤ s.total
  apart : ∀ (i j : Nat) x y, i ≠ j → s.symbols[i]? = some x → s.symbols[j]? = some y →
    0 ≤ x.globalOffset → 0 ≤ y.globalOffset →
    x.globalOffset + objectSize s x ≤ y.globalOffset ∨
      y.globalOffset + objectSize s y ≤ x.globalOffset

theorem Allotted.globalsDisjoint (hs : Allotted s) : GlobalsDisjoint s := by
  constructor
  · intro i j x y hij hx hy hx0 hy0
    rw [extent, extent, Set.disjoint_left]
    rintro a ⟨hxlo, hxhi⟩ ⟨hylo, hyhi⟩
    have hsizes := hs.apart i j x y hij hx hy hx0 hy0
    simp only [objectSize] at hsizes
    omega
  · intro i x hx hx0
    rw [extent]
    rintro a ⟨hlo, hhi⟩
    have hend := hs.inside i x hx hx0
    simp only [objectSize] at hend
    rw [Set.mem_Ico, hs.area]
    omega

theorem SameOffsets.placed (h : SameOffsets s t) {i : Nat} {y : DeclSymbol}
    (hy : t.symbols[i]? = some y) (hy0 : 0 ≤ y.globalOffset) :
    ∃ x, s.symbols[i]? = some x ∧ x.globalOffset = y.globalOffset := by
  by_cases hi : i < s.symbols.length
  · rcases h.old i _ (getElem?_eq_getElem hi) with ⟨y', hy', hoff⟩
    rw [hy, some.injEq] at hy'
    exact ⟨_, getElem?_eq_getElem hi, by rw [← hoff, hy']⟩
  · have hneg := h.new i y (by omega) hy
    omega

theorem Allotted.same (hs : Allotted s) (h : SameOffsets s t)
    (hkept : SizesKept s t) : Allotted t := by
  have hold : ∀ (i : Nat) y, t.symbols[i]? = some y → 0 ≤ y.globalOffset →
      ∃ x, s.symbols[i]? = some x ∧ x.globalOffset = y.globalOffset ∧
        objectSize s x = objectSize t y := by
    intro i y hy hy0
    rcases h.placed hy hy0 with ⟨x, hx, hoff⟩
    refine ⟨x, hx, hoff, ?_⟩
    rw [objectSize, objectSize, hkept i x hx (hoff ▸ hy0) y hy]
  constructor
  · rw [h.area, h.total]
    exact hs.area
  · intro i y hy hy0
    rcases hold i y hy hy0 with ⟨x, hx, hoff, hsize⟩
    rw [← hoff, ← hsize, h.total]
    exact hs.inside i x hx (hoff ▸ hy0)
  · intro i j y z hij hy hz hy0 hz0
    rcases hold i y hy hy0 with ⟨x, hx, hoff, hsize⟩
    rcases hold j z hz hz0 with ⟨w, hw, hoff', hsize'⟩
    rw [← hoff, ← hsize, ← hoff', ← hsize']
    exact hs.apart i j x w hij hx hw (hoff ▸ hy0) (hoff' ▸ hz0)

theorem le_pad8 {n : Int} (hn : 0 ≤ n) : n ≤ pad8 n ∧ 0 < pad8 n := by
  unfold pad8
  split <;> omega

theorem le_paddedSize (n : Nat) : n ≤ paddedSize n := by
  have h := le_pad8 (Int.natCast_nonneg n)
  unfold paddedSize
  split <;> omega

theorem intFormat_wrap {n : Int} (hlo : 0 ≤ n) (hhi : n < 2 ^ 31) : intFormat.wrap n = n := by
  have h : intFormat.InRange n := by
    rw [IntFormat.inRange_signed_iff rfl]
    constructor
    · have hneg : -2 ^ (intFormat.width - 1) ≤ (0 : Int) := by decide
      omega
    · exact hhi
  exact h

theorem addGlobalVariableSize_eq {total size : Nat} (h : total + paddedSize size < 2 ^ 31) :
    addGlobalVariableSize total size = (total + paddedSize size : Nat) := by
  have hsize := le_paddedSize size
  unfold addGlobalVariableSize
  rw [intFormat_wrap (by omega) (by omega)]
  by_cases hzero : size = 0
  · subst hzero
    simp [paddedSize]
  · have hpad := le_pad8 (Int.natCast_nonneg size)
    have hpadded : (paddedSize size : Int) = pad8 size := by
      rw [paddedSize, if_neg hzero]
      omega
    rw [if_pos (by omega), intFormat_wrap (n := pad8 size) (by omega) (by omega),
      intFormat_wrap (by omega) (by omega)]
    omega

theorem reserve_eq_some (h : reserve s id = some t) :
    t = s ∨ ∃ sym size, s.symbols[id]? = some sym ∧ sym.globalOffset < 0 ∧
      sizeOf s.types sym.type = some size ∧
      t = { s with
        symbols := s.symbols.set id { sym with globalOffset := s.globalOffset }
        globalOffset := addGlobalVariableSize s.globalOffset size
        total := s.total + paddedSize size } := by
  simp only [reserve, bind, bind_eq_some_iff] at h
  rcases h with ⟨sym, hsym, h⟩
  split at h
  · simp only [some.injEq] at h
    exact Or.inl h.symm
  · simp only [bind_eq_some_iff, some.injEq] at h
    rcases h with ⟨size, hsize, rfl⟩
    exact Or.inr ⟨sym, size, hsym, by omega, hsize, rfl⟩

/-- Reserving storage at the end of the area keeps all objects apart. -/
theorem Allotted.reserve (hs : Allotted s)
    (h : reserve s id = some t) (hbound : t.total < 2 ^ 31) : Allotted t := by
  rcases reserve_eq_some h with rfl | ⟨sym, size, hsym, hneg, hsize, rfl⟩
  · exact hs
  · have hid := (List.getElem?_eq_some_iff.mp hsym).1
    have harea : addGlobalVariableSize s.globalOffset size = (s.total + paddedSize size : Nat) := by
      rw [hs.area]
      exact addGlobalVariableSize_eq hbound
    have hpad := le_paddedSize size
    have hcases : ∀ (i : Nat) y,
        (s.symbols.set id { sym with globalOffset := s.globalOffset })[i]? = some y →
        0 ≤ y.globalOffset →
        (i = id ∧ y.globalOffset = s.total ∧ (sizeOf s.types y.type).getD 0 = size) ∨
          (i ≠ id ∧ s.symbols[i]? = some y) := by
      intro i y hy hy0
      rw [getElem?_set] at hy
      by_cases hi : id = i
      · rw [if_pos hi, if_pos hid, some.injEq] at hy
        subst hy
        exact Or.inl ⟨hi.symm, hs.area, by simp [hsize]⟩
      · rw [if_neg hi] at hy
        exact Or.inr ⟨Ne.symm hi, hy⟩
    constructor
    · exact harea
    · intro i y hy hy0
      simp only [objectSize]
      rcases hcases i y hy hy0 with ⟨-, hoff, hsz⟩ | ⟨-, hold⟩
      · rw [hoff, hsz]
        push_cast
        omega
      · have hinside := hs.inside i y hold hy0
        simp only [objectSize] at hinside
        push_cast
        omega
    · intro i j y z hij hy hz hy0 hz0
      simp only [objectSize]
      rcases hcases i y hy hy0 with ⟨rfl, hoff, hsz⟩ | ⟨-, hold⟩
      · rcases hcases j z hz hz0 with ⟨rfl, -, -⟩ | ⟨-, hold'⟩
        · exact absurd rfl hij
        · have hinside := hs.inside j z hold' hz0
          simp only [objectSize] at hinside
          omega
      · rcases hcases j z hz hz0 with ⟨rfl, hoff', hsz'⟩ | ⟨-, hold'⟩
        · have hinside := hs.inside i y hold hy0
          simp only [objectSize] at hinside
          omega
        · exact hs.apart i j y z hij hold hold' hy0 hz0

theorem SizesKept.before_reserve {s u t : DeclState} (hsame : SameOffsets s u)
    (h : Kcs.reserve u id = some t) (hkept : SizesKept s t) : SizesKept s u := by
  intro i x hx hx0 y hy
  rcases reserve_eq_some h with rfl | ⟨sym, size, hsym, hneg, -, rfl⟩
  · exact hkept i x hx hx0 y hy
  · apply hkept i x hx hx0 y
    rw [getElem?_set]
    by_cases hi : id = i
    · subst hi
      rcases hsame.old id x hx with ⟨y', hy', hoff⟩
      rw [hsym, some.injEq] at hy'
      rw [hy', hoff] at hneg
      omega
    · rw [if_neg hi, hy]

theorem declStep_total_le (h : declStep s e = some t) :
    s.total ≤ t.total := by
  rcases declStep_cases h with ⟨u, hsame, rfl | ⟨id, hreserve⟩⟩
  · exact hsame.total.ge
  · rcases reserve_eq_some hreserve with rfl | ⟨sym, size, -, -, -, rfl⟩
    · exact hsame.total.ge
    · simp only [hsame.total]
      omega

theorem Allotted.step (hs : Allotted s)
    (h : declStep s e = some t) (hkept : SizesKept s t) (hbound : t.total < 2 ^ 31) :
    Allotted t := by
  rcases declStep_cases h with ⟨u, hsame, rfl | ⟨id, hreserve⟩⟩
  · exact hs.same hsame hkept
  · exact (hs.same hsame (SizesKept.before_reserve hsame hreserve hkept)).reserve hreserve hbound

theorem declRun_total_le {events : List DeclEvent}
    (h : declRun s events = some t) : s.total ≤ t.total := by
  induction events generalizing s with
  | nil =>
    simp only [declRun, foldlM_nil, Option.pure_def, some.injEq] at h
    exact h ▸ le_rfl
  | cons e events ih =>
    simp only [declRun, foldlM_cons, bind_eq_bind, bind_eq_some_iff] at h
    rcases h with ⟨u, hu, hrest⟩
    exact (declStep_total_le hu).trans (ih hrest)

theorem Allotted.run {events : List DeclEvent} (hs : Allotted s)
    (hkept : SizesKeptRun s events) (h : declRun s events = some t) (hbound : t.total < 2 ^ 31) :
    Allotted t := by
  induction events generalizing s with
  | nil =>
    simp only [declRun, foldlM_nil, Option.pure_def, some.injEq] at h
    exact h ▸ hs
  | cons e events ih =>
    simp only [declRun, foldlM_cons, bind_eq_bind, bind_eq_some_iff] at h
    rcases h with ⟨u, hu, hrest⟩
    rcases hkept u hu with ⟨hsizes, hkept'⟩
    have hu' : u.total < 2 ^ 31 := (declRun_total_le hrest).trans_lt hbound
    exact ih (hs.step hu hsizes hu') hkept' hrest

/-- In every sequence of declarations of less than two gigabytes that never
changes the size of an object after it got its storage, all objects with
storage are disjoint and inside the area. -/
theorem globalStorage_disjoint (events : List DeclEvent) (s : DeclState)
    (hkept : SizesKeptRun {} events) (hbound : s.total < 2 ^ 31)
    (hrun : declRun {} events = some s) : GlobalsDisjoint s := by
  have hinit : Allotted {} := ⟨rfl, by simp, by simp⟩
  exact (hinit.run hkept hrun hbound).globalsDisjoint

/-- An array with its length and a variable after it. -/
theorem globalStorage_array_and_int :
    let array : CType := { type := .array, ref := 1 }
    let events : List DeclEvent := [.types [{ type := .array, size := 10, next := basicTypeInt }],
      .declare "a" array .tentative .external .none,
      .declare "b" basicTypeInt .tentative .external (.value 1)]
    ∃ s, declRun {} events = some s ∧ s.symbols.map (·.globalOffset) = [0, 40] ∧
      GlobalsDisjoint s := by
  intro array events
  have hrun : ((declRun {} events).map fun s => (s.symbols.map (·.globalOffset), s.total)) =
      some ([0, 40], 48) := by decide
  rcases map_eq_some_iff.mp hrun with ⟨s, hs, hvalue⟩
  simp only [Prod.mk.injEq] at hvalue
  have hkept : SizesKeptRun {} events := by decide
  exact ⟨s, hs, hvalue.1, globalStorage_disjoint events s hkept (by omega) hs⟩

/-- `int a[]; int b; int a[10];` puts `b` on top of `a`. -/
theorem globalStorage_completed_array :
    let incomplete : Typetree := { type := .array, next := basicTypeInt, isIncomplete := true }
    let complete : Typetree := { type := .array, size := 10, next := basicTypeInt }
    let events : List DeclEvent := [.types [incomplete],
      .declare "a" { type := .array, ref := 1 } .tentative .external .none,
      .declare "b" basicTypeInt .tentative .external .none, .types [incomplete, complete],
      .declare "a" { type := .array, ref := 2 } .tentative .external .none]
    ∃ s, declRun {} events = some s ∧ ¬ GlobalsDisjoint s := by
  intro incomplete complete events
  have hrun : ((declRun {} events).map fun s =>
      s.symbols.map fun x => (x.globalOffset, objectSize s x)) = some [(0, 40), (0, 4)] := by decide
  rcases map_eq_some_iff.mp hrun with ⟨s, hs, hvalue⟩
  refine ⟨s, hs, fun hdisjoint => ?_⟩
  have hlen : s.symbols.length = 2 := by simpa using congrArg List.length hvalue
  have h0 := getElem?_eq_getElem (l := s.symbols) (i := 0) (by omega)
  have h1 := getElem?_eq_getElem (l := s.symbols) (i := 1) (by omega)
  have ha : (s.symbols[0].globalOffset, objectSize s s.symbols[0]) = (0, 40) := by
    have := congrArg (·[0]?) hvalue
    simpa [h0] using this
  have hb : (s.symbols[1].globalOffset, objectSize s s.symbols[1]) = (0, 4) := by
    have := congrArg (·[1]?) hvalue
    simpa [h1] using this
  simp only [Prod.mk.injEq] at ha hb
  have hapart := hdisjoint.1 0 1 _ _ (by decide) h0 h1 (by omega) (by omega)
  rw [extent, extent, Set.disjoint_left] at hapart
  apply hapart (a := 0)
  · rw [Set.mem_Ico]
    simp only [objectSize] at ha
    omega
  · rw [Set.mem_Ico]
    simp only [objectSize] at hb
    omega

end Kcs
