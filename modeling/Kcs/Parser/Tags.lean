import Kcs.Parser.Visibility
import Kcs.Types.Anonymous
import Kcs.Types.Pointer

/-!
# Tags

`struct_or_union_declaration` looks a tag up in all open scopes.  A list of members that follows
goes to the type that was found while that type has no size; only a type with a size gets a
type of its own in the current scope, or makes the list a redefinition.

Main results:

- Lemma {lit}`structOrUnionDeclaration_cases`: what a specifier names.
- Lemma {lit}`TagInv.call_growth`: what a call in a scope does.
-/

namespace Kcs

open Option List

/-! ## The source -/

/-- The namespace of tags, with the lists of members that are being read, each with the depth of the
scope in which it starts.  The last component keeps the types that have had a list; the source has
no such component, and no function reads it. -/
structure TagState where
  table : DeclState := { scopes := [] }
  lists : List (CType × Nat) := []
  begun : List Int := []

/-- `sym_add` for a tag. -/
def declareTag (s : DeclState) (name : String) (type : CType) : Option (DeclSymbol × DeclState) :=
  (declare s { name := name, type := type, symtype := .tag, linkage := .none }).bind fun (id, t) =>
    t.symbols[id]?.map fun sym => (sym, t)

/-- `type_create` and `sym_add` for the tag of a structure or union. -/
def createTag (s : DeclState) (kind : TypeKind) (name : String) :
    Option (DeclSymbol × DeclState) :=
  declareTag { s with types := (typeCreate s.types kind).2 } name (typeCreate s.types kind).1

/-- The symbol of the tag in `struct_or_union_declaration`. -/
def lookupTag (s : DeclState) (kind : TypeKind) (name : String) :
    Option (DeclSymbol × DeclState) :=
  match symLookup s name with
  | none => createTag s kind name
  | some id =>
    s.symbols[id]?.bind fun sym =>
      if sym.type.isInteger ∨ sym.type.typeOf ≠ kind then none else some (sym, s)

/-- `struct_or_union_declaration` up to the list of members: the type that it names. -/
def structOrUnionDeclaration (s : DeclState) (kind : TypeKind) (tag : Option String) (list : Bool) :
    Option (CType × DeclState) :=
  match tag with
  | some name => do
    let (sym, s) ← lookupTag s kind name
    let size ← sizeOf s.types sym.type
    if list ∧ size ≠ 0 then
      if sym.depth ≠ s.depth then (createTag s kind name).map fun (sym, s) => (sym.type, s)
      else none
    else some (sym.type, s)
  | none =>
    if list then
      some ((typeCreate s.types kind).1, { s with types := (typeCreate s.types kind).2 })
    else none

/-- The tag of an `enum_declaration`. -/
def enumTag (s : DeclState) (name : String) : Option DeclState :=
  let add := (declareTag s name basicTypeInt).map (·.2)
  match symLookup s name with
  | none => add
  | some id =>
    s.symbols[id]?.bind fun sym =>
      if sym.depth < s.depth then add else if sym.type.isInteger then some s else none

/-- `struct` or `union`. -/
inductive AggregateKind
  | struct
  | union
deriving DecidableEq, Repr

/-- The kind of the type. -/
def AggregateKind.kind : AggregateKind → TypeKind
  | .struct => .struct
  | .union => .union

/-- A member of a list. -/
inductive MemberOp
  | member (name : String) (type : CType)
  | field (name : String) (type : CType) (width : Nat)
  | anonymous (type : CType)
deriving DecidableEq, Repr

/-- A member is added to a type. -/
def addMemberOp (types : TypeTable) (t : Typetree) : MemberOp → Except LayoutError Typetree
  | .member name type => typeAddMember types t name type
  | .field name type width => typeAddField types t name type width
  | .anonymous type => typeAddAnonymousMember types t type

/-- What the parser does to tags: it opens and closes scopes, reads a specifier with or without a
tag and up to a list of members, adds a member to the innermost list, ends it, and creates types
for declarators. -/
inductive TagCall
  | opens
  | closes
  | enum (name : String)
  | specifier (kind : AggregateKind) (tag : Option String) (list : Bool)
  | member (op : MemberOp)
  | finish
  | declares (types : TypeTable)

/-- Change the type of the innermost list, in the scope in which the list starts. -/
def changeType (s : TagState) (f : Typetree → Except LayoutError Typetree) : Option TagState :=
  match s.lists with
  | [] => none
  | (type, depth) :: _ =>
    if depth ≠ s.table.depth then none
    else do
      let t ← getTypetreeHandle s.table.types type.ref
      match f t with
      | .error _ => none
      | .ok t =>
        let types ← setTypetree s.table.types type.ref t
        some { s with table := { s.table with types := types } }

/-- Declarators create types, and leave the types of tags alone. -/
def LeavesTags (s : DeclState) (types : TypeTable) : Prop :=
  s.types.length ≤ types.length ∧ ∀ sym ∈ s.symbols,
    getTypetreeHandle types sym.type.ref = getTypetreeHandle s.types sym.type.ref

instance (s : DeclState) (types : TypeTable) : Decidable (LeavesTags s types) :=
  inferInstanceAs (Decidable (_ ∧ _))

/-- One call.  A scope is closed after the lists that start in it. -/
def tagCall (s : TagState) : TagCall → Option TagState
  | .opens => (scopeCall s.table .opens).map fun t => { s with table := t }
  | .closes =>
    if s.lists.any (·.2 = s.table.depth) then none
    else (scopeCall s.table .closes).map fun t => { s with table := t }
  | .enum name => (enumTag s.table name).map fun t => { s with table := t }
  | .specifier kind tag list =>
    (structOrUnionDeclaration s.table kind.kind tag list).map fun (type, t) =>
      if list then
        { table := t, lists := (type, t.depth) :: s.lists, begun := type.ref :: s.begun }
      else { s with table := t }
  | .member op => changeType s fun t => addMemberOp s.table.types t op
  | .finish =>
    (changeType s (typeSeal s.table.types)).map fun s => { s with lists := s.lists.tail }
  | .declares types =>
    if LeavesTags s.table types then some { s with table := { s.table with types := types } }
    else none

/-- A sequence of calls. -/
def tagCalls (s : TagState) (calls : List TagCall) : Option TagState :=
  calls.foldlM tagCall s

/-! ## What is claimed -/

/-- The tag that the innermost scope has under a name. -/
def currentTag (s : DeclState) (name : String) : Option Nat :=
  s.scopes.head?.bind (hashLookup · name)

/-- A list of members starts for a tag of the current scope, whose type no other tag has, and which
has had no list. -/
structure DefinesHere (s t : TagState) (name : String) (id : Nat) (sym : DeclSymbol) : Prop where
  list : t.lists = (sym.type, t.table.depth) :: s.lists
  current : currentTag t.table name = some id
  symbol : t.table.symbols[id]? = some sym
  depth : sym.depth = t.table.depth
  fresh : sym.type.ref ∉ s.begun
  begun : sym.type.ref ∈ t.begun
  distinct : ∀ (i : Nat) other, i ≠ id → t.table.symbols[i]? = some other →
    other.type.isInteger = false → other.type.ref ≠ sym.type.ref

/-- The scopes that are open inside of a scope after some calls, as long as it is open itself. -/
def innerTagScopes : Nat → List TagCall → Option Nat
  | n, [] => some n
  | n, .opens :: calls => innerTagScopes (n + 1) calls
  | 0, .closes :: _ => none
  | n + 1, .closes :: calls => innerTagScopes n calls
  | n, _ :: calls => innerTagScopes n calls

/-- Tags are scoped in a sequence of calls. -/
structure TagsScoped (s : TagState) (calls : List TagCall) : Prop where
  /-- A specifier with a list of members defines a type of the current scope. -/
  defines : ∀ before kind name rest, calls = before ++ .specifier kind (some name) true :: rest →
    ∀ t, tagCalls s before = some t →
      (t.table.scopes ≠ [] → currentTag t.table name = none →
        ∃ u, tagCall t (.specifier kind (some name) true) = some u) ∧
      ∀ u, tagCall t (.specifier kind (some name) true) = some u →
        ∃ id sym, DefinesHere t u name id sym
  /-- Types of enclosing scopes are kept while an inner scope is open. -/
  kept : ∀ before after rest, calls = before ++ (after ++ rest) →
    ∀ t u n, tagCalls s before = some t → tagCalls t after = some u →
      innerTagScopes 0 after = some n → ∀ (i : Nat) sym, t.table.symbols[i]? = some sym →
        sym.type.isInteger = false → sym.depth < t.table.depth →
          u.table.symbols[i]? = some sym ∧
            getTypetreeHandle u.table.types sym.type.ref =
              getTypetreeHandle t.table.types sym.type.ref
  /-- A specifier without a list names the innermost visible type. -/
  uses : ∀ before kind name rest, calls = before ++ .specifier kind (some name) false :: rest →
    ∀ t, tagCalls s before = some t → ∀ id sym, symLookup t.table name = some id →
      t.table.symbols[id]? = some sym → ∀ type u,
        structOrUnionDeclaration t.table kind.kind (some name) false = some (type, u) →
          type = sym.type ∧ u = t.table
  /-- A second list for a tag in a scope is rejected. -/
  once : ∀ before kind name after kind' rest,
    calls = before ++ .specifier kind (some name) true ::
      (after ++ .specifier kind' (some name) true :: rest) →
    ∀ t u v, tagCalls s before = some t → tagCall t (.specifier kind (some name) true) = some u →
      tagCalls u after = some v → innerTagScopes 0 after = some 0 →
        tagCall v (.specifier kind' (some name) true) = none

/-- A list of members fits the tag that is visible: it is a tag of the current scope without a list,
or its type has a size, and is of the same kind. -/
def ListFits (s : TagState) (kind : AggregateKind) (name : String) : Prop :=
  ∀ id sym, symLookup s.table name = some id → s.table.symbols[id]? = some sym →
    (sym.depth ≠ s.table.depth → sym.type.isInteger = false ∧ sym.type.typeOf = kind.kind ∧
      (sizeOf s.table.types sym.type).getD 0 ≠ 0) ∧
    (sym.depth = s.table.depth → sizeOf s.table.types sym.type = some 0 →
      sym.type.ref ∉ s.begun)

instance (s : TagState) (kind : AggregateKind) (name : String) : Decidable (ListFits s kind name) :=
  match hid : symLookup s.table name with
  | none => isTrue fun _ _ h => by rw [hid] at h; cases h
  | some id =>
    match hsym : s.table.symbols[id]? with
    | none => isTrue fun _ _ h hget => by
        rw [hid, some.injEq] at h
        rw [← h, hsym] at hget
        cases hget
    | some sym =>
      decidable_of_iff
        ((sym.depth ≠ s.table.depth → sym.type.isInteger = false ∧ sym.type.typeOf = kind.kind ∧
          (sizeOf s.table.types sym.type).getD 0 ≠ 0) ∧
        (sym.depth = s.table.depth → sizeOf s.table.types sym.type = some 0 →
          sym.type.ref ∉ s.begun))
        ⟨fun h id' sym' hid' hsym' => by
          rw [hid, some.injEq] at hid'
          rw [← hid', hsym, some.injEq] at hsym'
          rw [← hsym']
          exact h, fun h => h id sym hid hsym⟩

/-- A call meets a type table with room, and a list of members fits. -/
def CallFits (s : TagState) : TagCall → Prop
  | .specifier kind (some name) true => s.table.types.length < 32767 ∧ ListFits s kind name
  | _ => s.table.types.length < 32767

instance (s : TagState) (c : TagCall) : Decidable (CallFits s c) := by
  unfold CallFits
  split <;> infer_instance

/-- Every call of a sequence fits. -/
def CallsFit (s : TagState) (calls : List TagCall) : Prop :=
  ∀ before call rest, calls = before ++ call :: rest →
    ∀ t, tagCalls s before = some t → CallFits t call

/-! ## New tags -/

variable {s t : DeclState} {name : String} {type : CType} {kind : TypeKind} {id : Nat}
  {sym : DeclSymbol} {scope : List (String × Nat)} {rest : List (List (String × Nat))}

/-- Every name of a scope has a symbol of its depth, and types of structures and unions differ. -/
structure TagTable (s : DeclState) : Prop where
  leveled : ∀ (i : Nat) scope, s.scopes[i]? = some scope → ∀ name id,
    hashLookup scope name = some id →
      ∃ sym, s.symbols[id]? = some sym ∧ sym.depth + i + 1 = s.scopes.length
  refs : ∀ (i : Nat) sym, s.symbols[i]? = some sym → sym.type.isInteger = false →
    0 < sym.type.ref ∧ sym.type.ref ≤ s.types.length
  distinct : ∀ (i j : Nat) x y, i ≠ j → s.symbols[i]? = some x → s.symbols[j]? = some y →
    x.type.isInteger = false → y.type.isInteger = false → x.type.ref ≠ y.type.ref

/-- The tag with a name that is not visible, or in an enclosing scope only. -/
def NotCurrent (s : DeclState) (name : String) : Prop :=
  ∀ id sym, symLookup s name = some id → s.symbols[id]? = some sym → sym.depth ≠ s.depth

theorem TagTable.found (h : TagTable s) (hlookup : symLookup s name = some id) :
    ∃ n sym, Found s name id n ∧ s.symbols[id]? = some sym ∧
      sym.depth + n + 1 = s.scopes.length := by
  rcases found_of_lookup hlookup with ⟨n, hfound⟩
  rcases hfound with ⟨inner, scope, rest, hscopes, rfl, hscope, hnone⟩
  have hget : s.scopes[inner.length]? = some scope := by simp [hscopes]
  rcases h.leveled _ _ hget _ _ hscope with ⟨sym, hsym, hdepth⟩
  exact ⟨_, sym, ⟨inner, scope, rest, hscopes, rfl, hscope, hnone⟩, hsym, hdepth⟩

theorem TagTable.current (h : TagTable s) (hlookup : symLookup s name = some id)
    (hsym : s.symbols[id]? = some sym) (hdepth : sym.depth = s.depth) :
    currentTag s name = some id := by
  rcases h.found hlookup with ⟨n, sym', ⟨inner, scope, rest, hscopes, hlength, hscope, -⟩, hsym',
    hlevel⟩
  rw [hsym, some.injEq] at hsym'
  subst hsym'
  have hn : n = 0 := by
    simp only [DeclState.depth] at hdepth
    omega
  rw [hn, length_eq_zero_iff] at hlength
  subst hlength
  simp [currentTag, hscopes, hscope]

theorem TagTable.of_current (h : TagTable s) (hcurrent : currentTag s name = some id) :
    symLookup s name = some id ∧ ∃ sym, s.symbols[id]? = some sym ∧ sym.depth = s.depth := by
  rcases bind_eq_some_iff.mp hcurrent with ⟨scope, hhead, hscope⟩
  rcases head?_eq_some_iff.mp hhead with ⟨rest, hscopes⟩
  have hget : s.scopes[0]? = some scope := by simp [hscopes]
  rcases h.leveled 0 scope hget name id hscope with ⟨sym, hsym, hlevel⟩
  refine ⟨by rw [symLookup_cons hscopes, hscope]; rfl, sym, hsym, ?_⟩
  simp only [DeclState.depth]
  omega

theorem TagTable.hashLookup_eq_none (h : TagTable s) (hnew : NotCurrent s name)
    (hscopes : s.scopes = scope :: rest) : hashLookup scope name = none := by
  by_contra hsome
  rcases ne_none_iff_exists'.mp hsome with ⟨id, hid⟩
  have hcurrent : currentTag s name = some id := by simp [currentTag, hscopes, hid]
  rcases h.of_current hcurrent with ⟨hlookup, sym, hsym, hdepth⟩
  exact hnew id sym hlookup hsym hdepth

/-- The symbol of a new tag. -/
def tagSymbol (s : DeclState) (name : String) (type : CType) : DeclSymbol where
  name := name
  type := type
  symtype := .tag
  linkage := .none
  depth := s.depth

theorem declareTag_eq (h : TagTable s) (hnew : NotCurrent s name)
    (hscopes : s.scopes = scope :: rest) (hfun : type.isFunction = false) :
    declareTag s name type = some (tagSymbol s name type,
      { s with
        symbols := s.symbols ++ [tagSymbol s name type]
        scopes := (scope ++ [(name, s.symbols.length)]) :: rest }) := by
  have hinsert : hashInsert scope name s.symbols.length = scope ++ [(name, s.symbols.length)] := by
    simp [hashInsert, h.hashLookup_eq_none hnew hscopes]
  have hadd : declare s { name := name, type := type, symtype := .tag, linkage := .none } =
      some (symCreate s name type .tag .none) := by
    rw [declare, if_neg (by simp [hscopes]), symAdd]
    cases hlookup : symLookup s name with
    | none => simp [hfun]
    | some id =>
      rcases h.found hlookup with ⟨-, sym, -, hsym, -⟩
      have hdepth := hnew id sym hlookup hsym
      have hno : ¬ ((s.depth = 0 ∨ Linkage.none = .external) ∧ sym.depth = 0) := by
        rintro ⟨hzero | hlink, hzero'⟩
        · exact hdepth (hzero'.trans hzero.symm)
        · cases hlink
      simp only [hsym, bind, bind_some]
      exact if_neg hno
  rw [declareTag, hadd]
  simp [symCreate, symMakeVisible, hscopes, hinsert, hfun, tagSymbol]

/-- The type that `type_create` makes, while there is room in the table. -/
def freshType (s : DeclState) (kind : TypeKind) : CType :=
  { type := kind, ref := s.types.length + 1 }

theorem typeCreate_eq (hroom : s.types.length < 32767) (kind : TypeKind) :
    typeCreate s.types kind = (freshType s kind, s.types ++ [{ type := kind }]) := by
  have href : refField (s.types.length + 1) = s.types.length + 1 := by
    rw [refField_of_le (by omega)]
    push_cast
    rfl
  rw [typeCreate, href, freshType]

/-- A new type with a new tag in the innermost scope. -/
structure Creates (s : DeclState) (kind : TypeKind) (name : String) (t : DeclState) : Prop where
  free : NotCurrent s name
  eq : ∃ scope rest, s.scopes = scope :: rest ∧ hashLookup scope name = none ∧ t =
    { s with
      types := s.types ++ [{ type := kind }]
      symbols := s.symbols ++ [tagSymbol s name (freshType s kind)]
      scopes := (scope ++ [(name, s.symbols.length)]) :: rest }

theorem TagTable.withTypes (h : TagTable s) {types : TypeTable}
    (hlen : s.types.length ≤ types.length) : TagTable { s with types := types } where
  leveled := h.leveled
  refs := fun i sym hsym hint => by
    rcases h.refs i sym hsym hint with ⟨hpos, hle⟩
    exact ⟨hpos, by simp only; omega⟩
  distinct := h.distinct

theorem declareTag_of_scopes_nil (hscopes : s.scopes = []) : declareTag s name type = none := by
  simp [declareTag, declare, hscopes]

theorem createTag_eq (h : TagTable s) (hroom : s.types.length < 32767) (hnew : NotCurrent s name)
    (kind : AggregateKind) (hcreate : createTag s kind.kind name = some (sym, t)) :
    sym = tagSymbol s name (freshType s kind.kind) ∧ Creates s kind.kind name t := by
  rw [createTag, typeCreate_eq hroom] at hcreate
  cases hscopes : s.scopes with
  | nil =>
    rw [declareTag_of_scopes_nil (by exact hscopes)] at hcreate
    cases hcreate
  | cons scope rest =>
    have hlen : s.types.length ≤ (s.types ++ [({ type := kind.kind } : Typetree)]).length := by simp
    have hfun : (freshType s kind.kind).isFunction = false := by cases kind <;> rfl
    rw [declareTag_eq (h.withTypes hlen) hnew hscopes hfun] at hcreate
    cases hcreate
    exact ⟨rfl, hnew, scope, rest, hscopes, h.hashLookup_eq_none hnew hscopes, rfl⟩

theorem createTag_isSome (h : TagTable s) (hroom : s.types.length < 32767)
    (hnew : NotCurrent s name) (hopen : s.scopes ≠ []) (kind : AggregateKind) :
    ∃ t, createTag s kind.kind name = some (tagSymbol s name (freshType s kind.kind), t) := by
  rcases exists_cons_of_ne_nil hopen with ⟨scope, rest, hscopes⟩
  have hlen : s.types.length ≤ (s.types ++ [({ type := kind.kind } : Typetree)]).length := by simp
  have hfun : (freshType s kind.kind).isFunction = false := by cases kind <;> rfl
  have hadd := declareTag_eq (h.withTypes hlen) hnew hscopes hfun
  rw [createTag, typeCreate_eq hroom]
  exact ⟨_, hadd⟩

theorem sizeOf_fresh (kind : AggregateKind) :
    sizeOf (s.types ++ [{ type := kind.kind }]) (freshType s kind.kind) = some 0 := by
  have hget := getTypetreeHandle_append s.types { type := kind.kind }
  cases kind <;> simp [sizeOf, sizeOfAux, CType.typeOf, freshType, hget, AggregateKind.kind] at *

/-- What a specifier names: a visible type, which has no size when a list follows, a new type of the
current scope, or a type without a tag. -/
theorem structOrUnionDeclaration_cases (h : TagTable s) (hroom : s.types.length < 32767)
    {kind : AggregateKind} {tag : Option String} {list : Bool}
    (hdecl : structOrUnionDeclaration s kind.kind tag list = some (type, t)) :
    (∃ name id sym, tag = some name ∧ symLookup s name = some id ∧ s.symbols[id]? = some sym ∧
        sym.type.isInteger = false ∧ sym.type.typeOf = kind.kind ∧ type = sym.type ∧ t = s ∧
        (list = true → sizeOf s.types sym.type = some 0)) ∨
      (∃ name, tag = some name ∧ type = freshType s kind.kind ∧ Creates s kind.kind name t) ∨
      (tag = none ∧ list = true ∧ type = freshType s kind.kind ∧
        t = { s with types := s.types ++ [{ type := kind.kind }] }) := by
  cases tag with
  | none =>
    rw [structOrUnionDeclaration, typeCreate_eq hroom] at hdecl
    split at hdecl
    · cases hdecl
      exact Or.inr (Or.inr ⟨rfl, ‹_›, rfl, rfl⟩)
    · cases hdecl
  | some name =>
    simp only [structOrUnionDeclaration, bind, bind_eq_some_iff] at hdecl
    rcases hdecl with ⟨⟨sym, u⟩, hlookup, size, hsize, hdecl⟩
    unfold lookupTag at hlookup
    split at hlookup
    · rename_i hnone
      have hnew : NotCurrent s name := by
        intro id sym hfound
        rw [hnone] at hfound
        cases hfound
      rcases createTag_eq h hroom hnew kind hlookup with ⟨rfl, hcreates⟩
      rcases hcreates.eq with ⟨scope, rest, -, -, rfl⟩
      have hzero : size = 0 := by
        have hfresh : sizeOf _ (freshType s kind.kind) = some 0 := sizeOf_fresh (s := s) kind
        exact some.inj (hsize.symm.trans hfresh)
      rw [if_neg (by simp [hzero])] at hdecl
      cases hdecl
      exact Or.inr (Or.inl ⟨name, rfl, rfl, hcreates⟩)
    · rename_i id hfound
      rcases bind_eq_some_iff.mp hlookup with ⟨sym', hsym, hlookup⟩
      split at hlookup
      · cases hlookup
      rename_i hkind
      cases hlookup
      simp only [not_or, not_not, Bool.not_eq_true] at hkind
      split at hdecl
      · split at hdecl
        · rename_i hdepth
          have hnew : NotCurrent s name := by
            intro id' sym' hfound' hsym'
            rw [hfound, some.injEq] at hfound'
            rw [← hfound', hsym, some.injEq] at hsym'
            rwa [← hsym']
          rcases map_eq_some_iff.mp hdecl with ⟨⟨sym', u⟩, hcreate, heq⟩
          cases heq
          rcases createTag_eq h hroom hnew kind hcreate with ⟨rfl, hcreates⟩
          exact Or.inr (Or.inl ⟨name, rfl, rfl, hcreates⟩)
        · cases hdecl
      · rename_i hlist
        cases hdecl
        refine Or.inl ⟨name, id, sym, rfl, hfound, hsym, hkind.1, hkind.2, rfl, rfl, ?_⟩
        intro htrue
        simp only [htrue, true_and, not_not] at hlist
        rw [hsize, hlist]

theorem getTypetreeHandle_append_of_le {types : TypeTable} {ref : Int} (hlo : 0 < ref)
    (hhi : ref ≤ types.length) (more : TypeTable) :
    getTypetreeHandle (types ++ more) ref = getTypetreeHandle types ref := by
  have hlt : (ref - 1).toNat < types.length := by omega
  have hget : getTypetreeHandle types ref = some types[(ref - 1).toNat] := by
    simp [getTypetreeHandle, typetreeIndex, hlo, hhi]
  rw [hget]
  exact getTypetreeHandle_append_of_some hget more

/-! ## One call -/

/-- The types of tags of enclosing scopes are the same. -/
def KeepsOuter (s : DeclState) (types : TypeTable) : Prop :=
  ∀ (i : Nat) sym, s.symbols[i]? = some sym → sym.type.isInteger = false → sym.depth < s.depth →
    getTypetreeHandle types sym.type.ref = getTypetreeHandle s.types sym.type.ref

/-- What a call that neither opens nor closes a scope does: types of the innermost scope change, and
there may be one tag more. -/
inductive TagGrowth (s : DeclState) : DeclState → Prop
  | types (types : TypeTable) (hlen : s.types.length ≤ types.length)
      (hkeep : KeepsOuter s types) : TagGrowth s { s with types := types }
  | adds (types : TypeTable) (scope : List (String × Nat)) (rest : List (List (String × Nat)))
      (sym : DeclSymbol) (hscopes : s.scopes = scope :: rest)
      (hnone : hashLookup scope sym.name = none) (hlen : s.types.length ≤ types.length)
      (hkeep : KeepsOuter s types) (hdepth : sym.depth = s.depth)
      (hfresh : sym.type.isInteger = false →
        s.types.length < sym.type.ref ∧ sym.type.ref ≤ types.length) :
      TagGrowth s
        { s with
          types := types
          symbols := s.symbols ++ [sym]
          scopes := (scope ++ [(sym.name, s.symbols.length)]) :: rest }

theorem TagTable.keepsOuter (h : TagTable s) (more : TypeTable) :
    KeepsOuter s (s.types ++ more) := by
  intro i sym hsym hint _
  rcases h.refs i sym hsym hint with ⟨hpos, hle⟩
  exact getTypetreeHandle_append_of_le hpos hle more

theorem TagGrowth.refl (s : DeclState) : TagGrowth s s :=
  .types s.types le_rfl fun _ _ _ _ _ => rfl

theorem Creates.growth (h : Creates s kind name t) (htable : TagTable s) : TagGrowth s t := by
  rcases h.eq with ⟨scope, rest, hscopes, hnone, rfl⟩
  refine .adds _ scope rest (tagSymbol s name (freshType s kind)) hscopes hnone (by simp)
    (htable.keepsOuter _) rfl fun _ => ?_
  simp [tagSymbol, freshType]

theorem TagGrowth.symbols (h : TagGrowth s t) : ∃ more, t.symbols = s.symbols ++ more := by
  cases h with
  | types types hlen hkeep => exact ⟨[], (append_nil _).symm⟩
  | adds types scope rest sym hscopes hnone hlen hkeep hdepth hfresh => exact ⟨[sym], rfl⟩

theorem TagGrowth.scopes (h : TagGrowth s t) (hscopes : s.scopes = scope :: rest) :
    ∃ scope', t.scopes = scope' :: rest ∧
      ∀ name id, hashLookup scope name = some id → hashLookup scope' name = some id := by
  cases h with
  | types types hlen hkeep => exact ⟨scope, hscopes, fun _ _ h => h⟩
  | adds types scope' rest' sym hscopes' hnone hlen hkeep hdepth hfresh =>
    rw [hscopes] at hscopes'
    cases hscopes'
    refine ⟨_, rfl, fun name id hid => ?_⟩
    rcases map_eq_some_iff.mp hid with ⟨entry, hentry, heq⟩
    simp [hashLookup, find?_append, hentry, heq]

theorem hashLookup_append_new (hnone : hashLookup scope name = none) (name' : String) (id : Nat) :
    hashLookup (scope ++ [(name, id)]) name' =
      if name' = name then some id else hashLookup scope name' := by
  have hinsert : hashInsert scope name id = scope ++ [(name, id)] := by simp [hashInsert, hnone]
  rw [← hinsert, hashLookup_hashInsert, hnone]
  rfl

/-- A table of tags that grows is one. -/
theorem TagGrowth.table (h : TagGrowth s t) (htable : TagTable s) : TagTable t := by
  cases h with
  | types types hlen hkeep => exact htable.withTypes hlen
  | adds types scope rest sym hscopes hnone hlen hkeep hdepth hfresh =>
    have hlast : (s.symbols ++ [sym])[s.symbols.length]? = some sym := by simp
    have hold : ∀ {i : Nat} {x : DeclSymbol}, s.symbols[i]? = some x →
        (s.symbols ++ [sym])[i]? = some x := by
      intro i x hx
      rw [getElem?_append_left (List.getElem?_eq_some_iff.mp hx).1, hx]
    have hcases : ∀ {i : Nat} {x : DeclSymbol}, (s.symbols ++ [sym])[i]? = some x →
        s.symbols[i]? = some x ∨ i = s.symbols.length ∧ x = sym := by
      intro i x hx
      by_cases hi : i < s.symbols.length
      · rw [getElem?_append_left hi] at hx
        exact Or.inl hx
      · have hlt := (List.getElem?_eq_some_iff.mp hx).1
        simp only [length_append, length_singleton] at hlt
        have hi' : i = s.symbols.length := by omega
        subst hi'
        rw [hlast, some.injEq] at hx
        exact Or.inr ⟨rfl, hx.symm⟩
    refine ⟨?_, ?_, ?_⟩
    · intro i scope' hget name id hid
      cases i with
      | zero =>
        simp only [getElem?_cons_zero, some.injEq] at hget
        subst hget
        rw [hashLookup_append_new hnone] at hid
        split at hid
        · cases hid
          refine ⟨sym, hlast, ?_⟩
          simp only [hdepth, DeclState.depth, hscopes, length_cons]
          omega
        · have hfirst : s.scopes[0]? = some scope := by simp [hscopes]
          rcases htable.leveled 0 scope hfirst name id hid with ⟨x, hx, hlevel⟩
          refine ⟨x, hold hx, ?_⟩
          rw [hlevel, hscopes, length_cons, length_cons]
      | succ i =>
        have hget' : s.scopes[i + 1]? = some scope' := by rw [hscopes]; exact hget
        rcases htable.leveled (i + 1) scope' hget' name id hid with ⟨x, hx, hlevel⟩
        refine ⟨x, hold hx, ?_⟩
        rw [hlevel, hscopes, length_cons, length_cons]
    · intro i x hx hint
      rcases hcases hx with hx | ⟨-, rfl⟩
      · rcases htable.refs i x hx hint with ⟨hpos, hle⟩
        exact ⟨hpos, by simp only; omega⟩
      · rcases hfresh hint with ⟨hlo, hhi⟩
        exact ⟨by omega, hhi⟩
    · intro i j x y hij hx hy hxint hyint
      rcases hcases hx with hx' | ⟨rfl, rfl⟩ <;> rcases hcases hy with hy' | ⟨rfl, rfl⟩
      · exact htable.distinct i j x y hij hx' hy' hxint hyint
      · have hle := (htable.refs i x hx' hxint).2
        have hlt := (hfresh hyint).1
        omega
      · have hle := (htable.refs j y hy' hyint).2
        have hlt := (hfresh hxint).1
        omega
      · exact absurd rfl hij

theorem TagTable.opens (h : TagTable s) : TagTable { s with scopes := [] :: s.scopes } where
  leveled := by
    intro i scope hget name id hid
    cases i with
    | zero =>
      cases hget
      cases hid
    | succ i =>
      rcases h.leveled i scope hget name id hid with ⟨sym, hsym, hlevel⟩
      exact ⟨sym, hsym, by simp only [length_cons]; omega⟩
  refs := h.refs
  distinct := h.distinct

theorem TagTable.closes (h : TagTable s) (hscopes : s.scopes = scope :: rest) :
    TagTable { s with scopes := rest } where
  leveled := by
    intro i scope' hget name id hid
    have hget' : s.scopes[i + 1]? = some scope' := by rw [hscopes]; exact hget
    rcases h.leveled (i + 1) scope' hget' name id hid with ⟨sym, hsym, hlevel⟩
    rw [hscopes, length_cons] at hlevel
    exact ⟨sym, hsym, by simp only; omega⟩
  refs := h.refs
  distinct := h.distinct

theorem tagTable_nil (s : DeclState) :
    TagTable { s with symbols := [], scopes := [], functions := [] } where
  leveled := fun i scope hget => by simp at hget
  refs := fun i sym hsym => by simp at hsym
  distinct := fun i j x y _ hx => by simp at hx

/-- Lists of members are about types without a tag or with one of the depth in which they start, and
the types that had a list are there. -/
structure TagInv (s : TagState) : Prop where
  table : TagTable s.table
  lists : ∀ l ∈ s.lists, l.1.ref ≤ s.table.types.length ∧
    ∀ (i : Nat) sym, s.table.symbols[i]? = some sym → sym.type.isInteger = false →
      sym.type.ref = l.1.ref → sym.depth = l.2
  begun : ∀ ref ∈ s.begun, ref ≤ s.table.types.length

/-- A call that opens or closes a scope. -/
def TagCall.isScope : TagCall → Bool
  | .opens | .closes => true
  | _ => false

theorem innerTagScopes_cons {c : TagCall} (hc : c.isScope = false) (n : Nat)
    (calls : List TagCall) : innerTagScopes n (c :: calls) = innerTagScopes n calls := by
  cases c <;> simp_all [TagCall.isScope, innerTagScopes]

section Calls

variable {u v : TagState} {c : TagCall} {calls : List TagCall} {n m : Nat}

theorem TagInv.changeType_growth (h : TagInv u) {f : Typetree → Except LayoutError Typetree}
    (hchange : changeType u f = some v) :
    TagGrowth u.table v.table ∧ v.lists = u.lists ∧ v.begun = u.begun := by
  unfold changeType at hchange
  split at hchange
  · cases hchange
  rename_i type depth lists hlists
  split at hchange
  · cases hchange
  rename_i hdepth
  simp only [bind, bind_eq_some_iff] at hchange
  rcases hchange with ⟨t, -, hchange⟩
  split at hchange
  · cases hchange
  rename_i t' _
  simp only [bind_eq_some_iff, some.injEq] at hchange
  rcases hchange with ⟨types, hset, rfl⟩
  refine ⟨.types types (setTypetree_length hset).ge ?_, rfl, rfl⟩
  intro i sym hsym hint hlt
  apply getTypetreeHandle_setTypetree_of_ne hset
  intro href
  have hsame := (h.lists (type, depth) (by simp [hlists])).2 i sym hsym hint href
  omega

/-- A call in a scope. -/
theorem TagInv.call_growth (h : TagInv u) (hroom : u.table.types.length < 32767)
    (hcall : tagCall u c = some v) (hc : c.isScope = false) :
    TagGrowth u.table v.table ∧ u.begun ⊆ v.begun := by
  cases c with
  | opens => cases hc
  | closes => cases hc
  | enum name =>
    rcases map_eq_some_iff.mp hcall with ⟨t, henum, rfl⟩
    refine ⟨?_, Subset.refl _⟩
    have hadd : NotCurrent u.table name →
        (declareTag u.table name basicTypeInt).map (·.2) = some t → TagGrowth u.table t := by
      intro hnew hdeclare
      cases hscopes : u.table.scopes with
      | nil =>
        rw [declareTag_of_scopes_nil hscopes] at hdeclare
        cases hdeclare
      | cons scope rest =>
        rw [declareTag_eq h.table hnew hscopes rfl] at hdeclare
        cases hdeclare
        exact .adds u.table.types scope rest (tagSymbol u.table name basicTypeInt) hscopes
          (h.table.hashLookup_eq_none hnew hscopes) le_rfl (fun _ _ _ _ _ => rfl) rfl
          (fun hint => by cases hint)
    unfold enumTag at henum
    simp only at henum
    split at henum
    · rename_i hnone
      refine hadd ?_ henum
      intro id sym hfound
      rw [hnone] at hfound
      cases hfound
    · rename_i id hfound
      rcases bind_eq_some_iff.mp henum with ⟨sym, hsym, henum⟩
      split at henum
      · rename_i hdepth
        refine hadd ?_ henum
        intro id' sym' hfound' hsym'
        rw [hfound, some.injEq] at hfound'
        rw [← hfound', hsym, some.injEq] at hsym'
        rw [← hsym']
        omega
      · split at henum
        · cases henum
          exact TagGrowth.refl _
        · cases henum
  | specifier kind tag list =>
    rcases map_eq_some_iff.mp hcall with ⟨⟨type, t⟩, hdecl, rfl⟩
    have hgrowth : TagGrowth u.table t := by
      rcases structOrUnionDeclaration_cases h.table hroom hdecl with
        ⟨_, _, _, -, -, -, -, -, -, rfl, -⟩ | ⟨_, -, -, hcreates⟩ | ⟨-, -, -, rfl⟩
      · exact TagGrowth.refl _
      · exact hcreates.growth h.table
      · exact .types _ (by simp) (h.table.keepsOuter _)
    cases list
    · exact ⟨hgrowth, Subset.refl _⟩
    · exact ⟨hgrowth, subset_cons_self _ _⟩
  | member op =>
    rcases h.changeType_growth hcall with ⟨hgrowth, -, hbegun⟩
    exact ⟨hgrowth, hbegun ▸ Subset.refl _⟩
  | finish =>
    rcases map_eq_some_iff.mp hcall with ⟨t, hchange, rfl⟩
    rcases h.changeType_growth hchange with ⟨hgrowth, -, hbegun⟩
    exact ⟨hgrowth, hbegun ▸ Subset.refl _⟩
  | declares types =>
    simp only [tagCall] at hcall
    split at hcall
    · rename_i hleaves
      cases hcall
      refine ⟨.types types hleaves.1 ?_, Subset.refl _⟩
      exact fun i sym hsym _ _ => hleaves.2 sym (mem_of_getElem? hsym)
    · cases hcall

theorem TagInv.growth (h : TagInv u) (hgrowth : TagGrowth u.table v.table)
    (hlists : v.lists ⊆ u.lists) (hbegun : v.begun ⊆ u.begun) : TagInv v where
  table := hgrowth.table h.table
  lists := by
    intro l hl
    rcases h.lists l (hlists hl) with ⟨hle, hdepth⟩
    rcases v with ⟨t, lists, begun⟩
    cases hgrowth with
    | types types hlen hkeep => exact ⟨by simp only; omega, hdepth⟩
    | adds types scope rest sym hscopes hnone hlen hkeep hsym hfresh =>
      refine ⟨by simp only; omega, fun i x hx hint href => ?_⟩
      by_cases hi : i < u.table.symbols.length
      · exact hdepth i x (by rwa [getElem?_append_left hi] at hx) hint href
      · rw [getElem?_append_right (by omega)] at hx
        have hmem := mem_of_getElem? hx
        rw [mem_singleton] at hmem
        subst hmem
        have hlt := (hfresh hint).1
        omega
  begun := by
    intro ref href
    have hle := h.begun ref (hbegun href)
    rcases v with ⟨t, lists, begun⟩
    cases hgrowth with
    | types types hlen hkeep => simp only; omega
    | adds types scope rest sym hscopes hnone hlen hkeep hsym hfresh => simp only; omega

theorem TagInv.begins (h : TagInv u) (htype : type.ref ≤ u.table.types.length)
    (hdepth : ∀ (i : Nat) sym, u.table.symbols[i]? = some sym → sym.type.isInteger = false →
      sym.type.ref = type.ref → sym.depth = u.table.depth) :
    TagInv { u with
      lists := (type, u.table.depth) :: u.lists
      begun := type.ref :: u.begun } where
  table := h.table
  lists := by
    intro l hl
    rcases mem_cons.mp hl with rfl | hl
    · exact ⟨htype, hdepth⟩
    · exact h.lists l hl
  begun := by
    intro ref href
    rcases mem_cons.mp href with rfl | href
    · exact htype
    · exact h.begun ref href

theorem CallFits.room (h : CallFits u c) : u.table.types.length < 32767 := by
  unfold CallFits at h
  split at h
  · exact h.1
  · exact h

/-- What a fitting list of members starts for: the one tag with its type is of the current depth. -/
theorem TagInv.specifier (h : TagInv u) {kind : AggregateKind} {tag : Option String} {list : Bool}
    (hfits : CallFits u (.specifier kind tag list)) (hcall : tagCall u (.specifier kind tag list) =
      some v) : TagInv v := by
  rcases map_eq_some_iff.mp hcall with ⟨⟨type, t⟩, hdecl, rfl⟩
  have hroom := hfits.room
  have hgrowth : TagGrowth u.table t := by
    have hgrow := (h.call_growth hroom hcall rfl).1
    cases list <;> exact hgrow
  have hgrown : TagInv { u with table := t } :=
    h.growth hgrowth (Subset.refl _) (Subset.refl _)
  cases list with
  | false => exact hgrown
  | true =>
    refine hgrown.begins ?_ ?_
    · rcases structOrUnionDeclaration_cases h.table hroom hdecl with
        ⟨_, id, sym, -, -, hsym, hint, -, rfl, rfl, -⟩ | ⟨_, -, rfl, hcreates⟩ | ⟨-, -, rfl, rfl⟩
      · exact (h.table.refs id sym hsym hint).2
      · rcases hcreates.eq with ⟨scope, rest, -, -, rfl⟩
        simp [freshType]
      · simp [freshType]
    · intro i sym hsym hint href
      rcases structOrUnionDeclaration_cases h.table hroom hdecl with
        ⟨name, id, old, rfl, hlookup, hold, holdint, -, rfl, rfl, hsize⟩ |
        ⟨name, -, rfl, hcreates⟩ | ⟨-, -, rfl, rfl⟩
      · have hsame : i = id := by
          by_contra hne
          exact h.table.distinct i id sym old hne hsym hold hint holdint href
        subst hsame
        rw [hsym, some.injEq] at hold
        subst hold
        by_contra hdepth
        have hpos := ((hfits.2 i sym hlookup hsym).1 hdepth).2.2
        rw [hsize rfl] at hpos
        exact hpos rfl
      · rcases hcreates.eq with ⟨scope, rest, hscopes, -, rfl⟩
        by_cases hi : i < u.table.symbols.length
        · rw [getElem?_append_left hi] at hsym
          have hle := (h.table.refs i sym hsym hint).2
          simp only [freshType] at href
          omega
        · rw [getElem?_append_right (by omega)] at hsym
          have hmem := mem_of_getElem? hsym
          rw [mem_singleton] at hmem
          subst hmem
          simp [tagSymbol, DeclState.depth, hscopes]
      · have hle := (h.table.refs i sym hsym hint).2
        simp only [freshType] at href
        omega

theorem TagInv.call (h : TagInv u) (hfits : CallFits u c) (hcall : tagCall u c = some v) :
    TagInv v := by
  cases c with
  | opens =>
    cases hcall
    exact ⟨h.table.opens, h.lists, h.begun⟩
  | closes =>
    simp only [tagCall] at hcall
    split at hcall
    · cases hcall
    rename_i hlists
    rcases map_eq_some_iff.mp hcall with ⟨t, hclose, rfl⟩
    unfold scopeCall at hclose
    simp only at hclose
    split at hclose
    · cases hclose
    · cases hclose
      refine ⟨tagTable_nil _, fun l hl => ⟨(h.lists l hl).1, ?_⟩, h.begun⟩
      intro i sym hsym
      simp at hsym
    · rename_i hscopes
      cases hclose
      exact ⟨h.table.closes hscopes, h.lists, h.begun⟩
  | enum name =>
    rcases map_eq_some_iff.mp hcall with ⟨t, -, rfl⟩
    exact h.growth (h.call_growth hfits hcall rfl).1 (Subset.refl _) (Subset.refl _)
  | specifier kind tag list => exact h.specifier hfits hcall
  | member op =>
    rcases h.changeType_growth hcall with ⟨hgrowth, hlists, hbegun⟩
    exact h.growth hgrowth (hlists ▸ Subset.refl _) (hbegun ▸ Subset.refl _)
  | finish =>
    rcases map_eq_some_iff.mp hcall with ⟨t, hchange, rfl⟩
    rcases h.changeType_growth hchange with ⟨hgrowth, hlists, hbegun⟩
    exact h.growth hgrowth (hlists ▸ tail_subset _) (hbegun ▸ Subset.refl _)
  | declares types =>
    have hgrowth := (h.call_growth hfits hcall rfl).1
    simp only [tagCall] at hcall
    split at hcall
    · cases hcall
      exact h.growth hgrowth (Subset.refl _) (Subset.refl _)
    · cases hcall

end Calls

end Kcs
