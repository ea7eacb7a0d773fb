import Kcs.Parser.Tags

/-!
# Scopes of tags

Sequences of declarations with tags: while an inner scope is open, the tags of the enclosing scopes
and their types are kept, and a tag whose list of members has begun gets no second one, as long as
every list of members fits the tag that is visible.

Main results:

- Theorem {lit}`tags_scoped`: tags are scoped when every list of members fits.
- Theorem {lit}`inner_list_completes_outer`: a list of members in an inner scope completes the type
  of the outer one.
-/

namespace Kcs

open Option List

section Calls

variable {name : String} {type : CType} {id : Nat} {sym : DeclSymbol} {u v : TagState} {c : TagCall}
  {calls : List TagCall} {n m : Nat}

/-! ## Sequences of calls -/

/-- From one state to another the scope that is innermost at first stays open, with some scopes in
it. -/
structure Within (u v : TagState) (n : Nat) : Prop where
  scopes : ∃ inner scope, v.table.scopes = inner ++ scope :: u.table.scopes.tail ∧
    inner.length = n ∧ ∀ name id, currentTag u.table name = some id →
      hashLookup scope name = some id
  symbols : ∃ more, v.table.symbols = u.table.symbols ++ more
  kept : ∀ (i : Nat) sym, u.table.symbols[i]? = some sym → sym.type.isInteger = false →
    sym.depth < u.table.depth →
      getTypetreeHandle v.table.types sym.type.ref = getTypetreeHandle u.table.types sym.type.ref
  begun : u.begun ⊆ v.begun

theorem Within.refl (hopen : u.table.scopes ≠ []) : Within u u 0 := by
  rcases exists_cons_of_ne_nil hopen with ⟨scope, rest, hscopes⟩
  refine ⟨⟨[], scope, by simp [hscopes], rfl, ?_⟩, ⟨[], (append_nil _).symm⟩,
    fun _ _ _ _ _ => rfl, Subset.refl _⟩
  intro name id hid
  simpa [currentTag, hscopes] using hid

theorem Within.depth (h : Within u v n) (hopen : u.table.scopes ≠ []) :
    v.table.depth = u.table.depth + n := by
  rcases h.scopes with ⟨inner, scope, hscopes, rfl, -⟩
  rcases exists_cons_of_ne_nil hopen with ⟨first, rest, hfirst⟩
  simp [DeclState.depth, hscopes, hfirst]
  omega

theorem Within.symbol (h : Within u v n) {i : Nat} {sym : DeclSymbol}
    (hsym : u.table.symbols[i]? = some sym) : v.table.symbols[i]? = some sym := by
  rcases h.symbols with ⟨more, hmore⟩
  rw [hmore, getElem?_append_left (List.getElem?_eq_some_iff.mp hsym).1, hsym]

theorem Within.growth {w : TagState} (h : Within u v n) (hopen : u.table.scopes ≠ [])
    (hgrowth : TagGrowth v.table w.table) (hbegun : v.begun ⊆ w.begun) : Within u w n := by
  have hdepth := h.depth hopen
  refine ⟨?_, ?_, ?_, fun ref href => hbegun (h.begun href)⟩
  · rcases h.scopes with ⟨inner, scope, hscopes, hlength, hhas⟩
    cases inner with
    | nil =>
      rcases hgrowth.scopes hscopes with ⟨scope', hscopes', hkeep⟩
      exact ⟨[], scope', hscopes', hlength, fun name id hid => hkeep name id (hhas name id hid)⟩
    | cons first inner =>
      rcases hgrowth.scopes hscopes with ⟨first', hscopes', -⟩
      exact ⟨first' :: inner, scope, hscopes', by simpa using hlength, hhas⟩
  · rcases h.symbols with ⟨more, hmore⟩
    rcases hgrowth.symbols with ⟨more', hmore'⟩
    exact ⟨more ++ more', by rw [hmore', hmore, append_assoc]⟩
  · intro i sym hsym hint hlt
    rw [← h.kept i sym hsym hint hlt]
    have hlt' : sym.depth < v.table.depth := by omega
    have hsym' := h.symbol hsym
    rcases w with ⟨t, lists, begun⟩
    cases hgrowth with
    | types types hlen hkeep => exact hkeep i sym hsym' hint hlt'
    | adds types scope rest new hscopes hnone hlen hkeep hdepth hfresh =>
      exact hkeep i sym hsym' hint hlt'

theorem Within.call {w : TagState} (h : Within u v n) (hopen : u.table.scopes ≠ [])
    (hv : TagInv v) (hroom : v.table.types.length < 32767) (hcall : tagCall v c = some w)
    (hinner : innerTagScopes n (c :: calls) = some m) :
    ∃ k, Within u w k ∧ innerTagScopes k calls = some m := by
  by_cases hc : c.isScope = false
  · rcases hv.call_growth hroom hcall hc with ⟨hgrowth, hbegun⟩
    rw [innerTagScopes_cons hc] at hinner
    exact ⟨n, h.growth hopen hgrowth hbegun, hinner⟩
  rcases h.scopes with ⟨inner, scope, hscopes, rfl, hhas⟩
  cases c with
  | opens =>
    cases hcall
    rw [innerTagScopes] at hinner
    exact ⟨_, ⟨⟨[] :: inner, scope, by simp [hscopes], rfl, hhas⟩, h.symbols, h.kept, h.begun⟩,
      hinner⟩
  | closes =>
    cases inner with
    | nil => cases hinner
    | cons first inner =>
      simp only [length_cons, innerTagScopes] at hinner
      simp only [tagCall] at hcall
      split at hcall
      · cases hcall
      rcases map_eq_some_iff.mp hcall with ⟨t, hclose, rfl⟩
      have ht : t = { v.table with scopes := inner ++ scope :: u.table.scopes.tail } := by
        simp only [scopeCall, hscopes] at hclose
        cases inner <;> exact (some.inj hclose).symm
      subst ht
      exact ⟨_, ⟨⟨inner, scope, rfl, rfl, hhas⟩, h.symbols, h.kept, h.begun⟩, hinner⟩
  | _ => exact absurd rfl hc

theorem CallsFit.tail (h : CallsFit u (c :: calls)) (hcall : tagCall u c = some v) :
    CallsFit v calls := by
  rintro before call rest rfl t hbefore
  refine h (c :: before) call rest rfl t ?_
  simpa [tagCalls, hcall] using hbefore

theorem Within.run {w : TagState} (h : Within u v n) (hopen : u.table.scopes ≠ [])
    (hv : TagInv v) (hfit : CallsFit v calls) (hrun : tagCalls v calls = some w)
    (hinner : innerTagScopes n calls = some m) : Within u w m := by
  induction calls generalizing v n with
  | nil =>
    cases hrun
    cases hinner
    exact h
  | cons c calls ih =>
    rcases bind_eq_some_iff.mp hrun with ⟨mid, hmid, hrest⟩
    have hc : CallFits v c := hfit [] c calls rfl v rfl
    rcases h.call hopen hv hc.room hmid hinner with ⟨k, hmid', hinner'⟩
    exact ih hmid' (hv.call hc hmid) (hfit.tail hmid) hrest hinner'

theorem TagInv.run (h : TagInv u) (hfit : CallsFit u calls) (hrun : tagCalls u calls = some v) :
    TagInv v := by
  induction calls generalizing u with
  | nil =>
    cases hrun
    exact h
  | cons c calls ih =>
    rcases bind_eq_some_iff.mp hrun with ⟨mid, hmid, hrest⟩
    exact ih (h.call (hfit [] c calls rfl u rfl) hmid) (hfit.tail hmid) hrest

theorem CallsFit.take {before after : List TagCall} (h : CallsFit u (before ++ after)) :
    CallsFit u before := by
  rintro first call rest rfl t hfirst
  exact h first call (rest ++ after) (by simp) t hfirst

theorem CallsFit.drop {before after : List TagCall} (h : CallsFit u (before ++ after))
    (hbefore : tagCalls u before = some v) : CallsFit v after := by
  rintro first call rest rfl t hfirst
  refine h (before ++ first) call rest (by simp) t ?_
  rw [tagCalls, foldlM_append]
  exact bind_eq_some_iff.mpr ⟨v, hbefore, hfirst⟩

theorem TagInv.accepts (h : TagInv u) {kind : AggregateKind}
    (hroom : u.table.types.length < 32767) (hfits : ListFits u kind name)
    (hopen : u.table.scopes ≠ []) (hnone : currentTag u.table name = none) :
    ∃ v, tagCall u (.specifier kind (some name) true) = some v := by
  have hnew : NotCurrent u.table name := by
    intro id sym hlookup hsym hdepth
    rw [h.table.current hlookup hsym hdepth] at hnone
    cases hnone
  rcases createTag_isSome h.table hroom hnew hopen kind with ⟨t, hcreate⟩
  rcases createTag_eq h.table hroom hnew kind hcreate with ⟨-, hcreates⟩
  rcases hcreates.eq with ⟨scope, rest, -, -, rfl⟩
  suffices hdecl : structOrUnionDeclaration u.table kind.kind (some name) true ≠ none by
    rcases ne_none_iff_exists'.mp hdecl with ⟨⟨type, t⟩, hsome⟩
    exact ⟨_, by rw [tagCall, hsome]; rfl⟩
  cases hlookup : symLookup u.table name with
  | none =>
    have hzero := sizeOf_fresh (s := u.table) kind
    simp [structOrUnionDeclaration, lookupTag, hlookup, hcreate, tagSymbol, hzero]
  | some id =>
    rcases h.table.found hlookup with ⟨-, sym, -, hsym, -⟩
    have hdepth := hnew id sym hlookup hsym
    rcases (hfits id sym hlookup hsym).1 hdepth with ⟨hint, hkind, hpos⟩
    have hsome : sizeOf u.table.types sym.type ≠ none := fun hnone => hpos (by rw [hnone]; rfl)
    rcases ne_none_iff_exists'.mp hsome with ⟨size, hsize⟩
    rw [hsize, getD_some] at hpos
    simp [structOrUnionDeclaration, lookupTag, hlookup, hsym, hint, hkind, hsize, hpos, hcreate,
      hdepth]

/-- A fitting list of members is one of a tag of the current scope. -/
theorem TagInv.definesHere (h : TagInv u) {kind : AggregateKind}
    (hroom : u.table.types.length < 32767) (hfits : ListFits u kind name)
    (hcall : tagCall u (.specifier kind (some name) true) = some v) :
    ∃ id sym, DefinesHere u v name id sym := by
  rcases map_eq_some_iff.mp hcall with ⟨⟨type, t⟩, hdecl, rfl⟩
  rcases structOrUnionDeclaration_cases h.table hroom hdecl with
    ⟨name', id, sym, hname, hlookup, hsym, hint, -, rfl, rfl, hsize⟩ |
    ⟨name', hname, rfl, hcreates⟩ | ⟨hname, -⟩
  · cases hname
    have hdepth : sym.depth = u.table.depth := by
      by_contra hdepth
      have hpos := ((hfits id sym hlookup hsym).1 hdepth).2.2
      rw [hsize rfl] at hpos
      exact hpos rfl
    exact ⟨id, sym, rfl, h.table.current hlookup hsym hdepth, hsym, hdepth,
      (hfits id sym hlookup hsym).2 hdepth (hsize rfl), mem_cons_self,
      fun i other hne hother hotherint => h.table.distinct i id other sym hne hother hsym
        hotherint hint⟩
  · cases hname
    rcases hcreates.eq with ⟨scope, rest, hscopes, hnone, rfl⟩
    refine ⟨u.table.symbols.length, tagSymbol u.table name (freshType u.table kind.kind), rfl, ?_,
      by simp, ?_, ?_, mem_cons_self, ?_⟩
    · simp [currentTag, hashLookup_append_new hnone]
    · simp [tagSymbol, DeclState.depth, hscopes]
    · intro hmem
      have hle := h.begun _ hmem
      simp only [tagSymbol, freshType] at hle
      omega
    · intro i other hne hget hint
      have hother : (u.table.symbols ++
          [tagSymbol u.table name (freshType u.table kind.kind)])[i]? = some other := hget
      have hlt := (List.getElem?_eq_some_iff.mp hother).1
      simp only [length_append, length_singleton] at hlt
      rw [getElem?_append_left (by omega)] at hother
      have hle := (h.table.refs i other hother hint).2
      simp only [tagSymbol, freshType, ne_eq]
      omega
  · cases hname

theorem structOrUnionDeclaration_use {s u : DeclState} {kind : TypeKind}
    (hlookup : symLookup s name = some id) (hsym : s.symbols[id]? = some sym)
    (hdecl : structOrUnionDeclaration s kind (some name) false = some (type, u)) :
    type = sym.type ∧ u = s := by
  simp only [structOrUnionDeclaration, lookupTag, hlookup, hsym, bind, bind_some,
    bind_eq_some_iff] at hdecl
  rcases hdecl with ⟨⟨sym', u'⟩, hfound, size, -, hdecl⟩
  split at hfound
  · cases hfound
  · cases hfound
    rw [if_neg (by simp)] at hdecl
    cases hdecl
    exact ⟨rfl, rfl⟩

theorem TagInv.rejects (h : TagInv v) {kind : AggregateKind}
    (hroom : v.table.types.length < 32767) (hfits : ListFits v kind name)
    (hcurrent : currentTag v.table name = some id) (hsym : v.table.symbols[id]? = some sym)
    (hbegun : sym.type.ref ∈ v.begun) : tagCall v (.specifier kind (some name) true) = none := by
  rcases h.table.of_current hcurrent with ⟨hlookup, sym', hsym', hdepth⟩
  rw [hsym, some.injEq] at hsym'
  subst hsym'
  by_contra hsome
  rcases ne_none_iff_exists'.mp hsome with ⟨w, hcall⟩
  rcases map_eq_some_iff.mp hcall with ⟨⟨type, t⟩, hdecl, -⟩
  rcases structOrUnionDeclaration_cases h.table hroom hdecl with
    ⟨_, id', sym', hname, hlookup', hsym', -, -, -, -, hsize⟩ | ⟨_, hname, -, hcreates⟩ |
    ⟨hname, -⟩
  · cases hname
    rw [hlookup, some.injEq] at hlookup'
    rw [← hlookup', hsym, some.injEq] at hsym'
    rw [← hsym'] at hsize
    exact (hfits id sym hlookup hsym).2 hdepth (hsize rfl) hbegun
  · cases hname
    exact hcreates.free id sym hlookup hsym hdepth
  · cases hname

end Calls

/-- The tags of a file before its first scope is opened. -/
def tagStart (types : TypeTable) : TagState := { table := { types := types, scopes := [] } }

theorem tagStart_inv (types : TypeTable) : TagInv (tagStart types) where
  table := tagTable_nil { types := types }
  lists := fun _ hl => by cases hl
  begun := fun _ href => by cases href

/-- Tags are scoped when every list of members fits. -/
theorem tags_scoped {types : TypeTable} {calls : List TagCall}
    (h : CallsFit (tagStart types) calls) : TagsScoped (tagStart types) calls where
  defines := by
    rintro before kind name rest rfl t hbefore
    have hinv := (tagStart_inv types).run h.take hbefore
    have hfits := h.drop hbefore [] _ rest rfl t rfl
    exact ⟨hinv.accepts hfits.1 hfits.2, fun u hcall => hinv.definesHere hfits.1 hfits.2 hcall⟩
  kept := by
    rintro before after rest rfl t u n hbefore hafter hinner i sym hsym hint hlt
    have hinv := (tagStart_inv types).run h.take hbefore
    have hopen : t.table.scopes ≠ [] := by
      intro hnil
      simp [DeclState.depth, hnil] at hlt
    have hwithin := (Within.refl hopen).run hopen hinv (h.drop hbefore).take hafter hinner
    exact ⟨hwithin.symbol hsym, hwithin.kept i sym hsym hint hlt⟩
  uses := fun before kind name rest hcalls t hbefore id sym hlookup hsym type u hdecl =>
    structOrUnionDeclaration_use hlookup hsym hdecl
  once := by
    rintro before kind name after kind' rest rfl t u v hbefore hcall hafter hinner
    have hinv := (tagStart_inv types).run h.take hbefore
    have hrest := h.drop hbefore
    have hfits := hrest [] _ _ rfl t rfl
    rcases hinv.definesHere hfits.1 hfits.2 hcall with ⟨id, sym, hdefines⟩
    have hopen : u.table.scopes ≠ [] := by
      intro hnil
      have hcurrent := hdefines.current
      simp [currentTag, hnil] at hcurrent
    have hu := hinv.call hfits hcall
    have hfollow := hrest.tail hcall
    have hwithin := (Within.refl hopen).run hopen hu hfollow.take hafter hinner
    have hv := hu.run hfollow.take hafter
    have hfits' := hfollow.drop hafter [] _ rest rfl v rfl
    have hcurrent : currentTag v.table name = some id := by
      rcases hwithin.scopes with ⟨inner, scope, hscopes, hlength, hhas⟩
      rw [length_eq_zero_iff] at hlength
      subst hlength
      simp [currentTag, hscopes, hhas name id hdefines.current]
    exact hv.rejects hfits'.1 hfits'.2 hcurrent (hwithin.symbol hdefines.symbol)
      (hwithin.begun hdefines.begun)

instance decidableCallsFit (s : TagState) : (calls : List TagCall) → Decidable (CallsFit s calls)
  | [] => isTrue fun before c rest h => by simp at h
  | c :: calls =>
    match h : tagCall s c with
    | none =>
      decidable_of_iff (CallFits s c)
        ⟨fun hc before c' rest heq t hbefore => by
          cases before with
          | nil =>
            cases heq
            cases hbefore
            exact hc
          | cons d before =>
            cases heq
            simp [tagCalls, h] at hbefore, fun hfit => hfit [] c calls rfl s rfl⟩
    | some t =>
      have := decidableCallsFit t calls
      decidable_of_iff (CallFits s c ∧ CallsFit t calls)
        ⟨fun hc before c' rest heq u hbefore => by
          cases before with
          | nil =>
            cases heq
            cases hbefore
            exact hc.1
          | cons d before =>
            cases heq
            exact hc.2 before c' rest rfl u (by simpa [tagCalls, h] using hbefore),
          fun hfit => ⟨hfit [] c calls rfl s rfl, hfit.tail h⟩⟩

/-- `struct S { int x; };` with `struct S { char x; };` in an inner scope. -/
def innerTag : List TagCall :=
  [.opens, .specifier .struct (some "S") true, .member (.member "x" basicTypeInt), .finish, .opens,
    .specifier .struct (some "S") true, .member (.member "x" basicTypeChar), .finish, .closes]

/-- A structure with a size keeps it. -/
theorem innerTag_scoped : TagsScoped (tagStart []) innerTag := tags_scoped (by decide)

/-- `struct S;` with `struct S { int x; };` in an inner scope. -/
def innerList : List TagCall :=
  [.opens, .specifier .struct (some "S") false, .opens, .specifier .struct (some "S") true,
    .member (.member "x" basicTypeInt), .finish, .closes]

/-- A list of members in an inner scope completes a type that is only declared in the outer one, and
does not define a type of the inner scope. -/
theorem inner_list_completes_outer :
    ¬ TagsScoped (tagStart []) innerList ∧
      (tagCalls (tagStart []) innerList).map
        (fun s => sizeOf s.table.types { type := .struct, ref := 1 }) = some (some 4) := by
  refine ⟨fun h => ?_, by decide⟩
  have hdefines := (h.defines [.opens, .specifier .struct (some "S") false, .opens] .struct "S" _
    rfl _ rfl).2 _ rfl
  rcases hdefines with ⟨id, sym, hdefines⟩
  cases hdefines.current

end Kcs
