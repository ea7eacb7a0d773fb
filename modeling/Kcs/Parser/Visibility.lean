import Kcs.Lib.HashTable
import Kcs.Parser.GlobalStorage

/-!
# Declarations that take effect

A call of `sym_add` declares a name in the innermost scope.  A name that this scope has already
gets one more symbol there, unless it is declared again by the rules of file scope; the table of
the scope keeps its first entry, so that the new symbol is never found.

Main results:

- Theorem {lit}`declarations_take_effect_iff`: the sequences of scopes and declarations in which
  every declaration takes effect or is rejected.
- Theorem {lit}`duplicate_accepted`: two objects with one name in a block.
-/

namespace Kcs

open Option List

/-! ## Calls -/

/-- The arguments of `sym_add`. -/
structure Declaration where
  name : String
  type : CType
  symtype : SymType
  linkage : Linkage
  decltype : DeclType := .normal
deriving DecidableEq, Repr

/-- What happens to the namespace of identifiers: `push_scope`, `pop_scope`, `sym_add`, and changes
to types and to symbols that the parser makes by itself. -/
inductive ScopeCall
  | opens
  | closes
  | add (d : Declaration)
  | fills (types : TypeTable) (symbols : List DeclSymbol)

/-- `sym_add`; without an open scope an assertion fails. -/
def declare (s : DeclState) (d : Declaration) : Option (Nat × DeclState) :=
  if s.scopes = [] then none else symAdd s d.name d.type d.symtype d.linkage d.decltype

/-- One call.  Closing the last scope frees all symbols. -/
def scopeCall (s : DeclState) : ScopeCall → Option DeclState
  | .opens => some { s with scopes := [] :: s.scopes }
  | .closes =>
    match s.scopes with
    | [] => none
    | [_] => some { s with symbols := [], scopes := [], functions := [] }
    | _ :: rest => some { s with scopes := rest }
  | .add d => (declare s d).map (·.2)
  | .fills types symbols => some { s with types := types, symbols := symbols }

/-- A sequence of calls. -/
def scopeCalls (s : DeclState) (calls : List ScopeCall) : Option DeclState :=
  calls.foldlM scopeCall s

/-! ## What is claimed -/

/-- The scopes that are open inside of a scope after some calls, as long as it is open itself and a
name is not declared again. -/
def innerScopes (name : String) : Nat → List ScopeCall → Option Nat
  | n, [] => some n
  | n, .opens :: calls => innerScopes name (n + 1) calls
  | 0, .closes :: _ => none
  | n + 1, .closes :: calls => innerScopes name n calls
  | n, .add d :: calls => if d.name = name then none else innerScopes name n calls
  | n, .fills _ _ :: calls => innerScopes name n calls

/-- In a sequence of calls every symbol that `sym_add` returns is found until its scope is closed or
its name is declared again. -/
def TakeEffect (s : DeclState) (calls : List ScopeCall) : Prop :=
  ∀ before d after rest, calls = before ++ .add d :: (after ++ rest) →
    ∀ t id u v n, scopeCalls s before = some t → declare t d = some (id, u) →
      scopeCalls u after = some v → innerScopes d.name 0 after = some n →
      symLookup v d.name = some id

/-- An object without linkage in a block. -/
def IsLocalObject (s : DeclState) (d : Declaration) : Prop :=
  s.depth ≠ 0 ∧ d.linkage = .none ∧ d.symtype = .definition ∧ d.type.isFunction = false

instance (s : DeclState) (d : Declaration) : Decidable (IsLocalObject s d) :=
  inferInstanceAs (Decidable (_ ∧ _))

/-- In a sequence of calls the second of two objects without linkage with one name in one block is
rejected. -/
def DuplicatesRejected (s : DeclState) (calls : List ScopeCall) : Prop :=
  ∀ before d after d' rest, calls = before ++ .add d :: (after ++ .add d' :: rest) →
    ∀ t id u v, scopeCalls s before = some t → declare t d = some (id, u) →
      scopeCalls u after = some v → innerScopes d.name 0 after = some 0 → d'.name = d.name →
      IsLocalObject t d → IsLocalObject v d' → declare v d' = none

/-- The condition under which `sym_add` declares a symbol again that is visible. -/
def ByFileScope (s : DeclState) (d : Declaration) (sym : DeclSymbol) : Prop :=
  (s.depth = 0 ∨ d.linkage = .external) ∧ sym.depth = 0

/-- The innermost scope has a symbol with the name of a declaration, which is not declared again by
the rules of file scope. -/
def Clashes (s : DeclState) (d : Declaration) : Prop :=
  ∃ scope rest id sym, s.scopes = scope :: rest ∧ hashLookup scope d.name = some id ∧
    s.symbols[id]? = some sym ∧ ¬ ByFileScope s d sym

/-- No declaration of a sequence of calls clashes with the scope that it is in. -/
def NoClash (s : DeclState) (calls : List ScopeCall) : Prop :=
  ∀ before d rest, calls = before ++ .add d :: rest →
    ∀ t, scopeCalls s before = some t → ¬ Clashes t d

/-! ## Tables -/

variable {s t u v : DeclState} {d d' : Declaration} {name : String} {id n : Nat}
  {scope : List (String × Nat)} {calls : List ScopeCall}

theorem hashLookup_hashInsert (scope : List (String × Nat)) (name name' : String) (id : Nat) :
    hashLookup (hashInsert scope name id) name' =
      if name' = name then some ((hashLookup scope name).getD id) else hashLookup scope name' := by
  unfold hashInsert
  by_cases hname : name' = name
  · subst hname
    rw [if_pos rfl]
    cases hfound : hashLookup scope name' with
    | some old => simpa using hfound
    | none =>
      have hno : scope.find? (·.1 = name') = none := by simpa [hashLookup] using hfound
      simp [hashLookup, find?_append, hno]
  · rw [if_neg hname]
    split
    · rfl
    · simp [hashLookup, find?_append, Ne.symm hname]

theorem symLookup_cons (hscopes : s.scopes = scope :: rest) :
    symLookup s name = (hashLookup scope name).or (rest.findSome? (hashLookup · name)) := by
  rw [symLookup, hscopes, findSome?_cons]
  cases hashLookup scope name <;> rfl

theorem symMakeVisible_scopes (hscopes : s.scopes = scope :: rest) :
    (symMakeVisible s name id).scopes = hashInsert scope name id :: rest := by
  simp [symMakeVisible, hscopes]

/-! ## One declaration -/

/-- A symbol is declared again. -/
def Redeclares (s : DeclState) (d : Declaration) (id : Nat) : Prop :=
  ∃ sym, symLookup s d.name = some id ∧ s.symbols[id]? = some sym ∧ ByFileScope s d sym

/-- A symbol is visible, and another one with its name is created. -/
def Hides (s : DeclState) (d : Declaration) (id : Nat) : Prop :=
  ∃ sym, symLookup s d.name = some id ∧ s.symbols[id]? = some sym ∧ ¬ ByFileScope s d sym

theorem symRedeclare_scopes {sym : DeclSymbol} {type : CType} {symtype : SymType}
    {linkage : Linkage} {decltype : DeclType}
    (h : symRedeclare s id sym type symtype linkage decltype = some t) : t.scopes = s.scopes := by
  rcases symRedeclare_form h with ⟨types, sym', rfl, -⟩
  rfl

theorem symCreate_spec (name : String) (type : CType) (symtype : SymType) (linkage : Linkage)
    (hscopes : s.scopes = scope :: rest) :
    (symCreate s name type symtype linkage).1 = s.symbols.length ∧
      (symCreate s name type symtype linkage).2.scopes =
        hashInsert scope name s.symbols.length :: rest := by
  refine ⟨rfl, ?_⟩
  simp only [symCreate]
  exact symMakeVisible_scopes (by exact hscopes)

theorem symAdd_cases (h : declare s d = some (id, t)) :
    ∃ scope rest, s.scopes = scope :: rest ∧
      (Redeclares s d id ∧ t.scopes = s.scopes ∨
        t.scopes = hashInsert scope d.name id :: rest ∧
          (symLookup s d.name = none ∨ id = s.symbols.length ∧ ∃ old, Hides s d old)) := by
  unfold declare at h
  split at h
  · cases h
  rename_i hopen
  rcases exists_cons_of_ne_nil hopen with ⟨scope, rest, hscopes⟩
  refine ⟨scope, rest, hscopes, ?_⟩
  have hcreate := symCreate_spec d.name d.type d.symtype d.linkage hscopes
  unfold symAdd at h
  split at h
  · rename_i hnone
    right
    split at h
    · simp only [bind, bind_eq_some_iff, some.injEq, Prod.mk.injEq] at h
      rcases h with ⟨sym, -, ⟨type, types⟩, -, rfl, rfl⟩
      exact ⟨symMakeVisible_scopes hscopes, Or.inl hnone⟩
    · rw [some.injEq] at h
      rw [h] at hcreate
      rcases hcreate with ⟨rfl, hcreated⟩
      exact ⟨hcreated, Or.inl hnone⟩
  · rename_i old hold
    simp only [bind, bind_eq_some_iff] at h
    rcases h with ⟨sym, hsym, h⟩
    split at h
    · rename_i hagain
      simp only [map_eq_some_iff, Prod.mk.injEq] at h
      rcases h with ⟨t', ht, rfl, rfl⟩
      exact Or.inl ⟨⟨sym, hold, hsym, hagain⟩, symRedeclare_scopes ht⟩
    · rename_i hnew
      rw [some.injEq] at h
      rw [h] at hcreate
      rcases hcreate with ⟨rfl, hcreated⟩
      exact Or.inr ⟨hcreated, Or.inr ⟨rfl, old, sym, hold, hsym, hnew⟩⟩

theorem Clashes.declare_eq (h : Clashes s d) :
    declare s d = some (symCreate s d.name d.type d.symtype d.linkage) := by
  rcases h with ⟨scope, rest, old, sym, hscopes, hold, hsym, hnew⟩
  have hlookup : symLookup s d.name = some old := by rw [symLookup_cons hscopes, hold]; rfl
  have hopen : s.scopes ≠ [] := by simp [hscopes]
  rw [declare, if_neg hopen, symAdd]
  simp only [hlookup, hsym, bind, bind_some]
  exact if_neg hnew

theorem declare_found_iff (h : declare s d = some (id, t)) :
    symLookup t d.name = some id ↔ ¬ Clashes s d := by
  rcases symAdd_cases h with ⟨scope, rest, hscopes, ⟨hagain, hsame⟩ | ⟨hinsert, hcase⟩⟩
  · rcases hagain with ⟨sym, hlookup, hsym, hagain⟩
    have hfound : symLookup t d.name = some id := by rw [symLookup, hsame]; exact hlookup
    refine iff_of_true hfound ?_
    rintro ⟨scope', rest', old, sym', hscopes', hold, hsym', hnew⟩
    rw [symLookup_cons hscopes', hold, some_or, some.injEq] at hlookup
    rw [hlookup, hsym, some.injEq] at hsym'
    exact hnew (hsym' ▸ hagain)
  · have hfound : symLookup t d.name = some ((hashLookup scope d.name).getD id) := by
      rw [symLookup_cons hinsert, hashLookup_hashInsert, if_pos rfl, some_or]
    rw [hfound, some.injEq]
    cases hhave : hashLookup scope d.name with
    | none =>
      refine iff_of_true rfl ?_
      rintro ⟨scope', rest', old, sym', hscopes', hold, -, -⟩
      rw [hscopes] at hscopes'
      cases hscopes'
      rw [hhave] at hold
      cases hold
    | some old =>
      have hlookup : symLookup s d.name = some old := by rw [symLookup_cons hscopes, hhave]; rfl
      rcases hcase with hnone | ⟨rfl, old', sym, hlookup', hsym, hnew⟩
      · rw [hlookup] at hnone
        cases hnone
      · rw [hlookup, some.injEq] at hlookup'
        subst hlookup'
        have hlt := (List.getElem?_eq_some_iff.mp hsym).1
        exact iff_of_false (by simpa using hlt.ne)
          (not_not_intro ⟨scope, rest, old, sym, hscopes, hhave, hsym, hnew⟩)

/-! ## Sequences of calls -/

/-- A symbol is found in the scope around some inner ones. -/
def Found (s : DeclState) (name : String) (id n : Nat) : Prop :=
  ∃ inner scope rest, s.scopes = inner ++ scope :: rest ∧ inner.length = n ∧
    hashLookup scope name = some id ∧ ∀ t ∈ inner, hashLookup t name = none

theorem Found.lookup (h : Found s name id n) : symLookup s name = some id := by
  rcases h with ⟨inner, scope, rest, hscopes, -, hscope, hinner⟩
  have hnone : inner.findSome? (hashLookup · name) = none :=
    findSome?_eq_none_iff.mpr hinner
  rw [symLookup, hscopes, findSome?_append, hnone, findSome?_cons, hscope]
  rfl

theorem found_of_lookup (h : symLookup s name = some id) : ∃ n, Found s name id n := by
  rcases findSome?_eq_some_iff.mp h with ⟨inner, scope, rest, hscopes, hscope, hinner⟩
  exact ⟨inner.length, inner, scope, rest, hscopes, rfl, hscope, hinner⟩

theorem Found.declare (h : Found s name id n) (hadd : declare s d = some (id', t))
    (hname : d.name ≠ name) : Found t name id n := by
  rcases h with ⟨inner, scope, rest, hscopes, hlength, hscope, hinner⟩
  rcases symAdd_cases hadd with ⟨top, below, htop, ⟨-, hsame⟩ | ⟨hinsert, -⟩⟩
  · exact ⟨inner, scope, rest, hsame.trans hscopes, hlength, hscope, hinner⟩
  have hkeep : hashLookup (hashInsert top d.name id') name = hashLookup top name := by
    rw [hashLookup_hashInsert, if_neg (Ne.symm hname)]
  rw [htop] at hscopes
  cases inner with
  | nil =>
    cases hscopes
    exact ⟨[], _, _, hinsert, hlength, hkeep.trans hscope, hinner⟩
  | cons first inner =>
    cases hscopes
    refine ⟨_ :: inner, scope, rest, hinsert, by simpa using hlength, hscope, ?_⟩
    intro u hu
    rcases mem_cons.mp hu with rfl | hu
    · exact hkeep.trans (hinner _ mem_cons_self)
    · exact hinner u (mem_cons_of_mem _ hu)

/-- A symbol is found until its scope is closed or its name is declared again. -/
theorem Found.run {k m : Nat} (h : Found s name id (n + k))
    (hrun : scopeCalls s calls = some t) (hinner : innerScopes name n calls = some m) :
    Found t name id (m + k) := by
  induction calls generalizing s n with
  | nil =>
    cases hrun
    cases hinner
    exact h
  | cons call calls ih =>
    rcases bind_eq_some_iff.mp hrun with ⟨mid, hmid, hrest⟩
    cases call with
    | opens =>
      cases hmid
      rw [innerScopes] at hinner
      rcases h with ⟨inner, scope, rest, hscopes, hlength, hscope, hnone⟩
      refine ih ⟨[] :: inner, scope, rest, by simp [hscopes], by simp [hlength]; omega, hscope, ?_⟩
        hrest hinner
      intro u hu
      rcases mem_cons.mp hu with rfl | hu
      · rfl
      · exact hnone u hu
    | closes =>
      cases n with
      | zero => cases hinner
      | succ n =>
        rw [innerScopes] at hinner
        rcases h with ⟨_ | ⟨first, inner⟩, scope, rest, hscopes, hlength, hscope, hnone⟩
        · simp at hlength
          omega
        have hmid' : mid = { s with scopes := inner ++ scope :: rest } := by
          simp only [scopeCall, hscopes] at hmid
          cases inner <;> exact (some.inj hmid).symm
        refine ih ⟨inner, scope, rest, by rw [hmid'], ?_, hscope, ?_⟩ hrest hinner
        · simp at hlength
          omega
        · exact fun u hu => hnone u (mem_cons_of_mem _ hu)
    | add d =>
      rw [innerScopes] at hinner
      split at hinner
      · cases hinner
      rename_i hname
      rcases map_eq_some_iff.mp hmid with ⟨⟨id', u⟩, hadd, rfl⟩
      exact ih (h.declare hadd hname) hrest hinner
    | fills types symbols =>
      cases hmid
      rw [innerScopes] at hinner
      refine ih ?_ hrest hinner
      exact h

theorem scopeCalls_append (s : DeclState) (before after : List ScopeCall) :
    scopeCalls s (before ++ after) = (scopeCalls s before).bind fun t => scopeCalls t after := by
  simp [scopeCalls, foldlM_append]

theorem scopeCalls_add (h : declare s d = some (id, t)) (after : List ScopeCall) :
    scopeCalls s (.add d :: after) = scopeCalls t after := by
  simp [scopeCalls, scopeCall, h]

theorem IsLocalObject.found (hlocal : IsLocalObject s d) (h : declare s d = some (id, t))
    (hclash : ¬ Clashes s d) : Found t d.name id 0 := by
  have hfound := (declare_found_iff h).mpr hclash
  rcases symAdd_cases h with ⟨scope, rest, -, ⟨⟨sym, -, -, hagain, -⟩, -⟩ | ⟨hinsert, -⟩⟩
  · rcases hagain with hdepth | hlink
    · exact absurd hdepth hlocal.1
    · rw [hlocal.2.1] at hlink
      cases hlink
  · refine ⟨[], _, rest, hinsert, rfl, ?_, by simp⟩
    rw [symLookup_cons hinsert, hashLookup_hashInsert, if_pos rfl, some_or] at hfound
    rw [hashLookup_hashInsert, if_pos rfl]
    exact hfound

theorem IsLocalObject.clashes (hlocal : IsLocalObject s d) (hfound : Found s d.name id 0)
    (h : declare s d = some (id', t)) : Clashes s d := by
  have hlookup := hfound.lookup
  have hno : ∀ sym, ¬ ByFileScope s d sym := by
    rintro sym ⟨hdepth | hlink, -⟩
    · exact hlocal.1 hdepth
    · rw [hlocal.2.1] at hlink
      cases hlink
  rcases hfound with ⟨inner, scope, rest, hscopes, hlength, hscope, -⟩
  rw [length_eq_zero_iff] at hlength
  subst hlength
  rcases symAdd_cases h with ⟨_, _, -, ⟨⟨sym, -, -, hagain⟩, -⟩ | ⟨-, hnone | ⟨-, old, hhides⟩⟩⟩
  · exact absurd hagain (hno sym)
  · rw [hlookup] at hnone
    cases hnone
  · rcases hhides with ⟨sym, hold, hsym, hnew⟩
    rw [hlookup, some.injEq] at hold
    subst hold
    exact ⟨scope, rest, id, sym, hscopes, hscope, hsym, hnew⟩

theorem NoClash.takeEffect (h : NoClash s calls) : TakeEffect s calls := by
  rintro before d after rest rfl t id u v n hbefore hadd hafter hinner
  have hclash : ¬ Clashes t d := h before d (after ++ rest) rfl t hbefore
  rcases found_of_lookup ((declare_found_iff hadd).mpr hclash) with ⟨k, hfound⟩
  rw [← Nat.zero_add k] at hfound
  exact (hfound.run hafter hinner).lookup

theorem NoClash.duplicatesRejected (h : NoClash s calls) : DuplicatesRejected s calls := by
  rintro before d after d' rest rfl t id u v hbefore hadd hafter hinner hname hlocal hlocal'
  have hclash : ¬ Clashes t d := h before d (after ++ .add d' :: rest) rfl t hbefore
  have hfound : Found v d.name id 0 := (hlocal.found hadd hclash).run (k := 0) hafter hinner
  have hsecond : scopeCalls s (before ++ .add d :: after) = some v := by
    rw [scopeCalls_append, hbefore, bind_some, scopeCalls_add hadd, hafter]
  by_contra hsome
  rcases ne_none_iff_exists'.mp hsome with ⟨⟨id', w⟩, hadd'⟩
  rw [← hname] at hfound
  exact h (before ++ .add d :: after) d' rest (by simp) v hsecond (hlocal'.clashes hfound hadd')

/-- In a sequence of scopes and declarations every declaration takes effect or is rejected if and
only if none of them clashes with its scope. -/
theorem declarations_take_effect_iff (s : DeclState) (calls : List ScopeCall) :
    TakeEffect s calls ∧ DuplicatesRejected s calls ↔ NoClash s calls := by
  refine ⟨?_, fun h => ⟨h.takeEffect, h.duplicatesRejected⟩⟩
  rintro ⟨heffect, -⟩ before d rest rfl t hbefore hclash
  have hadd := hclash.declare_eq
  have hfound := heffect before d [] rest rfl t _ _ _ 0 hbefore hadd rfl rfl
  exact (declare_found_iff hadd).mp hfound hclash

/-- `int x;` in a block. -/
def sampleObject : Declaration where
  name := "x"
  type := { type := .int }
  symtype := .definition
  linkage := .none

/-- A second object with the same name in a block is accepted, and the first one is found. -/
theorem duplicate_accepted :
    ¬ TakeEffect { scopes := [[], []] } [.add sampleObject, .add sampleObject] ∧
      ¬ DuplicatesRejected { scopes := [[], []] } [.add sampleObject, .add sampleObject] := by
  constructor
  · intro h
    have hfound := h [.add sampleObject] sampleObject [] [] rfl _ 1 _ _ 0 rfl rfl rfl rfl
    exact absurd hfound (by decide)
  · intro h
    have hreject := h [] sampleObject [] sampleObject [] rfl _ 0 _ _ rfl rfl rfl rfl rfl
      (by decide) (by decide)
    cases hreject

end Kcs
