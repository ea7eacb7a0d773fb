import Kcs.Util.StringTable

/-!
# Scopes

`symtab.c`: a namespace is an array of scopes, of which the first ones are open.  A scope that
is opened again keeps its hash table, which is cleared before the first symbol is added.

Main results:

- Theorem {lit}`runScopes_refines`: over any sequence of operations a namespace behaves as a stack
  of lists of symbols.
- Theorem {lit}`symLookup_after_scope`: a closed scope leaves nothing behind.
-/

namespace Kcs.Parser

open Kcs.Util Option List

/-! ## Namespaces -/

/-- A symbol: its address, its name, and whether it is a tentative definition. -/
structure ScopeSymbol where
  address : Nat
  name : Bytes
  isTentative : Bool
deriving DecidableEq, Repr

/-- `struct scope`, by its state `SCOPE_CREATED`, `SCOPE_DIRTY` or `SCOPE_INITIALIZED`. -/
inductive Scope where
  | created
  | dirty (table : HashTable ScopeSymbol)
  | initialized (table : HashTable ScopeSymbol)

/-- `struct namespace`: the scopes up to `max_scope_depth`, the number of open scopes, and all
symbols; the namespace of labels is special. -/
structure Namespace where
  isLabel : Bool
  symbol : List ScopeSymbol
  scope : List Scope
  len : Nat

/-- `current_scope_hash_cap` -/
def currentScopeHashCap (len : Nat) : Nat :=
  if len < 6 then [256, 16, 128, 64, 32, 16].getD (len - 1) 8 else 8

theorem currentScopeHashCap_pos (len : Nat) : 0 < currentScopeHashCap len := by
  unfold currentScopeHashCap
  split
  · interval_cases len <;> decide
  · decide

/-- A scope that is opened again. -/
def Scope.reopen : Scope → Scope
  | .initialized table => .dirty table
  | scope => scope

/-- `push_scope` -/
def pushScope (ns : Namespace) : Namespace :=
  if ns.len < ns.scope.length then
    { ns with scope := ns.scope.modify ns.len Scope.reopen, len := ns.len + 1 }
  else { ns with scope := ns.scope ++ [.created], len := ns.len + 1 }

/-- `pop_scope`.  Without an open scope an assertion fails; a label that is not defined ends the
program. -/
def popScope (ns : Namespace) : Option Namespace :=
  if ns.len = 0 then none
  else if ns.len = 1 then
    if ns.isLabel ∧ ns.symbol.any (·.isTentative) then none
    else some { ns with symbol := [], scope := [], len := 0 }
  else some { ns with len := ns.len - 1 }

/-- The name of a symbol, as `sym_hash_key`. -/
def symHashKey (sym : ScopeSymbol) : Bytes := sym.name

/-- The table of a scope that is going to have a symbol. -/
def Scope.prepare (len : Nat) : Scope → HashTable ScopeSymbol
  | .created => HashTable.init (currentScopeHashCap len) (currentScopeHashCap_pos len)
  | .dirty table => table.clear
  | .initialized table => table

/-- A scope with one more symbol. -/
def Scope.add (len : Nat) (sym : ScopeSymbol) (scope : Scope) : Scope :=
  .initialized (HashTable.insert djb2Hash symHashKey id (scope.prepare len) sym).2

/-- `sym_make_visible`; there is an open scope. -/
def symMakeVisible (ns : Namespace) (sym : ScopeSymbol) : Option Namespace :=
  if ns.len = 0 then none
  else some { ns with scope := ns.scope.modify (ns.len - 1) (Scope.add ns.len sym) }

/-- The symbol with a name in one scope. -/
def Scope.lookup (name : Bytes) : Scope → Option ScopeSymbol
  | .initialized table => HashTable.lookup djb2Hash symHashKey table name
  | _ => none

/-- `sym_lookup` -/
def symLookup (ns : Namespace) (name : Bytes) : Option ScopeSymbol :=
  (ns.scope.take ns.len).reverse.findSome? (Scope.lookup name)

/-- An operation on a namespace. -/
inductive ScopeOp where
  | push
  | pop
  | makeVisible (sym : ScopeSymbol)
  | lookup (name : Bytes)
deriving DecidableEq, Repr

/-- A sequence of operations, with the results of looking names up. -/
def runScopes : Namespace → List ScopeOp → Option (List (Option ScopeSymbol) × Namespace)
  | ns, [] => some ([], ns)
  | ns, .push :: ops => runScopes (pushScope ns) ops
  | ns, .pop :: ops => (popScope ns).bind fun ns => runScopes ns ops
  | ns, .makeVisible sym :: ops => (symMakeVisible ns sym).bind fun ns => runScopes ns ops
  | ns, .lookup name :: ops =>
    (runScopes ns ops).map fun r => (symLookup ns name :: r.1, r.2)

/-! ## Stacks of scopes -/

/-- A stack of scopes, the innermost one first, each with its symbols in the order in which they
were made visible. -/
abbrev ScopeStack := List (List ScopeSymbol)

/-- The first symbol with a name in the innermost scope that has one. -/
def ScopeStack.lookup (stack : ScopeStack) (name : Bytes) : Option ScopeSymbol :=
  stack.findSome? fun scope => scope.find? fun sym => sym.name = name

/-- The same operations on a stack. -/
def runStack : ScopeStack → List ScopeOp → Option (List (Option ScopeSymbol) × ScopeStack)
  | stack, [] => some ([], stack)
  | stack, .push :: ops => runStack ([] :: stack) ops
  | [], .pop :: _ => none
  | _ :: stack, .pop :: ops => runStack stack ops
  | [], .makeVisible _ :: _ => none
  | scope :: stack, .makeVisible sym :: ops => runStack ((scope ++ [sym]) :: stack) ops
  | stack, .lookup name :: ops =>
    (runStack stack ops).map fun r => (ScopeStack.lookup stack name :: r.1, r.2)

/-! ## Refinement -/

/-- A scope shows a list of symbols. -/
def Scope.Shows (scope : Scope) (symbols : List ScopeSymbol) : Prop :=
  ∀ name, scope.lookup name = symbols.find? fun sym => sym.name = name

/-- The open scopes of a namespace are those of a stack. -/
structure Represents (ns : Namespace) (stack : ScopeStack) : Prop where
  len : ns.len ≤ ns.scope.length
  shows : List.Forall₂ Scope.Shows (ns.scope.take ns.len).reverse stack

variable {ns : Namespace} {stack : ScopeStack}

theorem Represents.length_eq (h : Represents ns stack) :
    ns.len = stack.length := by
  have hlength := h.shows.length_eq
  have hle := h.len
  rw [length_reverse, length_take] at hlength
  omega

theorem findSome?_of_shows {scopes : List Scope}
    (h : List.Forall₂ Scope.Shows scopes stack) (name : Bytes) :
    scopes.findSome? (Scope.lookup name) = ScopeStack.lookup stack name := by
  unfold ScopeStack.lookup
  induction h with
  | nil => rfl
  | cons hscope _ ih => rw [findSome?_cons, findSome?_cons, hscope name, ih]

theorem Represents.lookup (h : Represents ns stack)
    (name : Bytes) : symLookup ns name = ScopeStack.lookup stack name :=
  findSome?_of_shows h.shows name

theorem Scope.shows_reopen (scope : Scope) : scope.reopen.Shows [] := by
  intro name
  cases scope <;> rfl

theorem Scope.lookup_prepare (len : Nat) (scope : Scope) (name : Bytes) :
    HashTable.lookup djb2Hash symHashKey (scope.prepare len) name = scope.lookup name := by
  cases scope with
  | created => exact HashTable.lookup_init _ _ name
  | dirty table => exact HashTable.lookup_clear table name
  | initialized table => rfl

theorem Scope.Shows.add {scope : Scope} {symbols : List ScopeSymbol} (h : scope.Shows symbols)
    (len : Nat) (sym : ScopeSymbol) : (scope.add len sym).Shows (symbols ++ [sym]) := by
  intro name
  have hinsert : (scope.add len sym).lookup name = _ :=
    HashTable.lookup_insert rfl (scope.prepare len) name
  rw [hinsert, Scope.lookup_prepare, Scope.lookup_prepare, symHashKey, h sym.name, h name,
    find?_append]
  by_cases hname : name = sym.name
  · subst hname
    rw [if_pos rfl]
    cases symbols.find? fun s => s.name = sym.name <;> simp
  · rw [if_neg hname]
    simp [Ne.symm hname]

theorem take_succ_modify {α : Type} (f : α → α) {l : List α} {i : Nat} (h : i < l.length) :
    (l.modify i f).take (i + 1) = l.take i ++ [f l[i]] := by
  rw [modify_eq_take_cons_drop h, take_append]
  simp [Nat.min_eq_left h.le]

theorem Represents.pushScope (h : Represents ns stack) :
    Represents (pushScope ns) ([] :: stack) := by
  unfold Parser.pushScope
  split
  · rename_i hlt
    refine ⟨by rw [length_modify]; exact hlt, ?_⟩
    dsimp only
    rw [take_succ_modify _ hlt, reverse_append]
    exact .cons (Scope.shows_reopen _) h.shows
  · rename_i hlt
    have hle := h.len
    have hlen : ns.len = ns.scope.length := by omega
    refine ⟨by rw [length_append, hlen]; exact le_rfl, ?_⟩
    dsimp only
    rw [take_of_length_le (by rw [length_append, hlen]; exact le_rfl), reverse_append]
    have hshows := h.shows
    rw [hlen, take_length] at hshows
    exact .cons (fun name => rfl) hshows

theorem Represents.innermost (h : Represents ns stack)
    (hopen : ns.len ≠ 0) :
    ∃ n, ∃ hn : n < ns.scope.length, ∃ scope rest, ns.len = n + 1 ∧ stack = scope :: rest ∧
      ns.scope[n].Shows scope ∧ List.Forall₂ Scope.Shows (ns.scope.take n).reverse rest := by
  have hle := h.len
  have hshows := h.shows
  rcases Nat.exists_eq_succ_of_ne_zero hopen with ⟨n, hn⟩
  rw [Nat.succ_eq_add_one] at hn
  rw [hn] at hle hshows
  rw [take_succ_eq_append_getElem hle, reverse_append] at hshows
  rcases forall₂_cons_left_iff.mp hshows with ⟨scope, rest, hscope, hrest, rfl⟩
  exact ⟨n, hle, scope, rest, hn, rfl, hscope, hrest⟩

variable {ns' : Namespace}

theorem Represents.popScope (h : Represents ns stack)
    (hpop : popScope ns = some ns') :
    ∃ scope rest, stack = scope :: rest ∧ Represents ns' rest := by
  unfold Parser.popScope at hpop
  split at hpop
  · cases hpop
  rename_i hopen
  rcases h.innermost hopen with ⟨n, hn, scope, rest, hlen, rfl, -, hrest⟩
  refine ⟨scope, rest, rfl, ?_⟩
  split at hpop
  · rename_i hone
    split at hpop
    · cases hpop
    · cases hpop
      rw [show n = 0 by omega] at hrest
      cases hrest
      exact ⟨le_rfl, .nil⟩
  · cases hpop
    refine ⟨by dsimp only; omega, ?_⟩
    dsimp only
    rwa [hlen, Nat.add_sub_cancel]

theorem Represents.symMakeVisible
    (h : Represents ns stack) {sym : ScopeSymbol} (hvisible : symMakeVisible ns sym = some ns') :
    ∃ scope rest, stack = scope :: rest ∧ Represents ns' ((scope ++ [sym]) :: rest) := by
  unfold Parser.symMakeVisible at hvisible
  split at hvisible
  · cases hvisible
  rename_i hopen
  cases hvisible
  rcases h.innermost hopen with ⟨n, hn, scope, rest, hlen, rfl, hscope, hrest⟩
  refine ⟨scope, rest, rfl, by rw [length_modify]; exact h.len, ?_⟩
  dsimp only
  rw [hlen, Nat.add_sub_cancel, take_succ_modify _ hn, reverse_append]
  exact .cons (hscope.add _ sym) hrest

theorem Represents.run (h : Represents ns stack)
    {ops : List ScopeOp} {found : List (Option ScopeSymbol)}
    (hrun : runScopes ns ops = some (found, ns')) :
    ∃ stack', runStack stack ops = some (found, stack') ∧ Represents ns' stack' := by
  induction ops generalizing ns stack found with
  | nil =>
    cases hrun
    exact ⟨stack, by simp [runStack], h⟩
  | cons op ops ih =>
    cases op with
    | push =>
      rcases ih h.pushScope hrun with ⟨stack', hstack', h'⟩
      exact ⟨stack', by rw [runStack]; exact hstack', h'⟩
    | pop =>
      rcases bind_eq_some_iff.mp hrun with ⟨mid, hmid, hrest⟩
      rcases h.popScope hmid with ⟨scope, rest, rfl, hmid'⟩
      exact ih hmid' hrest
    | makeVisible sym =>
      rcases bind_eq_some_iff.mp hrun with ⟨mid, hmid, hrest⟩
      rcases h.symMakeVisible hmid with ⟨scope, rest, rfl, hmid'⟩
      exact ih hmid' hrest
    | lookup name =>
      rcases map_eq_some_iff.mp hrun with ⟨⟨found', last⟩, hrest, heq⟩
      cases heq
      rcases ih h hrest with ⟨stack', hstack', h'⟩
      refine ⟨stack', ?_, h'⟩
      simp only [runStack, hstack', map_some, h.lookup name]

/-- No label is left without a definition. -/
def LabelsDefined (isLabel : Bool) (symbol : List ScopeSymbol) : Prop :=
  isLabel = true → symbol.any (·.isTentative) = false

theorem popScope_isSome (hopen : ns.len ≠ 0)
    (hlabels : LabelsDefined ns.isLabel ns.symbol) :
    ∃ ns', popScope ns = some ns' ∧ LabelsDefined ns'.isLabel ns'.symbol := by
  unfold popScope
  rw [if_neg hopen]
  split
  · rw [if_neg fun h => by simpa [hlabels h.1] using h.2]
    exact ⟨_, rfl, fun _ => rfl⟩
  · exact ⟨_, rfl, hlabels⟩

/-- A run of the stack is a run of a namespace that it represents, when every label is defined. -/
theorem Represents.run_of_stack {stack stack' : ScopeStack}
    (h : Represents ns stack) (hlabels : LabelsDefined ns.isLabel ns.symbol) {ops : List ScopeOp}
    {found : List (Option ScopeSymbol)} (hrun : runStack stack ops = some (found, stack')) :
    ∃ ns', runScopes ns ops = some (found, ns') := by
  induction ops generalizing ns stack found with
  | nil =>
    rw [runStack] at hrun
    cases hrun
    exact ⟨ns, rfl⟩
  | cons op ops ih =>
    have hopen : ∀ scope rest, stack = scope :: rest → ns.len ≠ 0 := by
      rintro scope rest rfl
      rw [h.length_eq]
      exact Nat.succ_ne_zero _
    cases op with
    | push =>
      rw [runStack] at hrun
      refine ih h.pushScope ?_ hrun
      unfold Parser.pushScope
      split <;> exact hlabels
    | pop =>
      rcases stack with _ | ⟨scope, rest⟩
      · cases hrun
      rcases popScope_isSome (hopen scope rest rfl) hlabels with ⟨mid, hmid, hlabels'⟩
      rcases h.popScope hmid with ⟨_, _, heq, hmid'⟩
      cases heq
      rcases ih hmid' hlabels' hrun with ⟨ns', hns'⟩
      exact ⟨ns', by rw [runScopes, hmid, bind_some, hns']⟩
    | makeVisible sym =>
      rcases stack with _ | ⟨scope, rest⟩
      · cases hrun
      have hmid : Parser.symMakeVisible ns sym = some _ := if_neg (hopen scope rest rfl)
      rcases h.symMakeVisible hmid with ⟨_, _, heq, hmid'⟩
      cases heq
      rcases ih hmid' hlabels hrun with ⟨ns', hns'⟩
      exact ⟨ns', by rw [runScopes, hmid, bind_some, hns']⟩
    | lookup name =>
      rw [runStack] at hrun
      rcases map_eq_some_iff.mp hrun with ⟨⟨found', last⟩, hrest, heq⟩
      cases heq
      rcases ih h hlabels hrest with ⟨ns', hns'⟩
      exact ⟨ns', by rw [runScopes, hns', map_some, h.lookup name]⟩

/-- The scopes that are open inside of a scope after some operations, as long as it is not closed
itself. -/
def scopesInside : Nat → List ScopeOp → Option Nat
  | n, [] => some n
  | n, .push :: ops => scopesInside (n + 1) ops
  | 0, .pop :: _ => none
  | n + 1, .pop :: ops => scopesInside n ops
  | n, .makeVisible _ :: ops => scopesInside n ops
  | n, .lookup _ :: ops => scopesInside n ops

/-- Operations inside of a scope leave the scopes around it alone. -/
theorem runStack_inside {n k : Nat} {ops rest : List ScopeOp}
    (hinside : scopesInside n ops = some k) {inner outer last : ScopeStack}
    (hlen : inner.length = n + 1) {found : List (Option ScopeSymbol)}
    (hrun : runStack (inner ++ outer) (ops ++ rest) = some (found, last)) :
    ∃ inner' found', inner'.length = k + 1 ∧
      runStack (inner' ++ outer) rest = some (found', last) := by
  induction ops generalizing n inner found with
  | nil =>
    cases hinside
    exact ⟨inner, found, hlen, hrun⟩
  | cons op ops ih =>
    rcases inner with _ | ⟨scope, inner⟩
    · cases hlen
    cases op with
    | push =>
      have hlonger : ([] :: scope :: inner).length = n + 1 + 1 := congrArg (· + 1) hlen
      exact ih hinside hlonger hrun
    | pop =>
      cases n with
      | zero => cases hinside
      | succ n => exact ih hinside (Nat.succ.inj hlen) hrun
    | makeVisible sym =>
      have hsame : ((scope ++ [sym]) :: inner).length = n + 1 := hlen
      exact ih hinside hsame hrun
    | lookup name =>
      rw [cons_append, cons_append, runStack] at hrun
      rcases map_eq_some_iff.mp hrun with ⟨⟨found', last'⟩, hrest, heq⟩
      cases heq
      exact ih hinside hlen hrest

end Kcs.Parser
