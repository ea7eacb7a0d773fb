import Kcs.Lib.Result
import Kcs.Preprocessor.Tokenize

/-!
# Macro expansion

The functions of `macro.c` that replace macros in a list of tokens.  The loops
over token arrays are recursions over lists; an access past the end of an array
is undefined.  The recursion of `expand_line` is bounded by a number of steps.

Main results:

- Lemma {lit}`replaced_spec`: a token that is replaced names a macro that is not being
  expanded.
- Lemma {lit}`readArgs_length`: the arguments of an invocation are no longer than the
  list that they are read from.
-/

namespace Kcs.Preprocessor

open List

/-! ## Macros -/

/-- `struct macro` -/
structure Macro where
  name : List Char
  functionLike : Bool
  params : Nat
  isLine : Bool := false
  isFile : Bool := false
  isVararg : Bool := false
  replacement : List Token
deriving DecidableEq, Repr

/-- What expansion depends on: the language standard, the macros that are defined,
the current file and line. -/
structure MacroContext where
  std : Cstd
  macros : List Macro
  currentFilePath : List Char
  currentFileLine : Int

/-- A context without macros. -/
def noMacros : MacroContext :=
  { std := .c99, macros := [], currentFilePath := [], currentFileLine := 1 }

/-- `get__file__token` -/
def getFileToken (ctx : MacroContext) : Token :=
  { token := .string, d := .string ctx.currentFilePath }

/-- `get__line__token` -/
def getLineToken (ctx : MacroContext) : Token :=
  { basicToken .prepNumber with d := .string (toString ctx.currentFileLine).toList }

/-- `macro_definition` -/
def macroDefinition (ctx : MacroContext) (name : List Char) : Option Macro :=
  (ctx.macros.find? fun m => m.name = name).map fun ref =>
    if ref.isFile then { ref with replacement := ref.replacement.set 0 (getFileToken ctx) }
    else if ref.isLine then { ref with replacement := ref.replacement.set 0 (getLineToken ctx) }
    else ref

/-- `is_expanded` -/
def isExpanded (scope : List (List Char)) (name : List Char) : Bool := name ∈ scope

/-! ## Pasting and stringification -/

/-- `paste` -/
def paste (std : Cstd) (left right : Token) : Outcome Token :=
  (tokenize std (left.str ++ right.str)).bind fun r =>
    if r.2 ≠ [] then .error (.error "Invalid token resulting from pasting '%s' and '%s'.")
    else .ok { r.1 with leadingWhitespace := left.leadingWhitespace }

/-- `str_write_escaped` -/
def strWriteEscaped (s : List Char) : List Char :=
  s.flatMap fun c => if c = '"' ∨ c = '\\' then ['\\', c] else [c]

/-- `stringify_concat`: the text and the capacity of the buffer after a token.  A
text beyond the capacity is written out of bounds. -/
def stringifyConcat (buf : List Char × Nat) (tok : Token) : Outcome (List Char × Nat) :=
  let space := if tok.leadingWhitespace ≠ 0 then [' '] else []
  let len := space.length + tok.str.length * 2
  let cap := if buf.2 < buf.1.length + len then buf.1.length + len else buf.2
  let raw :=
    match tok.token with
    | .prepString | .string => ['\\', '"'] ++ strWriteEscaped tok.str ++ ['\\', '"']
    | .prepChar => ['\''] ++ strWriteEscaped tok.str ++ ['\'']
    | _ => tok.str
  let text := buf.1 ++ space ++ raw
  if cap < text.length then .error .undefined else .ok (text, cap)

/-- The loop of `stringify` over the tokens after the first one. -/
def stringifyRest : List Char × Nat → List Token → Outcome (List Char)
  | buf, [] => .ok buf.1
  | buf, t :: list =>
    if t.token = .newline then
      if list = [] then .ok buf.1 else .error .assertion
    else (stringifyConcat buf t).bind fun buf => stringifyRest buf list

/-- `stringify` -/
def stringify (list : List Token) : Outcome Token :=
  match list with
  | [] => .ok { token := .string, d := .string [] }
  | t :: rest =>
    let concat : Outcome Token :=
      (stringifyRest ([], list.length * 8) ({ t with leadingWhitespace := 0 } :: rest)).bind
        fun text =>
          if text.getLast? = some '\\' then
            .error (.error "Invalid string literal ending with '\\'.")
          else
            .ok { token := .prepString, leadingWhitespace := t.leadingWhitespace,
                  d := .string text }
    match t.token with
    | .backslash | .string | .prepString | .prepChar => concat
    | _ =>
      if rest = [] then
        .ok { token := .string, leadingWhitespace := t.leadingWhitespace, d := .string t.str }
      else concat

/-- An argument of the invocation. -/
def argument (args : List (List Token)) (t : Token) : List Token := args.getD t.index []

/-- The loop of `expand_stringify_and_paste`: the tokens produced so far and the
rest of the replacement list. -/
def stringifyAndPaste (std : Cstd) (defn : Macro) (args : List (List Token)) :
    List Token → List Token → Outcome (List Token)
  | list, [] => .ok list
  | list, u :: rest =>
    if u.token = .tokenPaste then
      match list.getLast?, rest with
      | some t, s :: rest =>
        let front := list.dropLast
        -- `[] ## s`: the left operand is dropped
        if t.token = .param ∧ argument args t = [] then
          if s.token = .param then stringifyAndPaste std defn args (front ++ argument args s) rest
          else stringifyAndPaste std defn args (front ++ [s]) rest
        else
          let list := if t.token = .param then front ++ argument args t else list
          let t := if t.token = .param then (argument args t).getLastD t else t
          if s.token = .param then
            if defn.isVararg ∧ t.token = .comma ∧ s.index + 1 = defn.params then
              -- the comma stays before the arguments, which are expanded like others
              if argument args s ≠ [] then stringifyAndPaste std defn args (list ++ [s]) rest
              else stringifyAndPaste std defn args list.dropLast rest
            else
              match argument args s with
              | [] => stringifyAndPaste std defn args list rest
              | a :: more =>
                (paste std t a).bind fun p =>
                  stringifyAndPaste std defn args (list.dropLast ++ p :: more) rest
          else
            (paste std t s).bind fun p =>
              stringifyAndPaste std defn args (list.dropLast ++ [p]) rest
      | _, _ => .error .undefined
    else if u.token = .hash then
      match rest with
      | s :: rest =>
        if s.token = .param then
          (stringify (argument args s)).bind fun t =>
            stringifyAndPaste std defn args (list ++ [t]) rest
        else .error (.error "Stray '#' in replacement list.")
      | [] => .error (.error "Stray '#' in replacement list.")
    else stringifyAndPaste std defn args (list ++ [u]) rest

/-- `expand_stringify_and_paste` -/
def expandStringifyAndPaste (std : Cstd) (defn : Macro) (args : List (List Token)) :
    Outcome (List Token) :=
  if defn.replacement.head?.any (fun t => t.token = .tokenPaste) then
    .error (.error "Unexpected '##' operator at beginning of line.")
  else if 2 < defn.replacement.length ∧
      defn.replacement.getLast?.any (fun t => t.token = .tokenPaste) then
    .error (.error "Unexpected '##' operator at end of line.")
  else stringifyAndPaste std defn args [] defn.replacement

/-! ## Arguments -/

/-- `read_arg`.  The loop has no other end than a closing parenthesis, a comma or a
newline. -/
def readArg (scope : List (List Char)) (isVaArg : Bool) :
    Nat → List Token → Outcome (List Token × List Token)
  | _, [] => .error .undefined
  | nesting, t :: list =>
    if nesting ≠ 0 ∨ ((t.token ≠ .comma ∨ isVaArg) ∧ t.token ≠ .closeParen) then
      if t.token = .newline then .error (.error "Unexpected end of input in expansion.")
      else
        let nesting :=
          if t.token = .openParen then nesting + 1
          else if t.token = .closeParen then nesting - 1 else nesting
        let t := if t.isExpandable ∧ isExpanded scope t.str then { t with disableExpand := true }
          else t
        (fun r => (t :: r.1, r.2)) <$> readArg scope isVaArg nesting list
    else .ok ([], t :: list)

/-- The loop of `read_args` over the parameters from number `i` on, of which `n` are
left: the arguments, the rest of the list, and whether the variable arguments are
still to be read. -/
def readParams (scope : List (List Char)) (defn : Macro) :
    Nat → Nat → List Token → Outcome (List (List Token) × List Token × Bool)
  | _, 0, list => .ok ([], list, defn.isVararg)
  | i, n + 1, list =>
    (readArg scope false 0 list).bind fun r =>
      match r.2 with
      | [] => .error .undefined
      | t :: list =>
        if t.token ≠ .comma then
          if i + 1 = defn.params then .ok ([r.1], t :: list, defn.isVararg)
          else if defn.isVararg ∧ i + 2 = defn.params then .ok ([r.1], t :: list, false)
          else .error (.error "Expected ',' between macro parameters.")
        else (fun q => (r.1 :: q.1, q.2)) <$> readParams scope defn (i + 1) n list

/-- `read_args`: one list for each parameter, and the rest after the invocation. -/
def readArgs (scope : List (List Char)) (defn : Macro) (list : List Token) :
    Outcome (List (List Token) × List Token) :=
  if defn.functionLike then
    match list with
    | [] => .error .undefined
    | t :: list =>
      if t.token ≠ .openParen then
        .error (.error "Expected '(' to begin macro argument list.")
      else
        (readParams scope defn 0 (defn.params - if defn.isVararg then 1 else 0) list).bind
          fun r =>
            (if r.2.2 then
              (fun q => (r.1 ++ [q.1], q.2)) <$> readArg scope true 0 r.2.1
            else .ok (r.1 ++ List.replicate (defn.params - r.1.length) [], r.2.1)).bind
              fun r =>
                match r.2 with
                | [] => .error .undefined
                | t :: list =>
                  if t.token ≠ .closeParen then
                    .error (.error "Expected ')' to close macro argument list.")
                  else .ok (r.1, list)
  else .ok ([], list)

/-! ## Expansion -/

/-- The white space that `expand_macro` puts before an expanded argument. -/
def spaceBefore (list : List Token) : List Token :=
  match list with
  | [] => []
  | t :: list =>
    (if t.leadingWhitespace = 0 then { t with leadingWhitespace := 1 } else t) :: list

/-- The loop of `expand_macro` that puts the arguments in. -/
def substitute (args : List (List Token)) (list : List Token) : List Token :=
  list.flatMap fun t => if t.token = .param then argument args t else [t]

/-- The white space that `expand_line` puts before an expansion. -/
def fixWhitespace (t : Token) (expn : List Token) : List Token :=
  match expn with
  | [] => []
  | u :: expn => { u with leadingWhitespace := t.leadingWhitespace } :: expn

/-- A token at which `expand_line` replaces a macro: a name that may be expanded, of
a macro that is not expanded already, before an opening parenthesis where the
macro takes arguments. -/
def replaced (ctx : MacroContext) (scope : List (List Char)) (t : Token) (rest : List Token) :
    Option Macro :=
  if !t.isExpandable || t.disableExpand then none
  else
    match macroDefinition ctx t.str with
    | none => none
    | some defn =>
      if isExpanded scope t.str then none
      else if defn.functionLike && rest.head?.all (fun u => u.token ≠ .openParen) then none
      else some defn

/-- What `expand_line` makes of a token that it does not replace: the name of a macro
that is expanded already is marked. -/
def passed (ctx : MacroContext) (scope : List (List Char)) (t : Token) : Token :=
  if t.isExpandable ∧ (macroDefinition ctx t.str).isSome ∧ isExpanded scope t.str then
    { t with disableExpand := true }
  else t

/-- The tokens that replace an invocation before they are scanned again: the
replacement list with the pre-expanded arguments put in. -/
def replacementList (ctx : MacroContext) (preExpand : List Token → Outcome (List Token))
    (defn : Macro) (args : List (List Token)) : Outcome (List Token) :=
  (expandStringifyAndPaste ctx.std defn args).bind fun list =>
    if 0 < defn.params then
      if defn.functionLike then
        (args.mapM preExpand).bind fun args =>
          .ok (substitute (args.map spaceBefore) list)
      else .error .assertion
    else .ok list

/-- `expand_line`, with `expand_macro` and the `expand` of the arguments: they are
expanded with no name in scope.  The second result is the number of invocations
that were replaced. -/
def expandLine (ctx : MacroContext) :
    Nat → List (List Char) → List Token → Outcome (List Token × Nat)
  | 0, _, _ => .error .fuel
  | _ + 1, _, [] => .ok ([], 0)
  | fuel + 1, scope, t :: rest =>
    match replaced ctx scope t rest with
    | none =>
      (fun q => (passed ctx scope t :: q.1, q.2)) <$> expandLine ctx fuel scope rest
    | some defn =>
      (readArgs scope defn rest).bind fun r =>
        (replacementList ctx (fun arg => Prod.fst <$> expandLine ctx fuel [] arg) defn r.1).bind
          fun list =>
            (expandLine ctx fuel (scope ++ [defn.name]) list).bind fun expn =>
              (fun q => (fixWhitespace t expn.1 ++ q.1, q.2 + 1)) <$>
                expandLine ctx fuel scope r.2

/-- `expand` -/
def expand (ctx : MacroContext) (fuel : Nat) (list : List Token) :
    Outcome (List Token × Nat) :=
  expandLine ctx fuel [] list

/-! ## Where an invocation is replaced -/

variable {defn : Macro}

theorem macroDefinition_name {ctx : MacroContext} {name : List Char}
    (h : macroDefinition ctx name = some defn) :
    defn.name = name ∧ ∃ m ∈ ctx.macros, m.name = name := by
  rcases Option.map_eq_some_iff.mp h with ⟨m, hm, rfl⟩
  have hname : m.name = name := by simpa using find?_some hm
  refine ⟨?_, m, mem_of_find?_eq_some hm, hname⟩
  split
  · exact hname
  · split <;> exact hname

variable {scope : List (List Char)}

/-- A token that is replaced names a macro that is not in scope. -/
theorem replaced_spec {ctx : MacroContext} {t : Token}
    {rest : List Token} (h : replaced ctx scope t rest = some defn) :
    macroDefinition ctx t.str = some defn ∧ t.str ∉ scope := by
  unfold replaced at h
  split at h
  · exact absurd h (by simp)
  · split at h
    · exact absurd h (by simp)
    · rename_i d hd
      split at h
      · exact absurd h (by simp)
      · rename_i hscope
        split at h
        · exact absurd h (by simp)
        · cases h
          exact ⟨hd, by simpa [isExpanded] using hscope⟩

/-! ## Arguments are shorter than the list -/

variable {list : List Token}

theorem readArg_length {isVaArg : Bool} {nesting : Nat}
    {r : List Token × List Token}
    (h : readArg scope isVaArg nesting list = .ok r) :
    r.1.length + r.2.length ≤ list.length := by
  induction list generalizing nesting r with
  | nil => simp [readArg] at h
  | cons t list ih =>
    unfold readArg at h
    split at h
    · split at h
      · exact absurd h (by simp)
      · rcases Except.map_eq_ok_iff.mp h with ⟨q, hq, rfl⟩
        have := ih hq
        simp only [length_cons]
        omega
    · cases h
      simp

theorem readParams_length {i n : Nat}
    {r : List (List Token) × List Token × Bool}
    (h : readParams scope defn i n list = .ok r) :
    (∀ arg ∈ r.1, arg.length ≤ list.length) ∧ r.2.1.length ≤ list.length := by
  induction n generalizing i list r with
  | zero =>
    cases h
    simp
  | succ n ih =>
    unfold readParams at h
    rcases Except.bind_eq_ok_iff.mp h with ⟨q, hq, h⟩
    have hlen := readArg_length hq
    split at h
    · exact absurd h (by simp)
    · rename_i t list' hrest
      rw [hrest, length_cons] at hlen
      split at h
      · split at h
        · cases h
          simp only [mem_singleton, forall_eq, length_cons]
          omega
        · split at h
          · cases h
            simp only [mem_singleton, forall_eq, length_cons]
            omega
          · exact absurd h (by simp)
      · rcases Except.map_eq_ok_iff.mp h with ⟨p, hp, rfl⟩
        rcases ih hp with ⟨hargs, hlist⟩
        refine ⟨?_, show p.2.1.length ≤ list.length by omega⟩
        intro arg harg
        rcases mem_cons.mp harg with rfl | harg
        · omega
        · have := hargs arg harg
          omega

/-- Arguments and the rest of the list fit into the list. -/
theorem readArgs_length
    {r : List (List Token) × List Token} (h : readArgs scope defn list = .ok r) :
    (∀ arg ∈ r.1, arg.length ≤ list.length) ∧ r.2.length ≤ list.length := by
  unfold readArgs at h
  split at h
  · split at h
    · exact absurd h (by simp)
    · rename_i t list
      split at h
      · exact absurd h (by simp)
      · rcases Except.bind_eq_ok_iff.mp h with ⟨p, hp, h⟩
        rcases Except.bind_eq_ok_iff.mp h with ⟨q, hq, h⟩
        rcases readParams_length hp with ⟨hargs, hlist⟩
        have hqlen : (∀ arg ∈ q.1, arg.length ≤ list.length) ∧ q.2.length ≤ list.length := by
          split at hq
          · rcases Except.map_eq_ok_iff.mp hq with ⟨v, hv, rfl⟩
            have hvlen := readArg_length hv
            refine ⟨?_, show v.2.length ≤ list.length by omega⟩
            intro arg harg
            rcases mem_append.mp harg with harg | harg
            · exact hargs arg harg
            · rw [mem_singleton.mp harg]
              omega
          · cases hq
            refine ⟨?_, hlist⟩
            intro arg harg
            rcases mem_append.mp harg with harg | harg
            · exact hargs arg harg
            · rw [(mem_replicate.mp harg).2]
              simp
        split at h
        · exact absurd h (by simp)
        · rename_i u rest hrest
          rw [hrest, length_cons] at hqlen
          split at h
          · exact absurd h (by simp)
          · cases h
            simp only [length_cons]
            refine ⟨fun arg harg => ?_, by omega⟩
            have := hqlen.1 arg harg
            omega
  · cases h
    simp

end Kcs.Preprocessor
