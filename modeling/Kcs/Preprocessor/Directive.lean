import Kcs.Preprocessor.Condition

/-!
# Directives

`preprocess_directive` with the stack of branch conditions, and the directives that
define macros, include files and set the line.  What a directive changes outside
the preprocessor is recorded: the files that it asks for.
-/

namespace Kcs.Preprocessor

open IntMax

/-! ## Branches -/

/-- `enum state` -/
inductive BranchState where
  | live | disabled | dead
deriving DecidableEq, Repr

/-- What directives change. -/
structure DirectiveState where
  branchStack : List BranchState
  ctx : MacroContext
  included : List (Bool × List Char) := []

/-- `push_state` -/
def pushState (s : DirectiveState) (c : BranchState) : DirectiveState :=
  { s with branchStack := c :: s.branchStack }

/-- `pop_state` -/
def popState (s : DirectiveState) : Outcome (BranchState × DirectiveState) :=
  match s.branchStack with
  | [] => .error (.error "Unmatched #endif directive.")
  | c :: stack => .ok (c, { s with branchStack := stack })

/-- `in_active_block` -/
def inActiveBlock (s : DirectiveState) : Bool :=
  match s.branchStack with
  | [] => true
  | c :: _ => c = .live

/-! ## Names of directives -/

/-- The comparison of a token with one of the identifiers of directives. -/
def isNamed (name : List Char) (t : Token) : Bool := t.token = .identifier && t.str = name

def identInclude : List Char := ['i', 'n', 'c', 'l', 'u', 'd', 'e']
def identDefine : List Char := ['d', 'e', 'f', 'i', 'n', 'e']
def identIfndef : List Char := ['i', 'f', 'n', 'd', 'e', 'f']
def identIfdef : List Char := ['i', 'f', 'd', 'e', 'f']
def identUndef : List Char := ['u', 'n', 'd', 'e', 'f']
def identElif : List Char := ['e', 'l', 'i', 'f']
def identEndif : List Char := ['e', 'n', 'd', 'i', 'f']
def identError : List Char := ['e', 'r', 'r', 'o', 'r']
def identLine : List Char := ['l', 'i', 'n', 'e']
def identVaArgs : List Char := ['_', '_', 'V', 'A', '_', 'A', 'R', 'G', 'S', '_', '_']

/-! ## Macros -/

/-- `tok_cmp`, for tokens of the preprocessor. -/
def tokCmp (a b : Token) : Bool :=
  a.token ≠ b.token || if a.token = .param then a.index ≠ b.index else a.str ≠ b.str

/-- `macrocmp` -/
def macrocmp (a b : Macro) : Bool :=
  a.functionLike ≠ b.functionLike || a.params ≠ b.params || a.name ≠ b.name ||
    a.replacement.length ≠ b.replacement.length ||
    (a.replacement.zip b.replacement).any fun p => tokCmp p.1 p.2

/-- `define`.  The table keeps the first definition of a name. -/
def define (s : DirectiveState) (defn : Macro) : Outcome DirectiveState :=
  match s.ctx.macros.find? fun m => m.name = defn.name with
  | some ref =>
    if macrocmp ref defn then
      .error (.error "Redefinition of macro '%s' with different substitution.")
    else .ok s
  | none =>
    let defn := { defn with
      isFile := defn.name = ['_', '_', 'F', 'I', 'L', 'E', '_', '_']
      isLine := defn.name = ['_', '_', 'L', 'I', 'N', 'E', '_', '_'] }
    .ok { s with ctx := { s.ctx with macros := s.ctx.macros ++ [defn] } }

/-- `undef` -/
def undef (s : DirectiveState) (name : List Char) : DirectiveState :=
  { s with ctx := { s.ctx with macros := s.ctx.macros.filter fun m => m.name ≠ name } }

/-- The parameters of `preprocess_define`, after the opening parenthesis: their names,
whether the list ends with dots, and the rest of the line. -/
def readMacroParams : List Token → Outcome (List (List Char) × Bool × List Token)
  | [] => .error .undefined
  | t :: line =>
    if t.token = .closeParen then .ok ([], false, t :: line)
    else if t.token = .dots then .ok ([identVaArgs], true, line)
    else if t.token ≠ .identifier then
      .error (.error "Invalid macro parameter, expected identifer.")
    else
      match line with
      | [] => .error .undefined
      | u :: rest =>
        if u.token ≠ .comma then .ok ([t.str], false, u :: rest)
        else (fun r => (t.str :: r.1, r.2)) <$> readMacroParams rest

/-- The loop of `preprocess_define` over the replacement list. -/
def readReplacement (functionLike : Bool) (params : List (List Char)) :
    List Token → Outcome (List Token)
  | [] => .error .undefined
  | t :: line =>
    if t.token = .newline then .ok []
    else if t.token = .end_ then .error .assertion
    else
      let isParam := functionLike && t.token = .identifier && params.contains t.str
      let u : Token :=
        if isParam then { token := .param, d := .val (params.idxOf t.str) } else t
      (u :: ·) <$> readReplacement functionLike params line

/-- `preprocess_define` -/
def preprocessDefine (line : List Token) : Outcome Macro :=
  match line with
  | [] => .error .undefined
  | t :: line =>
    if !t.isExpandable then .error (.error "Invalid definition of %s as a macro")
    else if line.head?.any fun u => u.token = .openParen ∧ u.leadingWhitespace = 0 then
      (readMacroParams line.tail).bind fun r =>
        (expect .closeParen r.2.2).bind fun line =>
          (readReplacement true r.1 line).bind fun replacement =>
            .ok { name := t.str, functionLike := true, params := r.1.length,
                  isVararg := r.2.1, replacement := replacement }
    else
      (readReplacement false [] line).bind fun replacement =>
        .ok { name := t.str, functionLike := false, params := 0, replacement := replacement }

/-! ## Files and lines -/

/-- One round of `preprocess_include`: the file that is asked for. -/
def includePath (line : List Token) : Outcome (Option (Bool × List Char)) :=
  match line with
  | [] => .error .undefined
  | t :: rest =>
    if t.token = .prepString then
      if 2 < line.length then .error (.error "Stray tokens in include directive.")
      else .ok (some (false, t.str))
    else if t.token = .lt ∧ (line.dropLast.getLast?.any fun u => u.token = .gt) then
      .ok (some (true, (rest.take (line.length - 3)).flatMap Token.str))
    else .ok none

section Directive

variable (strtod : List Char → Nat × Bool) (fuel : Nat)

/-- `preprocess_include`, after the name of the directive. -/
def preprocessInclude (s : DirectiveState) (line : List Token) : Outcome DirectiveState :=
  (includePath line).bind fun path =>
    match path with
    | some path => .ok { s with included := s.included ++ [path] }
    | none =>
      (expand s.ctx fuel line).bind fun r =>
        (includePath r.1).bind fun path =>
          match path with
          | some path => .ok { s with included := s.included ++ [path] }
          | none => .error (.error "Invalid include directive.")

/-- `preprocess_line_directive` -/
def preprocessLineDirective (s : DirectiveState) (line : List Token) : Outcome DirectiveState :=
  match line with
  | [] => .error .undefined
  | t :: line =>
    if t.token ≠ .prepNumber then
      .error (.error "Expected positive integer in #line directive.")
    else
      (convertPreprocessingNumber strtod t.str).bind fun n =>
        match n with
        | .floating _ => .error (.error "Expected positive integer in #line directive.")
        | .integer type value =>
          if (type ≠ .int ∧ type ≠ .uint) ∨ value = 0 then
            .error (.error "Expected positive integer in #line directive.")
          else
            let ctx := { s.ctx with currentFileLine := IntFormat.wrap (.bits32 true) (value - 1) }
            match line with
            | [] => .error .undefined
            | u :: rest =>
              let named := u.token = .prepString
              let ctx := if named then { ctx with currentFilePath := u.str } else ctx
              let rest := if named then rest else u :: rest
              match rest with
              | [] => .error .undefined
              | u :: _ =>
                if u.token ≠ .newline then
                  .error (.error "Unexpected token in #line directive.")
                else .ok { s with ctx := ctx }

/-! ## All directives -/

/-- The value of the condition of `#if` and `#elif`. -/
def conditionHolds (ctx : MacroContext) (line : List Token) : Outcome Bool :=
  (preprocessConstantExpression ctx strtod line).bind fun num => .ok num.1.truth

/-- Whether the name after `#ifdef` and `#ifndef` is defined. -/
def isDefined (ctx : MacroContext) (message : String) (line : List Token) : Outcome Bool :=
  match line with
  | [] => .error .undefined
  | t :: _ =>
    if !t.isExpandable then .error (.error message)
    else .ok (macroDefinition ctx t.str).isSome

/-- The directives that are looked at in an active block only. -/
def preprocessActive (s : DirectiveState) (line : Token) (rest : List Token) :
    Outcome DirectiveState :=
  if isNamed identDefine line then (preprocessDefine rest).bind fun defn => define s defn
  else if isNamed identUndef line then
    match rest with
    | [] => .error .undefined
    | t :: _ =>
      if !t.isExpandable then .error (.error "Expected identifier in 'undef' clause.")
      else .ok (undef s t.str)
  else if isNamed identInclude line then preprocessInclude fuel s rest
  else if isNamed identLine line then preprocessLineDirective strtod s rest
  else if isNamed identError line then
    (stringify rest).bind fun _ => .error (.error "%s")
  else .error (.error "Unsupported preprocessor directive '%s'.")

/-- The cases of `preprocess_directive`, after the expansion of the line. -/
def dispatchDirective (s : DirectiveState) (line : Token) (rest : List Token) :
    Outcome DirectiveState :=
  let branch (b : Bool) : BranchState := if b then .live else .dead
  if line.token = .if_ then
    if inActiveBlock s then
      (conditionHolds strtod s.ctx rest).bind fun b => .ok (pushState s (branch b))
    else .ok (pushState s .disabled)
  else if line.token = .else_ then
    (popState s).bind fun r =>
      if inActiveBlock r.2 then
        .ok (pushState r.2 (if r.1 = .dead then .live else .disabled))
      else if r.1 = .disabled then .ok (pushState r.2 .disabled)
      else .error .assertion
  else if isNamed identElif line then
    (popState s).bind fun r =>
      if inActiveBlock r.2 then
        if r.1 = .dead then
          (conditionHolds strtod s.ctx rest).bind fun b => .ok (pushState r.2 (branch b))
        else .ok (pushState r.2 .disabled)
      else if r.1 = .disabled then .ok (pushState r.2 .disabled)
      else .error .assertion
  else if isNamed identEndif line then
    (popState s).bind fun r => .ok r.2
  else if isNamed identIfndef line then
    if inActiveBlock s then
      (isDefined s.ctx "Expected identifier in 'ifndef' clause." rest).bind fun b =>
        .ok (pushState s (branch !b))
    else .ok (pushState s .disabled)
  else if isNamed identIfdef line then
    if inActiveBlock s then
      (isDefined s.ctx "Expected identifier in 'ifdef' clause." rest).bind fun b =>
        .ok (pushState s (branch b))
    else .ok (pushState s .disabled)
  else if inActiveBlock s then preprocessActive strtod fuel s line rest
  else .ok s

/-- Whether the line of a directive is expanded. -/
def expandsLine (s : DirectiveState) (line : Token) : Bool :=
  line.token = .if_ || isNamed identElif line ||
    (inActiveBlock s && isNamed identLine line)

/-- `preprocess_directive` -/
def preprocessDirective (s : DirectiveState) (array : List Token) : Outcome DirectiveState :=
  match array with
  | [] => .error .undefined
  | line :: _ =>
    (if expandsLine s line then Prod.fst <$> expand s.ctx fuel array else .ok array).bind
      fun array =>
        match array with
        | [] => .error .undefined
        | line :: rest => dispatchDirective strtod fuel s line rest

end Directive

end Kcs.Preprocessor
