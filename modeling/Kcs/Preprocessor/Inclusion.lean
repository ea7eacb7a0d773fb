import Kcs.Preprocessor.Directive

/-!
# Conditional inclusion

Sequences of directives, the conditional groups that are open after them, and the stack
of branch states that {lit}`preprocessDirective` keeps.

Main results:

- Theorem {lit}`followsGroups_of_kept`: in every well-nested sequence of such directives
  the block is active exactly where the groups say so.
-/

namespace Kcs.Preprocessor

open IntMax List

/-! ## Groups -/

/-- The directives of conditional inclusion, and the others. -/
inductive DirectiveKind where
  | if_ | ifdef | ifndef | elif | else_ | endif | other
deriving DecidableEq, Repr

/-- The kind of a directive, by its name. -/
def directiveKind (t : Token) : DirectiveKind :=
  if t.token = .if_ then .if_
  else if t.token = .else_ then .else_
  else if isNamed identElif t then .elif
  else if isNamed identEndif t then .endif
  else if isNamed identIfndef t then .ifndef
  else if isNamed identIfdef t then .ifdef
  else .other

/-- A directive with the context in which it is read, and the truth value of its
condition. -/
structure DirectiveLine where
  ctx : MacroContext
  name : Token
  rest : List Token
  truth : Bool

/-- The kind of a directive. -/
def DirectiveLine.kind (d : DirectiveLine) : DirectiveKind := directiveKind d.name

/-- A conditional group: the truth values of its branches up to the current one, and
whether that one is the last. -/
structure Group where
  branches : List Bool
  hasElse : Bool
deriving DecidableEq, Repr

/-- The current branch is the first one whose condition is true. -/
def Group.active (g : Group) : Bool :=
  g.branches.dropLast.all (!·) && g.branches.getLast? = some true

/-- No branch so far has a true condition. -/
def Group.untaken (g : Group) : Bool := g.branches.all (!·)

/-- The open groups after a directive, innermost first.  The branch of `#else` is true; it
is the last one. -/
def nextGroups (groups : List Group) (kind : DirectiveKind) (truth : Bool) :
    Option (List Group) :=
  match kind, groups with
  | .if_, _ | .ifdef, _ | .ifndef, _ => some (⟨[truth], false⟩ :: groups)
  | .elif, g :: outer =>
    if g.hasElse then none else some (⟨g.branches ++ [truth], false⟩ :: outer)
  | .else_, g :: outer =>
    if g.hasElse then none else some (⟨g.branches ++ [true], true⟩ :: outer)
  | .endif, _ :: outer => some outer
  | .other, _ => some groups
  | _, [] => none

/-- The open groups after a sequence of directives. -/
def openGroups : List Group → List DirectiveLine → Option (List Group)
  | groups, [] => some groups
  | groups, d :: lines =>
    (nextGroups groups d.kind d.truth).bind fun groups => openGroups groups lines

/-- The directives open and close their groups in pairs. -/
def WellNested (lines : List DirectiveLine) : Prop := openGroups [] lines = some []

theorem openGroups_append (groups : List Group) (done rest : List DirectiveLine) :
    openGroups groups (done ++ rest) =
      (openGroups groups done).bind fun groups => openGroups groups rest := by
  induction done generalizing groups with
  | nil => rfl
  | cons d done ih =>
    rw [cons_append, openGroups, openGroups]
    cases nextGroups groups d.kind d.truth with
    | none => rfl
    | some groups => exact ih groups

/-! ## The stack of the groups -/

/-- The state of a group, given whether the groups around it are active. -/
def branchOf (outer : Bool) (g : Group) : BranchState :=
  if !outer then .disabled
  else if g.active then .live
  else if g.untaken then .dead
  else .disabled

/-- The states of the open groups. -/
def stackOf : List Group → List BranchState
  | [] => []
  | g :: outer => branchOf (outer.all Group.active) g :: stackOf outer

theorem branchOf_eq_live_iff {outer : Bool} {g : Group} :
    branchOf outer g = .live ↔ outer = true ∧ g.active = true := by
  cases outer with
  | false => simp [branchOf]
  | true =>
    cases hactive : g.active with
    | true => simp [branchOf, hactive]
    | false => cases huntaken : g.untaken <;> simp [branchOf, hactive, huntaken]

theorem inActiveBlock_stackOf {s : DirectiveState} {groups : List Group}
    (h : s.branchStack = stackOf groups) : inActiveBlock s = groups.all Group.active := by
  cases groups with
  | nil => simp [inActiveBlock, h, stackOf]
  | cons g outer =>
    rw [Bool.eq_iff_iff]
    simp only [inActiveBlock, h, stackOf, decide_eq_true_eq, branchOf_eq_live_iff, all_cons,
      Bool.and_eq_true]
    exact And.comm

theorem branchOf_new (truth : Bool) :
    branchOf true ⟨[truth], false⟩ = if truth then .live else .dead := by
  cases truth <;> rfl

theorem branchOf_false (g : Group) : branchOf false g = .disabled := rfl

theorem branchOf_append (g : Group) (truth hasElse : Bool) :
    branchOf true ⟨g.branches ++ [truth], hasElse⟩ =
      if g.untaken then if truth then .live else .dead else .disabled := by
  have hactive : Group.active ⟨g.branches ++ [truth], hasElse⟩ = (g.untaken && truth) := by
    simp [Group.active, Group.untaken]
  have huntaken : Group.untaken ⟨g.branches ++ [truth], hasElse⟩ = (g.untaken && !truth) := by
    simp [Group.untaken]
  unfold branchOf
  rw [hactive, huntaken]
  cases g.untaken <;> cases truth <;> rfl

theorem branchOf_eq_dead_iff {g : Group} : branchOf true g = .dead ↔ g.untaken = true := by
  have hactive : g.untaken = true → g.active = false := by
    intro huntaken
    rcases eq_nil_or_concat g.branches with hnil | ⟨front, b, hb⟩
    · simp [Group.active, hnil]
    · have hlast : b = false := by
        have hall := all_eq_true.mp huntaken b (by simp [hb])
        simpa using hall
      simp [Group.active, hb, hlast]
  unfold branchOf
  cases huntaken : g.untaken with
  | true => simp [hactive huntaken]
  | false => cases g.active <;> simp

/-! ## Conditions -/

section Run

variable (strtod : List Char → Nat × Bool) (fuel : Nat)

/-- The directives whose line is expanded. -/
def DirectiveLine.isExpanded (d : DirectiveLine) (active : Bool) : Bool :=
  d.name.token = .if_ || isNamed identElif d.name || (active && isNamed identLine d.name)

/-- If the line is expanded at all, then without an error, and the expansion begins with the
name of a directive of the same kind. -/
def DirectiveLine.Kept (d : DirectiveLine) (active : Bool) : Prop :=
  d.isExpanded active = true → ∃ t rest n,
    expand d.ctx fuel (d.name :: d.rest) = .ok (t :: rest, n) ∧ directiveKind t = d.kind

/-- The names of a sequence of directives are kept by the expansions of their lines. -/
def NamesKept : List Group → List DirectiveLine → Prop
  | _, [] => True
  | groups, d :: lines =>
    d.Kept fuel (groups.all Group.active) ∧
      ∀ next, nextGroups groups d.kind d.truth = some next → NamesKept next lines

/-- The value of the condition of a directive. -/
def DirectiveLine.condition (d : DirectiveLine) : Outcome Bool :=
  match d.kind with
  | .if_ | .elif =>
    (expand d.ctx fuel (d.name :: d.rest)).bind fun r => conditionHolds strtod d.ctx r.1.tail
  | .ifdef => isDefined d.ctx "Expected identifier in 'ifdef' clause." d.rest
  | .ifndef => (!·) <$> isDefined d.ctx "Expected identifier in 'ifndef' clause." d.rest
  | _ => .ok true

/-- Whether the condition of a directive matters: the groups around are active and no
branch of the group is taken. -/
def needsCondition (groups : List Group) (kind : DirectiveKind) : Bool :=
  match kind, groups with
  | .if_, _ | .ifdef, _ | .ifndef, _ => groups.all Group.active
  | .elif, g :: outer => outer.all Group.active && g.untaken
  | _, _ => false

/-- The conditions that matter have their truth values, and the other directives do not
end the program. -/
def HasTruth : List Group → List DirectiveLine → Prop
  | _, [] => True
  | groups, d :: lines =>
    (needsCondition groups d.kind = true → d.condition strtod fuel = .ok d.truth) ∧
      (d.kind = .other → groups.all Group.active = true → ∀ s : DirectiveState,
        s.branchStack = stackOf groups → s.ctx = d.ctx →
          ∃ s', preprocessDirective strtod fuel s (d.name :: d.rest) = .ok s') ∧
      ∀ next, nextGroups groups d.kind d.truth = some next → HasTruth next lines

/-- The run over a sequence of directives.  Between them the context may change. -/
def runDirectives : DirectiveState → List DirectiveLine → Outcome DirectiveState
  | s, [] => .ok s
  | s, d :: lines =>
    (preprocessDirective strtod fuel { s with ctx := d.ctx } (d.name :: d.rest)).bind fun s =>
      runDirectives s lines

/-- Before and after every directive the block is active exactly when in every open group
the current branch is the first one with a true condition. -/
def FollowsGroups (lines : List DirectiveLine) : Prop :=
  ∀ ctx done rest, lines = done ++ rest →
    ∃ s groups, runDirectives strtod fuel { branchStack := [], ctx := ctx } done = .ok s ∧
      openGroups [] done = some groups ∧
        (inActiveBlock s = true ↔ ∀ g ∈ groups, g.active = true)

/-! ## One directive -/

variable {strtod fuel}

/-- A directive that opens a group. -/
def enterGroup (s : DirectiveState) (condition : Outcome Bool) : Outcome DirectiveState :=
  if inActiveBlock s then
    condition.bind fun b => .ok (pushState s (if b then .live else .dead))
  else .ok (pushState s .disabled)

/-- A directive that goes on to the next branch of a group. -/
def nextBranch (s : DirectiveState) (condition : Outcome Bool) : Outcome DirectiveState :=
  (popState s).bind fun r =>
    if inActiveBlock r.2 then
      if r.1 = .dead then
        condition.bind fun b => .ok (pushState r.2 (if b then .live else .dead))
      else .ok (pushState r.2 .disabled)
    else if r.1 = .disabled then .ok (pushState r.2 .disabled)
    else .error .assertion

/-- What a directive does, by its kind. -/
def stepByKind (strtod : List Char → Nat × Bool) (fuel : Nat) (s : DirectiveState) (line : Token)
    (rest : List Token) : DirectiveKind → Outcome DirectiveState
  | .if_ => enterGroup s (conditionHolds strtod s.ctx rest)
  | .ifdef => enterGroup s (isDefined s.ctx "Expected identifier in 'ifdef' clause." rest)
  | .ifndef =>
    enterGroup s ((!·) <$> isDefined s.ctx "Expected identifier in 'ifndef' clause." rest)
  | .elif => nextBranch s (conditionHolds strtod s.ctx rest)
  | .else_ => nextBranch s (.ok true)
  | .endif => (popState s).bind fun r => .ok r.2
  | .other => if inActiveBlock s then preprocessActive strtod fuel s line rest else .ok s

theorem dispatchDirective_eq (s : DirectiveState) (line : Token) (rest : List Token) :
    dispatchDirective strtod fuel s line rest =
      stepByKind strtod fuel s line rest (directiveKind line) := by
  unfold dispatchDirective directiveKind
  simp only
  by_cases hif : line.token = .if_
  · rw [if_pos hif, if_pos hif]
    rfl
  rw [if_neg hif, if_neg hif]
  by_cases helse : line.token = .else_
  · rw [if_pos helse, if_pos helse]
    simp only [stepByKind, nextBranch]
    congr 1
    ext r
    cases inActiveBlock r.2 with
    | true => cases r.1 <;> rfl
    | false => rfl
  rw [if_neg helse, if_neg helse]
  by_cases helif : isNamed identElif line = true
  · rw [if_pos helif, if_pos helif]
    rfl
  rw [if_neg helif, if_neg helif]
  by_cases hendif : isNamed identEndif line = true
  · rw [if_pos hendif, if_pos hendif]
    rfl
  rw [if_neg hendif, if_neg hendif]
  by_cases hifndef : isNamed identIfndef line = true
  · rw [if_pos hifndef, if_pos hifndef]
    simp only [stepByKind, enterGroup]
    cases isDefined s.ctx "Expected identifier in 'ifndef' clause." rest <;> rfl
  rw [if_neg hifndef, if_neg hifndef]
  by_cases hifdef : isNamed identIfdef line = true
  · rw [if_pos hifdef, if_pos hifdef]
    rfl
  rw [if_neg hifdef, if_neg hifdef]
  rfl

section Groups

variable {s : DirectiveState} {groups outer : List Group} {g : Group} {truth : Bool}
  {condition : Outcome Bool}

theorem enterGroup_spec (hs : s.branchStack = stackOf groups)
    (hcond : groups.all Group.active = true → condition = .ok truth) :
    ∃ s', enterGroup s condition = .ok s' ∧
      s'.branchStack = stackOf (⟨[truth], false⟩ :: groups) := by
  unfold enterGroup
  rw [inActiveBlock_stackOf hs]
  cases hactive : groups.all Group.active with
  | true =>
    rw [hcond hactive, if_pos rfl]
    refine ⟨_, rfl, ?_⟩
    simp only [pushState, stackOf, hactive, branchOf_new, hs]
  | false =>
    rw [if_neg (by simp)]
    refine ⟨_, rfl, ?_⟩
    simp only [pushState, stackOf, hactive, branchOf_false, hs]

theorem nextBranch_spec (hs : s.branchStack = stackOf (g :: outer)) (hasElse : Bool)
    (hcond : outer.all Group.active = true → g.untaken = true → condition = .ok truth) :
    ∃ s', nextBranch s condition = .ok s' ∧
      s'.branchStack = stackOf (⟨g.branches ++ [truth], hasElse⟩ :: outer) := by
  have hpop : popState s =
      .ok (branchOf (outer.all Group.active) g, { s with branchStack := stackOf outer }) := by
    simp only [popState, hs, stackOf]
  have hblock : inActiveBlock { s with branchStack := stackOf outer } =
      outer.all Group.active := inActiveBlock_stackOf rfl
  simp only [nextBranch, hpop, Except.bind, hblock]
  cases hactive : outer.all Group.active with
  | true =>
    rw [if_pos rfl]
    by_cases huntaken : g.untaken = true
    · rw [if_pos (branchOf_eq_dead_iff.mpr huntaken), hcond hactive huntaken]
      refine ⟨_, rfl, ?_⟩
      simp only [pushState, stackOf, hactive, branchOf_append, if_pos huntaken]
    · rw [if_neg (fun h => huntaken (branchOf_eq_dead_iff.mp h))]
      refine ⟨_, rfl, ?_⟩
      simp only [pushState, stackOf, hactive, branchOf_append, if_neg huntaken]
  | false =>
    rw [if_neg (by simp), if_pos (branchOf_false g)]
    refine ⟨_, rfl, ?_⟩
    simp only [pushState, stackOf, hactive, branchOf_false]

end Groups

theorem preprocessLineDirective_branchStack {s s' : DirectiveState} {line : List Token}
    (h : preprocessLineDirective strtod s line = .ok s') : s'.branchStack = s.branchStack := by
  unfold preprocessLineDirective at h
  split at h
  · exact absurd h (by simp)
  · rename_i t line
    split at h
    · exact absurd h (by simp)
    · rcases Except.bind_eq_ok_iff.mp h with ⟨n, -, h⟩
      cases n with
      | floating type => exact absurd h (by simp)
      | integer type value =>
        simp only at h
        split at h
        · exact absurd h (by simp)
        · cases line with
          | nil => exact absurd h (by simp)
          | cons u rest =>
            simp only at h
            split at h
            · exact absurd h (by simp)
            · split at h
              · exact absurd h (by simp)
              · cases h
                rfl

theorem preprocessActive_branchStack {s s' : DirectiveState} {line : Token} {rest : List Token}
    (h : preprocessActive strtod fuel s line rest = .ok s') : s'.branchStack = s.branchStack := by
  unfold preprocessActive at h
  split at h
  · rcases Except.bind_eq_ok_iff.mp h with ⟨defn, -, h⟩
    unfold define at h
    split at h
    · split at h
      · exact absurd h (by simp)
      · cases h
        rfl
    · cases h
      rfl
  · split at h
    · split at h
      · exact absurd h (by simp)
      · split at h
        · exact absurd h (by simp)
        · cases h
          rfl
    · split at h
      · rcases Except.bind_eq_ok_iff.mp h with ⟨path, -, h⟩
        split at h
        · cases h
          rfl
        · rcases Except.bind_eq_ok_iff.mp h with ⟨r, -, h⟩
          rcases Except.bind_eq_ok_iff.mp h with ⟨path, -, h⟩
          split at h
          · cases h
            rfl
          · exact absurd h (by simp)
      · split at h
        · exact preprocessLineDirective_branchStack h
        · split at h
          · rcases Except.bind_eq_ok_iff.mp h with ⟨t, -, h⟩
            exact absurd h (by simp)
          · exact absurd h (by simp)

/-! ## One directive -/

theorem directiveKind_spec (t : Token) :
    (directiveKind t = .if_ ↔ t.token = .if_) ∧
      (directiveKind t = .elif ↔ isNamed identElif t = true) ∧
        (t.token = .if_ ∨ isNamed identElif t = true ∨ isNamed identLine t = true →
          directiveKind t = .if_ ∨ directiveKind t = .elif ∨ directiveKind t = .other) := by
  have hnamed : ∀ name, isNamed name t = true → t.token = .identifier ∧ t.str = name := by
    intro name h
    simpa [isNamed] using h
  unfold directiveKind
  by_cases hif : t.token = .if_
  · have hnot : ¬ isNamed identElif t = true := by
      intro h
      rw [hif] at hnamed
      exact absurd (hnamed identElif h).1 (by decide)
    simp [hif, hnot]
  · by_cases helse : t.token = .else_
    · have hnot : ∀ name, ¬ isNamed name t = true := by
        intro name h
        rw [helse] at hnamed
        exact absurd (hnamed name h).1 (by decide)
      simp [helse, hnot]
    · by_cases helif : isNamed identElif t = true
      · simp [hif, helse, helif]
      · simp only [if_neg hif, if_neg helse, if_neg helif]
        by_cases hline : isNamed identLine t = true
        · have hnot : ∀ name, name ≠ identLine → ¬ isNamed name t = true := by
            intro name hne h
            exact hne ((hnamed name h).2.symm.trans (hnamed identLine hline).2)
          simp [hif, helif, hnot identEndif (by decide), hnot identIfndef (by decide),
            hnot identIfdef (by decide)]
        · refine ⟨?_, ?_, fun h => absurd h (by simp [hif, helif, hline])⟩
          · split
            · simp [hif]
            · split
              · simp [hif]
              · split <;> simp [hif]
          · split
            · simp [helif]
            · split
              · simp [helif]
              · split <;> simp [helif]

section Line

variable (strtod)

variable {s : DirectiveState} {d : DirectiveLine}

theorem preprocessDirective_of_expanded {active : Bool} (hctx : s.ctx = d.ctx)
    (hkept : d.Kept fuel active) (hkind : d.kind = .if_ ∨ d.kind = .elif) :
    ∃ r t, expand d.ctx fuel (d.name :: d.rest) = .ok r ∧
      preprocessDirective strtod fuel s (d.name :: d.rest) =
        stepByKind strtod fuel s t r.1.tail d.kind := by
  have hname : d.name.token = .if_ ∨ isNamed identElif d.name = true := by
    rcases hkind with hkind | hkind
    · exact Or.inl ((directiveKind_spec d.name).1.mp hkind)
    · exact Or.inr ((directiveKind_spec d.name).2.1.mp hkind)
  have hexpands : expandsLine s d.name = true := by
    rcases hname with h | h
    · simp [expandsLine, h]
    · simp [expandsLine, h]
  rcases hkept (by
    rcases hname with h | h
    · simp [DirectiveLine.isExpanded, h]
    · simp [DirectiveLine.isExpanded, h]) with ⟨t, rest, n, hr, ht⟩
  refine ⟨_, t, hr, ?_⟩
  simp only [preprocessDirective, hexpands, if_true, hctx, hr, Functor.map, Except.map, Except.bind]
  rw [dispatchDirective_eq, ht, tail_cons]

theorem preprocessDirective_of_not_expanded
    (hkind : d.kind ≠ .if_ ∧ d.kind ≠ .elif ∧ d.kind ≠ .other) :
    preprocessDirective strtod fuel s (d.name :: d.rest) =
      stepByKind strtod fuel s d.name d.rest d.kind := by
  have hnot : ¬ (d.name.token = .if_ ∨ isNamed identElif d.name = true ∨
      isNamed identLine d.name = true) := by
    intro h
    rcases (directiveKind_spec d.name).2.2 h with h | h | h
    · exact hkind.1 h
    · exact hkind.2.1 h
    · exact hkind.2.2 h
  have hexpands : expandsLine s d.name = false := by
    simp only [not_or] at hnot
    simp [expandsLine, hnot.1, hnot.2.1, hnot.2.2]
  simp only [preprocessDirective, hexpands, Bool.false_eq_true, if_false, Except.bind]
  exact dispatchDirective_eq s d.name d.rest

theorem preprocessDirective_of_other (hctx : s.ctx = d.ctx) (hkept : d.Kept fuel (inActiveBlock s))
    (hkind : d.kind = .other) :
    (inActiveBlock s = false → preprocessDirective strtod fuel s (d.name :: d.rest) = .ok s) ∧
      ∀ s', preprocessDirective strtod fuel s (d.name :: d.rest) = .ok s' →
        s'.branchStack = s.branchStack := by
  have hstep : ∀ t rest s', directiveKind t = .other →
      dispatchDirective strtod fuel s t rest = .ok s' → s'.branchStack = s.branchStack := by
    intro t rest s' ht h
    rw [dispatchDirective_eq, ht, stepByKind] at h
    split at h
    · exact preprocessActive_branchStack h
    · cases h
      rfl
  have hnot : ¬ d.name.token = .if_ ∧ ¬ isNamed identElif d.name = true := by
    constructor
    · intro h
      have := (directiveKind_spec d.name).1.mpr h
      rw [← DirectiveLine.kind, hkind] at this
      cases this
    · intro h
      have := (directiveKind_spec d.name).2.1.mpr h
      rw [← DirectiveLine.kind, hkind] at this
      cases this
  constructor
  · intro hactive
    have hexpands : expandsLine s d.name = false := by
      simp [expandsLine, hnot.1, hnot.2, hactive]
    simp only [preprocessDirective, hexpands, Bool.false_eq_true, if_false, Except.bind]
    rw [dispatchDirective_eq, ← DirectiveLine.kind, hkind, stepByKind, hactive]
    rfl
  · intro s' h
    simp only [preprocessDirective] at h
    rcases Except.bind_eq_ok_iff.mp h with ⟨array, harray, h⟩
    split at harray
    · rename_i hexpands
      rcases hkept hexpands with ⟨t, rest, n, hr, ht⟩
      rw [hctx, hr] at harray
      cases harray
      exact hstep t rest s' (ht.trans hkind) h
    · cases harray
      exact hstep _ _ _ hkind h

end Line

/-- A directive whose name is kept keeps the stack of the open groups. -/
theorem preprocessDirective_step {s : DirectiveState} {d : DirectiveLine} {groups next : List Group}
    (hs : s.branchStack = stackOf groups) (hctx : s.ctx = d.ctx)
    (hkept : d.Kept fuel (groups.all Group.active))
    (hnext : nextGroups groups d.kind d.truth = some next)
    (htruth : needsCondition groups d.kind = true → d.condition strtod fuel = .ok d.truth)
    (hother : d.kind = .other → groups.all Group.active = true →
      ∃ s', preprocessDirective strtod fuel s (d.name :: d.rest) = .ok s') :
    ∃ s', preprocessDirective strtod fuel s (d.name :: d.rest) = .ok s' ∧
      s'.branchStack = stackOf next := by
  cases hkind : d.kind with
  | if_ =>
    rcases preprocessDirective_of_expanded strtod hctx hkept (Or.inl hkind) with
      ⟨r, t, hr, hstep⟩
    rw [hkind] at hnext htruth
    cases hnext
    rw [hstep, hkind]
    refine enterGroup_spec hs ?_
    intro hactive
    have hcond := htruth hactive
    rw [DirectiveLine.condition, hkind] at hcond
    simp only [hr, Except.bind] at hcond
    rw [hctx, hcond]
  | elif =>
    rcases preprocessDirective_of_expanded strtod hctx hkept (Or.inr hkind) with
      ⟨r, t, hr, hstep⟩
    rw [hkind] at hnext htruth
    cases groups with
    | nil => cases hnext
    | cons g outer =>
      simp only [nextGroups] at hnext
      split at hnext
      · cases hnext
      · cases hnext
        rw [hstep, hkind]
        refine nextBranch_spec hs false ?_
        intro hactive huntaken
        have hcond := htruth (by simp [needsCondition, hactive, huntaken])
        rw [DirectiveLine.condition, hkind] at hcond
        simp only [hr, Except.bind] at hcond
        rw [hctx, hcond]
  | ifdef =>
    rw [preprocessDirective_of_not_expanded strtod (by simp [hkind]), hkind]
    rw [hkind] at hnext htruth
    cases hnext
    refine enterGroup_spec hs ?_
    intro hactive
    have hcond := htruth hactive
    rw [DirectiveLine.condition, hkind] at hcond
    rw [hctx]
    exact hcond
  | ifndef =>
    rw [preprocessDirective_of_not_expanded strtod (by simp [hkind]), hkind]
    rw [hkind] at hnext htruth
    cases hnext
    refine enterGroup_spec hs ?_
    intro hactive
    have hcond := htruth hactive
    rw [DirectiveLine.condition, hkind] at hcond
    rw [hctx]
    exact hcond
  | else_ =>
    rw [preprocessDirective_of_not_expanded strtod (by simp [hkind]), hkind]
    rw [hkind] at hnext
    cases groups with
    | nil => cases hnext
    | cons g outer =>
      simp only [nextGroups] at hnext
      split at hnext
      · cases hnext
      · cases hnext
        exact nextBranch_spec hs true fun _ _ => rfl
  | endif =>
    rw [preprocessDirective_of_not_expanded strtod (by simp [hkind]), hkind]
    rw [hkind] at hnext
    cases groups with
    | nil => cases hnext
    | cons g outer =>
      cases hnext
      exact ⟨{ s with branchStack := stackOf next }, by
        simp only [stepByKind, popState, hs, stackOf, Except.bind], rfl⟩
  | other =>
    have hsame := preprocessDirective_of_other strtod hctx
      ((inActiveBlock_stackOf hs).symm ▸ hkept) hkind
    rw [hkind] at hnext
    cases hnext
    cases hactive : groups.all Group.active with
    | true =>
      rcases hother hkind hactive with ⟨s', hs'⟩
      exact ⟨s', hs', (hsame.2 s' hs').trans hs⟩
    | false => exact ⟨s, hsame.1 ((inActiveBlock_stackOf hs).trans hactive), hs⟩

theorem runDirectives_spec {lines : List DirectiveLine} {s : DirectiveState}
    {groups last : List Group} (hs : s.branchStack = stackOf groups)
    (hkept : NamesKept fuel groups lines) (hopen : openGroups groups lines = some last)
    (htruth : HasTruth strtod fuel groups lines) :
    ∃ s', runDirectives strtod fuel s lines = .ok s' ∧ s'.branchStack = stackOf last := by
  induction lines generalizing s groups with
  | nil =>
    cases hopen
    exact ⟨s, rfl, hs⟩
  | cons d lines ih =>
    rcases Option.bind_eq_some_iff.mp hopen with ⟨next, hnext, hopen⟩
    rcases htruth with ⟨hcond, hother, hrest⟩
    rcases preprocessDirective_step (s := { s with ctx := d.ctx }) hs rfl
        hkept.1 hnext hcond
        (fun hkind hactive => hother hkind hactive _ hs rfl) with ⟨s', hstep, hs'⟩
    rcases ih hs' (hkept.2 next hnext) hopen (hrest next hnext) with
      ⟨s'', hrun, hs''⟩
    refine ⟨s'', ?_, hs''⟩
    rw [runDirectives, hstep]
    exact hrun

theorem HasTruth.of_append {groups : List Group} {done rest : List DirectiveLine}
    (h : HasTruth strtod fuel groups (done ++ rest)) : HasTruth strtod fuel groups done := by
  induction done generalizing groups with
  | nil => trivial
  | cons d done ih => exact ⟨h.1, h.2.1, fun next hnext => ih (h.2.2 next hnext)⟩

theorem NamesKept.of_append {groups : List Group} {done rest : List DirectiveLine}
    (h : NamesKept fuel groups (done ++ rest)) : NamesKept fuel groups done := by
  induction done generalizing groups with
  | nil => trivial
  | cons d done ih => exact ⟨h.1, fun next hnext => ih (h.2 next hnext)⟩

/-- In every well-nested sequence of directives whose names are kept by the expansion, the
block is active exactly where the groups say so. -/
theorem followsGroups_of_kept {lines : List DirectiveLine} (hnested : WellNested lines)
    (htruth : HasTruth strtod fuel [] lines) (hkept : NamesKept fuel [] lines) :
    FollowsGroups strtod fuel lines := by
  intro ctx done rest hsplit
  subst hsplit
  rw [WellNested, openGroups_append] at hnested
  rcases Option.bind_eq_some_iff.mp hnested with ⟨groups, hopen, -⟩
  rcases runDirectives_spec (s := { branchStack := [], ctx := ctx }) rfl
      hkept.of_append hopen htruth.of_append with ⟨s, hrun, hs⟩
  refine ⟨s, groups, hrun, hopen, ?_⟩
  rw [inActiveBlock_stackOf hs, all_eq_true]

end Run

/-! ## A directive that is a macro -/

/-- A context in which `elif` is a macro with the replacement `other`. -/
def elifMacro : MacroContext :=
  { noMacros with
    macros := [{ name := identElif, functionLike := false, params := 0,
                 replacement := [IDN .identifier ['o', 't', 'h', 'e', 'r']] }] }

/-- The directives `#if 0`, `#elif 1` and `#endif`. -/
def elifLines (ctx : MacroContext) : List DirectiveLine :=
  [⟨ctx, basicToken .if_, [digitToken '0', basicToken .newline], false⟩,
    ⟨ctx, IDN .identifier identElif, [digitToken '1', basicToken .newline], true⟩,
    ⟨ctx, IDN .identifier identEndif, [basicToken .newline], true⟩]

theorem wellNested_elifLines (ctx : MacroContext) : WellNested (elifLines ctx) := by
  have hif : directiveKind (basicToken .if_) = .if_ := by decide
  have helif : directiveKind (IDN .identifier identElif) = .elif := by decide
  have hendif : directiveKind (IDN .identifier identEndif) = .endif := by decide
  simp only [WellNested, elifLines, openGroups, DirectiveLine.kind, hif, helif, hendif]
  rfl

theorem hasTruth_elifLines {ctx : MacroContext}
    (h : (elifLines ctx).map (fun d => d.condition noFloat 4) =
      [.ok false, .ok true, .ok true]) : HasTruth noFloat 4 [] (elifLines ctx) := by
  have hif : directiveKind (basicToken .if_) = .if_ := by decide
  have helif : directiveKind (IDN .identifier identElif) = .elif := by decide
  have hendif : directiveKind (IDN .identifier identEndif) = .endif := by decide
  simp only [elifLines, map_cons, map_nil, List.cons.injEq] at h
  refine ⟨fun _ => h.1, fun hkind => ?_, fun next _ => ?_⟩
  · simp only [DirectiveLine.kind, hif] at hkind
    cases hkind
  refine ⟨fun _ => h.2.1, fun hkind => ?_, fun next _ => ?_⟩
  · simp only [DirectiveLine.kind, helif] at hkind
    cases hkind
  refine ⟨fun _ => h.2.2.1, fun hkind => ?_, fun next _ => trivial⟩
  simp only [DirectiveLine.kind, hendif] at hkind
  cases hkind

/-- The branch that `#elif` opens is not active if `elif` is a macro. -/
theorem elifMacro_not_followsGroups :
    ¬ (WellNested (elifLines elifMacro) → HasTruth noFloat 4 [] (elifLines elifMacro) →
      FollowsGroups noFloat 4 (elifLines elifMacro)) := by
  intro h
  have htruth : HasTruth noFloat 4 [] (elifLines elifMacro) :=
    hasTruth_elifLines (by decide +kernel)
  rcases h (wellNested_elifLines elifMacro) htruth elifMacro
      ((elifLines elifMacro).take 2) ((elifLines elifMacro).drop 2) rfl with
    ⟨s, groups, hrun, hopen, hactive⟩
  have hcode : (runDirectives noFloat 4 { branchStack := [], ctx := elifMacro }
      ((elifLines elifMacro).take 2)).map inActiveBlock = .ok false := by decide +kernel
  rw [hrun] at hcode
  have hgroups : openGroups [] ((elifLines elifMacro).take 2) =
      some [⟨[false, true], false⟩] := by decide +kernel
  cases hgroups.symm.trans hopen
  have hblock : inActiveBlock s = true := hactive.mpr (by decide)
  rw [Except.map, hblock] at hcode
  cases hcode

/-- Without the macro the block is active as it should be. -/
theorem followsGroups_of_kept_noMacros : FollowsGroups noFloat 4 (elifLines noMacros) := by
  have htruth : HasTruth noFloat 4 [] (elifLines noMacros) :=
    hasTruth_elifLines (by decide +kernel)
  refine followsGroups_of_kept (wellNested_elifLines noMacros) htruth ?_
  refine ⟨?_, fun next hnext => ⟨?_, fun next hnext => ⟨?_, fun _ _ => trivial⟩⟩⟩
  · refine fun _ => ⟨basicToken .if_, [digitToken '0', basicToken .newline], 0, ?_, rfl⟩
    decide +kernel
  · refine fun _ => ⟨IDN .identifier identElif, [digitToken '1', basicToken .newline], 0, ?_, rfl⟩
    decide +kernel
  · refine fun h => absurd h ?_
    simp [DirectiveLine.isExpanded, IDN, isNamed, Token.str, identLine, identElif, identEndif]

end Kcs.Preprocessor
