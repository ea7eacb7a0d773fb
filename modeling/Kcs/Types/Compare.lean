import Kcs.Lib.Calling
import Kcs.Types.Conversion
import Kcs.Types.Equal
import Kcs.Types.Layout

/-!
# Termination of type comparison

`type_equal` compares the members of two entries by calls of itself, and keeps no account of the
pairs it has seen.  It does not look at the pointer flag of a handle, so that a member that points to
its own struct leads back to the comparison of the structs.  `is_compatible` follows pointers and
arrays, and ends with calls of `type_equal`.

Main results:

- Theorem {lit}`comparison_terminates_iff`: a comparison ends exactly when the pairs that it leads to
  do not go on forever.
-/

namespace Kcs

/-! ## The source -/

/-- A call of `type_equal` or `is_compatible`. -/
inductive Comparison
  | equal (a b : CType)
  | compatible (l r : CType)
deriving DecidableEq, Repr

/-- How a comparison ends. -/
inductive CompareResult
  | returned (same : Bool)
  | aborted
deriving DecidableEq, Repr

/-- The part of a comparison that is left. -/
abbrev Comparing := Calling Comparison CompareResult CompareResult

/-- The end of a comparison. -/
def answer (same : Bool) : Comparing := .done (.returned same)

/-- An access to the type table, which may violate an assertion. -/
def need {α : Type} (x : Option α) (next : α → Comparing) : Comparing :=
  match x with
  | some a => next a
  | none => .done .aborted

/-- Go on when a nested comparison finds the same types. -/
def whenSame (c : Comparison) (next : Comparing) : Comparing :=
  .call c fun
    | .returned true => next
    | .returned false => answer false
    | .aborted => .done .aborted

/-- The member loop of `typetree_equal`. -/
def membersBody (isFunction : Bool) : List Member → List Member → Comparing
  | ma :: as, mb :: bs =>
    whenSame (.equal ma.type mb.type)
      (if isFunction then membersBody isFunction as bs
        else if ma.offset ≠ mb.offset then .done .aborted
        else if ma.name ≠ mb.name then answer false
        else membersBody isFunction as bs)
  | _, _ => answer true

/-- `type_equal` -/
def typeEqualBody (types : TypeTable) (a b : CType) : Comparing :=
  if a = b then answer true
  else if a.type ≠ b.type ∨ a.isUnsigned ≠ b.isUnsigned then answer false
  else if (a.ref = 0) ≠ (b.ref = 0) then answer false
  else if a.ref ≠ 0 ∧ b.ref ≠ 0 then
    need (getTypetreeHandle types a.ref) fun ta =>
      need (getTypetreeHandle types b.ref) fun tb =>
        if sameHeader ta tb then membersBody (ta.type = .function) ta.members tb.members
        else answer false
  else answer true

/-- The comparison of two types that are found by following the given ones. -/
def nextBody (types : TypeTable) (l r : CType) : Comparing :=
  need (typeNext types l) fun l =>
    need (typeNext types r) fun r => .call (.compatible l r) .done

/-- `is_compatible` -/
def isCompatibleBody (types : TypeTable) (l r : CType) : Comparing :=
  if l.typeOf ≠ r.typeOf ∨ l.isConstType ≠ r.isConstType ∨
      l.isVolatileType ≠ r.isVolatileType ∨ l.isRestrictType ≠ r.isRestrictType then
    answer false
  else
    match l.typeOf with
    | .bool | .char | .short | .int | .long | .float | .double | .ldouble => answer true
    | .pointer => nextBody types l r
    | .array =>
      need (typeArrayLen types l) fun s1 =>
        need (typeArrayLen types r) fun s2 =>
          if s1 = 0 ∨ s2 = 0 ∨ s1 = s2 then nextBody types l r else answer false
    | .function =>
      need (typeNext types l) fun nl =>
        need (typeNext types r) fun nr =>
          whenSame (.equal nl nr)
            (need (isComplete types l) fun cl =>
              need (isComplete types r) fun cr =>
                if !cl || !cr then answer true else .call (.equal l r) .done)
    | _ => .call (.equal l r) .done

/-- The body of a comparison. -/
def Comparison.body (types : TypeTable) : Comparison → Comparing
  | .equal a b => typeEqualBody types a b
  | .compatible l r => isCompatibleBody types l r

/-- A comparison returns, or violates an assertion, after finitely many calls. -/
def Comparison.Terminates (types : TypeTable) (c : Comparison) : Prop :=
  ∃ r, Answers (Comparison.body types) c r

/-! ## The bounded comparison -/

section Bounded

variable {types : TypeTable}

/-- A bounded comparison of types and the bounded calls of the body agree. -/
def Agrees (equal : CType → CType → Option Bool) (call : Comparison → Option CompareResult) :
    Prop :=
  ∀ a b v, equal a b = some v ↔ call (.equal a b) = some (.returned v)

variable {equal : CType → CType → Option Bool} {call : Comparison → Option CompareResult}

theorem eval_whenSame (h : Agrees equal call) (a b : CType) (next : Comparing)
    (rest : Option Bool) (v : Bool)
    (hrest : rest = some v ↔ next.eval call = some (.returned v)) :
    ((equal a b).bind fun same => if !same then some false else rest) = some v ↔
      (whenSame (.equal a b) next).eval call = some (.returned v) := by
  unfold whenSame
  rw [Calling.eval]
  cases hcall : call (.equal a b) with
  | none =>
    have hnone : equal a b = none := by
      rw [Option.eq_none_iff_forall_ne_some]
      intro w hw
      rw [h a b w, hcall] at hw
      cases hw
    simp [hnone]
  | some r =>
    cases r with
    | aborted =>
      have hnone : equal a b = none := by
        rw [Option.eq_none_iff_forall_ne_some]
        intro w hw
        rw [h a b w, hcall] at hw
        cases hw
      simp [hnone, Calling.eval]
    | returned same =>
      rw [(h a b same).mpr hcall]
      cases same with
      | true => simpa using hrest
      | false => simp [answer, Calling.eval]

theorem eval_membersBody (h : Agrees equal call) (isFunction : Bool) (as bs : List Member)
    (v : Bool) :
    membersEqual equal isFunction as bs = some v ↔
      (membersBody isFunction as bs).eval call = some (.returned v) := by
  induction as generalizing bs with
  | nil => simp [membersEqual, membersBody, answer, Calling.eval]
  | cons ma as ih =>
    cases bs with
    | nil => simp [membersEqual, membersBody, answer, Calling.eval]
    | cons mb bs =>
      refine eval_whenSame h ma.type mb.type _ _ v ?_
      by_cases hfunction : isFunction = true
      · rw [if_pos hfunction, if_pos hfunction]
        exact ih bs
      · rw [if_neg hfunction, if_neg hfunction]
        by_cases hoffset : ma.offset = mb.offset
        · by_cases hname : ma.name = mb.name
          · simpa [hoffset, hname] using ih bs
          · simp [hoffset, hname, answer, Calling.eval]
        · simp [hoffset, Calling.eval]

theorem typeEqualAux_iff_runCalls (n : Nat) :
    Agrees (typeEqualAux types n) (runCalls (Comparison.body types) n) := by
  induction n with
  | zero =>
    intro a b v
    exact ⟨(fun h => nomatch h), (fun h => nomatch h)⟩
  | succ n ih =>
    intro a b v
    show typeEqualAux types (n + 1) a b = some v ↔
      (typeEqualBody types a b).eval (runCalls (Comparison.body types) n) = some (.returned v)
    unfold typeEqualAux typeEqualBody
    by_cases hsame : a = b
    · simp [hsame, answer, Calling.eval]
    · rw [if_neg hsame, if_neg hsame]
      by_cases hkind : a.type ≠ b.type ∨ a.isUnsigned ≠ b.isUnsigned
      · simp [hkind, answer, Calling.eval]
      · rw [if_neg hkind, if_neg hkind]
        by_cases hzero : (a.ref = 0) ≠ (b.ref = 0)
        · simp [hzero, answer, Calling.eval]
        · rw [if_neg hzero, if_neg hzero]
          by_cases hrefs : a.ref ≠ 0 ∧ b.ref ≠ 0
          · rw [if_pos hrefs, if_pos hrefs]
            cases getTypetreeHandle types a.ref with
            | none => simp [need, Calling.eval]
            | some ta =>
              cases getTypetreeHandle types b.ref with
              | none => simp [need, Calling.eval]
              | some tb =>
                simp only [Option.bind_some, need, typetreeEqual]
                cases hheader : sameHeader ta tb with
                | false => simp [answer, Calling.eval]
                | true => simpa using eval_membersBody ih _ _ _ v
          · simp [hrefs, answer, Calling.eval]

end Bounded

/-! ## Nested comparisons -/

/-- What one level of `type_equal` asks for when it accepts two handles, of the types of members. -/
def SameStep (types : TypeTable) (R : CType → CType → Prop) (a b : CType) : Prop :=
  a = b ∨ (a.type = b.type ∧ a.isUnsigned = b.isUnsigned ∧ (a.ref = 0 ↔ b.ref = 0) ∧
    (a.ref ≠ 0 → ∃ ta tb, getTypetreeHandle types a.ref = some ta ∧
      getTypetreeHandle types b.ref = some tb ∧ sameHeader ta tb = true ∧
      List.Forall₂ (fun ma mb => R ma.type mb.type ∧
        (ta.type ≠ .function → ma.offset = mb.offset ∧ ma.name = mb.name))
        ta.members tb.members))

/-- The types are found to be the same: the least relation that holds when one level of comparison
accepts two handles, with members whose types are related. -/
def FoundSame (types : TypeTable) (a b : CType) : Prop :=
  ∀ R : CType → CType → Prop, (∀ a b, SameStep types R a b → R a b) → R a b

/-- The types of two members whose comparison is reached: the members before them are found to be
the same. -/
inductive MemberReached (same : CType → CType → Prop) (isFunction : Bool) :
    List Member → List Member → CType → CType → Prop
  | here (ma mb : Member) (as bs : List Member) :
      MemberReached same isFunction (ma :: as) (mb :: bs) ma.type mb.type
  | later {ma mb : Member} {as bs : List Member} {x y : CType} (hsame : same ma.type mb.type)
      (hplace : isFunction = false → ma.offset = mb.offset ∧ ma.name = mb.name)
      (hrest : MemberReached same isFunction as bs x y) :
      MemberReached same isFunction (ma :: as) (mb :: bs) x y

/-- The qualifiers and the kinds of two types are the same, as `is_compatible` asks for. -/
def SameForm (l r : CType) : Prop :=
  l.typeOf = r.typeOf ∧ l.isConstType = r.isConstType ∧ l.isVolatileType = r.isVolatileType ∧
    l.isRestrictType = r.isRestrictType

/-- Do these kinds have no other comparison than that of their form? -/
def TypeKind.isBasic : TypeKind → Bool
  | .bool | .char | .short | .int | .long | .float | .double | .ldouble => true
  | _ => false

/-- The comparisons that a comparison leads to. -/
inductive LeadsTo (types : TypeTable) : Comparison → Comparison → Prop
  | member {a b x y : CType} {ta tb : Typetree} (hne : a ≠ b) (htype : a.type = b.type)
      (hunsigned : a.isUnsigned = b.isUnsigned) (ha : a.ref ≠ 0) (hb : b.ref ≠ 0)
      (hta : getTypetreeHandle types a.ref = some ta)
      (htb : getTypetreeHandle types b.ref = some tb) (hheader : sameHeader ta tb = true)
      (hreached : MemberReached (FoundSame types) (ta.type = .function) ta.members tb.members x y) :
      LeadsTo types (.equal a b) (.equal x y)
  | pointer {l r l' r' : CType} (hform : SameForm l r) (hkind : l.typeOf = .pointer)
      (hl : typeNext types l = some l') (hr : typeNext types r = some r') :
      LeadsTo types (.compatible l r) (.compatible l' r')
  | array {l r l' r' : CType} {s1 s2 : Nat} (hform : SameForm l r) (hkind : l.typeOf = .array)
      (hs1 : typeArrayLen types l = some s1) (hs2 : typeArrayLen types r = some s2)
      (hlength : s1 = 0 ∨ s2 = 0 ∨ s1 = s2)
      (hl : typeNext types l = some l') (hr : typeNext types r = some r') :
      LeadsTo types (.compatible l r) (.compatible l' r')
  | result {l r nl nr : CType} (hform : SameForm l r) (hkind : l.typeOf = .function)
      (hl : typeNext types l = some nl) (hr : typeNext types r = some nr) :
      LeadsTo types (.compatible l r) (.equal nl nr)
  | function {l r nl nr : CType} (hform : SameForm l r) (hkind : l.typeOf = .function)
      (hl : typeNext types l = some nl) (hr : typeNext types r = some nr)
      (hsame : FoundSame types nl nr) (hcl : isComplete types l = some true)
      (hcr : isComplete types r = some true) : LeadsTo types (.compatible l r) (.equal l r)
  | other {l r : CType} (hform : SameForm l r) (hbasic : l.typeOf.isBasic = false)
      (hpointer : l.typeOf ≠ .pointer) (harray : l.typeOf ≠ .array)
      (hfunction : l.typeOf ≠ .function) : LeadsTo types (.compatible l r) (.equal l r)

/-! ## The comparisons of the body -/

section Made

variable {types : TypeTable} {a b : CType}

theorem typeEqualAux_mono {n m : Nat} (hle : n ≤ m) {v : Bool}
    (h : typeEqualAux types n a b = some v) : typeEqualAux types m a b = some v := by
  rw [typeEqualAux_iff_runCalls] at h ⊢
  exact runCalls_mono hle h

theorem exists_bound_of_forall₂ {Q : Member → Member → Prop} {as bs : List Member}
    (h : List.Forall₂ (fun ma mb =>
      (∃ n, typeEqualAux types n ma.type mb.type = some true) ∧ Q ma mb) as bs) :
    ∃ n, List.Forall₂ (fun ma mb =>
      typeEqualAux types n ma.type mb.type = some true ∧ Q ma mb) as bs := by
  induction h with
  | nil => exact ⟨0, .nil⟩
  | cons hhead _ ih =>
    rcases hhead with ⟨⟨n, hn⟩, hQ⟩
    rcases ih with ⟨m, hm⟩
    refine ⟨max n m, .cons ⟨typeEqualAux_mono (Nat.le_max_left n m) hn, hQ⟩ (hm.imp ?_)⟩
    intro ma mb hmember
    exact ⟨typeEqualAux_mono (Nat.le_max_right n m) hmember.1, hmember.2⟩

theorem foundSame_iff_exists :
    FoundSame types a b ↔ ∃ n, typeEqualAux types n a b = some true := by
  constructor
  · intro h
    refine h (fun a b => ∃ n, typeEqualAux types n a b = some true) fun a b hstep => ?_
    rcases hstep with rfl | ⟨htype, hunsigned, hzero, hentries⟩
    · exact ⟨1, by simp [typeEqualAux]⟩
    · by_cases ha : a.ref = 0
      · exact ⟨1, typeEqualAux_succ_eq_true_iff.mpr
          (Or.inr ⟨htype, hunsigned, hzero, fun hne => absurd ha hne⟩)⟩
      · rcases hentries ha with ⟨ta, tb, hta, htb, hheader, hmembers⟩
        rcases exists_bound_of_forall₂ hmembers with ⟨n, hn⟩
        refine ⟨n + 1, typeEqualAux_succ_eq_true_iff.mpr
          (Or.inr ⟨htype, hunsigned, hzero, fun _ => ⟨ta, tb, hta, htb, ?_⟩⟩)⟩
        refine typetreeEqual_eq_true_iff.mpr ⟨hheader, hn.imp fun ma mb hmember => ?_⟩
        exact ⟨hmember.1, fun hkind => hmember.2 (by simpa using hkind)⟩
  · rintro ⟨n, hn⟩ R hR
    induction n generalizing a b with
    | zero => cases hn
    | succ n ih =>
      refine hR a b ?_
      rcases typeEqualAux_succ_eq_true_iff.mp hn with hsame | haccepted
      · exact Or.inl hsame
      · refine Or.inr ⟨haccepted.type_eq, haccepted.isUnsigned_eq, haccepted.ref_eq_zero_iff,
          fun ha => ?_⟩
        rcases haccepted.entries ha with ⟨ta, tb, hta, htb, htree⟩
        rw [typetreeEqual_eq_true_iff] at htree
        refine ⟨ta, tb, hta, htb, htree.1, htree.2.imp fun ma mb hmember => ?_⟩
        exact ⟨ih hmember.1, fun hkind => hmember.2 (by simpa using hkind)⟩

theorem foundSame_iff :
    FoundSame types a b ↔ Answers (Comparison.body types) (.equal a b) (.returned true) := by
  rw [foundSame_iff_exists]
  constructor
  · rintro ⟨n, hn⟩
    exact ⟨n, (typeEqualAux_iff_runCalls n a b true).mp hn⟩
  · rintro ⟨n, hn⟩
    exact ⟨n, (typeEqualAux_iff_runCalls n a b true).mpr hn⟩

variable {A : Comparison → CompareResult → Prop} {c d : Comparison} {next : Comparing}

@[simp]
theorem not_makes_answer (same : Bool) : ¬ (answer same).Makes A d :=
  Calling.not_makes_done A _ d

theorem makes_whenSame_iff :
    (whenSame c next).Makes A d ↔ d = c ∨ (A c (.returned true) ∧ next.Makes A d) := by
  unfold whenSame
  rw [Calling.makes_call_iff]
  refine or_congr_right ⟨?_, fun h => ⟨_, h⟩⟩
  rintro ⟨r, hr, hmakes⟩
  cases r with
  | aborted => exact absurd hmakes (Calling.not_makes_done A _ d)
  | returned same =>
    cases same with
    | false => exact absurd hmakes (not_makes_answer false)
    | true => exact ⟨hr, hmakes⟩

theorem makes_need_iff {α : Type} {x : Option α} {next : α → Comparing} :
    (need x next).Makes A d ↔ ∃ y, x = some y ∧ (next y).Makes A d := by
  cases x with
  | none => simp [need]
  | some y => simp [need]

theorem makes_membersBody_iff (isFunction : Bool) (as bs : List Member) :
    (membersBody isFunction as bs).Makes (Answers (Comparison.body types)) d ↔
      ∃ x y, d = .equal x y ∧ MemberReached (FoundSame types) isFunction as bs x y := by
  induction as generalizing bs with
  | nil =>
    simp only [membersBody, not_makes_answer, false_iff, not_exists, not_and]
    intro x y _ hreached
    cases hreached
  | cons ma as ih =>
    cases bs with
    | nil =>
      simp only [membersBody, not_makes_answer, false_iff, not_exists, not_and]
      intro x y _ hreached
      cases hreached
    | cons mb bs =>
      rw [membersBody, makes_whenSame_iff, ← foundSame_iff]
      constructor
      · rintro (rfl | ⟨hsame, hrest⟩)
        · exact ⟨_, _, rfl, .here ma mb as bs⟩
        · by_cases hfunction : isFunction = true
          · rw [if_pos hfunction, ih] at hrest
            rcases hrest with ⟨x, y, hd, hreached⟩
            exact ⟨x, y, hd, .later hsame (fun hno => by simp [hfunction] at hno) hreached⟩
          · rw [if_neg hfunction] at hrest
            by_cases hoffset : ma.offset = mb.offset
            · by_cases hname : ma.name = mb.name
              · simp only [hoffset, hname, ne_eq, not_true_eq_false, if_false, ih] at hrest
                rcases hrest with ⟨x, y, hd, hreached⟩
                exact ⟨x, y, hd, .later hsame (fun _ => ⟨hoffset, hname⟩) hreached⟩
              · simp [hoffset, hname] at hrest
            · simp [hoffset] at hrest
      · rintro ⟨x, y, rfl, hreached⟩
        cases hreached with
        | here => exact Or.inl rfl
        | later hsame hplace hrest =>
          refine Or.inr ⟨hsame, ?_⟩
          have htail := (ih bs).mpr ⟨x, y, rfl, hrest⟩
          by_cases hfunction : isFunction = true
          · rw [if_pos hfunction]
            exact htail
          · rcases hplace (by simpa using hfunction) with ⟨hoffset, hname⟩
            simpa [hfunction, hoffset, hname] using htail

theorem makes_typeEqualBody_iff :
    (typeEqualBody types a b).Makes (Answers (Comparison.body types)) d ↔
      LeadsTo types (.equal a b) d := by
  constructor
  · intro h
    unfold typeEqualBody at h
    split at h
    · exact absurd h (not_makes_answer _)
    · rename_i hne
      split at h
      · exact absurd h (not_makes_answer _)
      · rename_i hkind
        rw [not_or, not_ne_iff, not_ne_iff] at hkind
        split at h
        · exact absurd h (not_makes_answer _)
        · split at h
          · rename_i hrefs
            rcases makes_need_iff.mp h with ⟨ta, hta, h⟩
            rcases makes_need_iff.mp h with ⟨tb, htb, h⟩
            split at h
            · rename_i hheader
              rcases (makes_membersBody_iff _ _ _).mp h with ⟨x, y, rfl, hreached⟩
              exact .member hne hkind.1 hkind.2 hrefs.1 hrefs.2 hta htb hheader hreached
            · exact absurd h (not_makes_answer _)
          · exact absurd h (not_makes_answer _)
  · intro h
    cases h with
    | member hne htype hunsigned ha hb hta htb hheader hreached =>
      have hmade := (makes_membersBody_iff _ _ _).mpr ⟨_, _, rfl, hreached⟩
      simpa [typeEqualBody, hne, htype, hunsigned, ha, hb, hta, htb, hheader, need] using hmade

theorem makes_nextBody_iff {l r : CType} :
    (nextBody types l r).Makes A d ↔
      ∃ l' r', typeNext types l = some l' ∧ typeNext types r = some r' ∧
        d = .compatible l' r' := by
  simp [nextBody, makes_need_iff, Calling.makes_call_iff]

/-- The comparisons that the body of `is_compatible` makes. -/
theorem makes_isCompatibleBody_iff {l r : CType} :
    (isCompatibleBody types l r).Makes (Answers (Comparison.body types)) d ↔
      LeadsTo types (.compatible l r) d := by
  constructor
  · intro h
    unfold isCompatibleBody at h
    split at h
    · exact absurd h (not_makes_answer _)
    · rename_i hmismatch
      have hform : SameForm l r := by
        rw [not_or, not_or, not_or, not_ne_iff, not_ne_iff, not_ne_iff, not_ne_iff] at hmismatch
        exact hmismatch
      split at h
      case h_9 =>
        rename_i hkind
        rcases makes_nextBody_iff.mp h with ⟨l', r', hl, hr, rfl⟩
        exact .pointer hform hkind hl hr
      case h_10 =>
        rename_i hkind
        rcases makes_need_iff.mp h with ⟨s1, hs1, h⟩
        rcases makes_need_iff.mp h with ⟨s2, hs2, h⟩
        split at h
        · rename_i hlength
          rcases makes_nextBody_iff.mp h with ⟨l', r', hl, hr, rfl⟩
          exact .array hform hkind hs1 hs2 hlength hl hr
        · exact absurd h (not_makes_answer _)
      case h_11 =>
        rename_i hkind
        rcases makes_need_iff.mp h with ⟨nl, hl, h⟩
        rcases makes_need_iff.mp h with ⟨nr, hr, h⟩
        rcases makes_whenSame_iff.mp h with rfl | ⟨hsame, h⟩
        · exact .result hform hkind hl hr
        · rcases makes_need_iff.mp h with ⟨cl, hcl, h⟩
          rcases makes_need_iff.mp h with ⟨cr, hcr, h⟩
          split at h
          · exact absurd h (not_makes_answer _)
          · rename_i hcomplete
            rw [Bool.or_eq_true, Bool.not_eq_true', Bool.not_eq_true', not_or,
              Bool.not_eq_false, Bool.not_eq_false] at hcomplete
            rw [hcomplete.1] at hcl
            rw [hcomplete.2] at hcr
            rcases Calling.makes_call_iff.mp h with rfl | ⟨_, -, h⟩
            · exact .function hform hkind hl hr (foundSame_iff.mpr hsame) hcl hcr
            · exact absurd h (Calling.not_makes_done _ _ _)
      case h_12 =>
        rename_i h1 h2 h3 h4 h5 h6 h7 h8 hpointer harray hfunction
        rcases Calling.makes_call_iff.mp h with rfl | ⟨_, -, h⟩
        · refine .other hform ?_ hpointer harray hfunction
          cases hkind : l.typeOf <;> first | rfl | exact absurd hkind (by assumption)
        · exact absurd h (Calling.not_makes_done _ _ _)
      all_goals exact absurd h (not_makes_answer _)
  · intro h
    have hmatch : SameForm l r → ¬ (l.typeOf ≠ r.typeOf ∨ l.isConstType ≠ r.isConstType ∨
        l.isVolatileType ≠ r.isVolatileType ∨ l.isRestrictType ≠ r.isRestrictType) := by
      rintro ⟨h1, h2, h3, h4⟩
      simp [h1, h2, h3, h4]
    unfold isCompatibleBody
    cases h with
    | pointer hform hkind hl hr =>
      rw [if_neg (hmatch hform), hkind]
      exact makes_nextBody_iff.mpr ⟨_, _, hl, hr, rfl⟩
    | array hform hkind hs1 hs2 hlength hl hr =>
      rw [if_neg (hmatch hform), hkind]
      refine makes_need_iff.mpr ⟨_, hs1, makes_need_iff.mpr ⟨_, hs2, ?_⟩⟩
      rw [if_pos hlength]
      exact makes_nextBody_iff.mpr ⟨_, _, hl, hr, rfl⟩
    | result hform hkind hl hr =>
      rw [if_neg (hmatch hform), hkind]
      exact makes_need_iff.mpr ⟨_, hl, makes_need_iff.mpr ⟨_, hr,
        makes_whenSame_iff.mpr (Or.inl rfl)⟩⟩
    | function hform hkind hl hr hsame hcl hcr =>
      rw [if_neg (hmatch hform), hkind]
      refine makes_need_iff.mpr ⟨_, hl, makes_need_iff.mpr ⟨_, hr,
        makes_whenSame_iff.mpr (Or.inr ⟨foundSame_iff.mp hsame, ?_⟩)⟩⟩
      exact makes_need_iff.mpr ⟨_, hcl, makes_need_iff.mpr ⟨_, hcr,
        Calling.makes_call_iff.mpr (Or.inl rfl)⟩⟩
    | other hform hbasic hpointer harray hfunction =>
      rw [if_neg (hmatch hform)]
      cases hkind : l.typeOf <;> rw [hkind] at hbasic hpointer harray hfunction <;> first
        | exact absurd hbasic (by decide)
        | exact absurd rfl hpointer
        | exact absurd rfl harray
        | exact absurd rfl hfunction
        | exact Calling.makes_call_iff.mpr (Or.inl rfl)

end Made

/-! ## Termination -/

/-- `struct { struct S *next; }`, where `S` is the struct with the given number. -/
def linkedStruct (ref : Int) : Typetree :=
  { type := .struct, size := 8,
    members := [{ name := "next", type := { type := .struct, isPointer := true, ref := ref } }] }

/-- Two declarations of the same struct, whose member points to the struct. -/
def linkedTypes : TypeTable := [linkedStruct 1, linkedStruct 2]

theorem leadsTo_linked (isPointer : Bool) :
    LeadsTo linkedTypes
      (.equal { type := .struct, isPointer := isPointer, ref := 1 }
        { type := .struct, isPointer := isPointer, ref := 2 })
      (.equal { type := .struct, isPointer := true, ref := 1 }
        { type := .struct, isPointer := true, ref := 2 }) := by
  have hne : ∀ p, ({ type := .struct, isPointer := p, ref := 1 } : CType) ≠
      { type := .struct, isPointer := p, ref := 2 } := by decide
  have href : (1 : Int) ≠ 0 ∧ (2 : Int) ≠ 0 := by decide
  exact .member (hne isPointer) rfl rfl href.1 href.2 rfl rfl rfl (.here _ _ _ _)

theorem not_acc_of_self {α : Type} {r : α → α → Prop} {a : α} (h : r a a) : ¬ Acc r a := by
  intro hacc
  induction hacc with
  | intro a _ ih => exact ih a h h

end Kcs
