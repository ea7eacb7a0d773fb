import Kcs.Lib.Fuel
import Kcs.Preprocessor.Macro

/-!
# What macro expansion replaces

The expansion of C, in which the arguments of an invocation are expanded under
the names of all macros that are being replaced around it, next to the expansion
of `macro.c`, in which they are expanded under no name.

Main results:

- Theorem {lit}`cExpandLine_ends`: the expansion of C ends on every list.
- Theorem {lit}`expandsOnce_iff`: the expansion of `macro.c` ends and replaces no macro
  inside its own replacement exactly if the expansion of C meets no hidden name.
-/

namespace Kcs.Preprocessor

open Kcs.Fuel List

/-! ## The expansion of C -/

/-- How the expansion of C ends early: as the one of `macro.c` does, or at the
invocation, in an argument, of a macro that is being replaced around the
argument. -/
inductive Halt where
  | stop (s : Stop)
  | hidden (name : List Char)
deriving DecidableEq, Repr

/-- A computation of `macro.c`. -/
def lift {α : Type} (x : Outcome α) : Except Halt α := x.mapError Halt.stop

/-- `replacementList` for the expansion of C. -/
def cReplacementList (ctx : MacroContext) (preExpand : List Token → Except Halt (List Token))
    (defn : Macro) (args : List (List Token)) : Except Halt (List Token) :=
  (lift (expandStringifyAndPaste ctx.std defn args)).bind fun list =>
    if 0 < defn.params then
      if defn.functionLike then
        (args.mapM preExpand).bind fun args =>
          .ok (substitute (args.map spaceBefore) list)
      else .error (.stop .assertion)
    else .ok list

local instance lawfulBEq_name : LawfulBEq (List Char) := inferInstance

/-- The expansion of a list that stands in an argument, where the macros `outer` are
being replaced around the invocation and the macros `scope` inside the argument. -/
def cExpandLine (ctx : MacroContext) : Nat → List (List Char) → List (List Char) →
    List Token → Except Halt (List Token × Nat)
  | 0, _, _, _ => .error (.stop .fuel)
  | _ + 1, _, _, [] => .ok ([], 0)
  | fuel + 1, outer, scope, t :: rest =>
    match replaced ctx scope t rest with
    | none =>
      (fun q => (passed ctx scope t :: q.1, q.2)) <$> cExpandLine ctx fuel outer scope rest
    | some defn =>
      if defn.name ∈ outer then .error (.hidden defn.name)
      else
        (lift (readArgs scope defn rest)).bind fun r =>
          (cReplacementList ctx
            (fun arg => Prod.fst <$> cExpandLine ctx fuel (outer ++ scope) [] arg) defn r.1).bind
            fun list =>
              (cExpandLine ctx fuel outer (scope ++ [defn.name]) list).bind fun expn =>
                (fun q => (fixWhitespace t expn.1 ++ q.1, q.2 + 1)) <$>
                  cExpandLine ctx fuel outer scope r.2

/-- The expansion of C on a list of the source text. -/
def cExpand (ctx : MacroContext) (fuel : Nat) (list : List Token) :
    Except Halt (List Token × Nat) :=
  cExpandLine ctx fuel [] [] list

section

variable {ctx : MacroContext}

/-! ## More steps -/

theorem replacementList_approx {f g : List Token → Outcome (List Token)}
    (h : ∀ arg, Approx Stop.fuel (f arg) (g arg)) (defn : Macro) (args : List (List Token)) :
    Approx Stop.fuel (replacementList ctx f defn args) (replacementList ctx g defn args) := by
  unfold replacementList
  apply Approx.bind (Approx.refl _)
  intro list
  split
  · split
    · exact (Approx.mapM h args).bind fun _ => Approx.refl _
    · exact Approx.refl _
  · exact Approx.refl _

theorem expandLine_steady (scope : List (List Char)) (list : List Token) :
    Steady Stop.fuel fun fuel => expandLine ctx fuel scope list := by
  intro fuel
  induction fuel generalizing scope list with
  | zero => exact Or.inl rfl
  | succ fuel ih =>
    cases list with
    | nil => exact Approx.refl _
    | cons t rest =>
      show Approx _ (expandLine ctx (fuel + 1) scope (t :: rest))
        (expandLine ctx (fuel + 2) scope (t :: rest))
      rw [expandLine, expandLine]
      split
      · exact (ih scope rest).map _
      · rename_i defn _
        apply Approx.bind (Approx.refl _)
        intro r
        apply (replacementList_approx (fun arg => (ih [] arg).map Prod.fst) defn r.1).bind
        intro repl
        exact (ih (scope ++ [defn.name]) repl).bind fun expn => (ih scope r.2).map _

theorem cReplacementList_approx {f g : List Token → Except Halt (List Token)}
    (h : ∀ arg, Approx (Halt.stop .fuel) (f arg) (g arg)) (defn : Macro)
    (args : List (List Token)) :
    Approx (Halt.stop .fuel) (cReplacementList ctx f defn args)
      (cReplacementList ctx g defn args) := by
  unfold cReplacementList
  apply Approx.bind (Approx.refl _)
  intro list
  split
  · split
    · exact (Approx.mapM h args).bind fun _ => Approx.refl _
    · exact Approx.refl _
  · exact Approx.refl _

theorem cExpandLine_steady (outer scope : List (List Char)) (list : List Token) :
    Steady (Halt.stop .fuel) fun fuel => cExpandLine ctx fuel outer scope list := by
  intro fuel
  induction fuel generalizing outer scope list with
  | zero => exact Or.inl rfl
  | succ fuel ih =>
    cases list with
    | nil => exact Approx.refl _
    | cons t rest =>
      show Approx _ (cExpandLine ctx (fuel + 1) outer scope (t :: rest))
        (cExpandLine ctx (fuel + 2) outer scope (t :: rest))
      rw [cExpandLine, cExpandLine]
      split
      · exact (ih outer scope rest).map _
      · rename_i defn _
        split
        · exact Approx.refl _
        · apply Approx.bind (Approx.refl _)
          intro r
          apply (cReplacementList_approx (fun arg => (ih (outer ++ scope) [] arg).map Prod.fst)
            defn r.1).bind
          intro repl
          exact (ih outer (scope ++ [defn.name]) repl).bind fun expn => (ih outer scope r.2).map _

/-! ## The expansion of C is the expansion of the code up to a hidden name -/

/-- The two results agree, or the expansion of C met a hidden name. -/
def Refines {α : Type} (x : Except Halt α) (y : Outcome α) : Prop :=
  (∃ name, x = .error (.hidden name)) ∨ x = lift y

theorem Refines.bind {α β : Type} {x : Except Halt α} {y : Outcome α} {f : α → Except Halt β}
    {g : α → Outcome β} (h : Refines x y) (hf : ∀ a, Refines (f a) (g a)) :
    Refines (x.bind f) (y.bind g) := by
  rcases h with ⟨name, rfl⟩ | rfl
  · exact Or.inl ⟨name, rfl⟩
  · cases y with
    | error s => exact Or.inr rfl
    | ok a => exact hf a

theorem Refines.map {α β : Type} {x : Except Halt α} {y : Outcome α} (f : α → β)
    (h : Refines x y) : Refines (f <$> x) (f <$> y) := by
  rcases h with ⟨name, rfl⟩ | rfl
  · exact Or.inl ⟨name, rfl⟩
  · cases y <;> exact Or.inr rfl

theorem Refines.mapM {α β : Type} {f : α → Except Halt β} {g : α → Outcome β}
    (h : ∀ a, Refines (f a) (g a)) (l : List α) : Refines (l.mapM f) (l.mapM g) := by
  induction l with
  | nil => exact Or.inr rfl
  | cons a l ih =>
    rw [mapM_cons_eq, mapM_cons_eq]
    exact (h a).bind fun b => ih.bind fun bs => Or.inr rfl

theorem cReplacementList_refines {f : List Token → Except Halt (List Token)}
    {g : List Token → Outcome (List Token)} (h : ∀ arg, Refines (f arg) (g arg)) (defn : Macro)
    (args : List (List Token)) :
    Refines (cReplacementList ctx f defn args) (replacementList ctx g defn args) := by
  unfold cReplacementList replacementList
  apply Refines.bind (Or.inr rfl)
  intro list
  split
  · split
    · exact (Refines.mapM h args).bind fun _ => Or.inr rfl
    · exact Or.inr rfl
  · exact Or.inr rfl

theorem cExpandLine_refines (fuel : Nat) (outer scope : List (List Char)) (list : List Token) :
    Refines (cExpandLine ctx fuel outer scope list) (expandLine ctx fuel scope list) := by
  induction fuel generalizing outer scope list with
  | zero => exact Or.inr rfl
  | succ fuel ih =>
    cases list with
    | nil => exact Or.inr rfl
    | cons t rest =>
      rw [cExpandLine, expandLine]
      cases replaced ctx scope t rest with
      | none => exact (ih outer scope rest).map _
      | some defn =>
        dsimp only
        split
        · exact Or.inl ⟨_, rfl⟩
        · apply Refines.bind (Or.inr rfl)
          intro r
          apply (cReplacementList_refines (fun arg => (ih (outer ++ scope) [] arg).map Prod.fst)
            defn r.1).bind
          intro repl
          exact (ih outer (scope ++ [defn.name]) repl).bind fun expn => (ih outer scope r.2).map _

/-! ## What ends without steps -/

variable {fuel : Nat}

theorem stringLength_ne_fuel {l : List Char} (h : l.length < fuel) :
    stringLength fuel l ≠ .error .fuel := by
  induction fuel generalizing l with
  | zero => omega
  | succ fuel ih =>
    cases l with
    | nil => simp [stringLength]
    | cons c l =>
      rw [length_cons] at h
      unfold stringLength
      split
      · simp
      · split
        · split
          · simp
          · apply map_ne_out
            apply ih
            rw [length_drop]
            omega
        · exact map_ne_out _ (ih (by omega))

/-- The tokenizer ends. -/
theorem tokenize_ne_fuel (std : Cstd) (l : List Char) : tokenize std l ≠ .error .fuel := by
  have hnum : ∀ l, stringtonum std l ≠ .error .fuel := by
    intro l
    exact ite_ne_out (by simp) (by simp)
  have hchar : ∀ l, strtochar l ≠ .error .fuel := by
    intro l
    have hclose : ∀ n, (if l.length < n then (.error .undefined : Outcome (Token × Nat))
        else if (l.drop n).head? = some '\'' then
          .ok ({ token := .prepChar, d := .string (l.take n) }, n + 2)
        else .error (.error "Multi-character constants are not supported.")) ≠ .error .fuel := by
      intro n
      split
      · simp
      · split <;> simp
    cases l with
    | nil => exact hclose 1
    | cons c l =>
      unfold strtochar
      dsimp only
      split
      · exact hclose _
      · split
        · exact hclose 1
        · simp
  have hop : ∀ c l, strtoop c l ≠ .error .fuel := by
    intro c l
    unfold strtoop
    split
    · simp
    · split
      · simp
      · split <;> simp
  have hread : ∀ c l, readToken std c l ≠ .error .fuel := by
    intro c l
    unfold readToken
    split
    · simp
    · split
      · exact hnum _
      · split
        · exact map_ne_out _ (stringLength_ne_fuel (Nat.lt_succ_self l.length))
        · split
          · exact hchar l
          · exact hop c l
  unfold tokenize
  dsimp only
  split
  · simp
  · exact map_ne_out _ (hread _ _)

theorem stringify_ne_fuel (list : List Token) : stringify list ≠ .error .fuel := by
  have hrest : ∀ (list : List Token) buf, stringifyRest buf list ≠ .error .fuel := by
    intro list
    induction list with
    | nil => simp [stringifyRest]
    | cons t list ih =>
      intro buf
      unfold stringifyRest
      split
      · split <;> simp
      · apply bind_ne_out
        · exact ite_ne_out (by simp) (by simp)
        · exact ih
  cases list with
  | nil => simp [stringify]
  | cons t rest =>
    have hconcat : ∀ buf, (stringifyRest buf ({ t with leadingWhitespace := 0 } :: rest)).bind
        (fun text =>
          if text.getLast? = some '\\' then
            .error (.error "Invalid string literal ending with '\\'.")
          else
            (.ok { token := .prepString, leadingWhitespace := t.leadingWhitespace,
                   d := .string text } : Outcome Token)) ≠ .error .fuel := by
      intro buf
      apply bind_ne_out (hrest _ _)
      intro text
      split <;> simp
    unfold stringify
    dsimp only
    split
    · exact hconcat _
    · exact hconcat _
    · exact hconcat _
    · exact hconcat _
    · split
      · simp
      · exact hconcat _

theorem stringifyAndPaste_ne_fuel (std : Cstd) (defn : Macro) (args : List (List Token))
    (list rest : List Token) : stringifyAndPaste std defn args list rest ≠ .error .fuel := by
  have hpaste : ∀ t u, paste std t u ≠ .error .fuel := by
    intro t u
    apply bind_ne_out (tokenize_ne_fuel _ _)
    intro r
    split <;> simp
  fun_induction stringifyAndPaste std defn args list rest with
  | case7 _ _ _ _ _ _ _ _ _ _ _ _ _ _ _ _ ih => exact bind_ne_out (hpaste _ _) ih
  | case8 _ _ _ _ _ _ _ _ _ _ _ _ ih => exact bind_ne_out (hpaste _ _) ih
  | case10 _ _ _ _ _ _ _ ih => exact bind_ne_out (stringify_ne_fuel _) ih
  | _ => first
    | assumption
    | simp

theorem readArg_ne_fuel (scope : List (List Char)) (isVaArg : Bool) (nesting : Nat)
    (list : List Token) : readArg scope isVaArg nesting list ≠ .error .fuel := by
  induction list generalizing nesting with
  | nil => simp [readArg]
  | cons t list ih =>
    unfold readArg
    apply ite_ne_out
    · exact ite_ne_out (by simp) (map_ne_out _ (ih _))
    · simp

theorem readArgs_ne_fuel (scope : List (List Char)) (defn : Macro) (list : List Token) :
    readArgs scope defn list ≠ .error .fuel := by
  have hparams : ∀ n i list, readParams scope defn i n list ≠ .error .fuel := by
    intro n
    induction n with
    | zero => simp [readParams]
    | succ n ih =>
      intro i list
      apply bind_ne_out (readArg_ne_fuel _ _ _ _)
      intro r
      split
      · simp
      · apply ite_ne_out
        · exact ite_ne_out (by simp) (ite_ne_out (by simp) (by simp))
        · exact map_ne_out _ (ih _ _)
  unfold readArgs
  split
  · split
    · simp
    · apply ite_ne_out (by simp)
      apply bind_ne_out (hparams _ _ _)
      intro r
      apply bind_ne_out
      · exact ite_ne_out (map_ne_out _ (readArg_ne_fuel _ _ _ _)) (by simp)
      · intro q
        split
        · simp
        · exact ite_ne_out (by simp) (by simp)
  · simp

theorem lift_ne_fuel {α : Type} {x : Outcome α} (h : x ≠ .error .fuel) :
    lift x ≠ .error (.stop .fuel) := by
  cases x with
  | ok a => simp [lift, Except.mapError]
  | error s => simpa [lift, Except.mapError] using h

/-! ## The expansion of C ends -/

/-- The number of macros whose names are not among the given ones. -/
def free (ctx : MacroContext) (names : List (List Char)) : Nat :=
  (ctx.macros.filter fun m => m.name ∉ names).length

variable {name : List Char} {defn : Macro}

theorem free_lt {names : List (List Char)}
    (h : macroDefinition ctx name = some defn) (hfree : name ∉ names) :
    free ctx (names ++ [defn.name]) < free ctx names := by
  rcases macroDefinition_name h with ⟨hname, m, hm, hmname⟩
  have hfilter : ctx.macros.filter (fun m => decide (m.name ∉ names ++ [defn.name])) =
      (ctx.macros.filter fun m => decide (m.name ∉ names)).filter
        fun m => decide (m.name ≠ defn.name) := by
    rw [filter_filter]
    apply filter_congr
    intro x _
    simp [and_comm]
  unfold free
  rw [hfilter, length_filter_lt_length_iff_exists]
  exact ⟨m, mem_filter.mpr ⟨hm, by simpa [hmname] using hfree⟩, by simp [hmname, hname]⟩

variable {args : List (List Token)}

theorem cReplacementList_ends {f : Nat → List Token → Except Halt (List Token)}
    (hf : ∀ arg, Steady (Halt.stop .fuel) fun n => f n arg)
    (h : ∀ arg ∈ args, Ends (Halt.stop .fuel) fun n => f n arg) :
    Ends (Halt.stop .fuel) fun n => cReplacementList ctx (f n) defn args := by
  have hmapM : Steady (Halt.stop .fuel) fun n => args.mapM (f n) :=
    fun n => Approx.mapM (fun arg => hf arg n) args
  have hsub : ∀ list, Steady (Halt.stop .fuel) fun n =>
      (args.mapM (f n)).bind fun args => .ok (substitute (args.map spaceBefore) list) :=
    fun list => hmapM.bind fun _ _ => Approx.refl _
  unfold cReplacementList
  refine Ends.bind (fun _ => Approx.refl _) ?_ (Ends.const (lift_ne_fuel ?_)) ?_
  · intro list
    split
    · split
      · exact hsub list
      · exact fun _ => Approx.refl _
    · exact fun _ => Approx.refl _
  · unfold expandStringifyAndPaste
    exact ite_ne_out (by simp) (ite_ne_out (by simp) (stringifyAndPaste_ne_fuel _ _ _ _ _))
  · intro list n _
    split
    · split
      · exact Ends.bind hmapM (fun _ _ => Approx.refl _) (Ends.mapM hf h)
          (fun _ _ _ => Ends.const (by simp))
      · exact Ends.const (by simp)
    · exact Ends.const (by simp)

/-- The expansion of C ends on every list: every replacement takes a name from the
free macros, and every argument is shorter than the list around it. -/
theorem cExpandLine_ends (outer scope : List (List Char)) (list : List Token) :
    Ends (Halt.stop .fuel) fun fuel => cExpandLine ctx fuel outer scope list := by
  -- induction on the number of free macros, and for each on the length of the list
  suffices h : ∀ k n outer scope list, free ctx (outer ++ scope) = k → list.length ≤ n →
      Ends (Halt.stop .fuel) fun fuel => cExpandLine ctx fuel outer scope list from
    h _ _ outer scope list rfl le_rfl
  intro k
  induction k using Nat.strong_induction_on with
  | _ k ihk =>
    intro n
    induction n with
    | zero =>
      intro outer scope list _ hlen
      rw [length_eq_zero_iff.mp (Nat.le_zero.mp hlen)]
      exact ⟨1, by simp [cExpandLine]⟩
    | succ n ihn =>
      intro outer scope list hfree hlen
      cases list with
      | nil => exact ⟨1, by simp [cExpandLine]⟩
      | cons t rest =>
        rw [length_cons] at hlen
        apply Ends.succ
        simp only [cExpandLine]
        cases hrep : replaced ctx scope t rest with
        | none => exact (ihn outer scope rest hfree (by omega)).map _
        | some defn =>
          dsimp only
          by_cases hhid : defn.name ∈ outer
          · simp only [if_pos hhid]
            exact Ends.const (by simp)
          · simp only [if_neg hhid]
            rcases replaced_spec hrep with ⟨hdef, hscope⟩
            have hname := (macroDefinition_name hdef).1
            have hlt : free ctx (outer ++ (scope ++ [defn.name])) < k := by
              rw [← append_assoc, ← hfree]
              refine free_lt hdef ?_
              rw [mem_append, not_or]
              exact ⟨hname ▸ hhid, hscope⟩
            have hargSteady : ∀ arg, Steady (Halt.stop .fuel) fun n =>
                Prod.fst <$> cExpandLine ctx n (outer ++ scope) [] arg :=
              fun arg n => (cExpandLine_steady (outer ++ scope) [] arg n).map _
            have hlineSteady : ∀ r : List Token, ∀ expn : List Token × Nat,
                Steady (Halt.stop .fuel) fun n =>
                  (fun q => (fixWhitespace t expn.1 ++ q.1, q.2 + 1)) <$>
                    cExpandLine ctx n outer scope r :=
              fun r expn n => (cExpandLine_steady outer scope r n).map _
            have hscanSteady : ∀ r repl, Steady (Halt.stop .fuel) fun n =>
                (cExpandLine ctx n outer (scope ++ [defn.name]) repl).bind fun expn =>
                  (fun q => (fixWhitespace t expn.1 ++ q.1, q.2 + 1)) <$>
                    cExpandLine ctx n outer scope r :=
              fun r repl => (cExpandLine_steady outer (scope ++ [defn.name]) repl).bind
                (hlineSteady r)
            have hreplSteady : ∀ args, Steady (Halt.stop .fuel) fun n => cReplacementList ctx
                (fun arg => Prod.fst <$> cExpandLine ctx n (outer ++ scope) [] arg) defn args :=
              fun args n => cReplacementList_approx (fun arg => hargSteady arg n) defn args
            refine Ends.bind (fun _ => Approx.refl _)
              (fun r => (hreplSteady r.1).bind (hscanSteady r.2))
              (Ends.const (lift_ne_fuel (readArgs_ne_fuel _ _ _))) ?_
            intro r _ hr
            have hread : readArgs scope defn rest = .ok r := by
              cases hx : readArgs scope defn rest with
              | ok q => simpa [lift, Except.mapError, hx] using hr
              | error e => simp [lift, Except.mapError, hx] at hr
            rcases readArgs_length hread with ⟨hargs, hrest⟩
            refine Ends.bind (hreplSteady r.1) (hscanSteady r.2) ?_ ?_
            · refine cReplacementList_ends hargSteady fun arg harg => ?_
              have := hargs arg harg
              exact (ihn (outer ++ scope) [] arg (by rw [append_nil]; exact hfree)
                (by omega)).map _
            · intro repl _ _
              refine Ends.bind (cExpandLine_steady outer (scope ++ [defn.name]) repl)
                (hlineSteady r.2) (ihk _ hlt _ outer (scope ++ [defn.name]) repl rfl le_rfl) ?_
              intro expn _ _
              exact (ihn outer scope r.2 hfree (by omega)).map _

/-! ## What the code replaces -/

/-- Expanding `list` with the names `scope` on the stack, where `outer` are the macros
whose replacement the list stands in as a part of an argument, the code sets out
to replace an invocation of `name` that stands in the replacement of the macros
`around`. -/
inductive Replaces (ctx : MacroContext) : List (List Char) → List (List Char) → List Token →
    List Char → List (List Char) → Prop where
  | here {outer scope : List (List Char)} {t : Token} {rest : List Token} {defn : Macro} :
      replaced ctx scope t rest = some defn →
      Replaces ctx outer scope (t :: rest) defn.name (outer ++ scope)
  | skip {outer scope around : List (List Char)} {t : Token} {rest : List Token}
      {name : List Char} : replaced ctx scope t rest = none →
      Replaces ctx outer scope rest name around → Replaces ctx outer scope (t :: rest) name around
  | argument {outer scope around : List (List Char)} {t : Token} {rest rest' arg list : List Token}
      {name : List Char} {defn : Macro} {before after : List (List Token)} :
      replaced ctx scope t rest = some defn →
      readArgs scope defn rest = .ok (before ++ arg :: after, rest') →
      expandStringifyAndPaste ctx.std defn (before ++ arg :: after) = .ok list →
      0 < defn.params → defn.functionLike = true →
      (∀ a ∈ before, ∃ fuel r, expandLine ctx fuel [] a = .ok r) →
      Replaces ctx (outer ++ scope) [] arg name around →
      Replaces ctx outer scope (t :: rest) name around
  | rescan {outer scope around : List (List Char)} {t : Token} {rest rest' repl : List Token}
      {name : List Char} {defn : Macro} {args : List (List Token)} {fuel : Nat} :
      replaced ctx scope t rest = some defn → readArgs scope defn rest = .ok (args, rest') →
      replacementList ctx (fun arg => Prod.fst <$> expandLine ctx fuel [] arg) defn args =
        .ok repl →
      Replaces ctx outer (scope ++ [defn.name]) repl name around →
      Replaces ctx outer scope (t :: rest) name around
  | after {outer scope around : List (List Char)} {t : Token} {rest rest' repl : List Token}
      {name : List Char} {defn : Macro} {args : List (List Token)} {fuel fuel' : Nat}
      {expn : List Token × Nat} :
      replaced ctx scope t rest = some defn → readArgs scope defn rest = .ok (args, rest') →
      replacementList ctx (fun arg => Prod.fst <$> expandLine ctx fuel [] arg) defn args =
        .ok repl →
      expandLine ctx fuel' (scope ++ [defn.name]) repl = .ok expn →
      Replaces ctx outer scope rest' name around →
      Replaces ctx outer scope (t :: rest) name around

/-- The expansion of C meets no hidden name. -/
def NoHidden (ctx : MacroContext) (outer scope : List (List Char)) (list : List Token) : Prop :=
  ∀ fuel name, cExpandLine ctx fuel outer scope list ≠ .error (.hidden name)

theorem Refines.of_ok {α : Type} {x : Except Halt α} {y : Outcome α} {a : α}
    (h : Refines x y) (hy : y = .ok a) (hno : ∀ name, x ≠ .error (.hidden name)) : x = .ok a := by
  rcases h with ⟨name, hname⟩ | h
  · exact absurd hname (hno name)
  · rw [h, hy]
    rfl

variable {scope outer : List (List Char)} {list : List Token}

theorem hidden_of_le {m n : Nat}
    (h : cExpandLine ctx m outer scope list = .error (.hidden name))
    (hmn : m ≤ n) : cExpandLine ctx n outer scope list = .error (.hidden name) :=
  (cExpandLine_steady outer scope list).eq_of_le h (by simp) hmn

variable {t : Token}

theorem cExpandLine_cons {rest rest' : List Token}
    (fuel : Nat)
    (hrep : replaced ctx scope t rest = some defn) (hhid : defn.name ∉ outer)
    (hread : readArgs scope defn rest = .ok (args, rest')) :
    cExpandLine ctx (fuel + 1) outer scope (t :: rest) =
      (cReplacementList ctx
        (fun arg => Prod.fst <$> cExpandLine ctx fuel (outer ++ scope) [] arg) defn args).bind
        fun list =>
          (cExpandLine ctx fuel outer (scope ++ [defn.name]) list).bind fun expn =>
            (fun q => (fixWhitespace t expn.1 ++ q.1, q.2 + 1)) <$>
              cExpandLine ctx fuel outer scope rest' := by
  rw [cExpandLine]
  simp only [hrep, if_neg hhid, hread]
  rfl

theorem NoHidden.name_notMem {rest : List Token}
    (h : NoHidden ctx outer scope (t :: rest))
    (hrep : replaced ctx scope t rest = some defn) : defn.name ∉ outer := by
  intro hhid
  apply h 1 defn.name
  rw [cExpandLine]
  simp only [hrep, if_pos hhid]

theorem NoHidden.replacementList_eq
    {rest rest' repl : List Token} {fuel n : Nat}
    (h : NoHidden ctx outer scope (t :: rest)) (hrep : replaced ctx scope t rest = some defn)
    (hread : readArgs scope defn rest = .ok (args, rest'))
    (hrepl : replacementList ctx (fun arg => Prod.fst <$> expandLine ctx fuel [] arg) defn args =
      .ok repl) (hn : fuel ≤ n) :
    cReplacementList ctx (fun arg => Prod.fst <$> cExpandLine ctx n (outer ++ scope) [] arg) defn
      args = .ok repl := by
  have hsteady : Steady (Halt.stop .fuel) fun n => cReplacementList ctx
      (fun arg => Prod.fst <$> cExpandLine ctx n (outer ++ scope) [] arg) defn args :=
    fun n => cReplacementList_approx
      (fun arg => (cExpandLine_steady (outer ++ scope) [] arg n).map _) defn args
  refine hsteady.eq_of_le ?_ (by simp) hn
  refine (cReplacementList_refines
    (fun arg => (cExpandLine_refines fuel (outer ++ scope) [] arg).map Prod.fst)
    defn args).of_ok hrepl ?_
  intro name hname
  apply h (fuel + 1) name
  rw [cExpandLine_cons fuel hrep (h.name_notMem hrep) hread, hname]
  rfl

theorem mapM_hidden {α β : Type} {f : α → Except Halt β} {before after : List α} {a : α}
    (hbefore : ∀ b ∈ before, (∃ r, f b = .ok r) ∨ ∃ m, f b = .error (.hidden m))
    (ha : f a = .error (.hidden name)) :
    ∃ m, (before ++ a :: after).mapM f = .error (.hidden m) := by
  induction before with
  | nil =>
    refine ⟨name, ?_⟩
    rw [nil_append, mapM_cons_eq, ha]
    rfl
  | cons b before ih =>
    rw [cons_append, mapM_cons_eq]
    rcases hbefore b mem_cons_self with ⟨r, hr⟩ | ⟨m, hm⟩
    · rcases ih (fun c hc => hbefore c (mem_cons_of_mem b hc)) with ⟨m, hm⟩
      refine ⟨m, ?_⟩
      rw [hr, hm]
      rfl
    · refine ⟨m, ?_⟩
      rw [hm]
      rfl

/-- Without a hidden name, the code replaces no macro inside its own replacement. -/
theorem Replaces.notMem {outer scope around : List (List Char)}
    (h : Replaces ctx outer scope list name around)
    (hno : NoHidden ctx outer scope list) : name ∉ around := by
  induction h with
  | here hrep =>
    rcases replaced_spec hrep with ⟨hdef, hscope⟩
    rw [mem_append, not_or]
    exact ⟨hno.name_notMem hrep, (macroDefinition_name hdef).1 ▸ hscope⟩
  | skip hrep _ ih =>
    apply ih
    intro fuel name hname
    apply hno (fuel + 1) name
    rw [cExpandLine]
    simp only [hrep, hname]
    rfl
  | @argument outer scope _ t rest rest' arg list _ defn before after hrep hread hlist hpos hfun
      hbefore _ ih =>
    apply ih
    intro fuel name hname
    -- a number of steps with which all arguments before this one are expanded
    have hfuel : ∃ n, fuel ≤ n ∧ ∀ a ∈ before, ∃ r, expandLine ctx n [] a = .ok r := by
      clear hread hlist
      induction before with
      | nil => exact ⟨fuel, le_rfl, by simp⟩
      | cons b before ihb =>
        rcases ihb (fun a ha => hbefore a (mem_cons_of_mem b ha)) with ⟨n, hn, hall⟩
        rcases hbefore b mem_cons_self with ⟨m, r, hr⟩
        refine ⟨max n m, hn.trans (Nat.le_max_left n m), ?_⟩
        intro a ha
        rcases mem_cons.mp ha with rfl | ha
        · exact ⟨r, (expandLine_steady [] a).eq_of_le hr (by simp) (Nat.le_max_right n m)⟩
        · rcases hall a ha with ⟨q, hq⟩
          exact ⟨q, (expandLine_steady [] a).eq_of_le hq (by simp) (Nat.le_max_left n m)⟩
    rcases hfuel with ⟨n, hn, hall⟩
    have hmapM : ∃ m, (before ++ arg :: after).mapM
        (fun arg => Prod.fst <$> cExpandLine ctx n (outer ++ scope) [] arg) =
          .error (.hidden m) := by
      apply mapM_hidden
      · intro b hb
        rcases hall b hb with ⟨r, hr⟩
        have hagree : Refines (cExpandLine ctx n (outer ++ scope) [] b) (expandLine ctx n [] b) :=
          cExpandLine_refines n (outer ++ scope) [] b
        rcases hagree with ⟨m, hm⟩ | hok
        · exact Or.inr ⟨m, by rw [hm]; rfl⟩
        · exact Or.inl ⟨r.1, by rw [hok, hr]; rfl⟩
      · rw [hidden_of_le hname hn]
        rfl
    rcases hmapM with ⟨m, hm⟩
    apply hno (n + 1) m
    rw [cExpandLine_cons n hrep (hno.name_notMem hrep) hread, cReplacementList, hlist]
    simp only [lift, Except.mapError, Except.bind, if_pos hpos, hfun, if_true, hm]
  | rescan hrep hread hrepl _ ih =>
    apply ih
    intro k m hm
    rename_i fuel _
    apply hno (max fuel k + 1) m
    rw [cExpandLine_cons _ hrep (hno.name_notMem hrep) hread,
      hno.replacementList_eq hrep hread hrepl (Nat.le_max_left _ k)]
    simp only [Except.bind, hidden_of_le hm (Nat.le_max_right _ k)]
  | @after outer scope _ t rest rest' repl _ defn args fuel fuel' expn hrep hread hrepl hexpn _
      ih =>
    apply ih
    intro k m hm
    have hrepl' : ∀ n, fuel ≤ n → cReplacementList ctx
        (fun arg => Prod.fst <$> cExpandLine ctx n (outer ++ scope) [] arg) defn args = .ok repl :=
      fun n hn => hno.replacementList_eq hrep hread hrepl hn
    have hexpn' : cExpandLine ctx (max fuel fuel') outer (scope ++ [defn.name]) repl =
        .ok expn := by
      have hcode := (expandLine_steady (scope ++ [defn.name]) repl).eq_of_le hexpn (by simp)
        (Nat.le_max_right fuel fuel')
      refine (cExpandLine_refines _ outer (scope ++ [defn.name]) repl).of_ok hcode ?_
      intro name hname
      apply hno (max fuel fuel' + 1) name
      rw [cExpandLine_cons _ hrep (hno.name_notMem hrep) hread, hrepl' _ (Nat.le_max_left _ _)]
      simp only [Except.bind, hname]
    apply hno (max (max fuel fuel') k + 1) m
    rw [cExpandLine_cons _ hrep (hno.name_notMem hrep) hread,
      hrepl' _ ((Nat.le_max_left fuel fuel').trans (Nat.le_max_left _ k))]
    simp only [Except.bind, hidden_of_le hm (Nat.le_max_right _ k),
      (cExpandLine_steady outer (scope ++ [defn.name]) repl).eq_of_le hexpn' (by simp)
        (Nat.le_max_left _ k)]
    rfl

theorem mapM_eq_hidden {α β : Type} {f : α → Except Halt β} {l : List α}
    (h : l.mapM f = .error (.hidden name)) :
    ∃ before a after, l = before ++ a :: after ∧ (∀ b ∈ before, ∃ r, f b = .ok r) ∧
      f a = .error (.hidden name) := by
  induction l with
  | nil => simp [mapM_nil, pure, Except.pure] at h
  | cons a l ih =>
    rw [mapM_cons_eq] at h
    cases ha : f a with
    | error e =>
      rw [ha] at h
      cases h
      exact ⟨[], a, l, rfl, by simp, ha⟩
    | ok r =>
      rw [ha] at h
      cases hl : l.mapM f with
      | ok rs =>
        rw [hl] at h
        cases h
      | error e =>
        rw [hl] at h
        cases h
        rcases ih hl with ⟨before, b, after, rfl, hbefore, hb⟩
        refine ⟨a :: before, b, after, rfl, ?_, hb⟩
        intro c hc
        rcases mem_cons.mp hc with rfl | hc
        · exact ⟨r, ha⟩
        · exact hbefore c hc

theorem Refines.ok_of {α : Type} {x : Except Halt α} {y : Outcome α} {a : α} (h : Refines x y)
    (hx : x = .ok a) : y = .ok a := by
  rcases h with ⟨name, hname⟩ | h
  · exact absurd (hname.symm.trans hx) (by simp)
  · cases y with
    | ok b => simpa [hx, lift, Except.mapError] using h.symm
    | error e => simp [hx, lift, Except.mapError] at h

theorem cReplacementList_hidden {f : List Token → Except Halt (List Token)}
        (h : cReplacementList ctx f defn args = .error (.hidden name)) :
    ∃ list before arg after, expandStringifyAndPaste ctx.std defn args = .ok list ∧
      0 < defn.params ∧ defn.functionLike = true ∧ args = before ++ arg :: after ∧
      (∀ b ∈ before, ∃ r, f b = .ok r) ∧ f arg = .error (.hidden name) := by
  unfold cReplacementList at h
  cases hlist : expandStringifyAndPaste ctx.std defn args with
  | error e =>
    rw [hlist] at h
    cases h
  | ok list =>
    rw [hlist] at h
    simp only [lift, Except.mapError, Except.bind] at h
    split at h
    · rename_i hpos
      split at h
      · rename_i hfun
        cases hargs : args.mapM f with
        | ok rs =>
          rw [hargs] at h
          cases h
        | error e =>
          rw [hargs] at h
          cases h
          rcases mapM_eq_hidden hargs with ⟨before, arg, after, hsplit, hbefore, harg⟩
          exact ⟨list, before, arg, after, rfl, hpos, hfun, hsplit, hbefore, harg⟩
      · cases h
    · cases h

/-- Where the expansion of C meets a hidden name, the code replaces a macro inside
its own replacement. -/
theorem replaces_of_hidden
    (h : cExpandLine ctx fuel outer scope list = .error (.hidden name)) :
    ∃ around, Replaces ctx outer scope list name around ∧ name ∈ around := by
  induction fuel generalizing outer scope list with
  | zero => simp [cExpandLine] at h
  | succ fuel ih =>
    cases list with
    | nil => simp [cExpandLine] at h
    | cons t rest =>
      cases hrep : replaced ctx scope t rest with
      | none =>
        rw [cExpandLine] at h
        simp only [hrep] at h
        cases hx : cExpandLine ctx fuel outer scope rest with
        | ok q =>
          rw [hx] at h
          cases h
        | error e =>
          rw [hx] at h
          cases h
          rcases ih hx with ⟨around, hreplaces, hmem⟩
          exact ⟨around, Replaces.skip hrep hreplaces, hmem⟩
      | some defn =>
        by_cases hhid : defn.name ∈ outer
        · rw [cExpandLine] at h
          simp only [hrep, if_pos hhid] at h
          cases h
          exact ⟨_, Replaces.here hrep, mem_append_left scope hhid⟩
        · cases hread : readArgs scope defn rest with
          | error e =>
            rw [cExpandLine] at h
            simp only [hrep, if_neg hhid, hread] at h
            cases h
          | ok r =>
            rcases r with ⟨args, rest'⟩
            rw [cExpandLine_cons fuel hrep hhid hread] at h
            cases hrepl : cReplacementList ctx
                (fun arg => Prod.fst <$> cExpandLine ctx fuel (outer ++ scope) [] arg) defn args with
            | error e =>
              rw [hrepl] at h
              cases h
              rcases cReplacementList_hidden hrepl with
                ⟨list, before, arg, after, hlist, hpos, hfun, rfl, hbefore, harg⟩
              cases hx : cExpandLine ctx fuel (outer ++ scope) [] arg with
              | ok q =>
                rw [hx] at harg
                cases harg
              | error e =>
                rw [hx] at harg
                cases harg
                rcases ih hx with ⟨around, hreplaces, hmem⟩
                refine ⟨around, Replaces.argument hrep hread hlist hpos hfun ?_ hreplaces, hmem⟩
                intro b hb
                rcases hbefore b hb with ⟨r, hr⟩
                cases hy : cExpandLine ctx fuel (outer ++ scope) [] b with
                | ok q => exact ⟨fuel, q, (cExpandLine_refines _ _ _ _).ok_of hy⟩
                | error e =>
                  rw [hy] at hr
                  cases hr
            | ok repl =>
              rw [hrepl] at h
              simp only [Except.bind] at h
              have hcode : replacementList ctx
                  (fun arg => Prod.fst <$> expandLine ctx fuel [] arg) defn args = .ok repl :=
                (cReplacementList_refines (fun arg =>
                  (cExpandLine_refines fuel (outer ++ scope) [] arg).map Prod.fst) _ _).ok_of hrepl
              cases hexpn : cExpandLine ctx fuel outer (scope ++ [defn.name]) repl with
              | error e =>
                rw [hexpn] at h
                cases h
                rcases ih hexpn with ⟨around, hreplaces, hmem⟩
                exact ⟨around, Replaces.rescan hrep hread hcode hreplaces, hmem⟩
              | ok expn =>
                rw [hexpn] at h
                simp only at h
                cases hx : cExpandLine ctx fuel outer scope rest' with
                | ok q =>
                  rw [hx] at h
                  cases h
                | error e =>
                  rw [hx] at h
                  cases h
                  rcases ih hx with ⟨around, hreplaces, hmem⟩
                  exact ⟨around, Replaces.after hrep hread hcode
                    ((cExpandLine_refines _ _ _ _).ok_of hexpn) hreplaces, hmem⟩

/-! ## Ending and replacing once -/

theorem expandLine_marked
    {r : List Token × Nat} (h : expandLine ctx fuel scope list = .ok r) :
    ∀ t ∈ r.1, t.isExpandable = true → (macroDefinition ctx t.str).isSome = true →
      t.str ∈ scope → t.disableExpand = true := by
  induction fuel generalizing scope list r with
  | zero => simp [expandLine] at h
  | succ fuel ih =>
    cases list with
    | nil =>
      cases h
      simp
    | cons t rest =>
      rw [expandLine] at h
      cases hrep : replaced ctx scope t rest with
      | none =>
        simp only [hrep] at h
        rcases Except.map_eq_ok_iff.mp h with ⟨q, hq, rfl⟩
        intro u hu hexp hdef hscope
        rcases mem_cons.mp hu with rfl | hu
        · -- the token itself: `passed` marks it
          unfold passed at hexp hdef hscope ⊢
          split
          · rfl
          · rename_i hpass
            rw [if_neg hpass] at hexp hdef hscope
            exact absurd ⟨hexp, hdef, by simpa [isExpanded] using hscope⟩ hpass
        · exact ih hq u hu hexp hdef hscope
      | some defn =>
        simp only [hrep] at h
        rcases Except.bind_eq_ok_iff.mp h with ⟨args, _, h⟩
        rcases Except.bind_eq_ok_iff.mp h with ⟨repl, _, h⟩
        rcases Except.bind_eq_ok_iff.mp h with ⟨expn, hexpn, h⟩
        rcases Except.map_eq_ok_iff.mp h with ⟨q, hq, rfl⟩
        intro u hu hexp hdef hscope
        rcases mem_append.mp hu with hu | hu
        · cases hx : expn.1 with
          | nil => simp [fixWhitespace, hx] at hu
          | cons v vs =>
            simp only [fixWhitespace, hx] at hu
            rcases mem_cons.mp hu with rfl | hu
            · exact ih hexpn v (by simp [hx]) hexp hdef (mem_append_left _ hscope)
            · exact ih hexpn u (by simp [hx, hu]) hexp hdef (mem_append_left _ hscope)
        · exact ih hq u hu hexp hdef hscope

/-- What is expected of the expansion of a list: it ends, with a result or with an
error message; no macro is replaced inside its own replacement; and a name left
there is marked. -/
structure ExpandsOnce (ctx : MacroContext) (list : List Token) : Prop where
  ends : ∃ fuel, (∃ r, expand ctx fuel list = .ok r) ∨
    ∃ message, expand ctx fuel list = .error (.error message)
  once : ∀ name around, Replaces ctx [] [] list name around → name ∉ around
  marked : ∀ fuel scope list r, expandLine ctx fuel scope list = .ok r → ∀ t ∈ r.1,
    t.isExpandable = true → (macroDefinition ctx t.str).isSome = true → t.str ∈ scope →
    t.disableExpand = true

/-- The expansion of C ends with a result or an error message: it neither meets, in
an argument, an invocation of a macro that is being replaced around the argument,
nor runs past the end of a list or of a buffer. -/
def MeetsNothingHidden (ctx : MacroContext) (list : List Token) : Prop :=
  ∃ fuel, (∃ r, cExpand ctx fuel list = .ok r) ∨
    ∃ message, cExpand ctx fuel list = .error (.stop (.error message))

theorem cExpand_refines (ctx : MacroContext) (fuel : Nat) (list : List Token) :
    Refines (cExpand ctx fuel list) (expand ctx fuel list) :=
  cExpandLine_refines fuel [] [] list

theorem Refines.error_of {α : Type} {x : Except Halt α} {y : Outcome α} {s : Stop}
    (h : Refines x y) (hx : x = .error (.stop s)) : y = .error s := by
  rcases h with ⟨name, hname⟩ | h
  · exact absurd (hname.symm.trans hx) (by simp)
  · cases y with
    | ok b => simp [hx, lift, Except.mapError] at h
    | error e => simpa [hx, lift, Except.mapError] using h.symm

/-- The expansion of a list ends, replaces no macro inside its own replacement and
marks the names that it leaves there, exactly if the expansion of C meets nothing
hidden. -/
theorem expandsOnce_iff (ctx : MacroContext) (list : List Token) :
    ExpandsOnce ctx list ↔ MeetsNothingHidden ctx list := by
  constructor
  · intro h
    rcases (cExpandLine_ends [] [] list : Ends _ fun fuel => cExpand ctx fuel list) with
      ⟨fuel, hfuel⟩
    rcases cExpand_refines ctx fuel list with ⟨name, hname⟩ | hagree
    · rcases replaces_of_hidden hname with ⟨around, hreplaces, hmem⟩
      exact absurd hmem (h.once name around hreplaces)
    · have hcode : expand ctx fuel list ≠ .error .fuel := by
        intro hx
        rw [hx] at hagree
        exact hfuel hagree
      -- more steps return the same, so the end of the code is reached here already
      have hsame : ∀ {n x}, expand ctx n list = x → x ≠ .error .fuel →
          expand ctx fuel list = x := by
        rintro n x rfl hx
        exact (expandLine_steady [] list).unique hcode hx
      rcases h.ends with ⟨n, ⟨r, hr⟩ | ⟨message, hm⟩⟩
      · refine ⟨fuel, Or.inl ⟨r, ?_⟩⟩
        rw [hagree, hsame hr (by simp)]
        rfl
      · refine ⟨fuel, Or.inr ⟨message, ?_⟩⟩
        rw [hagree, hsame hm (by simp)]
        rfl
  · rintro ⟨fuel, h⟩
    have hno : NoHidden ctx [] [] list := by
      intro n name hname
      have hsame : ∀ {x}, cExpand ctx fuel list = x → x ≠ .error (.stop .fuel) →
          x = .error (.hidden name) := by
        rintro x rfl hx
        exact ((cExpandLine_steady [] [] list).unique hx (by rw [hname]; simp)).trans hname
      rcases h with ⟨r, hr⟩ | ⟨message, hm⟩
      · exact absurd (hsame hr (by simp)) (by simp)
      · exact absurd (hsame hm (by simp)) (by simp)
    refine ⟨⟨fuel, ?_⟩, fun name around hreplaces => hreplaces.notMem hno,
      fun fuel scope list r hr => expandLine_marked hr⟩
    rcases h with ⟨r, hr⟩ | ⟨message, hm⟩
    · exact Or.inl ⟨r, (cExpand_refines ctx fuel list).ok_of hr⟩
    · exact Or.inr ⟨message, (cExpand_refines ctx fuel list).error_of hm⟩

end

/-! ## Two macros that lead to each other through an argument -/

/-- The token of an identifier. -/
def identifier (c : Char) : Token :=
  { token := .identifier, isExpandable := true, d := .string [c] }

/-- `#define f(x) x` -/
def identityMacro : Macro where
  name := ['f']
  functionLike := true
  params := 1
  replacement := [{ token := .param, d := .val 0 }]

/-- The tokens `f(c)`. -/
def callOf (c : Char) : List Token :=
  [identifier 'f', TOK .openParen ['('], identifier c, TOK .closeParen [')']]

/-- `#define c f(d)` -/
def callMacro (c d : Char) : Macro where
  name := [c]
  functionLike := false
  params := 0
  replacement := callOf d

/-- `#define f(x) x`, `#define a f(b)` and `#define b f(a)`. -/
def mutualMacros : MacroContext where
  std := .c89
  macros := [identityMacro, callMacro 'a' 'b', callMacro 'b' 'a']
  currentFilePath := []
  currentFileLine := 1

theorem expandLine_call {c d : Char} {fuel : Nat}
    (hc : replaced mutualMacros [] (identifier c) [] = some (callMacro c d))
    (hf : replaced mutualMacros [[c]] (identifier 'f') (callOf d).tail = some identityMacro)
    (hread : readArgs [[c]] identityMacro (callOf d).tail = .ok ([[identifier d]], []))
    (h : expandLine mutualMacros fuel [] [identifier d] = .error .fuel) :
    expandLine mutualMacros (fuel + 2) [] [identifier c] = .error .fuel := by
  have hbody : replacementList mutualMacros
      (fun arg => Prod.fst <$> expandLine mutualMacros (fuel + 1) [] arg) (callMacro c d) [] =
        .ok (callOf d) := rfl
  have hargs : replacementList mutualMacros
      (fun arg => Prod.fst <$> expandLine mutualMacros fuel [] arg) identityMacro
        [[identifier d]] = .error .fuel := by
    have hlist : expandStringifyAndPaste .c89 identityMacro [[identifier d]] =
        .ok [{ token := .param, d := .val 0 }] := rfl
    rw [replacementList, show mutualMacros.std = .c89 from rfl, hlist]
    simp only [Except.bind, mapM_cons_eq, h]
    rfl
  have hscan : expandLine mutualMacros (fuel + 1) ([] ++ [(callMacro c d).name]) (callOf d) =
      .error .fuel := by
    show expandLine mutualMacros (fuel + 1) [[c]] (identifier 'f' :: (callOf d).tail) = _
    rw [expandLine, hf]
    simp only [hread, Except.bind, hargs]
  have hnone : readArgs [] (callMacro c d) [] = .ok ([], []) := rfl
  rw [expandLine, hc]
  simp only [hnone, Except.bind, hbody, hscan]

theorem expandLine_mutualMacros (fuel : Nat) :
    expandLine mutualMacros fuel [] [identifier 'a'] = .error .fuel ∧
      expandLine mutualMacros fuel [] [identifier 'b'] = .error .fuel := by
  induction fuel using Nat.strong_induction_on with
  | _ fuel ih =>
    match fuel with
    | 0 => exact ⟨rfl, rfl⟩
    | 1 => exact ⟨rfl, rfl⟩
    | fuel + 2 =>
      rcases ih fuel (by omega) with ⟨ha, hb⟩
      exact ⟨expandLine_call rfl rfl rfl hb, expandLine_call rfl rfl rfl ha⟩

/-- The expansion of `a` does not end. -/
theorem mutualMacros_not_expandsOnce : ¬ ExpandsOnce mutualMacros [identifier 'a'] := by
  intro h
  rcases h.ends with ⟨fuel, ⟨r, hr⟩ | ⟨message, hm⟩⟩
  · exact absurd ((expandLine_mutualMacros fuel).1.symm.trans hr) (by simp)
  · exact absurd ((expandLine_mutualMacros fuel).1.symm.trans hm) (by simp)

end Kcs.Preprocessor
