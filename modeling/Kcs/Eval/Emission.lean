import Kcs.Eval.Operators
import Kcs.Lib.Result

/-!
# Emitted statements

Rules for what a successful evaluation does to its state: which block it appends
statements to, and which operands these statements use.  An operand is fresh
when it names a symbol that did not exist at a given moment; the code for a
comparison with a fresh operand uses fresh operands only.

Main results:

- Lemma {lit}`Ensures.bind`: postconditions compose.
- Lemma {lit}`evalCast_appends`: a conversion of a fresh operand emits fresh
  statements only.
-/

namespace Kcs

open List

/-! ## Postconditions -/

section Ensures

variable {α β : Type}

/-- If the computation succeeds, the result and the new state satisfy the
postcondition. -/
def Ensures (c : EvalM α) (s : EvalState) (Q : α → EvalState → Prop) : Prop :=
  ∀ a s', c s = .ok (a, s') → Q a s'

variable {c : EvalM α} {f : α → EvalM β} {s : EvalState} {Q Q' : α → EvalState → Prop}
  {R : β → EvalState → Prop}

theorem Ensures.pure {a : α} (h : Q a s) : Ensures (pure a) s Q := by
  intro a' s' hok
  cases hok
  exact h

/-- Postconditions compose. -/
theorem Ensures.bind (hc : Ensures c s Q) (hf : ∀ a s', Q a s' → Ensures (f a) s' R) :
    Ensures (c >>= f) s R := by
  intro b s'' hok
  have hbind : (c s >>= fun p => f p.1 p.2) = .ok (b, s'') := hok
  rcases Except.bind_eq_ok_iff.mp hbind with ⟨⟨a, s'⟩, ha, hb⟩
  exact hf a s' (hc a s' ha) b s'' hb

theorem Ensures.mono (hc : Ensures c s Q) (h : ∀ a s', Q a s' → Q' a s') : Ensures c s Q' :=
  fun a s' hok => h a s' (hc a s' hok)

theorem Ensures.throw (e : Failure) : Ensures (throw e : EvalM α) s Q := by
  intro a s' hok
  cases hok

theorem Ensures.ite {p : Prop} [Decidable p] {d : EvalM α} (hc : p → Ensures c s Q)
    (hd : ¬ p → Ensures d s Q) : Ensures (if p then c else d) s Q := by
  by_cases hp : p
  · rw [if_pos hp]
    exact hc hp
  · rw [if_neg hp]
    exact hd hp

theorem Ensures.readTable {g : TypeTable → Option α} (h : ∀ a, g s.types = some a → Q a s) :
    Ensures (readTable g) s Q := by
  intro a s' hok
  unfold Kcs.readTable at hok
  split at hok
  · rename_i a' ha
    cases hok
    exact h a ha
  · cases hok

theorem Ensures.newType {g : TypeTable → Option (CType × TypeTable)}
    {Q : CType → EvalState → Prop} (h : ∀ type types, Q type { s with types := types }) :
    Ensures (newType g) s Q := by
  intro a s' hok
  unfold Kcs.newType at hok
  split at hok
  · cases hok
    exact h _ _
  · cases hok

end Ensures

/-! ## Appended statements -/

/-- An evaluation appended statements with the given property to a block; all
other blocks are as they were. -/
structure Appends (P : Statement → Prop) (b : BlockId) (s s' : EvalState) : Prop where
  symbols : s.symbols.length ≤ s'.symbols.length
  blocks : ∃ code, (∀ st ∈ code, P st) ∧
    s'.blocks = s.blocks.modify b fun blk => { blk with code := blk.code ++ code }

section Appends

variable {P : Statement → Prop} {b : BlockId} {s s' s'' : EvalState}

theorem modify_append_nil (g : Graph) (b : BlockId) :
    g.modify b (fun blk => { blk with code := blk.code ++ [] }) = g := by
  apply ext_getElem?
  intro i
  rw [getElem?_modify]
  split <;> simp

theorem modify_append_append (g : Graph) (b : BlockId) (code code' : List Statement) :
    (g.modify b fun blk => { blk with code := blk.code ++ code }).modify b
        (fun blk => { blk with code := blk.code ++ code' }) =
      g.modify b fun blk => { blk with code := blk.code ++ (code ++ code') } := by
  apply ext_getElem?
  intro i
  rw [getElem?_modify, getElem?_modify, getElem?_modify]
  split <;> cases g[i]? <;> simp

theorem Appends.refl (P : Statement → Prop) (b : BlockId) (s : EvalState) : Appends P b s s where
  symbols := le_rfl
  blocks := ⟨[], by simp, (modify_append_nil s.blocks b).symm⟩

theorem Appends.of_types (P : Statement → Prop) (b : BlockId) (s : EvalState)
    (types : TypeTable) : Appends P b s { s with types := types } where
  symbols := le_rfl
  blocks := ⟨[], by simp, (modify_append_nil s.blocks b).symm⟩

theorem Appends.trans (h : Appends P b s s') (h' : Appends P b s' s'') : Appends P b s s'' where
  symbols := h.symbols.trans h'.symbols
  blocks := by
    rcases h.blocks with ⟨code, hcode, hblocks⟩
    rcases h'.blocks with ⟨code', hcode', hblocks'⟩
    refine ⟨code ++ code', ?_, ?_⟩
    · intro st hst
      rcases mem_append.mp hst with hst | hst
      · exact hcode st hst
      · exact hcode' st hst
    · rw [hblocks', hblocks, modify_append_append]

theorem emitIr_appends {st : Statement} (h : P st) :
    Ensures (emitIr (some b) st) s fun _ s' => Appends P b s s' := by
  intro _ s' hok
  cases hok
  exact ⟨le_rfl, [st], by simpa using h, rfl⟩

theorem createVar_ensures (type : CType) :
    Ensures (createVar type) s fun v s' =>
      s'.blocks = s.blocks ∧ s'.types = s.types ∧ s'.symbols.length = s.symbols.length + 1 ∧
        v.kind = .direct ∧ v.type = type ∧ v.fieldWidth = 0 ∧
        ∃ sym, v.symbol = some sym ∧ sym.id = s.symbols.length := by
  unfold createVar
  by_cases hvoid : type.isVoid
  · simp only [hvoid, if_true]
    exact Ensures.bind (Q := fun _ _ => False) (Ensures.throw _) (fun _ _ h => h.elim)
  · simp only [hvoid]
    intro v s' hok
    cases hok
    simp [varDirect]

end Appends

/-! ## Fresh operands -/

/-- The operand is a scalar in the storage of a symbol created after the first
{lit}`n`. -/
structure Var.IsFresh (n : Nat) (v : Var) : Prop where
  kind : v.kind ≠ .immediate
  symbol : ∃ sym, v.symbol = some sym ∧ n ≤ sym.id
  fieldWidth : v.fieldWidth = 0
  isScalar : v.type.isScalar = true

/-- The operand is a constant or fresh. -/
def Var.Usable (n : Nat) (v : Var) : Prop := v.kind = .immediate ∨ v.IsFresh n

/-- The statement computes from a fresh left operand. -/
def Statement.IsFresh (n : Nat) (st : Statement) : Prop := st.expr.l.IsFresh n

section Fresh

variable {n : Nat} {b : BlockId} {s : EvalState} {v l r : Var} {type : CType}

theorem isIdentity_ensures (e : Expression) :
    Ensures (isIdentity e) s fun _ s' => s' = s := by
  unfold isIdentity
  refine Ensures.ite (fun _ => ?_) (fun _ => Ensures.pure rfl)
  exact Ensures.readTable fun _ _ => rfl

theorem eval_appends {e : Expression} (hn : n ≤ s.symbols.length) (he : e.l.IsFresh n)
    (hscalar : e.type.isScalar = true) :
    Ensures (eval (some b) e) s fun w s' =>
      Appends (Statement.IsFresh n) b s s' ∧ w.IsFresh n := by
  have hvoid : ¬ e.type.isVoid = true := by
    unfold CType.isScalar at hscalar
    unfold CType.isVoid
    intro hvoid
    rw [of_decide_eq_true hvoid] at hscalar
    cases hscalar
  unfold eval
  refine Ensures.bind (isIdentity_ensures e) ?_
  rintro identity s rfl
  refine Ensures.ite (fun _ => Ensures.pure ⟨Appends.refl _ _ _, he⟩) (fun _ => ?_)
  refine Ensures.ite (fun h => absurd h hvoid) (fun _ => ?_)
  refine Ensures.bind (createVar_ensures e.type) ?_
  rintro res s1 ⟨hblocks, -, hsymbols, hkind, htype, hfield, sym, hsym, hid⟩
  have hstart : Appends (Statement.IsFresh n) b s s1 :=
    ⟨by omega, [], by simp, by rw [hblocks, modify_append_nil]⟩
  refine Ensures.bind (emitIr_appends (P := Statement.IsFresh n) he) ?_
  intro _ s2 happends
  refine Ensures.pure ⟨hstart.trans happends, ?_, ⟨sym, hsym, ?_⟩, hfield, ?_⟩
  · simp [hkind]
  · exact hn.trans (le_of_eq hid.symm)
  · exact (congrArg CType.isScalar htype).trans hscalar

variable [HostFloat]

theorem evalCast_immediate (hv : v.kind = .immediate) (type : CType) :
    Ensures (evalCast (some b) v type) s fun w s' => s' = s ∧ w.kind = .immediate := by
  unfold evalCast cast
  refine Ensures.bind (Q := fun e s' => s' = s ∧ ∃ w, e = asExpr w ∧ w.kind = .immediate) ?_ ?_
  · refine Ensures.ite (fun _ => Ensures.pure ⟨rfl, _, rfl, rfl⟩) (fun _ => ?_)
    refine Ensures.ite (fun _ => Ensures.throw _) (fun _ => ?_)
    rw [if_pos hv]
    refine Ensures.ite (fun _ => Ensures.pure ⟨rfl, _, rfl, hv⟩) (fun _ => ?_)
    refine Ensures.ite (fun _ => Ensures.throw _) (fun _ => ?_)
    refine Ensures.bind (Q := fun _ s' => s' = s) (Ensures.readTable fun _ _ => rfl) ?_
    rintro val _ rfl
    exact Ensures.pure ⟨rfl, _, rfl, rfl⟩
  · rintro e s ⟨rfl, w, rfl, hw⟩
    rw [eval_asExpr]
    exact Ensures.pure ⟨rfl, hw⟩

theorem cast_fresh (hv : v.IsFresh n) (hvoid : type.isVoid = false) :
    Ensures (cast v type) s fun e s' => s' = s ∧ e.l.IsFresh n ∧ e.type.isScalar = true := by
  unfold cast
  rw [if_neg (by simp [hvoid])]
  refine Ensures.ite (fun _ => Ensures.throw _) (fun hscalar => ?_)
  have hscalar : type.isScalar = true := by
    simp only [Bool.or_eq_true, Bool.not_eq_true', not_or, Bool.not_eq_false] at hscalar
    exact hscalar.2
  have hreinterpret : Var.IsFresh n { v with type := type } :=
    ⟨hv.kind, hv.symbol, hv.fieldWidth, hscalar⟩
  rw [if_neg hv.kind]
  refine Ensures.bind (Q := fun _ s' => s' = s) (Ensures.readTable fun _ _ => rfl) ?_
  rintro size _ rfl
  refine Ensures.bind (Q := fun _ s' => s' = _) (Ensures.readTable fun _ _ => rfl) ?_
  rintro size' s rfl
  refine Ensures.ite (fun _ => Ensures.pure ⟨rfl, hreinterpret, hscalar⟩) (fun _ => ?_)
  refine Ensures.bind (Q := fun _ s' => s' = s) (Ensures.readTable fun _ _ => rfl) ?_
  rintro equal _ rfl
  refine Ensures.ite (fun _ => ?_) (fun _ => ?_)
  · exact Ensures.pure ⟨rfl, hv, hv.isScalar⟩
  · exact Ensures.pure ⟨rfl, hv, hscalar⟩

theorem evalCast_fresh (hn : n ≤ s.symbols.length) (hv : v.IsFresh n)
    (hvoid : type.isVoid = false) :
    Ensures (evalCast (some b) v type) s fun w s' =>
      Appends (Statement.IsFresh n) b s s' ∧ w.IsFresh n := by
  unfold evalCast
  refine Ensures.bind (cast_fresh hv hvoid) ?_
  rintro e s ⟨rfl, he, hscalar⟩
  exact eval_appends hn he hscalar

/-- `eval_cast` of a constant or fresh operand. -/
theorem evalCast_appends (hn : n ≤ s.symbols.length) (hv : v.Usable n) (type : CType) :
    Ensures (evalCast (some b) v type) s fun w s' =>
      Appends (Statement.IsFresh n) b s s' ∧ w.Usable n := by
  rcases hv with hv | hv
  · refine (evalCast_immediate hv type).mono ?_
    rintro w _ ⟨rfl, hw⟩
    exact ⟨Appends.refl _ _ _, Or.inl hw⟩
  · by_cases hvoid : type.isVoid = true
    · have hcast : cast v type = pure (asExpr varVoid) := by
        unfold cast
        rw [if_pos hvoid]
      unfold evalCast
      rw [hcast, pure_bind, eval_asExpr]
      exact Ensures.pure ⟨Appends.refl _ _ _, Or.inl rfl⟩
    · refine (evalCast_fresh hn hv (by simpa using hvoid)).mono ?_
      exact fun w s' h => ⟨h.1, Or.inr h.2⟩

theorem evalCast_both_appends (hn : n ≤ s.symbols.length) (hl : l.Usable n) (hr : r.Usable n)
    (type : CType) {α : Type} {f : Var → Var → EvalM α} {Q : α → EvalState → Prop}
    (hf : ∀ l r s', Appends (Statement.IsFresh n) b s s' → Ensures (f l r) s' Q) :
    Ensures (do let l ← evalCast (some b) l type; let r ← evalCast (some b) r type; f l r) s Q := by
  refine Ensures.bind (evalCast_appends hn hl type) ?_
  rintro l' s1 ⟨happends, -⟩
  refine Ensures.bind (evalCast_appends (hn.trans happends.symbols) hr type) ?_
  rintro r' s2 ⟨happends', -⟩
  exact hf l' r' s2 (happends.trans happends')

theorem arithmetic_appends {op : OpType} (hop : op = .add ∨ op = .sub)
    (hn : n ≤ s.symbols.length) (hl : l.IsFresh n)
    (hr : r.kind = .immediate) (hltype : l.type.isInteger = true)
    (hrtype : r.type.isInteger = true) :
    Ensures (arithmetic op (some b) l r) s fun e s' =>
      Appends (Statement.IsFresh n) b s s' ∧ e.l.IsFresh n ∧ e.type.isScalar = true := by
  have hvoid : (l.type.common r.type).isVoid = false := by
    have hinteger := CType.isInteger_common hltype hrtype
    unfold CType.isVoid
    rcases CType.isInteger_iff.mp hinteger with h | h | h | h | h <;> rw [h] <;> rfl
  have hread : readTable (usualArithmeticConversion · l.type r.type) =
      pure (l.type.common r.type) := by
    funext s
    simp [readTable, usualArithmeticConversion_eq hltype hrtype]
    rfl
  unfold arithmetic convertOperands
  rw [hread, pure_bind, bind_assoc]
  refine Ensures.bind (evalCast_fresh hn hl hvoid) ?_
  rintro l' s1 ⟨happends, hl'⟩
  rw [bind_assoc]
  refine Ensures.bind (evalCast_immediate hr _) ?_
  rintro r' s2 ⟨rfl, -⟩
  rw [pure_bind]
  have himm : bothImmediate l' r' = false := by simp [bothImmediate, hl'.kind]
  simp only [himm, Bool.false_eq_true, if_false]
  refine Ensures.pure ⟨happends, ?_⟩
  rcases hop with rfl | rfl
  · exact ⟨hl', hl'.isScalar⟩
  · exact ⟨hl', hl'.isScalar⟩

theorem prepareOrdered_appends (hn : n ≤ s.symbols.length) (hl : l.Usable n) (hr : r.Usable n) :
    Ensures (prepareOrdered (some b) l r) s fun _ s' => Appends (Statement.IsFresh n) b s s' := by
  unfold prepareOrdered
  refine Ensures.ite (fun _ => ?_) (fun _ => ?_)
  · unfold convertOperands
    simp only [bind_assoc, pure_bind]
    refine Ensures.bind (Q := fun _ s' => s' = s) (Ensures.readTable fun _ _ => rfl) ?_
    rintro type s rfl
    exact evalCast_both_appends hn hl hr type fun l r s' happends => Ensures.pure happends
  · refine Ensures.ite (fun _ => ?_) (fun _ => Ensures.throw _)
    exact evalCast_both_appends hn hl hr _ fun l r s' happends => Ensures.pure happends

omit [HostFloat] in
theorem comparisonSwapped_ensures (lt rt : CType) :
    Ensures (comparisonSwapped lt rt) s fun _ s' => s' = s := by
  unfold comparisonSwapped
  refine Ensures.ite (fun _ => ?_) (fun _ => Ensures.pure rfl)
  refine Ensures.ite (fun _ => Ensures.pure rfl) (fun _ => ?_)
  refine Ensures.bind (Q := fun _ s' => s' = s) (Ensures.readTable fun _ _ => rfl) ?_
  rintro _ s rfl
  refine Ensures.bind (Q := fun _ s' => s' = s) (Ensures.readTable fun _ _ => rfl) ?_
  rintro _ s rfl
  exact Ensures.pure rfl

theorem equality_appends (op : OpType) (hn : n ≤ s.symbols.length) (hl : l.Usable n)
    (hr : r.Usable n) :
    Ensures (equality op (some b) l r) s fun _ s' => Appends (Statement.IsFresh n) b s s' := by
  have hfold : ∀ (l r : Var) (s' : EvalState), Appends (Statement.IsFresh n) b s s' →
      Ensures (if bothImmediate l r then pure (asExpr (evalImmediateCompare op l.type l r))
        else pure (createExpr op l r) : EvalM Expression) s'
        fun _ s' => Appends (Statement.IsFresh n) b s s' :=
    fun l r s' happends => Ensures.ite (fun _ => Ensures.pure happends)
      (fun _ => Ensures.pure happends)
  unfold equality prepareComparisonOperands
  rw [bind_assoc]
  refine Ensures.bind (comparisonSwapped_ensures l.type r.type) ?_
  rintro swapped s rfl
  cases swapped with
  | true =>
    simp only [if_true, bind_assoc, pure_bind]
    refine Ensures.bind (prepareOrdered_appends hn hr hl) ?_
    exact fun p s' happends => hfold p.2 p.1 s' happends
  | false =>
    refine Ensures.bind (prepareOrdered_appends hn hl hr) ?_
    exact fun p s' happends => hfold p.1 p.2 s' happends

theorem relational_appends (op : OpType) (hn : n ≤ s.symbols.length) (hl : l.Usable n)
    (hr : r.Usable n) :
    Ensures (relational op (some b) l r) s fun _ s' => Appends (Statement.IsFresh n) b s s' := by
  have htype : Ensures (commonCompareType l.type r.type) s fun _ s' => s' = s := by
    unfold commonCompareType
    refine Ensures.ite (fun _ => Ensures.readTable fun _ _ => rfl) (fun _ => ?_)
    refine Ensures.ite (fun _ => ?_) (fun _ => Ensures.throw _)
    refine Ensures.bind (Q := fun _ s' => s' = s) (Ensures.readTable fun _ _ => rfl) ?_
    rintro _ s rfl
    refine Ensures.bind (Q := fun _ s' => s' = s) (Ensures.readTable fun _ _ => rfl) ?_
    rintro _ s rfl
    refine Ensures.bind (Q := fun _ s' => s' = s) (Ensures.readTable fun _ _ => rfl) ?_
    rintro _ s rfl
    exact Ensures.ite (fun _ => Ensures.pure rfl) (fun _ => Ensures.throw _)
  unfold relational
  refine Ensures.bind htype ?_
  rintro type s rfl
  refine evalCast_both_appends hn hl hr type fun l r s' happends => ?_
  exact Ensures.ite (fun _ => Ensures.pure happends) (fun _ => Ensures.pure happends)

theorem rvalue_immediate (hv : v.kind = .immediate) :
    Ensures (rvalue (some b) v) s fun w s' =>
      Appends (Statement.IsFresh n) b s s' ∧ w.kind = .immediate := by
  have hsame : Appends (Statement.IsFresh n) b s s := Appends.refl _ _ _
  unfold rvalue
  refine Ensures.ite (fun _ => ?_) (fun _ => Ensures.ite (fun _ => ?_) (fun _ => ?_))
  · unfold evalAddr
    refine Ensures.ite (fun _ => ?_) (fun _ => ?_)
    · exact Ensures.bind (Q := fun _ _ => False) (Ensures.throw _) (fun _ _ h => h.elim)
    refine Ensures.bind (Q := fun _ s' => s' = s) (Ensures.readTable fun _ _ => rfl) ?_
    rintro vla s rfl
    rw [if_neg (by simp [hv]), hv]
    refine Ensures.ite (fun _ => Ensures.throw _) (fun _ => Ensures.ite (fun _ => ?_) (fun _ => ?_))
    · refine Ensures.bind (Q := fun _ s' => s' = s) (Ensures.readTable fun _ _ => rfl) ?_
      rintro next s rfl
      refine Ensures.bind (Ensures.newType
        (Q := fun _ s' => Appends (Statement.IsFresh n) b s s')
        fun _ types => Appends.of_types _ _ _ types) ?_
      exact fun _ _ happends => Ensures.pure ⟨happends, rfl⟩
    · exact Ensures.ite (fun _ => Ensures.pure ⟨hsame, hv⟩) (fun _ => Ensures.throw _)
  · unfold rvalueArray
    refine Ensures.bind (Q := fun _ s' => s' = s) (Ensures.readTable fun _ _ => rfl) ?_
    rintro vla s rfl
    refine Ensures.bind (Q := fun _ s' => s' = s) (Ensures.readTable fun _ _ => rfl) ?_
    rintro next s rfl
    refine Ensures.ite (fun _ => ?_) (fun _ => ?_)
    · rw [if_neg (by simp [hv]), if_neg (by simp [hv])]
      exact Ensures.throw _
    · rw [if_pos hv]
      refine Ensures.ite (fun _ => ?_) (fun _ => Ensures.throw _)
      refine Ensures.bind (Ensures.newType
        (Q := fun _ s' => Appends (Statement.IsFresh n) b s s')
        fun _ types => Appends.of_types _ _ _ types) ?_
      exact fun _ _ happends => Ensures.pure ⟨happends, hv⟩
  · refine Ensures.ite (fun _ => Ensures.ite (fun _ => ?_) (fun _ => ?_)) (fun _ => ?_)
    · refine (evalCast_immediate hv _).mono ?_
      rintro w s ⟨rfl, hw⟩
      exact ⟨hsame, hw⟩
    · exact Ensures.pure ⟨hsame, hv⟩
    · exact Ensures.pure ⟨hsame, hv⟩

theorem rvalue_appends (hv : v.Usable n) :
    Ensures (rvalue (some b) v) s fun w s' =>
      Appends (Statement.IsFresh n) b s s' ∧ w.Usable n := by
  rcases hv with hv | hv
  · exact (rvalue_immediate hv).mono fun w s' h => ⟨h.1, Or.inl h.2⟩
  · have hkind := hv.isScalar
    rw [rvalue_of_scalar (some b) (by simp [Var.isField, hv.fieldWidth])]
    · exact Ensures.pure ⟨Appends.refl _ _ _, Or.inr hv⟩
    · unfold CType.isFunction
      unfold CType.isScalar at hkind
      cases hk : v.type.typeOf <;> first | decide | (rw [hk] at hkind; cases hkind)
    · unfold CType.isArray
      unfold CType.isScalar at hkind
      cases hk : v.type.typeOf <;> first | decide | (rw [hk] at hkind; cases hkind)

theorem evalBinary_appends {op : OpType} (hop : op = .eq ∨ op = .gt) (hn : n ≤ s.symbols.length)
    (hl : l.Usable n) (hr : r.Usable n) :
    Ensures (evalBinary (some b) op l r) s fun _ s' => Appends (Statement.IsFresh n) b s s' := by
  unfold evalBinary
  refine Ensures.bind (rvalue_appends hl) ?_
  rintro l' s1 ⟨happends1, hl'⟩
  refine Ensures.bind (rvalue_appends hr) ?_
  rintro r' s2 ⟨happends2, hr'⟩
  have happends := happends1.trans happends2
  have hn' := hn.trans happends.symbols
  rcases hop with rfl | rfl
  · exact (equality_appends .eq hn' hl' hr').mono fun _ _ h => happends.trans h
  · exact (relational_appends .gt hn' hl' hr').mono fun _ _ h => happends.trans h

theorem evalBinary_varInt_appends {op : OpType} (hop : op = .add ∨ op = .sub)
    (hn : n ≤ s.symbols.length) (hl : l.IsFresh n) (htype : l.type.isInteger = true) (k : Int) :
    Ensures (evalBinary (some b) op l (varInt k)) s fun e s' =>
      Appends (Statement.IsFresh n) b s s' ∧ e.l.IsFresh n ∧ e.type.isScalar = true := by
  have hfunction : l.type.isFunction = false ∧ l.type.isArray = false := by
    unfold CType.isFunction CType.isArray
    rcases CType.isInteger_iff.mp htype with h | h | h | h | h <;> rw [h] <;> decide
  have harith : l.type.isArithmetic = true := (CType.isReal_of_isInteger htype).1
  have hint : (varInt k).type.isArithmetic = true ∧ (varInt k).type.isPointerType = false ∧
      (varInt k).type.isInteger = true := ⟨rfl, rfl, rfl⟩
  have hop' : evalBinary (some b) op l (varInt k) = arithmetic op (some b) l (varInt k) := by
    unfold evalBinary
    rw [rvalue_of_scalar (some b) (by simp [Var.isField, hl.fieldWidth]) hfunction.1 hfunction.2,
      pure_bind, rvalue_of_scalar (some b) rfl rfl rfl, pure_bind]
    rcases hop with rfl | rfl
    · simp only [add, addOrdered, harith, hint.1, hint.2.1, Bool.and_false, Bool.and_true,
        Bool.false_eq_true, if_false, if_true]
    · simp only [sub, harith, hint.1, Bool.and_true, if_true]
  rw [hop']
  exact arithmetic_appends hop hn hl rfl htype hint.2.2

end Fresh

end Kcs
