import Kcs.Eval.RunOperators
import Kcs.Parser.Switch

/-!
# Comparisons of a switch

The linked blocks of a `switch` compare the controlling expression with a constant of a
case, in any memory that still holds both.

Main results:

- Theorem {lit}`setComparison_compares`: the code and the value of a comparison.
-/

namespace Kcs

/-! ## Runs of comparison blocks -/

/-- From any memory that differs from the given one in the given symbols only,
the code runs, changes such symbols only, and the expression is the given truth
value. -/
def ComparesTo [HostFloat] (env : RunEnv) (P : Nat → Prop) (m0 : Memory) (code : List Statement)
    (e : Expression) (p : Bool) : Prop :=
  ∀ m, AgreeOutside env P m0 m → ∃ m', AgreeOutside env P m m' ∧ e.op ≠ .call ∧
    pureValue env m' e = some p.toNat ∧
    ∀ params trace, execCode (irMachine env) code { mem := m, params := params, trace := trace } =
      some { mem := m', params := params, trace := trace }

/-! ## Comparisons -/

/-- The operand stands for the integer while only the given symbols change. -/
def Held (env : RunEnv) (R : Nat → Prop) (m0 : Memory) (v : Var) (x : Int) : Prop :=
  ∀ m, AgreeOutside env R m0 m → ∀ n, (∀ id, n ≤ id → R id) → StandsFor env n m v (.int x)

section Comparisons

variable {env : RunEnv} {R : Nat → Prop} {m0 : Memory} {v l r : Var} {a k : Int}
  {s s' : EvalState} {b : BlockId} {c1 c2 : CInteger}

theorem StandsFor.held {n : Nat} (h : StandsFor env n m0 v (.int a)) :
    Held env (n ≤ ·) m0 v a :=
  fun _ hm _ hn => h.mono (hn _ le_rfl) hm

theorem EmitsTo.code_eq {code code' : List Statement} (hb : b < s.blocks.length)
    (h : EmitsTo b s s' code) (h' : EmitsTo b s s' code') : code = code' := by
  have hblocks := h.blocks.symm.trans h'.blocks
  have hget := congrArg (fun g : Graph => g[b]?.map (·.code)) hblocks
  simpa [List.getElem?_modify, List.getElem?_eq_getElem hb] using hget

variable [HostFloat] [LawfulHostFloat]

/-- A comparison of two held integers: the code and the value for every memory
in which they are held. -/
theorem setComparison_compares {o : CInteger.BinaryOp} (ho : o = .eq ∨ o = .gt)
    (hl : Held env R m0 l a) (hr : Held env R m0 r k)
    (h1 : l.type.cInteger = some c1) (h2 : r.type.cInteger = some c2)
    (hroom : Room env s.symbols.length) (hR : ∀ id, s.symbols.length ≤ id → R id)
    (hb : b < s.blocks.length) {p : Bool}
    (hp : CInteger.binary o (CInteger.common c1 c2) ((CInteger.common c1 c2).convert a)
      ((CInteger.common c1 c2).convert k) = some (CInteger.ofBool p)) :
    ∃ s' code e, setComparison b (opType o) l r s = .ok ((), s') ∧ s'.types = s.types ∧
      s.symbols.length ≤ s'.symbols.length ∧
      s'.blocks = s.blocks.modify b
        (fun blk => { blk with code := blk.code ++ code, expr := e }) ∧
      ∀ P : Nat → Prop, (∀ id, P id → R id) →
        (∀ id, s.symbols.length ≤ id → id < s'.symbols.length → P id) →
        ComparesTo env P m0 code e p := by
  -- The code is the same for all memories, so one of them is enough to obtain it.
  have hemits : ∀ m, AgreeOutside env R m0 m →
      Emits env b s m (evalBinary (some b) (opType o) l r)
        (Computes env basicTypeInt (some (.int (CInteger.ofBool p)))) := by
    intro m hm
    have h := evalBinary_comparison (b := b) ho (hl m hm _ hR) (hr m hm _ hR) hroom h1 h2
    rwa [hp] at h
  rcases hemits m0 (AgreeOutside.refl env R m0) with
    ⟨e, s1, code, m1, hok, hemit, -, -, -⟩
  refine ⟨{ s1 with blocks := s1.blocks.modify b fun blk => { blk with expr := e } }, code, e, ?_,
    hemit.types, hemit.symbols, ?_, ?_⟩
  · show (evalBinary (some b) (opType o) l r s >>= fun q => setExpr b q.1 q.2) = _
    rw [hok]
    rfl
  · rw [hemit.blocks]
    apply List.ext_getElem?
    intro i
    simp only [List.getElem?_modify]
    split <;> cases s.blocks[i]? <;> simp
  · intro P hPR hinterval m hm
    rcases hemits m (hm.mono hPR) with ⟨e', s1', code', m', hok', hemit', hrun, hagree, hcomputes⟩
    rw [hok, Except.ok.injEq, Prod.mk.injEq] at hok'
    rcases hok' with ⟨rfl, rfl⟩
    have hcode := EmitsTo.code_eq hb hemit hemit'
    subst hcode
    refine ⟨m', hagree.mono fun id hid => hinterval id hid.1 hid.2, ?_, ?_, hrun⟩
    · rcases hcomputes.operand with ⟨v, w, rfl, -, -⟩ | ⟨-, hcall⟩
      · simp [asExpr]
      · exact hcall
    · rw [hcomputes.value, Option.bind_some, hcomputes.like.encode]
      cases p <;> rfl

end Comparisons

end Kcs
