import Mathlib

/-!
# Constant expressions over the widest integers

Values of the two 64-bit integer types of greatest width, the operators of C on
them, and expressions.  An expression has two readings: C evaluates only the
operands that decide the value, a strict evaluator evaluates all of them.  An
evaluation that C leaves undefined or forbids is a fault.

Main results:

- Theorem {lit}`Expr.value_of_strict`: where the strict evaluation gives a value, C gives the
  same one, unless it meets a comma operator.
-/

namespace Kcs.IntMax

/-! ## Numbers -/

/-- A value of the signed or of the unsigned type. -/
structure Number where
  signed : Bool
  bits : BitVec 64
deriving DecidableEq, Repr

namespace Number

/-- The integer that a number stands for. -/
def val (n : Number) : Int := if n.signed then n.bits.toInt else n.bits.toNat

/-- The number of a type that is congruent to an integer. -/
def ofInt (signed : Bool) (n : Int) : Number := ⟨signed, BitVec.ofInt 64 n⟩

/-- A truth value. -/
def ofBool (p : Bool) : Number := ⟨true, if p then 1 else 0⟩

/-- Conversion to a type. -/
def convert (n : Number) (signed : Bool) : Number := { n with signed := signed }

@[simp]
theorem convert_signed (n : Number) : n.convert n.signed = n := rfl

@[simp]
theorem convert_bits (n : Number) (signed : Bool) : (n.convert signed).bits = n.bits := rfl

/-- Whether a number is not zero. -/
def truth (n : Number) : Bool := n.bits ≠ 0#64

@[simp]
theorem truth_ofBool (p : Bool) : (ofBool p).truth = p := by
  cases p <;> rfl

@[simp]
theorem truth_convert (n : Number) (signed : Bool) : (n.convert signed).truth = n.truth := rfl

end Number

/-! ## Operators -/

/-- Why an expression has no constant value. -/
inductive Fault where
  | divisionByZero
  | moduloByZero
  | undefined
  | comma
deriving DecidableEq, Repr

/-- The unary operators. -/
inductive UnaryOp where
  | plus | minus | compl | not
deriving DecidableEq, Repr

/-- The binary operators. -/
inductive BinaryOp where
  | mul | div | mod | add | sub | shl | shr | lt | gt | le | ge | eq | ne
  | and | xor | or | land | lor
deriving DecidableEq, Repr

/-- The operators with a truth value. -/
def BinaryOp.isBool : BinaryOp → Bool
  | .lt | .gt | .le | .ge | .eq | .ne | .land | .lor => true
  | _ => false

/-- The operators whose result has the type of the left operand. -/
def BinaryOp.isShift : BinaryOp → Bool
  | .shl | .shr => true
  | _ => false

/-- A result in a type: signed arithmetic does not overflow. -/
def exact (signed : Bool) (n : Int) : Except Fault Number :=
  if signed ∧ (BitVec.ofInt 64 n).toInt ≠ n then .error .undefined else .ok (.ofInt signed n)

/-- An operator on operands of one type. -/
def BinaryOp.compute (op : BinaryOp) (signed : Bool) (l r : Number) : Except Fault Number :=
  match op with
  | .mul => exact signed (l.val * r.val)
  | .div =>
    if r.val = 0 then .error .divisionByZero else exact signed (l.val.tdiv r.val)
  | .mod =>
    if r.val = 0 then .error .moduloByZero
    else (exact signed (l.val.tdiv r.val)).bind fun _ => .ok (.ofInt signed (l.val.tmod r.val))
  | .add => exact signed (l.val + r.val)
  | .sub => exact signed (l.val - r.val)
  | .shl =>
    if r.val < 0 ∨ 64 ≤ r.val ∨ l.val < 0 then .error .undefined
    else exact signed (l.val * 2 ^ r.val.toNat)
  | .shr =>
    if r.val < 0 ∨ 64 ≤ r.val then .error .undefined
    else .ok (.ofInt signed (l.val / 2 ^ r.val.toNat))
  | .lt => .ok (.ofBool (l.val < r.val))
  | .gt => .ok (.ofBool (l.val > r.val))
  | .le => .ok (.ofBool (l.val ≤ r.val))
  | .ge => .ok (.ofBool (l.val ≥ r.val))
  | .eq => .ok (.ofBool (l.val = r.val))
  | .ne => .ok (.ofBool (l.val ≠ r.val))
  | .and => .ok ⟨signed, l.bits &&& r.bits⟩
  | .xor => .ok ⟨signed, l.bits ^^^ r.bits⟩
  | .or => .ok ⟨signed, l.bits ||| r.bits⟩
  | .land => .ok (.ofBool (l.truth && r.truth))
  | .lor => .ok (.ofBool (l.truth || r.truth))

/-- The type of the result of the unary operators. -/
def UnaryOp.signed (op : UnaryOp) (s : Bool) : Bool :=
  match op with
  | .not => true
  | _ => s

/-- The unary operators. -/
def UnaryOp.apply (op : UnaryOp) (n : Number) : Except Fault Number :=
  match op with
  | .plus => .ok n
  | .minus => exact n.signed (-n.val)
  | .compl => .ok ⟨n.signed, ~~~n.bits⟩
  | .not => .ok (.ofBool !n.truth)

/-- The type of the result of the binary operators: the usual arithmetic
conversions, except for truth values and shifts. -/
def BinaryOp.signed (op : BinaryOp) (l r : Bool) : Bool :=
  if op.isBool then true else if op.isShift then l else l && r

/-- The binary operators.  The operands of a shift keep their own types. -/
def BinaryOp.apply (op : BinaryOp) (l r : Number) : Except Fault Number :=
  if op.isShift then op.compute l.signed l r
  else
    let signed := l.signed && r.signed
    op.compute signed (l.convert signed) (r.convert signed)

theorem signed_of_exact {signed : Bool} {n : Int} {x : Number} (h : exact signed n = .ok x) :
    x.signed = signed := by
  unfold exact at h
  split at h
  · exact absurd h (by simp)
  · cases h
    rfl

theorem BinaryOp.signed_of_compute {op : BinaryOp} {signed : Bool} {l r x : Number}
    (h : op.compute signed l r = .ok x) : x.signed = if op.isBool then true else signed := by
  cases op with
  | mul | add | sub => exact signed_of_exact h
  | div =>
    simp only [compute] at h
    split at h
    · exact absurd h (by simp)
    · exact signed_of_exact h
  | mod =>
    simp only [compute] at h
    split at h
    · exact absurd h (by simp)
    · cases hdiv : exact signed (l.val.tdiv r.val) with
      | error e => simp [hdiv, Except.bind] at h
      | ok y =>
        simp only [hdiv, Except.bind, Except.ok.injEq] at h
        rw [← h]
        rfl
  | shl =>
    simp only [compute] at h
    split at h
    · exact absurd h (by simp)
    · exact signed_of_exact h
  | shr =>
    simp only [compute] at h
    split at h
    · exact absurd h (by simp)
    · cases h
      rfl
  | lt | gt | le | ge | eq | ne | and | xor | or | land | lor =>
    cases h
    rfl

theorem BinaryOp.signed_of_apply {op : BinaryOp} {l r x : Number} (h : op.apply l r = .ok x) :
    x.signed = op.signed l.signed r.signed := by
  unfold apply at h
  unfold BinaryOp.signed
  split at h
  · rename_i hshift
    rw [BinaryOp.signed_of_compute h, if_pos hshift]
  · rename_i hshift
    rw [BinaryOp.signed_of_compute h, if_neg hshift]

theorem UnaryOp.signed_of_apply {op : UnaryOp} {n x : Number} (h : op.apply n = .ok x) :
    x.signed = op.signed n.signed := by
  cases op with
  | minus => exact signed_of_exact h
  | plus | compl | not =>
    cases h
    rfl

/-! ## Expressions -/

/-- Expressions, with their parentheses. -/
inductive Expr where
  | literal (n : Number)
  | unary (op : UnaryOp) (a : Expr)
  | binary (op : BinaryOp) (a b : Expr)
  | cond (c a b : Expr)
  | comma (a b : Expr)
  | paren (a : Expr)
deriving DecidableEq, Repr

namespace Expr

/-- The type of an expression. -/
def signed : Expr → Bool
  | literal n => n.signed
  | unary op a => op.signed a.signed
  | binary op a b => op.signed a.signed b.signed
  | cond _ a b => a.signed && b.signed
  | comma _ b => b.signed
  | paren a => a.signed

/-- The value that C gives an expression.  The right operand of a logical operator and
the branches of a conditional are evaluated only where they are needed; a comma
operator that is evaluated is not constant. -/
def value : Expr → Except Fault Number
  | literal n => .ok n
  | unary op a => a.value.bind op.apply
  | binary .land a b =>
    a.value.bind fun x =>
      if x.truth then b.value.bind fun y => BinaryOp.land.apply x y else .ok (.ofBool false)
  | binary .lor a b =>
    a.value.bind fun x =>
      if x.truth then .ok (.ofBool true) else b.value.bind fun y => BinaryOp.lor.apply x y
  | binary op a b => a.value.bind fun x => b.value.bind fun y => op.apply x y
  | cond c a b =>
    c.value.bind fun x =>
      if x.truth then a.value.map (·.convert (a.signed && b.signed))
      else b.value.map (·.convert (a.signed && b.signed))
  | comma _ _ => .error .comma
  | paren a => a.value

/-- The choice of a strict conditional. -/
def select (x y z : Number) : Number :=
  if x.truth then y.convert (y.signed && z.signed) else z.convert (y.signed && z.signed)

/-- The value that an evaluator of all operands gives an expression. -/
def strict : Expr → Except Fault Number
  | literal n => .ok n
  | unary op a => a.strict.bind op.apply
  | binary op a b => a.strict.bind fun x => b.strict.bind fun y => op.apply x y
  | cond c a b =>
    c.strict.bind fun x => a.strict.bind fun y => b.strict.bind fun z => .ok (select x y z)
  | comma a b => a.strict.bind fun _ => b.strict
  | paren a => a.strict

theorem bind_ok {ε α β : Type} {x : Except ε α} {f : α → Except ε β} {b : β}
    (h : x.bind f = .ok b) : ∃ a, x = .ok a ∧ f a = .ok b := by
  cases x with
  | error e => exact absurd h (by simp [Except.bind])
  | ok a => exact ⟨a, rfl, h⟩

theorem signed_of_strict {e : Expr} {n : Number} (h : e.strict = .ok n) : n.signed = e.signed := by
  induction e generalizing n with
  | literal m =>
    cases h
    rfl
  | unary op a iha =>
    rcases bind_ok h with ⟨x, hx, hop⟩
    rw [UnaryOp.signed_of_apply hop, iha hx, signed]
  | binary op a b iha ihb =>
    rcases bind_ok h with ⟨x, hx, h⟩
    rcases bind_ok h with ⟨y, hy, hop⟩
    rw [BinaryOp.signed_of_apply hop, iha hx, ihb hy, signed]
  | cond c a b ihc iha ihb =>
    rcases bind_ok h with ⟨x, hx, h⟩
    rcases bind_ok h with ⟨y, hy, h⟩
    rcases bind_ok h with ⟨z, hz, h⟩
    cases h
    rw [signed, ← iha hy, ← ihb hz]
    unfold select
    split <;> rfl
  | comma a b iha ihb =>
    rcases bind_ok h with ⟨x, hx, h⟩
    exact ihb h
  | paren a iha => exact iha h

theorem land_of_false {x y : Number} (hx : x.truth = false) :
    BinaryOp.land.apply x y = .ok (.ofBool false) := by
  simp [BinaryOp.apply, BinaryOp.isShift, BinaryOp.compute, hx]

theorem lor_of_true {x y : Number} (hx : x.truth = true) :
    BinaryOp.lor.apply x y = .ok (.ofBool true) := by
  simp [BinaryOp.apply, BinaryOp.isShift, BinaryOp.compute, hx]

theorem value_binary {op : BinaryOp} {a b : Expr} (hand : op ≠ .land) (hor : op ≠ .lor) :
    (binary op a b).value = a.value.bind fun x => b.value.bind fun y => op.apply x y := by
  cases op with
  | land => exact absurd rfl hand
  | lor => exact absurd rfl hor
  | _ => rfl

/-- Where the strict evaluation gives a value, C gives the same one, unless it meets a
comma operator. -/
theorem value_of_strict {e : Expr} {n : Number} (h : e.strict = .ok n) :
    e.value = .ok n ∨ e.value = .error .comma := by
  induction e generalizing n with
  | literal m => exact Or.inl h
  | unary op a iha =>
    rcases bind_ok h with ⟨x, hx, hop⟩
    rcases iha hx with ha | ha
    · left
      rw [value, ha]
      exact hop
    · right
      rw [value, ha]
      rfl
  | binary op a b iha ihb =>
    rcases bind_ok h with ⟨x, hx, h⟩
    rcases bind_ok h with ⟨y, hy, hop⟩
    rcases iha hx with ha | ha
    · by_cases hand : op = .land
      · subst hand
        rw [value, ha]
        simp only [Except.bind]
        by_cases htrue : x.truth = true
        · rw [if_pos htrue]
          rcases ihb hy with hb | hb
          · rw [hb]
            exact Or.inl hop
          · rw [hb]
            exact Or.inr rfl
        · rw [if_neg htrue, ← hop, land_of_false (Bool.eq_false_iff.mpr htrue)]
          exact Or.inl rfl
      · by_cases hor : op = .lor
        · subst hor
          rw [value, ha]
          simp only [Except.bind]
          by_cases htrue : x.truth = true
          · rw [if_pos htrue, ← hop, lor_of_true htrue]
            exact Or.inl rfl
          · rw [if_neg htrue]
            rcases ihb hy with hb | hb
            · rw [hb]
              exact Or.inl hop
            · rw [hb]
              exact Or.inr rfl
        · rw [value_binary hand hor, ha]
          rcases ihb hy with hb | hb
          · rw [hb]
            exact Or.inl hop
          · rw [hb]
            exact Or.inr rfl
    · right
      by_cases hand : op = .land
      · rw [hand, value, ha]
        rfl
      · by_cases hor : op = .lor
        · rw [hor, value, ha]
          rfl
        · rw [value_binary hand hor, ha]
          rfl
  | cond c a b ihc iha ihb =>
    rcases bind_ok h with ⟨x, hx, h⟩
    rcases bind_ok h with ⟨y, hy, h⟩
    rcases bind_ok h with ⟨z, hz, h⟩
    cases h
    rw [value, ← signed_of_strict hy, ← signed_of_strict hz, select]
    rcases ihc hx with hc | hc
    · rw [hc]
      simp only [Except.bind]
      by_cases htrue : x.truth = true
      · rw [if_pos htrue, if_pos htrue]
        rcases iha hy with ha | ha
        · rw [ha]
          exact Or.inl rfl
        · rw [ha]
          exact Or.inr rfl
      · rw [if_neg htrue, if_neg htrue]
        rcases ihb hz with hb | hb
        · rw [hb]
          exact Or.inl rfl
        · rw [hb]
          exact Or.inr rfl
    · rw [hc]
      exact Or.inr rfl
  | comma a b => exact Or.inr rfl
  | paren a iha => exact iha h

end Expr

/-! ## Associative operators -/

/-- The operators that an evaluator may group from the right. -/
def BinaryOp.isAssociative : BinaryOp → Bool
  | .and | .xor | .land | .lor => true
  | _ => false

theorem BinaryOp.apply_eq_ok {op : BinaryOp} (hop : op.isAssociative = true) (l r : Number) :
    ∃ x, op.apply l r = .ok x := by
  cases op with
  | and | xor | land | lor => exact ⟨_, rfl⟩
  | _ => exact absurd hop (by decide)

theorem BinaryOp.apply_assoc {op : BinaryOp} (hop : op.isAssociative = true) (x y z : Number) :
    ((op.apply y z).bind fun v => op.apply x v) = (op.apply x y).bind fun v => op.apply v z := by
  cases op with
  | and =>
    simp [apply, isShift, compute, Except.bind, BitVec.and_assoc, Bool.and_assoc]
  | xor =>
    simp [apply, isShift, compute, Except.bind, BitVec.xor_assoc, Bool.and_assoc]
  | land => simp [apply, isShift, compute, Except.bind, Bool.and_assoc]
  | lor => simp [apply, isShift, compute, Except.bind, Bool.or_assoc]
  | _ => exact absurd hop (by decide)

end Kcs.IntMax
