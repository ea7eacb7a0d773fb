import Kcs.Eval.PointerArithmetic

/-!
# Assignments and dereferences

`eval_assign` stores the value of an expression, with the conversion that the type of its target
asks for, and `eval_deref` makes a pointer the location that it points to.  Warnings about pointer
types are left out.

Main results:

- Lemma {lit}`evalTemporary_emits`: a pointer is copied to a temporary.
-/

namespace Kcs

section Definitions

variable [HostFloat]

/-- Change the type table. -/
def updateTypes (f : TypeTable → Option TypeTable) : EvalM Unit := fun s =>
  match f s.types with
  | some types => .ok ((), { s with types := types })
  | none => .error .aborted

/-- The assignment to an incomplete array, which takes the length of the literal. -/
def assignIncomplete (block : BlockRef) (target : Var) (expr : Expression) (length : Nat) :
    EvalM Var := do
  match target.symbol with
  | none => abort
  | some sym =>
    let size ← readTable (sizeOf · sym.type)
    if target.kind ≠ .direct || target.offset ≠ 0 || size ≠ 0 then abort
    updateTypes (setArrayLength · sym.type length)
    let target := { target with type := expr.type }
    emitIr block { st := .assign, t := target, expr := expr }
    pure { target with offset := target.offset + BitVec.ofNat 64 length }

/-- `eval_assign_string_literal` -/
def evalAssignStringLiteral (block : BlockRef) (target : Var) (expr : Expression) : EvalM Var := do
  let identity ← isIdentity expr
  if !identity || !target.type.isArray || !expr.l.symbol.any (·.symtype = .stringValue) then abort
  let next ← readTable (typeNext · target.type)
  if !next.isChar then fail "Assigning string literal to non-char array."
  let size ← readTable (sizeOf · target.type)
  let length ← readTable (sizeOf · expr.type)
  if size = 0 then assignIncomplete block target expr length
  else
    let expr :=
      if length > size then
        { expr with type := target.type, l := { expr.l with type := target.type } }
      else expr
    emitIr block { st := .assign, t := { target with type := expr.type }, expr := expr }
    let n ← readTable (sizeOf · expr.type)
    pure { target with offset := target.offset + BitVec.ofNat 64 n }

/-- `is_immediate` as the macro of the same name has it: the end of an assignment, whose value is
the constant or the target. -/
def emitAssign (block : BlockRef) (target : Var) (expr : Expression) : EvalM Var := do
  emitIr block { st := .assign, t := target, expr := expr }
  let immediate ← isImmediate expr
  pure (if immediate then expr.l else { target with lvalue := false })

/-- The type in which `assign_field` converts a value. -/
def fieldType (size : Nat) : Option CType :=
  if size = 1 then some basicTypeBool
  else if size = 2 then some basicTypeShort
  else if size = 4 then some basicTypeInt
  else if size = 8 then some basicTypeLong
  else none

/-- The constant that `assign_field` stores: bits behind the width of the field are removed, or
filled with its sign.  Shift counts are taken modulo the word. -/
def maskField (target : Var) (imm : Value) : Value :=
  let mask : BitVec 64 := (1#64 <<< (target.fieldWidth % 64)) - 1
  let x := imm.lo &&& mask
  if target.type.isSigned && x &&& (1#64 <<< ((target.fieldWidth - 1) % 64)) ≠ 0 then
    { imm with lo := x ||| ~~~mask }
  else { imm with lo := x }

/-- `assign_field` -/
def assignField (block : BlockRef) (target : Var) (expr : Expression) : EvalM Var := do
  if !target.isField || !target.type.isInteger then abort
  let size ← readTable (sizeOf · target.type)
  let type ← readTable fun _ => fieldType size
  let immediate ← isImmediate expr
  if immediate then
    let l := { expr.l with imm := maskField target expr.l.imm, type := type }
    emitAssign block target { expr with l := l, type := type }
  else
    let equal ← readTable (typeEqual · type expr.type)
    if equal then emitAssign block target expr
    else
      let val ← eval block expr
      let expr ← evalTyped block .cast val type
      emitAssign block target expr

/-- `eval_assign_pointer` -/
def evalAssignPointer (block : BlockRef) (target : Var) (expr : Expression) : EvalM Var := do
  if !target.type.isPointerType then abort
  if !expr.type.isPointerType && !expr.type.isInteger then
    fail "Incompatible pointer assignment between %t and %t."
  let identity ← isIdentity expr
  let l := if identity then { expr.l with type := target.type } else expr.l
  emitAssign block target { expr with l := l, type := target.type }

/-- `eval_bool` -/
def evalBool (block : BlockRef) (expr : Expression) : EvalM Expression :=
  if expr.type.isBool then pure expr
  else do
    let val ← eval block expr
    let zero ← immSigned basicTypeLong 0
    evalBinary block .ne zero val

/-- The conversion of an arithmetic value that is assigned. -/
def convertAssigned (block : BlockRef) (type : CType) (expr : Expression) : EvalM Expression := do
  let immediate ← isImmediate expr
  if immediate then
    let val ← evalCast block expr.l type
    pure (asExpr val)
  else
    let equal ← readTable (typeEqual · type expr.type)
    if equal then pure expr
    else
      let val ← eval block expr
      evalTyped block .cast val type

/-- `eval_assign` once arrays have decayed and truth values are converted. -/
def assignValue (block : BlockRef) (target : Var) (expr : Expression) : EvalM Var := do
  if target.type.isPointerType then evalAssignPointer block target expr
  else if target.type.isArithmetic && expr.type.isArithmetic then
    if target.isField then assignField block target expr
    else
      let expr ← convertAssigned block target.type expr
      emitAssign block target expr
  else if target.type.isStructOrUnion then
    let compatible ← readTable (isCompatibleUnqualified · target.type expr.type)
    if compatible then emitAssign block target expr
    else fail "Incompatible value of type %t assigned to variable of type %t."
  else fail "Incompatible value of type %t assigned to variable of type %t."

/-- `eval_assign` -/
def evalAssign (block : BlockRef) (target : Var) (expr : Expression) : EvalM Var := do
  if !target.lvalue then fail "Target of assignment must be l-value."
  if target.type.isArray then evalAssignStringLiteral block target expr
  else
    let identity ← isIdentity expr
    let expr ← if identity then (do
        let var ← rvalue block expr.l
        pure (asExpr var))
      else pure expr
    let expr ← if target.type.isBool then evalBool block expr else pure expr
    assignValue block target expr

/-- `eval_assign` of a value to a new temporary. -/
def evalTemporary (block : BlockRef) (var : Var) : EvalM Var := do
  let tmp ← createVar var.type
  evalAssign block tmp (asExpr var)

/-- `eval_deref` of a pointer in the storage of a symbol, behind its assertions. -/
def derefDirect (var : Var) : EvalM Var := do
  if var.kind ≠ .direct || var.offset ≠ 0 || !var.type.isPointerType then abort
  let type ← readTable (typeDeref · var.type)
  pure { var with kind := .deref, type := type, lvalue := true }

/-- `eval_deref` -/
def evalDeref (block : BlockRef) (var : Var) : EvalM Var := do
  let var ← rvalue block var
  if !var.type.isPointerType then fail "Dereferencing non-pointer type '%t'."
  match var.kind with
  | .deref =>
    let var ← evalTemporary block var
    derefDirect var
  | .direct =>
    if var.offset ≠ 0 || !var.symbol.any (·.type.isPointerType) then
      let var ← evalTemporary block var
      derefDirect var
    else derefDirect var
  | .address =>
    let type ← readTable (typeDeref · var.type)
    pure { var with kind := .direct, type := type, lvalue := true }
  | .immediate =>
    let type ← readTable (typeDeref · var.type)
    if var.symbol.all (·.symtype = .stringValue) then
      pure { var with kind := .deref, type := type, lvalue := true }
    else abort

end Definitions

/-! ## Pointers in temporaries -/

section Temporaries

variable [HostFloat] {env : RunEnv} {b : BlockId} {s : EvalState} {m : Memory} {p : Var} {a : Nat}

/-- Copying a pointer emits one assignment. -/
theorem evalTemporary_eq (hpointer : p.type.isPointerType = true) (hfield : p.fieldWidth = 0)
    (hkind : p.kind ≠ .immediate) :
    ∃ (sym : Symbol) (res : Var), sym.id = s.symbols.length ∧ sym.type = p.type ∧
      sym.symtype = .definition ∧ res.kind = .direct ∧ res.type = p.type ∧
      res.symbol = some sym ∧ res.offset = 0 ∧ res.fieldWidth = 0 ∧
      evalTemporary (some b) p s = .ok ({ res with lvalue := false },
        { s with
          symbols := s.symbols ++ [sym]
          locals := s.locals ++ [sym.id]
          blocks := s.blocks.modify b fun blk =>
            { blk with
              code := blk.code ++ [{ st := .assign, t := res, expr := asExpr p }] } }) := by
  rcases CType.isScalar_of_isPointerType hpointer with ⟨-, hfunction, harray, hvoid, -, -⟩
  have hbool : p.type.isBool = false := by
    rw [CType.isBool, CType.typeOf_of_isPointerType hpointer]
    rfl
  have hrvalue : rvalue (some b) p = pure p :=
    rvalue_of_scalar (some b) (by simp [Var.isField, hfield]) hfunction harray
  have himmediate : isImmediate (asExpr p) = pure false := by
    rw [isImmediate, isIdentity_asExpr, pure_bind]
    simp [asExpr, hkind]
  refine ⟨{ id := s.symbols.length, name := prefixTemporary, type := p.type },
    { varDirect { id := s.symbols.length, name := prefixTemporary, type := p.type } with
      lvalue := true }, rfl, rfl, rfl, rfl, rfl, rfl, rfl, rfl, ?_⟩
  -- The value is a pointer already, so that no conversion is made.
  have hassign : ∀ t : Var, t.lvalue = true → t.type = p.type →
      evalAssign (some b) t (asExpr p) = (do
        emitIr (some b) { st := .assign, t := t, expr := asExpr p }
        pure { t with lvalue := false }) := by
    intro t hlvalue htype
    have hsame : ({ asExpr p with l := { p with type := t.type }, type := t.type } : Expression) =
        asExpr p := by
      rw [htype]
      rfl
    have hl : (asExpr p).l = p ∧ (asExpr p).type = p.type := ⟨rfl, rfl⟩
    simp only [evalAssign, hlvalue, htype, harray, hbool, isIdentity_asExpr, hl, hrvalue, pure_bind,
      if_true, if_false, Bool.not_true, Bool.false_eq_true, assignValue, hpointer,
      evalAssignPointer, Bool.false_and, emitAssign]
    rw [htype] at hsame
    simp only [hsame, himmediate, pure_bind, Bool.false_eq_true, if_false]
  have hrun := congrFun
    (hassign { varDirect { id := s.symbols.length, name := prefixTemporary, type := p.type } with
      lvalue := true } rfl rfl)
    { s with
      symbols := s.symbols ++ [{ id := s.symbols.length, name := prefixTemporary, type := p.type }]
      locals := s.locals ++ [s.symbols.length] }
  simp only [evalTemporary, createVar, hvoid, Bool.false_eq_true, if_false, bind_assoc, pure_bind]
  exact hrun

/-- The copy points to the same address. -/
theorem evalTemporary_emits (h : PointsTo env s.symbols.length m p a)
    (hroom : Room env s.symbols.length) (hkind : p.kind ≠ .immediate) :
    Emits env b s m (evalTemporary (some b) p) fun w s' m' =>
      PointsTo env s'.symbols.length m' w a ∧ w.type = p.type ∧
        IsTemporary s'.symbols.length w p.type := by
  rcases evalTemporary_eq (b := b) (s := s) h.pointer h.fieldWidth hkind with
    ⟨sym, res, hid, hsymtype, hdefinition, hres, htype, hsymbol, hoffset, hfield, heval⟩
  rcases storeTemporary_run (e := asExpr p) hroom hid hres (by rw [htype]; exact h.pointer)
    hsymbol hoffset hfield (by simp [asExpr]) h.pureValue_eq h.lt with ⟨m', hrun, hagree, hpoints⟩
  refine ⟨_, _, _, m', heval, ⟨rfl, by simp, rfl⟩, hrun, by simpa using hagree, ?_, htype, ?_⟩
  · simpa using hpoints
  · exact ⟨hres, hoffset, sym, hsymbol, by simp [hid], hsymtype, hdefinition⟩

end Temporaries

end Kcs
