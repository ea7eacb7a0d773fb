import Kcs.Vm.Plain

/-!
# Low bytes of slots

How much of its operands an operator looks at.  Most instructions read a slot in an
integer type.  A conversion to a truth value looks at the whole slot, and other
conversions and steps leave bytes of the operand in their result.

Main results:

- Theorem {lit}`operatorSlot_low`: operands that agree in these bytes give results
  that agree in theirs.
-/

namespace Kcs.Vm

open Option

/-! ## Agreement in low bytes -/

/-- Two slots have the same low bytes. -/
def SameLow (n x x' : Nat) : Prop := x % 256 ^ n = x' % 256 ^ n

variable {env : GenEnv} {e : Expression} {k : CInteger} {m n size x x' y y' z z' v v' : Nat}

theorem SameLow.refl (n x : Nat) : SameLow n x x := rfl

theorem SameLow.mono (h : SameLow n x x') (hle : m ≤ n) : SameLow m x x' := by
  have hdvd : 256 ^ m ∣ 256 ^ n := pow_dvd_pow 256 hle
  unfold SameLow at h ⊢
  rw [← Nat.mod_mod_of_dvd x hdvd, h, Nat.mod_mod_of_dvd x' hdvd]

theorem SameLow.eq (h : SameLow n x x') (hn : 8 ≤ n) (hx : x < 2 ^ 64) (hx' : x' < 2 ^ 64) :
    x = x' := by
  have hword := h.mono hn
  unfold SameLow at hword
  rw [show (256 : Nat) ^ 8 = 2 ^ 64 by norm_num, Nat.mod_eq_of_lt hx, Nat.mod_eq_of_lt hx'] at hword
  exact hword

theorem pow_byteSize (h : k ≠ .bool) : 256 ^ byteSize k = 2 ^ k.format.width := by
  cases k <;> first | exact absurd rfl h | rfl

theorem SameLow.slotInt_eq (h : SameLow n x x') (hk : k ≠ .bool) (hn : byteSize k ≤ n) :
    slotInt k x = slotInt k x' := by
  have hlow := h.mono hn
  unfold SameLow at hlow
  rw [pow_byteSize hk] at hlow
  apply IntFormat.wrap_congr
  exact_mod_cast hlow

theorem sameLow_toSlot (hk : k ≠ .bool) : SameLow (byteSize k) x (toSlot (slotInt k x)) := by
  have hwidth : k.format.width ≤ 64 := by
    cases k <;> first | exact absurd rfl hk | decide
  have hdvd : (2 : Int) ^ k.format.width ∣ 2 ^ 64 := pow_dvd_pow 2 hwidth
  unfold SameLow
  rw [pow_byteSize hk]
  have hmod : (toSlot (slotInt k x) : Int) % 2 ^ k.format.width = x % 2 ^ k.format.width := by
    rw [cast_toSlot, Int.emod_emod_of_dvd _ hdvd, slotInt, IntFormat.wrap_emod_width]
  exact_mod_cast hmod.symm

theorem SameLow.replaceLow (hx : size < m → SameLow m x x') (hv : SameLow (min m size) v v') :
    SameLow m (replaceLow x size v) (replaceLow x' size v') := by
  rcases Nat.lt_or_ge size m with hlt | hle
  · have hpow : 256 ^ m = 256 ^ size * 256 ^ (m - size) := by
      rw [← pow_add, Nat.add_sub_cancel' hlt.le]
    have hlow := hx hlt
    rw [min_eq_right hlt.le] at hv
    unfold SameLow Kcs.Vm.replaceLow at *
    have hupper : x / 256 ^ size % 256 ^ (m - size) = x' / 256 ^ size % 256 ^ (m - size) := by
      rw [← Nat.mod_mul_right_div_self, ← Nat.mod_mul_right_div_self, ← hpow, hlow]
    have hsplit : ∀ a b, (a * 256 ^ size + b % 256 ^ size) % 256 ^ m =
        b % 256 ^ size + 256 ^ size * (a % 256 ^ (m - size)) := by
      intro a b
      rw [hpow, Nat.mod_mul, Nat.mul_add_mod_self_right, Nat.mod_mod, Nat.add_comm (a * _),
        Nat.add_mul_div_right _ _ (by positivity), Nat.div_eq_of_lt (Nat.mod_lt _ (by positivity)),
        Nat.zero_add]
    rw [hsplit, hsplit, hupper, hv]
  · rw [min_eq_left hle] at hv
    have hdvd : 256 ^ m ∣ 256 ^ size := pow_dvd_pow 256 hle
    have hlow : ∀ a b, SameLow m (Kcs.Vm.replaceLow a size b) b := by
      intro a b
      unfold SameLow Kcs.Vm.replaceLow
      have hzero : a / 256 ^ size * 256 ^ size % 256 ^ m = 0 :=
        Nat.mod_eq_zero_of_dvd (hdvd.mul_left _)
      rw [Nat.add_mod, hzero, Nat.zero_add, Nat.mod_mod, Nat.mod_mod_of_dvd _ hdvd]
    exact ((hlow x v).trans hv).trans (hlow x' v').symm

/-! ## What operators read -/

/-- Bytes that a conversion to a type replaces. -/
def castBytes (dst : CType) : Option Nat :=
  match dst.typeOf with
  | .char => some 1
  | .short => some 2
  | .int => some 4
  | .long => some 8
  | _ => none

/-- The low bytes of the operand that is loaded first on which the low {lit}`m` bytes of the result
depend. -/
def bytesRead (env : GenEnv) (e : Expression) (m : Nat) : Nat :=
  match e.op with
  | .cast =>
    if typeEqual env.types e.type e.l.type = some true then m
    else
      match castSource e.l.type with
      | none => m
      | some c =>
        match castBytes e.type with
        | some size => if m ≤ size then byteSize c else max (byteSize c) m
        | none => if e.type.typeOf = .bool then 8 else m
  | .not | .neg => ((optypeInteger (getVmOptype e.l.type)).map byteSize).getD 0
  | _ =>
    if (incdecSteps e).isSome then m
    else ((optypeInteger (exprOptype e)).map byteSize).getD 0

theorem optypeInteger_ne_bool {type : VmOptype} (h : optypeInteger type = some k) :
    k ≠ .bool := by
  rintro rfl
  cases type <;> cases h

theorem castSource_ne_bool {src : CType} (h : castSource src = some k) : k ≠ .bool := by
  rintro rfl
  unfold castSource at h
  split at h <;> first | (split at h <;> cases h) | cases h

theorem castSlot_of_castBytes {src dst : CType} (hsrc : castSource src = some k)
    (hdst : castBytes dst = some size) :
    castSlot src dst x = replaceLow x size (toSlot (slotInt k x)) := by
  unfold castBytes at hdst
  simp only [castSlot, hsrc]
  cases htype : dst.typeOf <;> rw [htype] at hdst <;> cases hdst <;> rfl

theorem castSlot_of_none {src dst : CType} (hdst : castBytes dst = none)
    (hbool : dst.typeOf ≠ .bool) : castSlot src dst x = x := by
  unfold castBytes at hdst
  unfold castSlot
  cases castSource src with
  | none => rfl
  | some c =>
    cases htype : dst.typeOf with
    | bool => exact absurd htype hbool
    | char | short | int | long => simp [htype] at hdst
    | _ => rfl

theorem castSlot_low (hop : e.op = .cast)
    (hequal : typeEqual env.types e.type e.l.type = some false)
    (hread : bytesRead env e m ≤ n) (hlow : SameLow n x x') (hx : x < 2 ^ 64)
    (hx' : x' < 2 ^ 64) :
    SameLow m (castSlot e.l.type e.type x) (castSlot e.l.type e.type x') := by
  simp only [bytesRead, hop, hequal, some.injEq, Bool.false_eq_true, if_false] at hread
  cases hsrc : castSource e.l.type with
  | none =>
    simp only [hsrc] at hread
    simpa [castSlot, hsrc] using hlow.mono hread
  | some c =>
    simp only [hsrc] at hread
    have hne := castSource_ne_bool hsrc
    cases hdst : castBytes e.type with
    | some size =>
      simp only [hdst] at hread
      rw [castSlot_of_castBytes hsrc hdst, castSlot_of_castBytes hsrc hdst]
      have hbytes : byteSize c ≤ n ∧ (size < m → m ≤ n) := by
        split at hread <;> omega
      rw [hlow.slotInt_eq hne hbytes.1]
      exact SameLow.replaceLow (fun hlt => hlow.mono (hbytes.2 hlt)) (SameLow.refl _ _)
    | none =>
      simp only [hdst] at hread
      by_cases hbool : e.type.typeOf = .bool
      · rw [if_pos hbool] at hread
        rw [hlow.eq hread hx hx']
        exact SameLow.refl _ _
      · rw [if_neg hbool] at hread
        rw [castSlot_of_none hdst hbool, castSlot_of_none hdst hbool]
        exact hlow.mono hread

theorem incdecSlot_low (hlow : SameLow m x x') (d : Int) :
    SameLow m (incdecSlot x d) (incdecSlot x' d) := by
  have hreplace : ∀ a : Nat, incdecSlot a d = replaceLow a 4 ((a + d) % 2 ^ 32).toNat := by
    intro a
    have hpow : (256 : Nat) ^ 4 = 2 ^ 32 := by norm_num
    unfold incdecSlot replaceLow
    rw [hpow]
    omega
  rw [hreplace, hreplace]
  apply SameLow.replaceLow (fun _ => hlow)
  have hdvd : (256 : Nat) ^ min m 4 ∣ 2 ^ 32 := by
    rw [show (2 : Nat) ^ 32 = 256 ^ 4 by norm_num]
    exact pow_dvd_pow 256 (min_le_right m 4)
  have hmin := hlow.mono (min_le_left m 4)
  unfold SameLow at hmin ⊢
  generalize 256 ^ min m 4 = q at hdvd hmin ⊢
  have hdvd' : (q : Int) ∣ 2 ^ 32 := by exact_mod_cast hdvd
  have hmod : ∀ a : Nat, ((((a + d) % 2 ^ 32).toNat % q : Nat) : Int) = (a + d) % q := by
    intro a
    have hnonneg := Int.emod_nonneg (a + d) (b := 2 ^ 32) (by decide)
    rw [Int.natCast_mod, Int.toNat_of_nonneg hnonneg, Int.emod_emod_of_dvd _ hdvd']
  have hsum : (x + d) % q = (x' + d) % q := by
    rw [Int.add_emod, Int.add_emod (x' : Int)]
    have : (x : Int) % q = x' % q := by exact_mod_cast hmin
    rw [this]
  have hboth := (hmod x).trans (hsum.trans (hmod x').symm)
  exact_mod_cast hboth

/-- Operands that agree in the bytes that are read give results that agree.  The count of a shift
must be the same. -/
theorem operatorSlot_low (hread : bytesRead env e m ≤ n) (hlow : SameLow n x x')
    (hx : x < 2 ^ 64) (hx' : x' < 2 ^ 64)
    (hy : y = y' ∨ SameLow n y y' ∧ ∀ o, e.op.binaryOp = some o → o.isShift = false)
    (h : operatorSlot env e x' y' = some z') :
    ∃ z, operatorSlot env e x y = some z ∧ SameLow m z z' := by
  cases hsteps : incdecSteps e with
  | some d =>
    have hle : m ≤ n := by
      rcases incdecSteps_eq_some hsteps with ⟨-, -, ⟨hop, -⟩ | ⟨hop, -⟩⟩ <;>
        simpa [bytesRead, hop, hsteps] using hread
    rw [operatorSlot_steps hsteps, some.injEq] at h
    subst h
    exact ⟨_, operatorSlot_steps hsteps, incdecSlot_low (hlow.mono hle) d⟩
  | none =>
    cases hop : e.op.binaryOp with
    | some o =>
      rw [operatorSlot_binary hop hsteps] at h ⊢
      refine ⟨z', ?_, SameLow.refl _ _⟩
      rw [← h]
      unfold binarySlot
      cases hk : optypeInteger (exprOptype e) with
      | none => rfl
      | some k =>
        have hbytes : byteSize k ≤ n := by
          cases hcase : e.op <;> simp [hcase, OpType.binaryOp] at hop <;>
            simpa [bytesRead, hcase, hsteps, hk] using hread
        have hne := optypeInteger_ne_bool hk
        have hsecond : (if o.isShift then shiftCount k y else slotInt k y) =
            if o.isShift then shiftCount k y' else slotInt k y' := by
          rcases hy with rfl | ⟨hlow', hshift⟩
          · rfl
          · rw [hshift o hop, if_neg (by decide), if_neg (by decide)]
            exact hlow'.slotInt_eq hne hbytes
        simp only [bind_some, hlow.slotInt_eq hne hbytes, hsecond]
    | none =>
      cases hcase : e.op <;> simp [hcase, OpType.binaryOp] at hop
      case call => simp [operatorSlot, hcase] at h
      case vaArg => simp [operatorSlot, hcase, hsteps, OpType.binaryOp] at h
      case cast =>
        simp only [operatorSlot, hcase, map_eq_some_iff] at h ⊢
        rcases h with ⟨equal, hequal, rfl⟩
        refine ⟨_, ⟨equal, hequal, rfl⟩, ?_⟩
        cases equal with
        | true =>
          have hle : m ≤ n := by simpa [bytesRead, hcase, hequal] using hread
          exact hlow.mono hle
        | false => exact castSlot_low hcase hequal hread hlow hx hx'
      case not | neg =>
        simp only [operatorSlot, hcase, unarySlot, map_eq_some_iff] at h ⊢
        rcases h with ⟨k, hk, rfl⟩
        have hbytes : byteSize k ≤ n := by simpa [bytesRead, hcase, hk] using hread
        refine ⟨_, ⟨k, hk, rfl⟩, ?_⟩
        rw [hlow.slotInt_eq (optypeInteger_ne_bool hk) hbytes]
        exact SameLow.refl _ _

end Kcs.Vm
