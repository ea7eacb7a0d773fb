import Kcs.Vm.Branch

/-!
# Conversions on the virtual machine

`VM_CAST` reads a source type in the low bytes of the slot on top and replaces
as many bytes as the target has.  Conversion to an integer type of its own size
is right for every slot.  Truth values and floating numbers are made from all
64 bits of the slot, and nothing is done for pointers, so these depend on the
bytes above the source value.

Main results:

- Theorem {lit}`cast_converts_iff`: these are exactly the slots that are converted
  right.
-/

namespace Kcs.Vm

open Option IntFormat

/-! ## What is converted -/

section Cast

variable (L : Layout)

/-- The integer that `CAST_FROM` hands to a conversion to a floating type: the
slot as `uint64_t`. -/
def realOperand (src dst : CType) (t : State) : Option Nat :=
  if dst.isReal then (castSource src).map fun _ => t.top L else none

/-- `VM_CAST` does what C says: the slot read in the target type is the converted
source value, and a floating conversion gets the source value. -/
def CastConverts (src dst : CType) (s t : State) : Prop :=
  ∃ i, wordOf src = some i ∧
    if dst.isReal then
      ∃ n : Nat, realOperand L src dst t = some n ∧ slotInt i (t.top L) = n
    else
      ∃ j k u y, dst.wordType = some j ∧ wordOf dst = some k ∧ execCast L src dst t = some u ∧
        Pushed L s u y ∧ slotInt k y = j.convert (slotInt i (t.top L))

/-- The bytes of the slot above the source value are such that the conversion is
right.  Integer targets take any bytes. -/
def CastExtended (src dst : CType) (i : CInteger) (x : Nat) : Prop :=
  match dst.typeOf with
  | .bool => if src.isPointerType then x = 0 ∨ x % 2 ^ 8 = 1 else slotInt i x = 0 → x = 0
  | .pointer => toSlot (slotInt i x) = x
  | .float | .double | .ldouble => src.isPointerType = false ∧ slotInt i x = x
  | _ => True

end Cast

variable {L : Layout} {s t : State} {src dst : CType} {i k : CInteger} {x : Nat}

/-! ## Slots -/

theorem slotInt_replaceLow {size : Nat} {n : Int} (hsize : size ≤ 8)
    (hwidth : k.format.width = 8 * size) :
    slotInt k (replaceLow x size (toSlot n)) = k.format.wrap n := by
  have hpow : (256 : Nat) ^ size = 2 ^ k.format.width := by
    rw [hwidth, pow_mul]
    rfl
  have hdvd : (2 : Int) ^ k.format.width ∣ 2 ^ 64 := pow_dvd_pow 2 (by omega)
  have hlow : replaceLow x size (toSlot n) % 2 ^ k.format.width =
      toSlot n % 2 ^ k.format.width := by
    rw [replaceLow, hpow]
    simp
  apply wrap_congr
  calc ((replaceLow x size (toSlot n) : Nat) : Int) % 2 ^ k.format.width
      = (toSlot n : Int) % 2 ^ k.format.width := by exact_mod_cast hlow
    _ = n % 2 ^ k.format.width := by rw [cast_toSlot, Int.emod_emod_of_dvd _ hdvd]

theorem slotInt_uchar (x : Nat) : slotInt .uchar x = (x % 2 ^ 8 : Nat) := by
  rw [slotInt, wrap_unsigned rfl]
  norm_cast

theorem wordOf_castSource {type : CType} (h : wordOf type = some k) :
    (type.typeOf = .pointer ∧ k = .ulong ∧ type.wordType = some .ulong ∧
        castSource type = none) ∨
      ∃ c, type.typeOf = integerKind c ∧ type.wordType = some c ∧
        (k = if c = .bool then .uchar else c) ∧ castSource type = some k := by
  by_cases hpointer : type.typeOf = .pointer
  · left
    have hword : type.wordType = some .ulong := by
      simp [CType.wordType, CType.isPointerType, hpointer]
    rw [wordOf, hword] at h
    refine ⟨hpointer, by simpa using h.symm, hword, ?_⟩
    simp [castSource, hpointer]
  · right
    have hword : type.wordType = type.cInteger := by
      simp [CType.wordType, CType.isPointerType, hpointer]
    cases hc : type.cInteger with
    | none => simp [wordOf, hword, hc] at h
    | some c =>
      rcases CType.cInteger_eq_some_iff.mp hc with ⟨hkind, hunsigned⟩
      have hsigned : type.isSigned = !type.isUnsignedType := by
        rw [CType.isSigned, CType.isInteger_of_cInteger hc, Bool.and_true]
      rw [wordOf, hword, hc] at h
      have hk : k = if c = .bool then .uchar else c := by
        cases c <;> simpa using h.symm
      refine ⟨c, hkind, hword.trans hc, hk, ?_⟩
      rw [castSource, hkind, hsigned, hunsigned, hk]
      cases c <;> rfl

theorem slotInt_ulong (hx : x < 2 ^ 64) : slotInt .ulong x = x := by
  rw [slotInt, wrap_unsigned rfl]
  exact Int.emod_eq_of_lt (by positivity) (by exact_mod_cast hx)

theorem slotInt_zero (c : CInteger) : slotInt c 0 = 0 := by
  cases c <;> rfl

/-! ## Targets -/

theorem castSlot_pointer_iff (hdst : dst.typeOf = .pointer) (hx : x < 2 ^ 64) :
    slotInt .ulong (castSlot src dst x) = CInteger.ulong.convert (slotInt i x) ↔
      toSlot (slotInt i x) = x := by
  have hslot : castSlot src dst x = x := by
    unfold castSlot
    rw [hdst]
    cases castSource src <;> rfl
  have hconvert : CInteger.ulong.convert (slotInt i x) = (toSlot (slotInt i x) : Nat) := by
    rw [CInteger.convert, if_neg (by decide), cast_toSlot]
    exact wrap_unsigned rfl _
  rw [hslot, hconvert, slotInt_ulong hx, Nat.cast_inj]
  exact eq_comm

theorem castSlot_bool_iff (hsrc : wordOf src = some i) (hdst : dst.typeOf = .bool)
    (hx : x < 2 ^ 64) :
    slotInt .uchar (castSlot src dst x) = CInteger.bool.convert (slotInt i x) ↔
      if src.isPointerType then x = 0 ∨ x % 2 ^ 8 = 1 else slotInt i x = 0 → x = 0 := by
  rw [slotInt_uchar, CInteger.convert, if_pos rfl]
  rcases wordOf_castSource hsrc with ⟨hkind, rfl, -, hsource⟩ | ⟨c, hkind, -, -, hsource⟩
  · have hpointer : src.isPointerType = true := by simp [CType.isPointerType, hkind]
    have hslot : castSlot src dst x = x := by simp [castSlot, hsource]
    rw [hslot, slotInt_ulong hx, if_pos hpointer]
    split <;> omega
  · have hpointer : src.isPointerType = false := by
      rw [CType.isPointerType, hkind]
      cases c <;> rfl
    have hslot : castSlot src dst x % 2 ^ 8 = if x = 0 then 0 else 1 := by
      simp only [castSlot, hsource, hdst, replaceLow]
      split <;> omega
    rw [hslot, hpointer]
    by_cases h : x = 0
    · subst h
      simp [slotInt_zero]
    · by_cases hn : slotInt i x = 0 <;> simp [h, hn]

theorem castSlot_integer (hsrc : wordOf src = some i) (hdst : dst.typeOf = integerKind k)
    (hbool : k ≠ .bool) (hx : x < 2 ^ 64) :
    slotInt k (castSlot src dst x) = k.convert (slotInt i x) := by
  rw [CInteger.convert, if_neg hbool]
  rcases wordOf_castSource hsrc with ⟨-, rfl, -, hsource⟩ | ⟨-, -, -, -, hsource⟩
  · have hslot : castSlot src dst x = x := by simp [castSlot, hsource]
    rw [hslot, slotInt_ulong hx]
    rfl
  · unfold castSlot
    rw [hsource, hdst]
    cases k with
    | bool => exact absurd rfl hbool
    | char | uchar | short | ushort | int | uint | long | ulong =>
      exact slotInt_replaceLow (by decide) rfl

theorem castSlot_converts_iff {j : CInteger} (hsrc : wordOf src = some i)
    (hdst : wordOf dst = some k) (hword : dst.wordType = some j) (hx : x < 2 ^ 64) :
    slotInt k (castSlot src dst x) = j.convert (slotInt i x) ↔ CastExtended src dst i x := by
  rcases wordOf_castSource hdst with ⟨hkind, rfl, hj, -⟩ | ⟨c, hkind, hj, rfl, -⟩
  · rw [hj, some.injEq] at hword
    subst hword
    rw [castSlot_pointer_iff hkind hx, CastExtended, hkind]
  · rw [hj, some.injEq] at hword
    subst hword
    by_cases hc : c = .bool
    · subst hc
      rw [if_pos rfl, castSlot_bool_iff hsrc hkind hx, CastExtended, hkind]
      rfl
    · rw [if_neg hc, CastExtended, hkind]
      have hconvert := castSlot_integer hsrc hkind hc hx
      cases c with
      | bool => exact absurd rfl hc
      | char | uchar | short | ushort | int | uint | long | ulong =>
        exact iff_of_true hconvert trivial

theorem realOperand_iff (hsrc : wordOf src = some i) (hdst : dst.isReal = true)
    (htop : t.top L = x) :
    (∃ n : Nat, realOperand L src dst t = some n ∧ slotInt i x = n) ↔
      CastExtended src dst i x := by
  have hextended : CastExtended src dst i x ↔ src.isPointerType = false ∧ slotInt i x = x := by
    unfold CType.isReal at hdst
    unfold CastExtended
    cases hkind : dst.typeOf with
    | float | double | ldouble => rfl
    | _ => simp [hkind, TypeKind.code] at hdst
  rw [hextended, realOperand, if_pos hdst]
  rcases wordOf_castSource hsrc with ⟨hkind, -, -, hsource⟩ | ⟨c, hkind, -, -, hsource⟩
  · simp [hsource, CType.isPointerType, hkind]
  · have hpointer : src.isPointerType = false := by
      rw [CType.isPointerType, hkind]
      cases c <;> rfl
    simp only [hsource, hpointer, map_some, htop, some.injEq, true_and, exists_eq_left']

/-! ## Every conversion -/

theorem castConverts_iff_slot {j : CInteger} (hpushed : Pushed L s t x)
    (hroom : s.free L + 8 ≤ L.limit) (hsrc : wordOf src = some i) (hdst : wordOf dst = some k)
    (hword : dst.wordType = some j) :
    CastConverts L src dst s t ↔ slotInt k (castSlot src dst x) = j.convert (slotInt i x) := by
  have hreal := (wordOf_kinds hdst).2
  rcases execCast_pushed hpushed hroom (wordOf_kinds hsrc).2 hreal with ⟨u, hu, hslot⟩
  constructor
  · rintro ⟨i', hi', hconvert⟩
    rw [hsrc, some.injEq] at hi'
    subst hi'
    rw [hreal] at hconvert
    rcases hconvert with ⟨j', k', u', y, hj, hk, hu', hy, hvalue⟩
    rw [hword, some.injEq] at hj
    rw [hdst, some.injEq] at hk
    rw [hu, some.injEq] at hu'
    subst hj hk hu'
    rwa [← hslot.top, ← hpushed.top, hy.top]
  · intro hvalue
    refine ⟨i, hsrc, ?_⟩
    rw [hreal]
    exact ⟨j, k, u, _, hword, hdst, hu, hslot, by rwa [hpushed.top]⟩

/-- `VM_CAST` converts the value in the low bytes of a slot as C does exactly when the
bytes above it extend it, as far as the target reads them. -/
theorem cast_converts_iff (hpushed : Pushed L s t x) (hroom : s.free L + 8 ≤ L.limit)
    (hsrc : wordOf src = some i) (hdst : wordOf dst = some k ∨ dst.isReal = true) :
    CastConverts L src dst s t ↔ CastExtended src dst i x := by
  have hx : x < 2 ^ 64 := hpushed.top ▸ Memory.load_lt t.mem (t.topAddr L) 8
  by_cases hreal : dst.isReal = true
  · rw [← realOperand_iff hsrc hreal hpushed.top]
    simp [CastConverts, hsrc, hreal, hpushed.top]
  · rcases hdst with hdst | hdst
    · rcases wordOf_castSource hdst with ⟨-, -, hword, -⟩ | ⟨_, -, hword, -, -⟩
      · rw [castConverts_iff_slot hpushed hroom hsrc hdst hword,
          castSlot_converts_iff hsrc hdst hword hx]
      · rw [castConverts_iff_slot hpushed hroom hsrc hdst hword,
          castSlot_converts_iff hsrc hdst hword hx]
    · exact absurd hdst hreal

/-- A constant on the stack becomes a truth value. -/
theorem cast_converts_seven :
    CastConverts sampleLayout basicTypeInt basicTypeBool (sampleState fun _ => 0)
      ((sampleState fun _ => 0).push sampleLayout 7) :=
  (cast_converts_iff (k := .uchar) (Pushed.push (by decide) (by decide)) (by decide) rfl
    (Or.inl rfl)).mpr fun h => absurd h (by decide)

/-- A zero of type `int` below other bytes becomes true. -/
theorem zero_cast_wrong :
    ¬ CastConverts sampleLayout basicTypeInt basicTypeBool (sampleState fun _ => 0)
      ((sampleState fun _ => 0).push sampleLayout 4294967296) := by
  have hpushed : Pushed sampleLayout (sampleState fun _ => 0)
      ((sampleState fun _ => 0).push sampleLayout 4294967296) 4294967296 :=
    Pushed.push (by decide) (by decide)
  rw [castConverts_iff_slot hpushed (by decide) (i := .int) (k := .uchar) (j := .bool) rfl rfl rfl]
  decide

end Kcs.Vm
