import Kcs.Ext.Basic
import Kcs.Lib.Block

/-!
# Growing strings

The strings of the extended library, `string_t` of `ext.h` and `ext_string.c`.

Main results:

- Theorem {lit}`strings_represent`: the invariant over all sequences of operations that never
  append to a string without a buffer.
-/

namespace Kcs.Ext

open Option List Function

/-- A character. -/
abbrev CChar := BitVec 8

/-- What a `char *` points to: characters and the terminator behind them. -/
structure CString where
  chars : List CChar
  nulFree : 0#8 ∉ chars

/-- The memory of a C string. -/
def CString.block (s : CString) : Block CChar := (s.chars ++ [0#8]).map some

/-- `strlen` -/
def strlen (s : CString) : BitVec 64 := BitVec.ofNat 64 s.chars.length

/-- `string_t` -/
structure StringT where
  cstr : Option (Block CChar)
  cap : BitVec 32
  len : BitVec 32

/-- `KCC_CAPACITY_STR_UNIT` -/
def kccCapacityStrUnit : BitVec 32 := 32#32

/-- `KCC_CAPACITY` -/
def kccCapacity (len : Length) : BitVec 32 := capacityFor kccCapacityStrUnit len

/-! ## Operations -/

/-- `string_append_cstr_with_len_to_empty` -/
def stringAppendToEmpty (rhs : Block CChar) (rlen : Length) : Option StringT :=
  let cap := kccCapacity rlen
  let cstr := Block.malloc cap.toNat
  (if rlen.isPositive then cstr.memcpy 0 rhs 0 rlen.size else some cstr).map fun cstr =>
    { cstr := some cstr, cap := cap, len := rlen.value }

/-- `string_append_cstr_with_len_to_allocated` -/
def stringAppendToAllocated (lhs : StringT) (cstr : Block CChar) (rhs : Block CChar)
    (rlen : Length) : Option StringT :=
  let len := lhs.len + rlen.value
  if len.ult lhs.cap then
    (cstr.memcpy lhs.len.toNat rhs 0 rlen.size).bind fun cstr =>
      (cstr.put len.toInt 0#8).map fun cstr => { lhs with cstr := some cstr, len := len }
  else
    let cap := kccCapacity ⟨len, true⟩
    let buf := Block.malloc cap.toNat
    (buf.memcpy 0 cstr 0 lhs.len.toNat).bind fun buf =>
      (buf.memcpy lhs.len.toNat rhs 0 rlen.size).bind fun buf =>
        (buf.put len.toInt 0#8).map fun buf => { cstr := some buf, cap := cap, len := len }

/-- The macros that append, by the block and the length that they pass on. -/
def stringAppendBlock (lhs : StringT) (rhs : Block CChar) (rlen : Length) : Option StringT :=
  match lhs.cstr with
  | none => stringAppendToEmpty rhs rlen
  | some cstr => stringAppendToAllocated lhs cstr rhs rlen

/-- `string_append` -/
def stringAppend (lhs rhs : StringT) : Option StringT :=
  stringAppendBlock lhs (rhs.cstr.getD []) ⟨rhs.len, false⟩

/-- `string_append_cstr_with_len` -/
def stringAppendCstrWithLen (lhs : StringT) (rhs : CString) (rlen : BitVec 32) : Option StringT :=
  stringAppendBlock lhs rhs.block ⟨rlen, true⟩

/-- `string_append_cstr` -/
def stringAppendCstr (lhs : StringT) (rhs : CString) : Option StringT :=
  stringAppendCstrWithLen lhs rhs ((strlen rhs).setWidth 32)

/-- `string_init_alloc` -/
def stringInitAlloc (cstr : CString) : Option StringT :=
  let len := (strlen cstr).setWidth 32
  let cap := kccCapacity ⟨len, false⟩
  (Block.memcpy (Block.malloc cap.toNat) 0 cstr.block 0 len.toNat).bind fun buf =>
    (buf.put len.toNat 0#8).map fun buf => { cstr := some buf, cap := cap, len := len }

/-- `string_init` -/
def stringInit (s : Option CString) : Option StringT :=
  match s with
  | some s => stringInitAlloc s
  | none => some { cstr := none, cap := 0, len := 0 }

/-- `string_clear` -/
def stringClear (str : StringT) : Option StringT :=
  match str.cstr with
  | some cstr => (cstr.put 0 0#8).map fun cstr => { str with cstr := some cstr, len := 0 }
  | none => some { str with len := 0 }

/-- `string_reset` -/
def stringReset (str : StringT) (s : Option CString) : Option StringT :=
  (if str.cstr.isSome then stringClear str else some str).bind fun str =>
    match s with
    | some s => if s.chars ≠ [] then stringAppendCstr str s else some str
    | none => some str

/-- `string_substr` -/
def stringSubstr (str : StringT) (start len : BitVec 32) : Option StringT :=
  let len := substrEnd str.len start len - start
  let buf := Block.malloc str.cap.toNat
  (buf.memcpy 0 (str.cstr.getD []) start.toInt (len.signExtend 64).toNat).bind fun buf =>
    (buf.put len.toInt 0#8).map fun buf => { cstr := some buf, cap := str.cap, len := len }

/-! ## Representation -/

/-- The buffer of a string holds a text and its terminator; a string without one is empty. -/
def StringT.Represents (str : StringT) : Option (List CChar) → Prop
  | none => str.cstr = none ∧ str.len = 0
  | some text => ∃ cstr, str.cstr = some cstr ∧ cstr.length = str.cap.toNat ∧
      str.len.toNat = text.length ∧ cstr.Holds (text ++ [0#8])

theorem lt_kccCapacity {n : BitVec 32} {signed : Bool} (h : n.toNat < 2 ^ 32 - 32)
    (hsigned : signed = true → n.toNat < 2 ^ 31) :
    n.toNat < (kccCapacity ⟨n, signed⟩).toNat := by
  have hlt : n.toNat + kccCapacityStrUnit.toNat < 2 ^ 32 := by
    show n.toNat + 32 < 2 ^ 32
    omega
  have hpos : 0 < kccCapacityStrUnit.toNat := by decide
  exact @lt_capacityFor kccCapacityStrUnit ⟨n, signed⟩ hpos (by decide) hlt hsigned

/-! ## Each operation -/

section Specs

variable {str lhs rhs : StringT} {text ys : List CChar}

/-- Appending in place or in a larger buffer. -/
theorem stringAppendToAllocated_spec {cstr block : Block CChar} {rlen : Length} {n : Nat}
    (hcstr : cstr.length = lhs.cap.toNat) (hlen : lhs.len.toNat = text.length)
    (hholds : cstr.Holds (text ++ [0#8])) (hblock : block.Holds ys)
    (hn : rlen.value.toNat = n) (hle : n ≤ ys.length) (hfits : text.length + n < 2 ^ 31) :
    ∃ str, stringAppendToAllocated lhs cstr block rlen = some str ∧
      str.Represents (some (text ++ ys.take n)) := by
  have hsum : (lhs.len + rlen.value).toNat = text.length + n := by
    rw [BitVec.toNat_add, hlen, hn]
    omega
  have hint : (lhs.len + rlen.value).toInt = ((text ++ ys.take n).length : Nat) := by
    rw [toInt_of_lt (by omega), hsum, length_append, length_take, Nat.min_eq_left hle]
  have hsize : rlen.size = n := by
    rw [Length.size_of_lt (fun _ => by omega), hn]
  have hlength : (text ++ ys.take n).length = text.length + n := by
    rw [length_append, length_take, Nat.min_eq_left hle]
  unfold stringAppendToAllocated
  by_cases hroom : (lhs.len + rlen.value).ult lhs.cap = true
  · simp only [hroom, if_true]
    have hlt : text.length + n < cstr.length := by
      rw [BitVec.ult, decide_eq_true_eq] at hroom
      omega
    rcases Block.memcpy_end hholds.of_append hblock hle (Nat.le_of_lt hlt) with ⟨b1, hcopy, hlen1, hholds1⟩
    rcases Block.put_end hholds1 0#8 (by omega) with ⟨b2, hput, hlen2, hholds2⟩
    refine ⟨{ lhs with cstr := some b2, len := lhs.len + rlen.value }, ?_, b2, rfl, ?_, ?_, hholds2⟩
    · rw [hlen, hsize, hcopy, bind_some, hint, hput, map_some]
    · rw [hlen2, hlen1, hcstr]
    · rw [hsum, hlength]
  · simp only [hroom, Bool.false_eq_true, if_false]
    have hcap := lt_kccCapacity (show (lhs.len + rlen.value).toNat < 2 ^ 32 - 32 by omega)
      fun _ : true = true => by omega
    have hmalloc : text.length + n <
        (Block.malloc (α := CChar) (kccCapacity ⟨lhs.len + rlen.value, true⟩).toNat).length := by
      rw [Block.length_malloc]
      omega
    rcases Block.memcpy_start (Block.malloc (kccCapacity ⟨lhs.len + rlen.value, true⟩).toNat)
      hholds.of_append 0 text.length (by omega) (by omega) with
      ⟨b1, hcopy1, hlen1, hholds1⟩
    rw [drop_zero, take_length] at hholds1
    rcases Block.memcpy_end hholds1 hblock hle (by omega) with ⟨b2, hcopy2, hlen2, hholds2⟩
    rcases Block.put_end hholds2 0#8 (by omega) with ⟨b3, hput, hlen3, hholds3⟩
    refine ⟨⟨some b3, kccCapacity ⟨lhs.len + rlen.value, true⟩, lhs.len + rlen.value⟩, ?_, b3, rfl,
      ?_, ?_, hholds3⟩
    · rw [hlen, hsize]
      rw [show Block.memcpy _ 0 cstr 0 text.length = some b1 from hcopy1, bind_some, hcopy2,
        bind_some, hint, hput, map_some]
    · rw [hlen3, hlen2, hlen1, Block.length_malloc]
    · rw [hsum, hlength]

theorem strlen_toNat {s : CString} (h : s.chars.length < 2 ^ 32) :
    ((strlen s).setWidth 32).toNat = s.chars.length := by
  rw [strlen, BitVec.toNat_setWidth, BitVec.toNat_ofNat]
  omega

theorem stringAppendCstrWithLen_spec (h : lhs.Represents (some text)) {s : CString}
    {rlen : BitVec 32} (hle : rlen.toNat ≤ s.chars.length)
    (hfits : text.length + rlen.toNat < 2 ^ 31) :
    ∃ str, stringAppendCstrWithLen lhs s rlen = some str ∧
      str.Represents (some (text ++ s.chars.take rlen.toNat)) := by
  rcases h with ⟨cstr, hcstr, hcap, hlen, hholds⟩
  simp only [stringAppendCstrWithLen, stringAppendBlock, hcstr]
  exact stringAppendToAllocated_spec hcap hlen hholds (Block.holds_map _).of_append rfl hle hfits

theorem stringAppendCstr_spec (h : lhs.Represents (some text)) {s : CString}
    (hfits : text.length + s.chars.length < 2 ^ 31) :
    ∃ str, stringAppendCstr lhs s = some str ∧ str.Represents (some (text ++ s.chars)) := by
  have hlen := strlen_toNat (show s.chars.length < 2 ^ 32 by omega)
  have happend := stringAppendCstrWithLen_spec h (s := s) (Nat.le_of_eq hlen) (by omega)
  rwa [hlen, take_length] at happend

theorem stringAppend_spec (h : lhs.Represents (some text)) {other : Option (List CChar)}
    (hrhs : rhs.Represents other) (hfits : text.length + (other.getD []).length < 2 ^ 31) :
    ∃ str, stringAppend lhs rhs = some str ∧
      str.Represents (some (text ++ other.getD [])) := by
  rcases h with ⟨cstr, hcstr, hcap, hlen, hholds⟩
  have hother : (rhs.cstr.getD []).Holds (other.getD []) ∧
      rhs.len.toNat = (other.getD []).length := by
    cases other with
    | none =>
      rw [hrhs.1, hrhs.2]
      exact ⟨Block.holds_nil _, rfl⟩
    | some ys =>
      rcases hrhs with ⟨block, hblock, -, hlen', hholds'⟩
      rw [hblock]
      exact ⟨hholds'.of_append, hlen'⟩
  have happend : ∃ str, stringAppendToAllocated lhs cstr _ ⟨rhs.len, false⟩ = some str ∧ _ :=
    stringAppendToAllocated_spec hcap hlen hholds hother.1 hother.2 (Nat.le_refl _) hfits
  rw [take_length] at happend
  simp only [stringAppend, stringAppendBlock, hcstr]
  exact happend

theorem stringInitAlloc_spec {s : CString} (h : s.chars.length < 2 ^ 32 - 32) :
    ∃ str, stringInitAlloc s = some str ∧ str.Represents (some s.chars) := by
  have hlen := strlen_toNat (show s.chars.length < 2 ^ 32 by omega)
  have hcap := lt_kccCapacity (show ((strlen s).setWidth 32).toNat < 2 ^ 32 - 32 by omega)
    fun h : false = true => nomatch h
  have hmalloc : s.chars.length < (Block.malloc (α := CChar)
      (kccCapacity ⟨(strlen s).setWidth 32, false⟩).toNat).length := by
    rw [Block.length_malloc]
    omega
  rcases Block.memcpy_start (Block.malloc (kccCapacity ⟨(strlen s).setWidth 32, false⟩).toNat)
    (Block.holds_map (s.chars ++ [0#8])).of_append 0 s.chars.length (by omega)
    (by omega) with ⟨b1, hcopy, hlen1, hholds1⟩
  rw [drop_zero, take_length] at hholds1
  rcases Block.put_end hholds1 0#8 (by omega) with ⟨b2, hput, hlen2, hholds2⟩
  refine ⟨⟨some b2, kccCapacity ⟨(strlen s).setWidth 32, false⟩, (strlen s).setWidth 32⟩, ?_, b2,
    rfl, ?_, hlen, hholds2⟩
  · rw [stringInitAlloc, hlen]
    rw [show Block.memcpy _ 0 s.block 0 s.chars.length = some b1 from hcopy, bind_some, hput,
      map_some]
  · rw [hlen2, hlen1, Block.length_malloc]

theorem stringClear_spec {text : Option (List CChar)} (h : str.Represents text) :
    ∃ str', stringClear str = some str' ∧ str'.Represents (text.map fun _ => []) := by
  cases text with
  | none =>
    refine ⟨{ str with len := 0 }, ?_, h.1, rfl⟩
    simp [stringClear, h.1]
  | some text =>
    rcases h with ⟨cstr, hcstr, hcap, -, hholds⟩
    have hpos : 0 < cstr.length := by
      have := hholds.length_le
      rw [length_append, length_singleton] at this
      omega
    rcases Block.put_end (Block.holds_nil cstr) 0#8 hpos with ⟨b, hput, hlen, hholds'⟩
    refine ⟨{ str with cstr := some b, len := 0 }, ?_, b, rfl, ?_, rfl, hholds'⟩
    · simp only [stringClear, hcstr]
      rw [show cstr.put 0 0#8 = some b from hput, map_some]
    · rw [hlen, hcap]

theorem stringSubstr_spec (h : str.Represents (some text)) {start len : BitVec 32}
    (hlo : 0 ≤ start.toInt) (hhi : start.toInt ≤ text.length)
    (hfits : (substring text start.toNat len.toInt).length < 2 ^ 31) :
    ∃ str', stringSubstr str start len = some str' ∧
      str'.Represents (some (substring text start.toNat len.toInt)) := by
  rcases h with ⟨cstr, hcstr, hcap, hlen, hholds⟩
  have hlimit := substrEnd_toNat len hlen hlo hhi
  have hstart := toInt_of_nonneg hlo
  have hinside := length_substring_le (show start.toNat ≤ text.length by omega) len.toInt
  have hdiff : (substrEnd str.len start len - start).toNat =
      (substring text start.toNat len.toInt).length := by
    have := (substrEnd str.len start len).isLt
    rw [BitVec.toNat_sub, hlimit]
    omega
  have hcapacity : text.length < cstr.length := by
    have := hholds.length_le
    rw [length_append, length_singleton] at this
    omega
  rcases Block.memcpy_start (Block.malloc str.cap.toNat) hholds.of_append start.toNat
    (substring text start.toNat len.toInt).length hinside
    (by rw [Block.length_malloc]; omega) with ⟨b1, hcopy, hlen1, hholds1⟩
  rw [take_length_substring] at hholds1
  rcases Block.put_end hholds1 0#8 (by rw [hlen1, Block.length_malloc]; omega) with
    ⟨b2, hput, hlen2, hholds2⟩
  refine ⟨⟨some b2, str.cap, substrEnd str.len start len - start⟩, ?_, b2, rfl, ?_, hdiff, hholds2⟩
  · simp only [stringSubstr, hcstr, getD_some]
    rw [signExtend_toNat_of_lt (by omega), hdiff, hstart.1, hcopy, bind_some,
      toInt_of_lt (by omega), hdiff, hput, map_some]
  · rw [hlen2, hlen1, Block.length_malloc]

theorem stringReset_spec (h : str.Represents (some text)) {s : Option CString}
    (hfits : ∀ cstr ∈ s, cstr.chars.length < 2 ^ 31) :
    ∃ str', stringReset str s = some str' ∧
      str'.Represents (some ((s.map CString.chars).getD [])) := by
  rcases stringClear_spec h with ⟨empty, hclear, hempty⟩
  have hsome : str.cstr.isSome = true := by
    rcases h with ⟨cstr, hcstr, -⟩
    rw [hcstr]
    rfl
  simp only [stringReset, hsome, if_true, hclear, bind_some]
  cases s with
  | none => exact ⟨empty, rfl, hempty⟩
  | some s =>
    show ∃ str', (if s.chars ≠ [] then _ else _) = some str' ∧ _
    by_cases hnil : s.chars = []
    · rw [if_neg (not_not.mpr hnil)]
      refine ⟨empty, rfl, ?_⟩
      rw [map_some, getD_some, hnil]
      exact hempty
    · rw [if_pos hnil]
      exact stringAppendCstr_spec hempty (by simpa using hfits s rfl)

end Specs

/-! ## Sequences of operations -/

/-- An operation on string variables; the first number is the variable that is changed. -/
inductive StringOp where
  | init (i : Nat) (s : Option CString)
  | append (i j : Nat)
  | appendCstr (i : Nat) (s : CString)
  | appendCstrWithLen (i : Nat) (s : CString) (rlen : BitVec 32)
  | substr (i j : Nat) (start len : BitVec 32)
  | clear (i : Nat)
  | reset (i : Nat) (s : Option CString)

/-- The variable that an operation changes. -/
def StringOp.target : StringOp → Nat
  | init i _ | append i _ | appendCstr i _ | appendCstrWithLen i _ _ | substr i _ _ _ | clear i
  | reset i _ => i

/-- The new value of the variable. -/
def StringOp.value (vars : Nat → StringT) : StringOp → Option StringT
  | init _ s => stringInit s
  | append i j => stringAppend (vars i) (vars j)
  | appendCstr i s => stringAppendCstr (vars i) s
  | appendCstrWithLen i s rlen => stringAppendCstrWithLen (vars i) s rlen
  | substr _ j start len => stringSubstr (vars j) start len
  | clear i => stringClear (vars i)
  | reset i s => stringReset (vars i) s

/-- Perform operations; an access outside a buffer ends them. -/
def runStrings (vars : Nat → StringT) : List StringOp → Option (Nat → StringT)
  | [] => some vars
  | op :: ops => (op.value vars).bind fun str => runStrings (Function.update vars op.target str) ops

/-- The texts of variables, {lit}`none` for a string without a buffer. -/
abbrev Texts := Nat → Option (List CChar)

/-- The text that an operation makes. -/
def StringOp.text (texts : Texts) : StringOp → Option (List CChar)
  | init _ s => s.map CString.chars
  | append i j => some ((texts i).getD [] ++ (texts j).getD [])
  | appendCstr i s => some ((texts i).getD [] ++ s.chars)
  | appendCstrWithLen i s rlen => some ((texts i).getD [] ++ s.chars.take rlen.toNat)
  | substr _ j start len => some (substring ((texts j).getD []) start.toNat len.toInt)
  | clear i => (texts i).map fun _ => []
  | reset i s =>
    if ((s.map CString.chars).getD []) = [] then (texts i).map fun _ => []
    else s.map CString.chars

/-- The texts behind operations. -/
def runTexts (texts : Texts) : List StringOp → Texts
  | [] => texts
  | op :: ops => runTexts (Function.update texts op.target (op.text texts)) ops

/-- The arguments that callers may pass. -/
def StringOp.InRange (texts : Texts) : StringOp → Prop
  | appendCstrWithLen _ s rlen => 0 ≤ rlen.toInt ∧ rlen.toNat ≤ s.chars.length
  | substr _ j start _ => 0 ≤ start.toInt ∧ start.toInt ≤ ((texts j).getD []).length
  | _ => True

/-- The operations that keep the invariant: a text is appended only to a string with a buffer,
and substrings are taken of such strings only, both of less than 2 GiB. -/
def StringOp.Fits (texts : Texts) : StringOp → Prop
  | init _ s => ∀ cstr ∈ s, cstr.chars.length < 2 ^ 32 - 32
  | append i j => ∃ text, texts i = some text ∧ text.length + ((texts j).getD []).length < 2 ^ 31
  | appendCstr i s => ∃ text, texts i = some text ∧ text.length + s.chars.length < 2 ^ 31
  | appendCstrWithLen i _ rlen => ∃ text, texts i = some text ∧ text.length + rlen.toNat < 2 ^ 31
  | substr _ j start len => ∃ text, texts j = some text ∧
      (substring text start.toNat len.toInt).length < 2 ^ 31
  | clear _ => True
  | reset i s => ∀ cstr ∈ s, cstr.chars = [] ∨ (texts i).isSome ∧ cstr.chars.length < 2 ^ 31

/-- Every operation meets a condition on the texts in front of it. -/
def EachStep (p : Texts → StringOp → Prop) (texts : Texts) : List StringOp → Prop
  | [] => True
  | op :: ops =>
    p texts op ∧ EachStep p (Function.update texts op.target (op.text texts)) ops

section Runs

variable {vars : Nat → StringT} {texts : Texts}

/-- Variables that represent texts. -/
def RepresentAll (vars : Nat → StringT) (texts : Texts) : Prop :=
  ∀ i, (vars i).Represents (texts i)

/-- One operation makes its text. -/
theorem StringOp.value_spec {op : StringOp} (h : RepresentAll vars texts)
    (hrange : op.InRange texts) (hfits : op.Fits texts) :
    ∃ str, op.value vars = some str ∧ str.Represents (op.text texts) := by
  cases op with
  | init i s =>
    cases s with
    | none => exact ⟨_, rfl, rfl, rfl⟩
    | some s => exact stringInitAlloc_spec (hfits s rfl)
  | append i j =>
    rcases hfits with ⟨text, htext, hlt⟩
    simp only [StringOp.value, StringOp.text, htext, getD_some]
    exact stringAppend_spec (htext ▸ h i) (h j) hlt
  | appendCstr i s =>
    rcases hfits with ⟨text, htext, hlt⟩
    simp only [StringOp.value, StringOp.text, htext, getD_some]
    exact stringAppendCstr_spec (htext ▸ h i) hlt
  | appendCstrWithLen i s rlen =>
    rcases hfits with ⟨text, htext, hlt⟩
    simp only [StringOp.value, StringOp.text, htext, getD_some]
    exact stringAppendCstrWithLen_spec (htext ▸ h i) hrange.2 hlt
  | substr i j start len =>
    rcases hfits with ⟨text, htext, hlt⟩
    simp only [StringOp.InRange, htext, getD_some] at hrange
    simp only [StringOp.value, StringOp.text, htext, getD_some]
    exact stringSubstr_spec (htext ▸ h j) hrange.1 hrange.2 hlt
  | clear i => exact stringClear_spec (h i)
  | reset i s =>
    simp only [StringOp.value, StringOp.text]
    cases htext : texts i with
    | some text =>
      have hlt : ∀ cstr ∈ s, cstr.chars.length < 2 ^ 31 := by
        intro cstr hcstr
        rcases hfits cstr hcstr with hnil | ⟨-, hlt⟩
        · rw [hnil]
          decide
        · exact hlt
      rcases stringReset_spec (htext ▸ h i) hlt with ⟨str, hstr, hrep⟩
      refine ⟨str, hstr, ?_⟩
      split
      · rename_i hnil
        rw [hnil] at hrep
        exact hrep
      · rename_i hne
        cases s with
        | none => exact absurd rfl hne
        | some s => exact hrep
    | none =>
      have hempty := h i
      rw [htext] at hempty
      have hnil : (s.map CString.chars).getD [] = [] := by
        cases s with
        | none => rfl
        | some s =>
          rcases hfits s rfl with hnil | ⟨hsome, -⟩
          · exact hnil
          · rw [htext] at hsome
            cases hsome
      have hreset : stringReset (vars i) s = some (vars i) := by
        simp only [stringReset, hempty.1, isSome_none, Bool.false_eq_true, if_false, bind_some]
        cases s with
        | none => rfl
        | some s => simp [show s.chars = [] from hnil]
      rw [if_pos hnil, hreset]
      exact ⟨_, rfl, hempty⟩

theorem runStrings_spec {ops : List StringOp} (h : RepresentAll vars texts)
    (hrange : EachStep StringOp.InRange texts ops) (hfits : EachStep StringOp.Fits texts ops) :
    ∃ vars', runStrings vars ops = some vars' ∧ RepresentAll vars' (runTexts texts ops) := by
  induction ops generalizing vars texts with
  | nil => exact ⟨vars, rfl, h⟩
  | cons op ops ih =>
    rcases op.value_spec h hrange.1 hfits.1 with ⟨str, hvalue, hrep⟩
    have hnext : RepresentAll (Function.update vars op.target str)
        (Function.update texts op.target (op.text texts)) := by
      intro i
      by_cases hi : i = op.target
      · subst hi
        rw [update_self, update_self]
        exact hrep
      · rw [update_of_ne hi, update_of_ne hi]
        exact h i
    rw [runStrings, hvalue]
    exact ih hnext hrange.2 hfits.2

end Runs

/-- String variables in front of the first operation. -/
def noStrings : Nat → StringT := fun _ => { cstr := none, cap := 0, len := 0 }

/-- In every run of operations that fit, each buffer holds its text and the terminator, and no
operation leaves the buffers. -/
theorem strings_represent {ops : List StringOp}
    (hrange : EachStep StringOp.InRange (fun _ => none) ops)
    (hfits : EachStep StringOp.Fits (fun _ => none) ops) :
    ∃ vars, runStrings noStrings ops = some vars ∧
      RepresentAll vars (runTexts (fun _ => none) ops) :=
  runStrings_spec (fun _ => ⟨rfl, rfl⟩) hrange hfits

/-- A C string of one character. -/
def oneChar : CString := ⟨[97#8], by decide⟩

/-- An empty string is filled and a substring taken. -/
theorem strings_represent_some :
    ∃ vars, runStrings noStrings
      [.init 0 (some ⟨[], by decide⟩), .appendCstr 0 oneChar, .substr 1 0 1 3] = some vars ∧
      RepresentAll vars (runTexts (fun _ => none)
        [.init 0 (some ⟨[], by decide⟩), .appendCstr 0 oneChar, .substr 1 0 1 3]) := by
  apply strings_represent
  · exact ⟨trivial, trivial, ⟨by decide, by decide⟩, trivial⟩
  · refine ⟨?_, ⟨[], rfl, by decide⟩, ⟨[97#8], rfl, by decide⟩, trivial⟩
    rintro _ ⟨⟩
    decide

/-- Behind the first text that is appended to a string without a buffer there is no
terminator. -/
theorem not_strings_represent :
    ∃ vars, runStrings noStrings [.init 0 none, .appendCstr 0 oneChar] = some vars ∧
      ¬(vars 0).Represents (some oneChar.chars) := by
  refine ⟨_, rfl, ?_⟩
  rintro ⟨cstr, hcstr, -, -, rest, hrest⟩
  have hsecond : cstr[1]? = some none := by
    rw [← some.inj hcstr]
    rfl
  rw [← hrest] at hsecond
  cases hsecond

end Kcs.Ext
