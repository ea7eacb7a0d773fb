import Kcs.Ext.Basic
import Kcs.Lib.Block

/-!
# Growing binaries

The byte buffers of the extended library, `binary_t` of `ext_binary.c`.

Main results:

- Theorem {lit}`binaries_represent`: the invariant over all sequences of operations that append
  bytes only where they fit or to an empty binary.
-/

namespace Kcs.Ext

open Option List BitVec Function

/-- A byte, `uint8_t`. -/
abbrev UByte := BitVec 8

/-- `binary_t` -/
structure BinaryT where
  buf : Block UByte
  cap : BitVec 32
  len : BitVec 32

/-- `KCC_CAPACITY_UNIT` -/
def kccCapacityUnit : BitVec 32 := 256#32

/-! ## Operations -/

/-- `binary_init` -/
def binaryInit (src : Block UByte) (len : BitVec 32) : Option BinaryT :=
  let cap := capacityFor kccCapacityUnit ⟨len, true⟩
  let buf := Block.calloc cap.toNat 0#8
  (if (0#32).slt len then buf.memcpy 0 src 0 (len.signExtend 64).toNat else some buf).map fun buf =>
    { buf := buf, cap := cap, len := len }

/-- `binary_copy` -/
def binaryCopy (rhs : BinaryT) : Option BinaryT := binaryInit rhs.buf rhs.len

/-- `binary_append` to a binary that is not `NULL`. -/
def binaryAppend (lhs rhs : BinaryT) : Option BinaryT :=
  let len := lhs.len + rhs.len
  if len.ult lhs.cap then
    (lhs.buf.memcpy lhs.len.toNat rhs.buf 0 rhs.len.toNat).map fun buf =>
      { lhs with buf := buf, len := len }
  else
    let cap := if lhs.cap.ult rhs.cap then rhs.cap * 2#32 else lhs.cap * 2#32
    let buf := Block.calloc cap.toNat 0#8
    (buf.memcpy 0 lhs.buf 0 lhs.len.toNat).bind fun buf =>
      (buf.memcpy lhs.len.toNat rhs.buf 0 rhs.len.toNat).map fun buf =>
        { buf := buf, cap := cap, len := len }

/-- `binary_append_bytes` to a binary that is not `NULL`; the growing branch copies as many bytes
as both sides have. -/
def binaryAppendBytes (lhs : BinaryT) (rhs : Option (Block UByte)) (rlen : BitVec 32) :
    Option BinaryT :=
  match rhs with
  | none => some lhs
  | some rhs =>
    let len := lhs.len + rlen
    if len.ult lhs.cap then
      (lhs.buf.memcpy lhs.len.toNat rhs 0 (rlen.signExtend 64).toNat).map fun buf =>
        { lhs with buf := buf, len := len }
    else
      let cap :=
        if lhs.cap.ult rlen then capacityFor kccCapacityUnit ⟨rlen, true⟩ else lhs.cap * 2#32
      let buf := Block.calloc cap.toNat 0#8
      (buf.memcpy 0 lhs.buf 0 lhs.len.toNat).bind fun buf =>
        (buf.memcpy lhs.len.toNat rhs 0 (len.signExtend 64).toNat).map fun buf =>
          { buf := buf, cap := cap, len := len }

/-- `binary_subbin` -/
def binarySubbin (ary : BinaryT) (start len : BitVec 32) : Option BinaryT :=
  let len := substrEnd ary.len start len - start
  let buf := Block.calloc ary.cap.toNat 0#8
  (buf.memcpy 0 ary.buf start.toInt (len.signExtend 64).toNat).map fun buf =>
    { buf := buf, cap := ary.cap, len := len }

/-- `binary_clear` -/
def binaryClear (bin : BinaryT) : BinaryT := { bin with len := 0#32 }

/-! ## Representation -/

/-- The buffer of a binary starts with its bytes and has room for more. -/
structure BinaryT.Represents (bin : BinaryT) (bytes : List UByte) : Prop where
  buf : bin.buf.length = bin.cap.toNat
  len : bin.len.toNat = bytes.length
  room : bin.len.toNat < bin.cap.toNat
  holds : bin.buf.Holds bytes

theorem lt_binaryCapacity {n : BitVec 32} (h : n.toNat < 2 ^ 30) :
    n.toNat < (capacityFor kccCapacityUnit ⟨n, true⟩).toNat := by
  have hlt : n.toNat + kccCapacityUnit.toNat < 2 ^ 32 := by
    show n.toNat + 256 < 2 ^ 32
    omega
  have hpos : 0 < kccCapacityUnit.toNat := by decide
  exact @lt_capacityFor kccCapacityUnit ⟨n, true⟩ hpos (by decide) hlt
    fun _ => show n.toNat < 2 ^ 31 by omega

section Specs

variable {bin lhs rhs : BinaryT} {bytes more : List UByte}

theorem binaryInit_spec {src : Block UByte} {len : BitVec 32} (hsrc : src.Holds more)
    (hle : len.toNat ≤ more.length) (hlt : len.toNat < 2 ^ 30) :
    ∃ bin, binaryInit src len = some bin ∧ bin.Represents (more.take len.toNat) := by
  have hcap := lt_binaryCapacity hlt
  have hlen : len.toNat = (more.take len.toNat).length := by
    rw [length_take]
    omega
  unfold binaryInit
  by_cases hpos : (0#32).slt len = true
  · rcases Block.memcpy_start (Block.calloc (capacityFor kccCapacityUnit ⟨len, true⟩).toNat 0#8)
      hsrc 0 len.toNat (by omega) (by rw [Block.length_calloc]; omega) with
      ⟨b, hcopy, hlength, hholds⟩
    refine ⟨⟨b, capacityFor kccCapacityUnit ⟨len, true⟩, len⟩, ?_, ?_, hlen, hcap, hholds⟩
    · simp only [hpos, if_true]
      rw [signExtend_toNat_of_lt (by omega)]
      rw [show Block.memcpy _ 0 src 0 len.toNat = some b from hcopy, map_some]
    · rw [hlength, Block.length_calloc]
  · have hzero : len.toNat = 0 := by
      have hint := toInt_of_lt (show len.toNat < 2 ^ 31 by omega)
      simp only [BitVec.slt, show (0#32).toInt = 0 from rfl, decide_eq_true_eq] at hpos
      omega
    refine ⟨⟨Block.calloc (capacityFor kccCapacityUnit ⟨len, true⟩).toNat 0#8,
      capacityFor kccCapacityUnit ⟨len, true⟩, len⟩, ?_, Block.length_calloc _ _, hlen, hcap, ?_⟩
    · simp only [hpos, Bool.false_eq_true, if_false, map_some]
    · rw [hzero]
      exact Block.holds_nil _

theorem append_inPlace (h : lhs.Represents bytes) {src : Block UByte} (hsrc : src.Holds more)
    {rlen : BitVec 32} (hle : rlen.toNat ≤ more.length)
    (hlt : bytes.length + rlen.toNat < 2 ^ 30) (hroom : (lhs.len + rlen).ult lhs.cap = true) :
    ∃ b, lhs.buf.memcpy lhs.len.toNat src 0 rlen.toNat = some b ∧
      BinaryT.Represents { lhs with buf := b, len := lhs.len + rlen }
        (bytes ++ more.take rlen.toNat) := by
  have hsum : (lhs.len + rlen).toNat = bytes.length + rlen.toNat := by
    rw [toNat_add, h.len]
    omega
  rw [BitVec.ult, decide_eq_true_eq] at hroom
  rcases Block.memcpy_end h.holds hsrc hle (by rw [h.buf]; omega) with ⟨b, hcopy, hlength, hholds⟩
  refine ⟨b, by rw [h.len]; exact hcopy, hlength.trans h.buf, ?_, hroom, hholds⟩
  rw [length_append, length_take, Nat.min_eq_left hle]
  exact hsum

theorem append_grown (h : lhs.Represents bytes) {src : Block UByte} (hsrc : src.Holds more)
    {rlen cap : BitVec 32} (hle : rlen.toNat ≤ more.length)
    (hlt : bytes.length + rlen.toNat < 2 ^ 30) (hcap : bytes.length + rlen.toNat < cap.toNat) :
    ∃ b1 b2, (Block.calloc cap.toNat 0#8).memcpy 0 lhs.buf 0 lhs.len.toNat = some b1 ∧
      b1.memcpy lhs.len.toNat src 0 rlen.toNat = some b2 ∧
      BinaryT.Represents ⟨b2, cap, lhs.len + rlen⟩ (bytes ++ more.take rlen.toNat) := by
  have hsum : (lhs.len + rlen).toNat = bytes.length + rlen.toNat := by
    rw [toNat_add, h.len]
    omega
  rcases Block.memcpy_start (Block.calloc cap.toNat 0#8) h.holds 0 lhs.len.toNat
    (by rw [h.len]; omega) (by rw [Block.length_calloc, h.len]; omega) with
    ⟨b1, hcopy1, hlength1, hholds1⟩
  rw [drop_zero, h.len, take_length] at hholds1
  rw [Block.length_calloc] at hlength1
  rcases Block.memcpy_end hholds1 hsrc hle (by rw [hlength1]; omega) with
    ⟨b2, hcopy2, hlength2, hholds2⟩
  refine ⟨b1, b2, hcopy1, by rw [h.len]; exact hcopy2, hlength2.trans hlength1, ?_, ?_, hholds2⟩
  · rw [length_append, length_take, Nat.min_eq_left hle]
    exact hsum
  · show (lhs.len + rlen).toNat < cap.toNat
    omega

theorem binaryAppend_spec (h : lhs.Represents bytes) (hrhs : rhs.Represents more)
    (hlt : bytes.length + more.length < 2 ^ 30)
    (hfits : (lhs.len + rhs.len).ult lhs.cap = false → rhs.cap.toNat < 2 ^ 31) :
    ∃ bin, binaryAppend lhs rhs = some bin ∧ bin.Represents (bytes ++ more) := by
  have hlen : rhs.len.toNat ≤ more.length := Nat.le_of_eq hrhs.len
  have htake : more.take rhs.len.toNat = more := by
    rw [hrhs.len, take_length]
  unfold binaryAppend
  cases hroom : (lhs.len + rhs.len).ult lhs.cap with
  | true =>
    rcases append_inPlace h hrhs.holds hlen (by omega) hroom with ⟨b, hcopy, hrep⟩
    rw [htake] at hrep
    simp only [hroom, if_true, hcopy]
    exact ⟨_, rfl, hrep⟩
  | false =>
    have hrcap := hfits hroom
    have hl := h.room
    have hr := hrhs.room
    have hsum : (lhs.len + rhs.len).toNat = bytes.length + more.length := by
      rw [toNat_add, h.len, hrhs.len]
      omega
    rw [BitVec.ult, decide_eq_false_iff_not] at hroom
    have hcap : bytes.length + rhs.len.toNat <
        (if lhs.cap.ult rhs.cap then rhs.cap * 2#32 else lhs.cap * 2#32).toNat := by
      rw [h.len] at hl
      split
      · rename_i hult
        rw [BitVec.ult, decide_eq_true_eq] at hult
        rw [toNat_mul, toNat_ofNat]
        omega
      · rename_i hult
        simp only [BitVec.ult, decide_eq_true_eq] at hult
        rw [toNat_mul, toNat_ofNat]
        omega
    rcases append_grown h hrhs.holds hlen (by omega) hcap with ⟨b1, b2, hcopy1, hcopy2, hrep⟩
    rw [htake] at hrep
    have hgrow : ¬(lhs.len + rhs.len).ult lhs.cap = true := by
      rw [BitVec.ult, decide_eq_true_eq]
      exact hroom
    simp only [hgrow, hcopy1, bind_some, hcopy2]
    exact ⟨_, rfl, hrep⟩

theorem binaryAppendBytes_spec (h : lhs.Represents bytes) {rlen : BitVec 32}
    (hlen : rlen.toNat = more.length) (hlt : bytes.length + more.length < 2 ^ 30)
    (hfits : (lhs.len + rlen).ult lhs.cap = true ∨ lhs.len = 0) :
    ∃ bin, binaryAppendBytes lhs (some (more.map some)) rlen = some bin ∧
      bin.Represents (bytes ++ more) := by
  have htake : more.take rlen.toNat = more := by
    rw [hlen, take_length]
  have hsize : (rlen.signExtend 64).toNat = rlen.toNat := signExtend_toNat_of_lt (by omega)
  unfold binaryAppendBytes
  cases hroom : (lhs.len + rlen).ult lhs.cap with
  | true =>
    rcases append_inPlace h (Block.holds_map more) (Nat.le_of_eq hlen) (by omega) hroom with
      ⟨b, hcopy, hrep⟩
    rw [htake] at hrep
    simp only [hroom, if_true, hsize, hcopy]
    exact ⟨_, rfl, hrep⟩
  | false =>
    have hzero : lhs.len = 0 := hfits.resolve_left (by simp [hroom])
    have hadd : lhs.len + rlen = rlen := by
      rw [hzero]
      exact BitVec.zero_add _
    have hnil : bytes.length = 0 := by
      rw [← h.len, hzero]
      rfl
    have hcap : bytes.length + rlen.toNat <
        (if lhs.cap.ult rlen then capacityFor kccCapacityUnit ⟨rlen, true⟩
          else lhs.cap * 2#32).toNat := by
      have hl := h.room
      split
      · have hunit := lt_binaryCapacity (show rlen.toNat < 2 ^ 30 by omega)
        omega
      · rename_i hult
        simp only [BitVec.ult, decide_eq_true_eq] at hult
        simp only [hadd, BitVec.ult, decide_eq_false_iff_not] at hroom
        rw [toNat_mul, toNat_ofNat]
        omega
    rcases append_grown h (Block.holds_map more) (Nat.le_of_eq hlen) (by omega) hcap with
      ⟨b1, b2, hcopy1, hcopy2, hrep⟩
    rw [htake] at hrep
    simp only [hroom, Bool.false_eq_true, if_false, hcopy1, bind_some]
    rw [hadd] at hrep ⊢
    rw [hsize, hcopy2]
    exact ⟨_, rfl, hrep⟩

theorem binarySubbin_spec (h : bin.Represents bytes) {start : BitVec 32} (len : BitVec 32)
    (hlt : bytes.length < 2 ^ 30) (hlo : 0 ≤ start.toInt) (hhi : start.toInt ≤ bytes.length) :
    ∃ bin', binarySubbin bin start len = some bin' ∧
      bin'.Represents (substring bytes start.toNat len.toInt) := by
  have hlimit := substrEnd_toNat len h.len hlo hhi
  have hstart := toInt_of_nonneg hlo
  have hinside := length_substring_le (show start.toNat ≤ bytes.length by omega) len.toInt
  have hdiff : (substrEnd bin.len start len - start).toNat =
      (substring bytes start.toNat len.toInt).length := by
    have := (substrEnd bin.len start len).isLt
    rw [toNat_sub, hlimit]
    omega
  have hroom := h.room
  have hlen := h.len
  rcases Block.memcpy_start (Block.calloc bin.cap.toNat 0#8) h.holds start.toNat
    (substring bytes start.toNat len.toInt).length hinside
    (by rw [Block.length_calloc]; omega) with ⟨b, hcopy, hlength, hholds⟩
  rw [take_length_substring] at hholds
  refine ⟨⟨b, bin.cap, substrEnd bin.len start len - start⟩, ?_, ?_, hdiff, ?_, hholds⟩
  · simp only [binarySubbin]
    rw [signExtend_toNat_of_lt (by omega), hdiff, hstart.1, hcopy, map_some]
  · rw [hlength, Block.length_calloc]
  · show (substrEnd bin.len start len - start).toNat < bin.cap.toNat
    omega

theorem binaryClear_spec (h : bin.Represents bytes) : (binaryClear bin).Represents [] where
  buf := h.buf
  len := rfl
  room := Nat.lt_of_le_of_lt (Nat.zero_le _) h.room
  holds := Block.holds_nil _

end Specs

/-! ## Sequences of operations -/

/-- An operation on binary variables; the first number is the variable that is changed. -/
inductive BinaryOp where
  | init (i : Nat) (src : List UByte)
  | copy (i j : Nat)
  | append (i j : Nat)
  | appendBytes (i : Nat) (rhs : Option (List UByte))
  | subbin (i j : Nat) (start len : BitVec 32)
  | clear (i : Nat)

/-- The variable that an operation changes. -/
def BinaryOp.target : BinaryOp → Nat
  | init i _ | copy i _ | append i _ | appendBytes i _ | subbin i _ _ _ | clear i => i

/-- The new value of the variable; bytes are passed with their number. -/
def BinaryOp.value (vars : Nat → BinaryT) : BinaryOp → Option BinaryT
  | init _ src => binaryInit (src.map some) (BitVec.ofNat 32 src.length)
  | copy _ j => binaryCopy (vars j)
  | append i j => binaryAppend (vars i) (vars j)
  | appendBytes i rhs =>
    binaryAppendBytes (vars i) (rhs.map fun rhs => rhs.map some)
      (BitVec.ofNat 32 (rhs.getD []).length)
  | subbin _ j start len => binarySubbin (vars j) start len
  | clear i => some (binaryClear (vars i))

/-- Perform operations; an access outside a buffer ends them. -/
def runBinaries (vars : Nat → BinaryT) : List BinaryOp → Option (Nat → BinaryT)
  | [] => some vars
  | op :: ops =>
    (op.value vars).bind fun bin => runBinaries (Function.update vars op.target bin) ops

/-- The bytes that an operation makes. -/
def BinaryOp.bytes (bytes : Nat → List UByte) : BinaryOp → List UByte
  | init _ src => src
  | copy _ j => bytes j
  | append i j => bytes i ++ bytes j
  | appendBytes i rhs => bytes i ++ rhs.getD []
  | subbin _ j start len => substring (bytes j) start.toNat len.toInt
  | clear _ => []

/-- The bytes behind operations. -/
def runBytes (bytes : Nat → List UByte) : List BinaryOp → Nat → List UByte
  | [] => bytes
  | op :: ops => runBytes (Function.update bytes op.target (op.bytes bytes)) ops

/-- The arguments that callers may pass: less than 1 GiB of bytes, and a start inside. -/
def BinaryOp.InRange (vars : Nat → BinaryT) : BinaryOp → Prop
  | init _ src => src.length < 2 ^ 30
  | append i j => (vars i).len.toNat + (vars j).len.toNat < 2 ^ 30
  | appendBytes i rhs => (vars i).len.toNat + (rhs.getD []).length < 2 ^ 30
  | subbin _ j start _ => 0 ≤ start.toInt ∧ start.toInt ≤ (vars j).len.toNat
  | _ => True

/-- The operations that keep the invariant: a capacity of 2 GiB is not doubled, and bytes are
appended in place or to an empty binary. -/
def BinaryOp.Fits (vars : Nat → BinaryT) : BinaryOp → Prop
  | append i j => (vars i).cap.toNat ≤ (vars i).len.toNat + (vars j).len.toNat →
    (vars j).cap.toNat < 2 ^ 31
  | appendBytes i rhs => ∀ bytes ∈ rhs,
    (vars i).len.toNat + bytes.length < (vars i).cap.toNat ∨ (vars i).len.toNat = 0
  | _ => True

/-- Every operation meets a condition on the variables in front of it. -/
def BinaryOp.EachStep (p : (Nat → BinaryT) → BinaryOp → Prop) (vars : Nat → BinaryT) :
    List BinaryOp → Prop
  | [] => True
  | op :: ops => p vars op ∧ ∀ bin ∈ op.value vars,
    BinaryOp.EachStep p (Function.update vars op.target bin) ops

instance (vars : Nat → BinaryT) (op : BinaryOp) : Decidable (op.InRange vars) := by
  cases op <;> unfold BinaryOp.InRange <;> infer_instance

instance (vars : Nat → BinaryT) (op : BinaryOp) : Decidable (op.Fits vars) :=
  match op with
  | .append _ _ => inferInstanceAs (Decidable (_ → _))
  | .appendBytes _ none => .isTrue nofun
  | .appendBytes i (some bytes) =>
    decidable_of_iff
      ((vars i).len.toNat + bytes.length < (vars i).cap.toNat ∨ (vars i).len.toNat = 0)
      ⟨fun h _ hmem => some.inj hmem ▸ h, fun h => h bytes rfl⟩
  | .init _ _ | .copy _ _ | .subbin _ _ _ _ | .clear _ => .isTrue trivial

instance decidableEachStep {p : (Nat → BinaryT) → BinaryOp → Prop}
    [∀ vars op, Decidable (p vars op)] (vars : Nat → BinaryT) :
    (ops : List BinaryOp) → Decidable (BinaryOp.EachStep p vars ops)
  | [] => .isTrue trivial
  | op :: ops =>
    match hvalue : op.value vars with
    | none => decidable_of_iff (p vars op)
      ⟨fun h => ⟨h, by rw [hvalue]; nofun⟩, fun h => h.1⟩
    | some bin =>
      have := decidableEachStep (p := p) (Function.update vars op.target bin) ops
      decidable_of_iff (p vars op ∧ BinaryOp.EachStep p (Function.update vars op.target bin) ops)
        ⟨fun h => ⟨h.1, fun b hb => by rw [hvalue] at hb; cases hb; exact h.2⟩,
          fun h => ⟨h.1, h.2 bin hvalue⟩⟩

section Runs

variable {vars : Nat → BinaryT} {bytes : Nat → List UByte}

/-- Variables that represent bytes, less than 1 GiB each. -/
def RepresentBytes (vars : Nat → BinaryT) (bytes : Nat → List UByte) : Prop :=
  ∀ i, (vars i).Represents (bytes i) ∧ (bytes i).length < 2 ^ 30

/-- One operation makes its bytes. -/
theorem BinaryOp.value_spec {op : BinaryOp} (h : RepresentBytes vars bytes)
    (hrange : op.InRange vars) (hfits : op.Fits vars) :
    ∃ bin, op.value vars = some bin ∧ bin.Represents (op.bytes bytes) ∧
      (op.bytes bytes).length < 2 ^ 30 := by
  have hlen : ∀ i, (vars i).len.toNat = (bytes i).length := fun i => (h i).1.len
  cases op with
  | init i src =>
    have hsrc : src.length < 2 ^ 30 := hrange
    have hnat : (BitVec.ofNat 32 src.length).toNat = src.length := by
      rw [toNat_ofNat]
      omega
    rcases binaryInit_spec (Block.holds_map src) (Nat.le_of_eq hnat) (by omega) with
      ⟨bin, hbin, hrep⟩
    rw [hnat, take_length] at hrep
    exact ⟨bin, hbin, hrep, hsrc⟩
  | copy i j =>
    rcases binaryInit_spec (h j).1.holds (Nat.le_of_eq (hlen j))
      (by rw [hlen j]; exact (h j).2) with ⟨bin, hbin, hrep⟩
    rw [hlen j, take_length] at hrep
    exact ⟨bin, hbin, hrep, (h j).2⟩
  | append i j =>
    simp only [BinaryOp.InRange, hlen] at hrange
    rcases binaryAppend_spec (h i).1 (h j).1 hrange (fun hgrow => hfits (by
      rw [BitVec.ult, decide_eq_false_iff_not, toNat_add] at hgrow
      simp only [hlen] at hgrow ⊢
      omega)) with ⟨bin, hbin, hrep⟩
    exact ⟨bin, hbin, hrep, by simpa [BinaryOp.bytes] using hrange⟩
  | appendBytes i rhs =>
    cases rhs with
    | none => exact ⟨vars i, rfl, by simpa [BinaryOp.bytes] using h i⟩
    | some more =>
      simp only [BinaryOp.InRange, hlen, getD_some] at hrange
      have hnat : (BitVec.ofNat 32 more.length).toNat = more.length := by
        rw [toNat_ofNat]
        omega
      have hroom : ((vars i).len + BitVec.ofNat 32 more.length).ult (vars i).cap = true ∨
          (vars i).len = 0 := by
        rcases hfits more rfl with hlt | hzero
        · left
          have hl := hlen i
          rw [BitVec.ult, decide_eq_true_eq, toNat_add, hnat]
          omega
        · exact Or.inr (eq_of_toNat_eq hzero)
      rcases binaryAppendBytes_spec (h i).1 hnat hrange hroom with ⟨bin, hbin, hrep⟩
      exact ⟨bin, hbin, hrep, by simpa [BinaryOp.bytes] using hrange⟩
  | subbin i j start len =>
    simp only [BinaryOp.InRange, hlen] at hrange
    rcases binarySubbin_spec (h j).1 len (h j).2 hrange.1 hrange.2 with ⟨bin, hbin, hrep⟩
    refine ⟨bin, hbin, hrep, ?_⟩
    have hstart : start.toNat ≤ (bytes j).length := by
      have := toInt_of_nonneg hrange.1
      omega
    have hle := length_substring_le hstart len.toInt
    have hlt := (h j).2
    simp only [BinaryOp.bytes]
    omega
  | clear i => exact ⟨_, rfl, binaryClear_spec (h i).1, by simp [BinaryOp.bytes]⟩

theorem runBinaries_spec {ops : List BinaryOp} (h : RepresentBytes vars bytes)
    (hrange : BinaryOp.EachStep BinaryOp.InRange vars ops)
    (hfits : BinaryOp.EachStep BinaryOp.Fits vars ops) :
    ∃ vars', runBinaries vars ops = some vars' ∧ RepresentBytes vars' (runBytes bytes ops) := by
  induction ops generalizing vars bytes with
  | nil => exact ⟨vars, rfl, h⟩
  | cons op ops ih =>
    rcases op.value_spec h hrange.1 hfits.1 with ⟨bin, hvalue, hrep⟩
    have hnext : RepresentBytes (Function.update vars op.target bin)
        (Function.update bytes op.target (op.bytes bytes)) := by
      intro i
      by_cases hi : i = op.target
      · subst hi
        rw [update_self, update_self]
        exact hrep
      · rw [update_of_ne hi, update_of_ne hi]
        exact h i
    rw [runBinaries, hvalue]
    exact ih hnext (hrange.2 bin hvalue) (hfits.2 bin hvalue)

end Runs

/-- Variables that each hold an empty binary. -/
def emptyBinaries : Nat → BinaryT := fun _ =>
  { buf := Block.calloc 256 0#8, cap := 256#32, len := 0#32 }

/-- In every run of operations that fit, each buffer starts with its bytes, and no operation
leaves the bytes that it was given or the buffers. -/
theorem binaries_represent {ops : List BinaryOp}
    (hrange : BinaryOp.EachStep BinaryOp.InRange emptyBinaries ops)
    (hfits : BinaryOp.EachStep BinaryOp.Fits emptyBinaries ops) :
    ∃ vars, runBinaries emptyBinaries ops = some vars ∧
      RepresentBytes vars (runBytes (fun _ => []) ops) :=
  runBinaries_spec (fun _ => ⟨⟨Block.length_calloc _ _, rfl, show 0 < 256 by decide,
    Block.holds_nil _⟩, show 0 < 2 ^ 30 by decide⟩) hrange hfits

/-- A binary of two bytes is appended to itself. -/
theorem binaries_represent_append :
    ∃ vars, runBinaries emptyBinaries [.appendBytes 0 (some [1#8, 2#8]), .append 0 0] = some vars ∧
      RepresentBytes vars
        (runBytes (fun _ => []) [.appendBytes 0 (some [1#8, 2#8]), .append 0 0]) :=
  binaries_represent (by decide +kernel) (by decide +kernel)

/-- The buffer of one byte has to grow for 255 more: 256 bytes are read of them. -/
theorem not_binaries_represent :
    BinaryOp.EachStep BinaryOp.InRange emptyBinaries
        [.init 0 [1#8], .appendBytes 0 (some (List.replicate 255 0#8))] ∧
      runBinaries emptyBinaries
        [.init 0 [1#8], .appendBytes 0 (some (List.replicate 255 0#8))] = none :=
  ⟨by decide +kernel, isNone_iff_eq_none.mp (by decide +kernel)⟩

end Kcs.Ext
