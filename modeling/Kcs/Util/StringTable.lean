import Kcs.Lib.HashTable

/-!
# Interned strings

`strtab.c` and `string.c`: a string is kept with its length, in the object itself when it is
short and behind a pointer otherwise.  Long strings are registered in a table.

Main results:

- Theorem {lit}`faithful_iff`: interning is faithful exactly for strings of at most 65535 bytes.
-/

namespace Kcs.Util

open List

/-! ## Strings -/

/-- The bytes of a string. -/
abbrev Bytes := List UInt8

/-- `SHORT_STRING_LEN` -/
def shortStringLen : Nat := 14

/-- `String`: the member `a` with its bytes, or the member `p` with the bytes behind the
pointer. -/
inductive StringObject where
  | a (len : Nat) (str : Bytes)
  | p (len : Nat) (str : Bytes)
deriving DecidableEq, Repr

/-- The member `len`. -/
def StringObject.len : StringObject → Nat
  | .a len _ => len
  | .p len _ => len

/-- The value of a length in the member `len`, of 16 bits. -/
def lenField (n : Nat) : Nat := n % 65536

/-- The bytes up to the length of `str_raw`.  Reading a pointer as characters is left out. -/
def strRaw : StringObject → Option Bytes
  | .a len str =>
    if len = 0 then some [] else if len < shortStringLen then some (str.take len) else none
  | .p len str =>
    if len = 0 then some [] else if len < shortStringLen then none else some (str.take len)

/-- A short string: the bytes behind it are zero. -/
def shortString (s : Bytes) : StringObject :=
  .a s.length (s ++ List.replicate (shortStringLen - s.length) 0)

/-- `str_init` -/
def strInit (s : Bytes) : StringObject :=
  let s := s.takeWhile (· ≠ 0)
  if lenField s.length < shortStringLen then
    .a (lenField s.length)
      (s.take (lenField s.length) ++ List.replicate (shortStringLen - lenField s.length) 0)
  else .p (lenField s.length) s

/-- `memcmp` of two blocks of one size. -/
def memcmp : Bytes → Bytes → Int
  | x :: xs, y :: ys => if x = y then memcmp xs ys else (x.toNat : Int) - y.toNat
  | _, _ => 0

/-- `str_cmp` -/
def strCmp (s1 s2 : StringObject) : Option Int :=
  if s1.len ≠ s2.len then some 1
  else
    match s1, s2 with
    | .a len str, .a _ str' =>
      if len < shortStringLen then some (if str = str' then 0 else 1) else none
    | .p len str, .p _ str' =>
      if len < shortStringLen then none else some (memcmp (str.take len) (str'.take len))
    | _, _ => none

/-! ## The table -/

/-- `djb2_hash`.  The characters are signed. -/
def djb2Hash (s : Bytes) : UInt64 :=
  s.foldl (fun hash c => (hash <<< 5) + hash + c.toInt8.toInt64.toUInt64) 5381

/-- `STRTAB_SIZE` -/
def strtabSize : Nat := 1024

/-- The table of strings; `none` before it is initialized. -/
abbrev StringTable := Option (HashTable StringObject)

/-- The key of an element of the table, for comparing.  Every element is long. -/
def strHashKey (s : StringObject) : Bytes := (strRaw s).getD []

/-- `str_hash_add`: the bytes are copied. -/
def strHashAdd : StringObject → StringObject
  | .a len str => .a len str
  | .p len str => .p len (str.take len)

/-- `str_register`.  A length whose 16 bits are those of a short string is left out: then the
pointer is read as characters. -/
def strRegister (table : StringTable) (s : Bytes) : Option (StringObject × StringTable) :=
  if s.length < shortStringLen then some (shortString s, table)
  else if lenField s.length < shortStringLen then none
  else
    let t := table.getD (HashTable.init strtabSize (by decide))
    let r := HashTable.insert djb2Hash strHashKey strHashAdd t (.p (lenField s.length) s)
    some (r.1, some r.2)

/-- Strings that are registered one after the other. -/
def registerAll : StringTable → List Bytes → Option (List StringObject × StringTable)
  | table, [] => some ([], table)
  | table, s :: rest =>
    (strRegister table s).bind fun r =>
      (registerAll r.2 rest).map fun p => (r.1 :: p.1, p.2)

/-! ## Comparing -/

/-- The handle of a string: short, or with its bytes behind the pointer. -/
structure Denotes (h : StringObject) (s : Bytes) : Prop where
  short : s.length < 65536
  handle : h = if s.length < shortStringLen then shortString s else .p s.length s

variable {s : Bytes} {h : StringObject}

theorem Denotes.raw (hs : Denotes h s) :
    strRaw h = some s ∧ h.len = s.length := by
  rw [hs.handle]
  split
  · rename_i hlen
    refine ⟨?_, rfl⟩
    rw [shortString, strRaw, if_pos hlen]
    split
    · rename_i hzero
      rw [length_eq_zero_iff.mp hzero]
    · simp
  · rename_i hlen
    refine ⟨?_, rfl⟩
    rw [strRaw, if_neg hlen, if_neg fun hzero => hlen (by rw [hzero]; decide), take_length]

theorem memcmp_eq_zero_iff {s t : Bytes} (h : s.length = t.length) : memcmp s t = 0 ↔ s = t := by
  induction s generalizing t with
  | nil =>
    rw [length_nil] at h
    rw [length_eq_zero_iff.mp h.symm]
    simp [memcmp]
  | cons x s ih =>
    cases t with
    | nil => cases h
    | cons y t =>
      rw [memcmp]
      split
      · rename_i heq
        rw [ih (by simpa using h), heq]
        simp
      · rename_i hne
        have hvalue : (x.toNat : Int) ≠ y.toNat := fun hv =>
          hne (UInt8.toNat_inj.mp (by exact_mod_cast hv))
        simp only [List.cons.injEq, hne, false_and, iff_false]
        omega

theorem strCmp_eq_zero_iff {h h' : StringObject} {s t : Bytes} (hs : Denotes h s)
    (ht : Denotes h' t) : strCmp h h' = some 0 ↔ s = t := by
  unfold strCmp
  rw [hs.raw.2, ht.raw.2]
  by_cases hlen : s.length = t.length
  · rw [if_neg (not_not.mpr hlen), hs.handle, ht.handle, ← hlen]
    by_cases hshort : s.length < shortStringLen
    · have hpad : s ++ List.replicate (shortStringLen - s.length) 0 =
          t ++ List.replicate (shortStringLen - s.length) 0 ↔ s = t := append_left_inj _
      simp only [hshort, if_true, shortString, ← hlen, hpad]
      by_cases heq : s = t <;> simp [heq]
    · simp only [hshort, if_false, take_length]
      rw [hlen, take_length, Option.some.injEq, memcmp_eq_zero_iff hlen]
  · rw [if_pos hlen]
    constructor
    · intro h
      cases h
    · intro heq
      exact absurd (by rw [heq]) hlen

theorem strInit_denotes (hlen : s.length < shortStringLen) (hzero : 0 ∉ s) :
    Denotes (strInit s) s := by
  have hfour : shortStringLen = 14 := rfl
  refine ⟨by omega, ?_⟩
  have hwhole : s.takeWhile (· ≠ 0) = s := by
    refine takeWhile_eq_self_iff.mpr fun c hc => ?_
    simp only [ne_eq, decide_not, Bool.not_eq_eq_eq_not, Bool.not_true, decide_eq_false_iff_not]
    exact fun h => hzero (h ▸ hc)
  have hfield : lenField s.length = s.length := Nat.mod_eq_of_lt (by omega)
  rw [strInit, hwhole, if_pos hlen]
  simp only [hfield, if_pos hlen, take_length, shortString]

/-! ## Registering -/

/-- An element of the table: a long string with its bytes behind the pointer. -/
def LongHandle (h : StringObject) : Prop :=
  ∃ s : Bytes, ¬ s.length < shortStringLen ∧ Denotes h s

/-- Every element of the table is a long string. -/
def WellFormed (table : StringTable) : Prop := ∀ t, table = some t → t.Forall LongHandle

theorem strHashKey_of_denotes (hs : Denotes h s) :
    strHashKey h = s := by
  rw [strHashKey, hs.raw.1]
  rfl

theorem strRegister_denotes {table table' : StringTable} (htable : WellFormed table)
    (hreg : strRegister table s = some (h, table')) :
    Denotes h (s.take (lenField s.length)) ∧ WellFormed table' := by
  have hfour : shortStringLen = 14 := rfl
  unfold strRegister at hreg
  split at hreg
  · rename_i hshort
    cases hreg
    have hfield : lenField s.length = s.length := Nat.mod_eq_of_lt (by omega)
    rw [hfield, take_length]
    exact ⟨⟨by omega, by rw [if_pos hshort]⟩, htable⟩
  split at hreg
  · cases hreg
  rename_i hshort hfield
  cases hreg
  have hlt : lenField s.length < 65536 := Nat.mod_lt _ (by decide)
  have hle : lenField s.length ≤ s.length := Nat.mod_le _ _
  have hlen : (s.take (lenField s.length)).length = lenField s.length := by simpa using hle
  have hadded : Denotes (strHashAdd (.p (lenField s.length) s)) (s.take (lenField s.length)) := by
    refine ⟨by omega, ?_⟩
    rw [if_neg (by omega), hlen]
    rfl
  have hkey : strHashKey (.p (lenField s.length) s) = s.take (lenField s.length) := by
    rw [strHashKey, strRaw, if_neg (by omega), if_neg hfield]
    rfl
  have hforall : (table.getD (HashTable.init strtabSize (by decide))).Forall LongHandle := by
    cases htab : table with
    | none => exact HashTable.forall_init strtabSize (by decide)
    | some t => exact htable t htab
  have hinsert := HashTable.Forall.insert djb2Hash strHashKey hforall strHashAdd
    ⟨_, by omega, hadded⟩
  refine ⟨?_, fun t ht => ?_⟩
  · rw [HashTable.insert_fst, hkey]
    cases hfound : HashTable.lookup djb2Hash strHashKey
        (table.getD (HashTable.init strtabSize (by decide))) (s.take (lenField s.length)) with
    | none => exact hadded
    | some b =>
      rcases hforall.lookup hfound with ⟨u, -, hu⟩
      have hsame : u = s.take (lenField s.length) := by
        rw [← strHashKey_of_denotes hu, HashTable.key_of_lookup hfound]
      rw [← hsame]
      exact hu
  · cases ht
    exact hinsert.2

theorem strRegister_spec {table : StringTable} (htable : WellFormed table)
    (hs : s.length < 65536) :
    ∃ h table', strRegister table s = some (h, table') ∧ Denotes h s ∧ WellFormed table' := by
  have hfield : lenField s.length = s.length := Nat.mod_eq_of_lt hs
  have hsome : ∃ r, strRegister table s = some r := by
    unfold strRegister
    split
    · exact ⟨_, rfl⟩
    · rename_i hlong
      rw [hfield, if_neg hlong]
      exact ⟨_, rfl⟩
  rcases hsome with ⟨⟨h, table'⟩, hreg⟩
  have hdenotes := strRegister_denotes htable hreg
  rw [hfield, take_length] at hdenotes
  exact ⟨h, table', hreg, hdenotes⟩

variable {strings : List Bytes}

theorem registerAll_spec {table : StringTable} (htable : WellFormed table)
    (hs : ∀ s ∈ strings, s.length < 65536) :
    ∃ handles table', registerAll table strings = some (handles, table') ∧
      List.Forall₂ Denotes handles strings := by
  induction strings generalizing table with
  | nil => exact ⟨[], table, rfl, .nil⟩
  | cons s strings ih =>
    rcases forall_mem_cons.mp hs with ⟨hfirst, hrest⟩
    rcases strRegister_spec htable hfirst with ⟨h, mid, hreg, hdenotes, hmid⟩
    rcases ih hmid hrest with ⟨handles, table', hall, hforall⟩
    exact ⟨h :: handles, table', by simp [registerAll, hreg, hall], .cons hdenotes hforall⟩

theorem registerAll_length {table table' : StringTable} (htable : WellFormed table)
    {handles : List StringObject}
    (h : registerAll table strings = some (handles, table')) :
    List.Forall₂ (fun h s => h.len = lenField s.length) handles strings := by
  induction strings generalizing table handles with
  | nil =>
    cases h
    exact .nil
  | cons s strings ih =>
    rcases Option.bind_eq_some_iff.mp h with ⟨⟨first, mid⟩, hreg, hrest⟩
    rcases Option.map_eq_some_iff.mp hrest with ⟨⟨rest, last⟩, hall, heq⟩
    cases heq
    rcases strRegister_denotes htable hreg with ⟨hdenotes, hmid⟩
    refine .cons ?_ (ih hmid hall)
    rw [hdenotes.raw.2, length_take]
    exact Nat.min_eq_left (Nat.mod_le _ _)

theorem forall_mem_of_forall₂ {α β : Type} {R : α → β → Prop} {P : β → Prop} {l : List α}
    {l' : List β} (h : List.Forall₂ R l l') (hP : ∀ a b, R a b → P b) : ∀ b ∈ l', P b := by
  induction h with
  | nil => exact fun b hb => absurd hb not_mem_nil
  | cons hhead _ ih => exact forall_mem_cons.mpr ⟨hP _ _ hhead, ih⟩

/-- Interning of strings that are registered one after the other is faithful: each handle gives
its bytes, and comparing with another handle or with a short string is equality. -/
def Faithful (strings : List Bytes) : Prop :=
  ∃ handles table, registerAll none strings = some (handles, table) ∧
    List.Forall₂ (fun h s => strRaw h = some s ∧ h.len = s.length) handles strings ∧
    (∀ p ∈ handles.zip strings, ∀ q ∈ handles.zip strings,
      strCmp p.1 q.1 = some 0 ↔ p.2 = q.2) ∧
    ∀ p ∈ handles.zip strings, ∀ t : Bytes, t.length < shortStringLen → 0 ∉ t →
      (strCmp p.1 (strInit t) = some 0 ↔ p.2 = t)

theorem Faithful.length_lt (h : Faithful strings) :
    ∀ s ∈ strings, s.length < 65536 := by
  rcases h with ⟨handles, table, hall, hraw, -⟩
  have hnone : WellFormed none := fun t ht => nomatch ht
  have hboth : List.Forall₂ (fun _ s => s.length < 65536) handles strings := by
    refine Forall₂.mp (fun h s hraw hlength => ?_) hraw (registerAll_length hnone hall)
    rw [← hraw.2, hlength]
    exact Nat.mod_lt _ (by decide)
  exact forall_mem_of_forall₂ hboth fun h s hs => hs

/-- Interning is faithful exactly for strings of at most 65535 bytes. -/
theorem faithful_iff (strings : List Bytes) :
    Faithful strings ↔ ∀ s ∈ strings, s.length < 65536 := by
  refine ⟨Faithful.length_lt, fun hs => ?_⟩
  have hnone : WellFormed none := fun t ht => nomatch ht
  rcases registerAll_spec hnone hs with ⟨handles, table, hall, hforall⟩
  have hmem : ∀ p ∈ handles.zip strings, Denotes p.1 p.2 := fun p hp =>
    (forall₂_iff_zip.mp hforall).2 hp
  refine ⟨handles, table, hall, hforall.imp fun h s hd => hd.raw, fun p hp q hq => ?_,
    fun p hp t hlen hzero => ?_⟩
  · exact strCmp_eq_zero_iff (hmem p hp) (hmem q hq)
  · exact strCmp_eq_zero_iff (hmem p hp) (strInit_denotes hlen hzero)

/-- A literal of 65556 characters is kept with its first twenty only. -/
theorem not_faithful : ¬ Faithful [List.replicate 65556 97] := by
  intro h
  have hlt := h.length_lt _ (mem_singleton_self _)
  rw [length_replicate] at hlt
  omega

end Kcs.Util
