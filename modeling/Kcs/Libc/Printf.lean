import Mathlib

/-!
# Formatted output into a buffer

The runtime's {lit}`vsnprintf` scans the format, lets a builtin function format one argument in
a work array, and copies the result to the buffer.  A buffer is the list of its cells, and a
write outside a buffer, or a read behind the end of the format, makes the run undefined.

Main results:

- Theorem {lit}`respects_iff`: from any point of the format, the run keeps to the buffer exactly
  when every conversion that it performs fits.
- Theorem {lit}`vsnprintf_respects_iff`: the same for a call.
- Theorem {lit}`vsnprintf_overruns`: a conversion that fills the buffer is written past its end.
-/

namespace Kcs.Libc

open Option List

/-! ## The work arrays -/

/-- The functions that format one argument, {lit}`__kcc_builtin_sprintf_*`. -/
inductive SprintfBuiltin where
  | d | ld | f | lf | p | s

/-- The character that ends a string. -/
def nul : Char := Char.ofNat 0

/-- The size of the work arrays, {lit}`__KCC_PRINTF_BUFFER_SIZE`. -/
def printfBufferSize : Nat := 128

/-- The part of a text that a C function reads. -/
def cString (text : List Char) : List Char := text.takeWhile (· ≠ nul)

/-- A character is stored in a cell. -/
def put (buf : List Char) (i : Nat) (c : Char) : Option (List Char) :=
  if i < buf.length then some (buf.set i c) else none

/-- The copy of a formatted argument; a limit of zero is none. -/
def kccCopyBuf (b : List Char) (start : Nat) (s : List Char) (limit : Nat) :
    Option (List Char × Nat) :=
  match s with
  | [] => some (b, 0)
  | c :: s =>
    if limit = 0 ∨ start < limit then do
      let b ← put b start c
      let (b, n) ← kccCopyBuf b (start + 1) s limit
      some (b, n + 1)
    else some (b, 0)

/-- The builtin that a conversion letter selects, {lit}`prev` being the character before it. -/
def builtinOf (prev c : Char) : Option SprintfBuiltin :=
  if c ∈ ['c', 'x', 'X', 'u', 'o', 'd', 'i'] then some (if prev = 'l' then .ld else .d)
  else if c ∈ ['A', 'a', 'E', 'e', 'G', 'g', 'F', 'f'] then some (if prev = 'l' then .lf else .f)
  else if c = 'p' then some .p
  else if c = 's' then some .s
  else none

/-! ## The function -/

/-- Where the scan of the format stands: between conversions, or in one whose characters so far
are in the array {lit}`b`. -/
inductive Scan where
  | text
  | spec (b : List Char)

section

variable {α : Type} (sprintf : SprintfBuiltin → List Char → α → List Char) (size : Nat)

/-- The decimal text of the argument of a {lit}`*`. -/
def starText (a : α) : List Char := cString (sprintf .d ['%', 'd'] a)

/-- The loop of {lit}`vsnprintf`: the cells and the number of characters at its return. -/
def vsnprintfFrom : List Char → Scan → List Char → Nat → Stream' α → Option (List Char × Nat)
  | [], .text, buf, oc, _ => do some (← put buf oc nul, oc)
  -- the loop over the conversion does not test for the end of the format
  | [], .spec _, _, _, _ => none
  | c :: fmt, .text, buf, oc, ap =>
    if 0 < size ∧ size - 1 ≤ oc then do some (← put buf oc nul, oc)
    else if c ≠ '%' then do vsnprintfFrom fmt .text (← put buf oc c) (oc + 1) ap
    else vsnprintfFrom fmt (.spec ['%']) buf oc ap
  | c :: fmt, .spec b, buf, oc, ap =>
    if b.length = 1 ∧ c = '%' then do vsnprintfFrom fmt .text (← put buf oc '%') (oc + 1) ap
    else
      match builtinOf (b.getLastD '%') c with
      | some f =>
        let s := sprintf f (b ++ [c]) ap.head
        if b.length + 1 < printfBufferSize ∧ s.length < printfBufferSize then do
          let (buf, n) ← kccCopyBuf buf oc (cString s) size
          vsnprintfFrom fmt .text buf (oc + n) ap.tail
        else none
      | none =>
        if c = '*' then
          if b.length + (starText sprintf ap.head).length < printfBufferSize then
            vsnprintfFrom fmt (.spec (b ++ starText sprintf ap.head)) buf oc ap.tail
          else none
        -- after the last cell of {lit}`b` the rest is taken for text
        else if b.length + 1 < printfBufferSize then
          vsnprintfFrom fmt (.spec (b ++ [c])) buf oc ap
        else vsnprintfFrom fmt .text buf oc ap

/-- A call with a buffer, its size, a format and the arguments. -/
def vsnprintf (buf : List Char) (f : List Char) (ap : Stream' α) : Option (List Char × Nat) :=
  vsnprintfFrom sprintf size f .text buf 0 ap

/-! ## The complete text -/

/-- The text that a format and its arguments stand for. -/
def formatted : List Char → Scan → Stream' α → List Char
  | [], _, _ => []
  | c :: fmt, .text, ap =>
    if c ≠ '%' then c :: formatted fmt .text ap else formatted fmt (.spec ['%']) ap
  | c :: fmt, .spec b, ap =>
    if b.length = 1 ∧ c = '%' then '%' :: formatted fmt .text ap
    else
      match builtinOf (b.getLastD '%') c with
      | some f => sprintf f (b ++ [c]) ap.head ++ formatted fmt .text ap.tail
      | none =>
        if c = '*' then formatted fmt (.spec (b ++ starText sprintf ap.head)) ap.tail
        else formatted fmt (.spec (b ++ [c])) ap

/-- The buffer holds the beginning of the complete text and its end mark, whatever it held. -/
def RespectsBuffer (f : List Char) (ap : Stream' α) : Prop :=
  ∀ buf : List Char, buf.length = size → ∃ out n, vsnprintf sprintf size buf f ap = some (out, n) ∧
    (formatted sprintf f .text ap).take (size - 1) ++ [nul] <+: out

/-- A conversion: where its text goes, its characters, and its text unless the format ends. -/
structure Conversion where
  position : Nat
  spec : List Char
  text : Option (List Char)

/-- The conversions that begin before the buffer is full. -/
def performed : List Char → Scan → Nat → Stream' α → List Conversion
  | [], .text, _, _ => []
  | [], .spec b, p, _ => [⟨p, b, none⟩]
  | c :: fmt, .text, p, ap =>
    if size - 1 ≤ p then []
    else if c ≠ '%' then performed fmt .text (p + 1) ap
    else performed fmt (.spec ['%']) p ap
  | c :: fmt, .spec b, p, ap =>
    if b.length = 1 ∧ c = '%' then performed fmt .text (p + 1) ap
    else
      match builtinOf (b.getLastD '%') c with
      | some f =>
        let s := sprintf f (b ++ [c]) ap.head
        ⟨p, b ++ [c], some s⟩ :: performed fmt .text (p + s.length) ap.tail
      | none =>
        if c = '*' then performed fmt (.spec (b ++ starText sprintf ap.head)) p ap.tail
        else performed fmt (.spec (b ++ [c])) p ap

end

/-- The characters of a conversion fit in their array, and its text is a C string. -/
def Conversion.IsPlain (c : Conversion) : Prop :=
  c.spec.length < printfBufferSize ∧ ∀ s, c.text = some s → nul ∉ s

/-- A conversion is complete, and its text fits in the work array and ends inside the buffer. -/
def Conversion.Fits (c : Conversion) (size : Nat) : Prop :=
  ∃ s, c.text = some s ∧ s.length < printfBufferSize ∧ c.position + s.length < size

/-! ## Writing behind a prefix -/

theorem put_behind {pre rest : List Char} (c : Char) (hrest : rest ≠ []) :
    put (pre ++ rest) pre.length c = some (pre ++ [c] ++ rest.tail) := by
  cases rest with
  | nil => exact absurd rfl hrest
  | cons d rest => simp [put]

theorem put_full {buf : List Char} {i : Nat} (c : Char) (h : buf.length ≤ i) :
    put buf i c = none :=
  if_neg (Nat.not_lt.mpr h)

theorem kccCopyBuf_behind {s : List Char} {size : Nat} :
    ∀ {pre rest : List Char}, pre.length + rest.length = size → s.length ≤ rest.length →
      kccCopyBuf (pre ++ rest) pre.length s size =
        some (pre ++ s ++ rest.drop s.length, s.length) := by
  induction s with
  | nil => intro pre rest _ _; simp [kccCopyBuf]
  | cons c s ih =>
    intro pre rest hsize hs
    cases rest with
    | nil => simp at hs
    | cons d rest =>
      have hlt : size = 0 ∨ pre.length < size := Or.inr (by simp at hsize; omega)
      rw [kccCopyBuf, if_pos hlt, put_behind c (by simp)]
      have hnext := @ih (pre ++ [c]) rest (by simp at hsize ⊢; omega) (Nat.le_of_succ_le_succ hs)
      rw [length_append, length_singleton] at hnext
      simp only [bind_eq_bind, bind_some, tail_cons, hnext]
      simp

theorem kccCopyBuf_full {s : List Char} {size : Nat} (hsize : 0 < size) :
    ∀ {buf : List Char} {i : Nat}, buf.length = size → i ≤ size → size ≤ i + s.length →
      ∃ out, kccCopyBuf buf i s size = some (out, size - i) ∧ out.length = size := by
  induction s with
  | nil =>
    intro buf i hbuf hi hs
    have : i = size := le_antisymm hi hs
    exact ⟨buf, by simp [kccCopyBuf, this], hbuf⟩
  | cons c s ih =>
    intro buf i hbuf hi hs
    rw [kccCopyBuf]
    by_cases hlt : i < size
    · rcases @ih (buf.set i c) (i + 1) (by simpa using hbuf) hlt (by simp at hs; omega) with ⟨out, hout, hlength⟩
      refine ⟨out, ?_, hlength⟩
      rw [if_pos (Or.inr hlt), put, if_pos (hbuf ▸ hlt)]
      simp only [bind_eq_bind, bind_some, hout]
      congr 2
      omega
    · rw [if_neg (by omega)]
      exact ⟨buf, by rw [show size - i = 0 by omega], hbuf⟩

theorem cString_of_not_mem {s : List Char} (h : nul ∉ s) : cString s = s :=
  takeWhile_eq_self_iff.mpr fun _ hc => by
    simpa using ne_of_mem_of_not_mem hc h

/-! ## Every run -/

section

variable {α : Type} {sprintf : SprintfBuiltin → List Char → α → List Char} {size : Nat}
variable {fmt : List Char} {m : Scan} {ap : Stream' α} {pre : List Char}

/-- From a point of the format with the characters {lit}`pre` written, the run keeps to the
buffer. -/
def Respects (sprintf : SprintfBuiltin → List Char → α → List Char) (size : Nat) (fmt : List Char)
    (m : Scan) (ap : Stream' α) (pre : List Char) : Prop :=
  ∀ rest : List Char, pre.length + rest.length = size →
    ∃ out n, vsnprintfFrom sprintf size fmt m (pre ++ rest) pre.length ap = some (out, n) ∧
      pre ++ (formatted sprintf fmt m ap).take (size - 1 - pre.length) ++ [nul] <+: out

theorem respects_advance {fmt' : List Char} {m' : Scan} {ap' : Stream' α} {s : List Char}
    (hs : pre.length + s.length < size)
    (hrun : ∀ rest : List Char, pre.length + rest.length = size →
      vsnprintfFrom sprintf size fmt m (pre ++ rest) pre.length ap =
        vsnprintfFrom sprintf size fmt' m' (pre ++ s ++ rest.drop s.length)
          (pre.length + s.length) ap')
    (htext : formatted sprintf fmt m ap = s ++ formatted sprintf fmt' m' ap') :
    Respects sprintf size fmt m ap pre ↔ Respects sprintf size fmt' m' ap' (pre ++ s) := by
  have htake : pre ++ (formatted sprintf fmt m ap).take (size - 1 - pre.length) ++ [nul] =
      pre ++ s ++ (formatted sprintf fmt' m' ap').take (size - 1 - (pre ++ s).length) ++ [nul] := by
    rw [htext, take_append, take_of_length_le (by omega), length_append, Nat.sub_sub (size - 1)]
    simp
  unfold Respects
  rw [htake]
  constructor
  · intro h rest hrest
    rw [length_append] at hrest
    have hwhole := h (s ++ rest) (by rw [length_append]; omega)
    rw [hrun _ (by rw [length_append]; omega), drop_left, ← length_append] at hwhole
    exact hwhole
  · intro h rest hrest
    rw [hrun rest hrest, ← length_append]
    exact h _ (by rw [length_append, length_drop]; omega)

theorem respects_skip {fmt' : List Char} {m' : Scan} {ap' : Stream' α}
    (hrun : ∀ buf, vsnprintfFrom sprintf size fmt m buf pre.length ap =
      vsnprintfFrom sprintf size fmt' m' buf pre.length ap')
    (htext : formatted sprintf fmt m ap = formatted sprintf fmt' m' ap') :
    Respects sprintf size fmt m ap pre ↔ Respects sprintf size fmt' m' ap' pre := by
  simp only [Respects, hrun, htext]

theorem respects_done (hpre : pre.length < size)
    (hrun : ∀ buf, vsnprintfFrom sprintf size fmt m buf pre.length ap =
      (put buf pre.length nul).bind fun buf => some (buf, pre.length))
    (htext : (formatted sprintf fmt m ap).take (size - 1 - pre.length) = []) :
    Respects sprintf size fmt m ap pre := by
  intro rest hrest
  have hne : rest ≠ [] := ne_nil_of_length_pos (by omega)
  refine ⟨pre ++ [nul] ++ rest.tail, pre.length, ?_, ?_⟩
  · rw [hrun, put_behind nul hne]
    rfl
  · rw [htext, append_nil]
    exact prefix_append _ _

theorem not_respects (hpre : pre.length < size)
    (hrun : ∀ rest : List Char, pre.length + rest.length = size →
      vsnprintfFrom sprintf size fmt m (pre ++ rest) pre.length ap = none) :
    ¬ Respects sprintf size fmt m ap pre := by
  intro h
  have hrest : pre.length + (List.replicate (size - pre.length) nul).length = size := by
    rw [length_replicate]
    omega
  rcases h _ hrest with ⟨out, n, hout, -⟩
  exact nomatch (hrun _ hrest).symm.trans hout

theorem vsnprintfFrom_full (hsize : 0 < size) (fmt : List Char) {buf : List Char}
    (hbuf : buf.length = size) (ap : Stream' α) :
    vsnprintfFrom sprintf size fmt .text buf size ap = none := by
  have hput : put buf size nul = none := put_full nul hbuf.le
  cases fmt with
  | nil => simp [vsnprintfFrom, hput]
  | cons c fmt =>
    rw [vsnprintfFrom, if_pos ⟨hsize, Nat.sub_le _ _⟩, hput]
    rfl

theorem exists_performed (fmt : List Char) :
    ∀ {b : List Char} {p : Nat} {ap : Stream' α}, 1 < b.length →
      ∃ c ∈ performed sprintf size fmt (.spec b) p ap, b.length ≤ c.spec.length := by
  induction fmt with
  | nil => intro b p ap _; exact ⟨_, mem_singleton_self _, le_rfl⟩
  | cons c fmt ih =>
    intro b p ap hb
    rw [performed, if_neg (fun h => absurd h.1 (by omega))]
    cases builtinOf (b.getLastD '%') c with
    | some builtin => exact ⟨_, mem_cons_self, by simp⟩
    | none =>
      by_cases hstar : c = '*'
      · rcases @ih (b ++ starText sprintf ap.head) p ap.tail (by simp; omega) with
          ⟨d, hd, hlength⟩
        exact ⟨d, by simpa [hstar] using hd, by simp at hlength; omega⟩
      · rcases @ih (b ++ [c]) p ap (by simp; omega) with ⟨d, hd, hlength⟩
        exact ⟨d, by simpa [hstar] using hd, by simp at hlength; omega⟩

theorem not_plain {b : List Char} {p : Nat} (hb : printfBufferSize ≤ b.length) :
    ¬ ∀ c ∈ performed sprintf size fmt (.spec b) p ap, c.IsPlain := by
  intro h
  rcases exists_performed fmt (lt_of_lt_of_le (by decide) hb) with ⟨c, hc, hlength⟩
  exact absurd ((hb.trans hlength).trans_lt (h c hc).1) (lt_irrefl _)

/-- From any point of the format, the run keeps to the buffer exactly when every conversion that
it performs fits. -/
theorem respects_iff (hsize : 0 < size) (fmt : List Char) :
    ∀ {m : Scan} {ap : Stream' α} {pre : List Char}, pre.length < size →
      (∀ b, m = .spec b → 0 < b.length ∧ pre.length < size - 1) →
      (∀ c ∈ performed sprintf size fmt m pre.length ap, c.IsPlain) →
      (Respects sprintf size fmt m ap pre ↔
        ∀ c ∈ performed sprintf size fmt m pre.length ap, c.Fits size) := by
  induction fmt with
  | nil =>
    intro m ap pre hpre _ _
    cases m with
    | text => exact iff_of_true (respects_done hpre (fun _ => rfl) take_nil) fun _ h => nomatch h
    | spec b =>
      refine iff_of_false (not_respects hpre fun _ _ => rfl) fun h => ?_
      rcases h _ (mem_singleton_self _) with ⟨s, hs, -⟩
      exact nomatch hs
  | cons c fmt ih =>
    intro m ap pre hpre hm hplain
    have hwrite {s : List Char} (ap' : Stream' α) (hs : pre.length + s.length < size) :=
      @ih .text ap' (pre ++ s) (by rwa [length_append]) fun b hb => nomatch hb
    have hput (d : Char) (hroom : pre.length + 1 < size) (rest : List Char)
        (hrest : pre.length + rest.length = size) :
        put (pre ++ rest) pre.length d = some (pre ++ [d] ++ rest.drop 1) := by
      rw [put_behind d (ne_nil_of_length_pos (by omega)), drop_one]
    cases m with
    | text =>
      rw [performed] at hplain ⊢
      by_cases hfull : size - 1 ≤ pre.length
      · rw [if_pos hfull]
        refine iff_of_true (respects_done hpre (fun buf => ?_) ?_) fun _ h => nomatch h
        · rw [vsnprintfFrom, if_pos ⟨hsize, hfull⟩]
          rfl
        · rw [Nat.sub_eq_zero_of_le hfull, take_zero]
      rw [if_neg hfull] at hplain ⊢
      have hroom : pre.length + 1 < size := by omega
      by_cases hc : c = '%'
      · rw [if_neg (not_not_intro hc)] at hplain ⊢
        rw [← ih hpre (fun b hb => by cases hb; exact ⟨Nat.one_pos, Nat.lt_of_not_le hfull⟩) hplain]
        refine respects_skip (fun buf => ?_) (by rw [formatted, if_neg (not_not_intro hc)])
        rw [vsnprintfFrom, if_neg (fun h => hfull h.2), if_neg (not_not_intro hc)]
      · rw [if_pos hc] at hplain ⊢
        have htext := hwrite (s := [c]) ap hroom
        rw [length_append, length_singleton] at htext
        rw [← htext hplain]
        refine respects_advance hroom (fun rest hrest => ?_) (by rw [formatted, if_pos hc]; rfl)
        rw [vsnprintfFrom, if_neg (fun h => hfull h.2), if_pos hc, hput c hroom rest hrest]
        rfl
    | spec b =>
      rcases hm b rfl with ⟨hb, hlast⟩
      have hroom : pre.length + 1 < size := by omega
      have hspec (b' : List Char) (ap' : Stream' α) (hb' : b.length ≤ b'.length) :=
        @ih (.spec b') ap' pre hpre fun b'' h => by cases h; exact ⟨hb.trans_le hb', hlast⟩
      rw [performed] at hplain ⊢
      by_cases hpercent : b.length = 1 ∧ c = '%'
      · rw [if_pos hpercent] at hplain ⊢
        have htext := hwrite (s := ['%']) ap hroom
        rw [length_append, length_singleton] at htext
        rw [← htext hplain]
        refine respects_advance hroom (fun rest hrest => ?_) (by rw [formatted, if_pos hpercent]; rfl)
        rw [vsnprintfFrom, if_pos hpercent, hput '%' hroom rest hrest]
        rfl
      rw [if_neg hpercent] at hplain ⊢
      cases hbuiltin : builtinOf (b.getLastD '%') c with
      | some builtin =>
        simp only [hbuiltin, forall_mem_cons] at hplain ⊢
        generalize hs : sprintf builtin (b ++ [c]) ap.head = s at hplain ⊢
        have hlength : b.length + 1 < printfBufferSize := by simpa using hplain.1.1
        have hstring : cString s = s := cString_of_not_mem (hplain.1.2 s rfl)
        have hrun (buf : List Char) : vsnprintfFrom sprintf size (c :: fmt) (.spec b) buf pre.length ap =
            if s.length < printfBufferSize then
              (kccCopyBuf buf pre.length s size).bind fun x =>
                vsnprintfFrom sprintf size fmt .text x.1 (pre.length + x.2) ap.tail
            else none := by
          rw [vsnprintfFrom, if_neg hpercent]
          simp only [hbuiltin, hs, hlength, hstring, true_and]
          rfl
        by_cases hwork : s.length < printfBufferSize
        · by_cases hend : pre.length + s.length < size
          · have htext := hwrite (s := s) ap.tail hend
            rw [length_append] at htext
            rw [← htext hplain.2, and_iff_right ⟨s, rfl, hwork, hend⟩]
            refine respects_advance hend (fun rest hrest => ?_) ?_
            · rw [hrun, if_pos hwork, kccCopyBuf_behind hrest (by omega)]
              rfl
            · rw [formatted, if_neg hpercent]
              simp only [hbuiltin, hs]
          · refine iff_of_false (not_respects hpre fun rest hrest => ?_) fun h => ?_
            · rcases kccCopyBuf_full hsize (by rw [length_append]; exact hrest) hpre.le
                (Nat.le_of_not_lt hend) with ⟨out, hcopy, hout⟩
              rw [hrun, if_pos hwork, hcopy, bind_some, Nat.add_sub_cancel' hpre.le]
              exact vsnprintfFrom_full hsize fmt hout _
            · rcases h.1 with ⟨_, hs', _, hfits⟩
              cases hs'
              exact hend hfits
        · refine iff_of_false (not_respects hpre fun rest _ => ?_) fun h => ?_
          · rw [hrun, if_neg hwork]
          · rcases h.1 with ⟨_, hs', hfits, _⟩
            cases hs'
            exact hwork hfits
      | none =>
        simp only [hbuiltin] at hplain ⊢
        by_cases hstar : c = '*'
        · rw [if_pos hstar] at hplain ⊢
          have hlength : b.length + (starText sprintf ap.head).length < printfBufferSize := by
            by_contra hlong
            exact not_plain (by rw [length_append]; omega) hplain
          rw [← hspec _ _ (by simp) hplain]
          refine respects_skip (fun buf => ?_) ?_
          · rw [vsnprintfFrom, if_neg hpercent]
            simp only [hbuiltin, if_pos hstar, if_pos hlength]
          · rw [formatted, if_neg hpercent]
            simp only [hbuiltin, if_pos hstar]
        · rw [if_neg hstar] at hplain ⊢
          have hlength : b.length + 1 < printfBufferSize := by
            by_contra hlong
            exact not_plain (by rw [length_append]; exact Nat.le_of_not_lt hlong) hplain
          rw [← hspec _ _ (by simp) hplain]
          refine respects_skip (fun buf => ?_) ?_
          · rw [vsnprintfFrom, if_neg hpercent]
            simp only [hbuiltin, if_neg hstar, if_pos hlength]
          · rw [formatted, if_neg hpercent]
            simp only [hbuiltin, if_neg hstar]

/-- {lit}`vsnprintf` writes the buffer only, and leaves the beginning of the text in it, exactly
when every conversion that begins before the buffer is full has its letter, and a text that fits
in the work array and ends inside the buffer. -/
theorem vsnprintf_respects_iff (sprintf : SprintfBuiltin → List Char → α → List Char)
    (f : List Char) (ap : Stream' α) (hsize : 0 < size)
    (hplain : ∀ c ∈ performed sprintf size f .text 0 ap, c.IsPlain) :
    RespectsBuffer sprintf size f ap ↔
      ∀ c ∈ performed sprintf size f .text 0 ap, c.Fits size := by
  have h := @respects_iff α sprintf size hsize f .text ap [] hsize (fun _ hb => nomatch hb) hplain
  rw [length_nil] at h
  rw [← h]
  simp [RespectsBuffer, Respects, vsnprintf]

end

/-- The decimal text of a number, as {lit}`%d` gives it. -/
def sprintfDecimal (_ : SprintfBuiltin) (_ : List Char) (n : Nat) : List Char := Nat.toDigits 10 n

/-- Four digits and a mark fit in eight cells. -/
theorem vsnprintf_respects_eight :
    RespectsBuffer sprintfDecimal 8 ['%', 'd', '!'] (Stream'.const 1234) := by
  have hperformed : performed sprintfDecimal 8 ['%', 'd', '!'] .text 0 (Stream'.const 1234) =
      [⟨0, ['%', 'd'], some ['1', '2', '3', '4']⟩] := by
    rfl
  refine (vsnprintf_respects_iff sprintfDecimal _ _ (by decide) ?_).mpr ?_
  · rw [hperformed, forall_mem_singleton]
    exact ⟨by decide, fun s hs => by cases hs; decide⟩
  · rw [hperformed, forall_mem_singleton]
    exact ⟨_, rfl, by decide, by decide⟩

/-- Four digits in four cells: the end mark is written behind the buffer. -/
theorem vsnprintf_overruns :
    ¬ RespectsBuffer sprintfDecimal 4 ['%', 'd'] (Stream'.const 1234) := by
  intro h
  rcases h (List.replicate 4 nul) rfl with ⟨out, n, hout, -⟩
  have hnone : vsnprintf sprintfDecimal 4 (List.replicate 4 nul) ['%', 'd'] (Stream'.const 1234) =
      none := by
    decide
  exact nomatch hnone.symm.trans hout

end Kcs.Libc
