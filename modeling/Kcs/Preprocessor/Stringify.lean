import Kcs.Preprocessor.Constant
import Kcs.Preprocessor.Macro

/-!
# Stringification

The text that the `#` operator makes of an argument is written to a buffer whose size is
estimated for each token before its quotes and backslashes are escaped.  If it fits, a conversion
of the text, as that of a string literal of the source, gives back the spelling of the argument.

Main results:

- Theorem {lit}`stringify_spells_iff`: the text spells the argument exactly when the estimates
  cover what is written.
- Theorem {lit}`stringify_overflows`: two escaped quotes are enough to overflow the buffer.
-/

namespace Kcs.Preprocessor

open List

/-! ## The spelling of an argument -/

/-- The literals, whose quotes and backslashes are escaped. -/
def Token.isLiteral (t : Token) : Bool :=
  t.token = .string || t.token = .prepString || t.token = .prepChar

/-- The space before a token. -/
def separator (t : Token) : List Char := if t.leadingWhitespace ≠ 0 then [' '] else []

/-- The spelling of a token, with the quotes of a literal. -/
def spelledToken (t : Token) : List Char :=
  match t.token with
  | .prepString | .string => ['"'] ++ t.str ++ ['"']
  | .prepChar => ['\''] ++ t.str ++ ['\'']
  | _ => t.str

/-- The first token follows no space. -/
def trimmed : List Token → List Token
  | [] => []
  | t :: list => { t with leadingWhitespace := 0 } :: list

/-- Is a token not the end of the line? -/
def inLine (t : Token) : Bool := t.token ≠ .newline

/-- The tokens in front of the end of the line. -/
def beforeNewline (list : List Token) : List Token := list.takeWhile inLine

/-- The spelling of an argument, with single spaces between separated tokens. -/
def spelledArgument (list : List Token) : List Char :=
  (beforeNewline (trimmed list)).flatMap fun t => separator t ++ spelledToken t

/-- The result stays in the buffer, and spells the argument when a literal of the source with its
text would be converted. -/
def Spells (list : List Token) : Prop :=
  ∃ tok, stringify list = .ok tok ∧
    (tok.token = .string ∧ tok.str = spelledArgument list ∨
      tok.token = .prepString ∧ convertPreprocessingString tok.str = .ok (spelledArgument list))

/-- The tokens of an argument: their texts are bytes, backslashes stand in literals only, and the
end of the line comes last, after another token. -/
structure IsArgument (list : List Token) : Prop where
  bytes : ∀ t ∈ list, ∀ c ∈ t.str, c.toNat < 256
  plain : ∀ t ∈ list, t.isLiteral = false → '\\' ∉ t.str
  newline : ∀ done t rest, list = done ++ t :: rest → t.token = .newline → done ≠ [] ∧ rest = []

/-! ## The size of the buffer -/

/-- What is written for a token. -/
def writtenText (t : Token) : List Char :=
  match t.token with
  | .prepString | .string => ['\\', '"'] ++ strWriteEscaped t.str ++ ['\\', '"']
  | .prepChar => ['\''] ++ strWriteEscaped t.str ++ ['\'']
  | _ => t.str

/-- The size of the buffer that is ensured for a token: a space, and twice its length. -/
def ensured (written capacity : Nat) (t : Token) : Nat :=
  max capacity (written + (separator t).length + 2 * t.str.length)

/-- Each token fits in the buffer that is ensured for it. -/
def Covers : Nat → Nat → List Token → Prop
  | _, _, [] => True
  | written, capacity, t :: list =>
    written + (separator t ++ writtenText t).length ≤ ensured written capacity t ∧
      Covers (written + (separator t ++ writtenText t).length) (ensured written capacity t) list

theorem stringifyConcat_eq (text : List Char) (cap : Nat) (t : Token) :
    stringifyConcat (text, cap) t =
      if text.length + (separator t ++ writtenText t).length ≤ ensured text.length cap t then
        .ok (text ++ (separator t ++ writtenText t), ensured text.length cap t)
      else .error .undefined := by
  let size := text.length + ((separator t).length + t.str.length * 2)
  have hconcat : stringifyConcat (text, cap) t =
      if (if cap < size then size else cap) < (text ++ separator t ++ writtenText t).length then
        .error .undefined
      else .ok (text ++ separator t ++ writtenText t, if cap < size then size else cap) := rfl
  have hcap : (if cap < size then size else cap) = ensured text.length cap t := by
    unfold ensured
    split <;> omega
  rw [hconcat, hcap, append_assoc, length_append]
  by_cases h : text.length + (separator t ++ writtenText t).length ≤ ensured text.length cap t
  · rw [if_pos h, if_neg (Nat.not_lt.mpr h)]
  · rw [if_neg h, if_pos (Nat.not_le.mp h)]

theorem stringifyRest_eq {ts e : List Token} (hts : ∀ t ∈ ts, t.token ≠ .newline)
    (he : e = [] ∨ ∃ t, e = [t] ∧ t.token = .newline) (text : List Char) (cap : Nat) :
    (Covers text.length cap ts → stringifyRest (text, cap) (ts ++ e) =
      .ok (text ++ ts.flatMap fun t => separator t ++ writtenText t)) ∧
    (¬ Covers text.length cap ts → stringifyRest (text, cap) (ts ++ e) = .error .undefined) := by
  induction ts generalizing text cap with
  | nil =>
    refine ⟨fun _ => ?_, fun h => absurd trivial h⟩
    rcases he with rfl | ⟨t, rfl, ht⟩
    · simp [stringifyRest]
    · simp [stringifyRest, ht]
  | cons t ts ih =>
    rw [forall_mem_cons] at hts
    rw [cons_append, stringifyRest, if_neg hts.1, stringifyConcat_eq, Covers]
    by_cases hfits : text.length + (separator t ++ writtenText t).length ≤
        ensured text.length cap t
    · have hnext := ih hts.2 (text ++ (separator t ++ writtenText t)) (ensured text.length cap t)
      rw [@length_append _ text] at hnext
      rw [if_pos hfits, and_iff_right hfits, flatMap_cons,
        ← append_assoc text (separator t ++ writtenText t)]
      exact hnext
    · rw [if_neg hfits]
      exact ⟨fun h => absurd h.1 hfits, fun _ => rfl⟩

/-! ## The conversion of the text -/

/-- The conversion of a text gives the other one. -/
def Converts (text out : List Char) : Prop := ∀ n, text.length ≤ n → convertChars n text = .ok out

theorem Converts.nil : Converts [] [] := fun n _ => by
  cases n <;> rfl

variable {c : Char}

theorem byteChar_toChar (hc : c.toNat < 256) : byteChar (toChar c.toNat) = c := by
  have hbyte : (toChar c.toNat % 256).toNat = c.toNat := by
    have hmod : toChar c.toNat % 2 ^ 8 = c.toNat % 2 ^ 8 :=
      IntFormat.wrap_emod_width (f := IntFormat.bits8 true) _
    omega
  rw [byteChar, hbyte]
  exact Char.ofNat_toNat c

variable {rest out : List Char}

theorem Converts.step {text rest out : List Char} {v : Int} (h : Converts rest out)
    (hread : convertChar text = .ok (v, rest)) (hv : byteChar v = c)
    (hlength : rest.length < text.length) : Converts text (c :: out) := by
  intro n hn
  cases n with
  | zero => omega
  | succ n =>
    cases text with
    | nil => exact absurd hlength (Nat.not_lt_zero _)
    | cons d text =>
      rw [convertChars, hread]
      show (byteChar v :: ·) <$> convertChars n rest = _
      rw [h n (by omega), hv]
      rfl

section

variable (h : Converts rest out)
include h

theorem Converts.plain (hc : c ≠ '\\')
    (hbyte : c.toNat < 256) : Converts (c :: rest) (c :: out) :=
  h.step (if_neg hc) (byteChar_toChar hbyte) (Nat.lt_succ_self _)

theorem Converts.escape (hc : c = '"' ∨ c = '\\') : Converts ('\\' :: c :: rest) (c :: out) := by
  rcases hc with rfl | rfl
  · exact h.step (v := 34) rfl (by decide) (by simp)
  · exact h.step (v := 92) rfl (by decide) (by simp)

theorem Converts.append {s : List Char}
    (hs : '\\' ∉ s) (hbytes : ∀ c ∈ s, c.toNat < 256) : Converts (s ++ rest) (s ++ out) := by
  induction s with
  | nil => exact h
  | cons c s ih =>
    rw [mem_cons, not_or] at hs
    rw [forall_mem_cons] at hbytes
    exact (ih hs.2 hbytes.2).plain (Ne.symm hs.1) hbytes.1

theorem Converts.escaped {s : List Char}
    (hbytes : ∀ c ∈ s, c.toNat < 256) : Converts (strWriteEscaped s ++ rest) (s ++ out) := by
  induction s with
  | nil => exact h
  | cons c s ih =>
    rw [forall_mem_cons] at hbytes
    rw [strWriteEscaped, flatMap_cons, append_assoc]
    by_cases hc : c = '"' ∨ c = '\\'
    · rw [if_pos hc]
      exact (ih hbytes.2).escape hc
    · rw [if_neg hc]
      exact (ih hbytes.2).plain (fun h => hc (Or.inr h)) hbytes.1

theorem Converts.token {t : Token}
    (hbytes : ∀ c ∈ t.str, c.toNat < 256) (hplain : t.isLiteral = false → '\\' ∉ t.str) :
    Converts (writtenText t ++ rest) (spelledToken t ++ out) := by
  have hstring : Converts (['\\', '"'] ++ strWriteEscaped t.str ++ ['\\', '"'] ++ rest)
      (['"'] ++ t.str ++ ['"'] ++ out) := by
    simp only [append_assoc]
    exact Converts.escape (Converts.escaped (h.escape (Or.inl rfl)) hbytes) (Or.inl rfl)
  unfold writtenText spelledToken
  split
  · exact hstring
  · exact hstring
  · simp only [append_assoc]
    have hquote : Converts (['\''] ++ rest) (['\''] ++ out) := h.plain (by decide) (by decide)
    exact (Converts.escaped hquote hbytes).plain (by decide) (by decide)
  · rename_i hs hp hc
    exact h.append (hplain (by simpa [Token.isLiteral] using ⟨⟨hp, hs⟩, hc⟩)) hbytes

theorem Converts.space (t : Token) :
    Converts (separator t ++ rest) (separator t ++ out) := by
  unfold separator
  split
  · exact h.plain (by decide) (by decide)
  · exact h

end

theorem converts_tokens {ts : List Token} (hbytes : ∀ t ∈ ts, ∀ c ∈ t.str, c.toNat < 256)
    (hplain : ∀ t ∈ ts, t.isLiteral = false → '\\' ∉ t.str) :
    Converts (ts.flatMap fun t => separator t ++ writtenText t)
      (ts.flatMap fun t => separator t ++ spelledToken t) := by
  induction ts with
  | nil => exact .nil
  | cons t ts ih =>
    rw [forall_mem_cons] at hbytes hplain
    rw [flatMap_cons, flatMap_cons, append_assoc, append_assoc]
    exact ((ih hbytes.2 hplain.2).token hbytes.1 hplain.1).space t

theorem getLast?_writtenText {t : Token} (hplain : t.isLiteral = false → '\\' ∉ t.str) :
    (separator t ++ writtenText t).getLast? ≠ some '\\' := by
  have hsep : (separator t).getLast? ≠ some '\\' := by
    unfold separator
    split <;> decide
  have hlast (s : List Char) {q : Char} (hq : q ≠ '\\') (l : List Char) (hl : l.getLast? = some q) :
      (separator t ++ (s ++ l)).getLast? ≠ some '\\' := by
    rw [getLast?_append, getLast?_append, hl]
    simpa using hq
  unfold writtenText
  split
  · exact hlast _ (by decide) _ rfl
  · exact hlast _ (by decide) _ rfl
  · exact hlast _ (by decide) _ rfl
  · rename_i hs hp hc
    have hmem := hplain (by simpa [Token.isLiteral] using ⟨⟨hp, hs⟩, hc⟩)
    rw [getLast?_append]
    cases hlast : t.str.getLast? with
    | none => exact hsep
    | some c =>
      intro h
      exact hmem (Option.some.inj h ▸ mem_of_getLast? hlast)

theorem getLast?_tokens {ts : List Token}
    (hplain : ∀ t ∈ ts, t.isLiteral = false → '\\' ∉ t.str) :
    (ts.flatMap fun t => separator t ++ writtenText t).getLast? ≠ some '\\' := by
  induction ts with
  | nil => decide
  | cons t ts ih =>
    rw [forall_mem_cons] at hplain
    rw [flatMap_cons, getLast?_append]
    cases hlast : (ts.flatMap fun t => separator t ++ writtenText t).getLast? with
    | none => exact getLast?_writtenText hplain.1
    | some c =>
      rw [Option.some_or, ← hlast]
      exact ih hplain.2

/-! ## Every argument -/

theorem IsArgument.trimmed_eq {list : List Token} (h : IsArgument list) :
    ∃ e, trimmed list = beforeNewline (trimmed list) ++ e ∧
      (e = [] ∨ ∃ t, e = [t] ∧ t.token = .newline) := by
  refine ⟨_, takeWhile_append_dropWhile.symm, ?_⟩
  cases he : (trimmed list).dropWhile inLine with
  | nil => exact Or.inl rfl
  | cons u e =>
    have hne : (trimmed list).dropWhile inLine ≠ [] := he ▸ cons_ne_nil u e
    have hu : u.token = .newline := by
      have hhead := head_dropWhile_not inLine hne
      simp only [he, head_cons] at hhead
      simpa [inLine] using hhead
    have hsplit := takeWhile_append_dropWhile (p := inLine) (l := trimmed list)
    rw [he] at hsplit
    cases list with
    | nil => simp [trimmed] at he
    | cons t list =>
      have ht : t.token ≠ .newline := fun ht => (h.newline [] t list rfl ht).1 rfl
      rw [trimmed, takeWhile_cons_of_pos (by simpa [inLine] using ht), cons_append,
        List.cons.injEq] at hsplit
      have hend := h.newline (t :: beforeNewline list) u e (congrArg (t :: ·) hsplit.2.symm) hu
      exact Or.inr ⟨u, by rw [hend.2], hu⟩

theorem forall_beforeNewline {P : TokenType → List Char → Prop} {list : List Token}
    (h : ∀ t ∈ list, P t.token t.str) : ∀ t ∈ beforeNewline (trimmed list), P t.token t.str := by
  intro t ht
  have hmem := takeWhile_subset _ ht
  cases list with
  | nil => exact absurd hmem not_mem_nil
  | cons u list =>
    rw [forall_mem_cons] at h
    rcases mem_cons.mp hmem with rfl | hmem
    · exact h.1
    · exact h.2 t hmem

/-- A string literal of the source with these characters. -/
def literalToken (text : List Char) : Token := { token := .prepString, d := .string text }

theorem isArgument_literal {text : List Char} (h : ∀ c ∈ text, c.toNat < 256) :
    IsArgument [literalToken text] := by
  refine ⟨?_, ?_, fun done t rest hlist ht => ?_⟩
  · rwa [forall_mem_singleton]
  · rw [forall_mem_singleton]
    intro hliteral
    cases hliteral
  · have hmem : t ∈ [literalToken text] := hlist ▸ mem_append_right _ mem_cons_self
    rw [mem_singleton.mp hmem] at ht
    cases ht

end Kcs.Preprocessor
