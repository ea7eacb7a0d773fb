import Kcs.Preprocessor.ReadLine
import Kcs.Preprocessor.Token

/-!
# Input files

`input.c`: the stack of files that are read, their line buffers, and the lines that
`getprepline` takes from them.  A file is delivered in chunks of any length.

Main results:

- Theorem {lit}`initialPreprocessLine_spec`: the next line is the one that `read_line` finds in all
  of what is to be read.
- Theorem {lit}`getprepline_same`: a call takes the same line whatever the buffers hold.
- Theorem {lit}`runInput_oneBuffer`: the lines and positions that are reported are those that are
  reported when every file is read into one buffer.
-/

namespace Kcs.Preprocessor

open List

/-! ## Files -/

/-- An open file: what is left of it, whether the end has been seen, and how much the
next reads deliver at most.  With no more chunks a read delivers all that is asked for. -/
structure File where
  rest : List Char
  eof : Bool := false
  chunks : List Nat := []
deriving DecidableEq, Repr

/-- The number of characters that a read of `n` delivers unless the file ends. -/
def File.chunk (f : File) (n : Nat) : Nat :=
  match f.chunks with
  | [] => n
  | k :: _ => min n (max k 1)

/-- `fread`.  The end of the file is seen by a read that asks for more than is left. -/
def File.fread (f : File) (n : Nat) : List Char × File :=
  let k := f.chunk n
  (f.rest.take k,
    { rest := f.rest.drop k, chunks := f.chunks.tail
      eof := f.eof || decide (f.rest.length < n ∧ f.rest.length ≤ k) })

/-- `struct source`.  The characters of the buffer up to `read` are `data`. -/
structure Source where
  file : File
  data : List Char := []
  size : Nat
  processed : Nat := 0
  path : List Char
  line : Nat := 0
  isStringStream : Bool := false
deriving DecidableEq, Repr

/-- What `getprepline` gives: a line, no line, or it does not return. -/
inductive Prepline where
  | line (text : List Char)
  | end_
  | stop (s : Stop)
deriving DecidableEq, Repr

/-! ## Lines of a file -/

/-- The part of the loop of `initial_preprocess_line` that reads the file.  The source reports a
missing newline and reads on; the compilation has failed then and is not followed here. -/
def refill (s : Source) : Except Prepline Source :=
  if s.processed = s.data.length ∨ s.processed = 0 then
    if s.file.eof then
      if ¬s.isStringStream ∧ s.processed < s.data.length then
        .error (.stop (.error "Unable to process the whole input."))
      else .error .end_
    else
      let kept := if s.processed = 0 then s.data else []
      let (added, file) := s.file.fread (s.size - kept.length - 2)
      let data := kept ++ added
      if file.eof then
        if data = [] then .error .end_
        else if s.isStringStream then
          .ok { s with file := file, data := data ++ ['\n'], processed := 0 }
        else if data.getLast? = some '\n' then
          .ok { s with file := file, data := data, processed := 0 }
        else .error (.stop (.error "Missing newline at end of file."))
      else .ok { s with file := file, data := data, processed := 0 }
  else .ok s

/-- The buffer when it holds no complete line. -/
def moreRoom (bufferSize : Nat) (s : Source) : Source :=
  if s.processed = 0 then { s with size := s.size + bufferSize }
  else { s with data := s.data.drop s.processed, processed := 0 }

/-- The loop of `initial_preprocess_line`. -/
def initialPreprocessLineLoop (bufferSize : Nat) : Nat → Source → Prepline × Source
  | 0, s => (.stop .fuel, s)
  | fuel + 1, s =>
    match refill s with
    | .error p => (p, s)
    | .ok s =>
      if s.data.length ≤ s.processed then (.stop .assertion, s)
      else
        match readLine (s.data.drop s.processed) with
        | .line text rest lines =>
          (.line text,
            { s with
              processed := s.processed + ((s.data.drop s.processed).length - rest.length)
              line := s.line + lines })
        | .newlineInLiteral => (.stop (.error "Unexpected newline in literal."), s)
        | .incomplete =>
          initialPreprocessLineLoop bufferSize fuel
            (moreRoom bufferSize s)

/-- `initial_preprocess_line` -/
def initialPreprocessLine (bufferSize : Nat) (s : Source) : Prepline × Source :=
  if s.processed ≤ s.data.length ∧ s.data.length < s.size then
    initialPreprocessLineLoop bufferSize (s.file.rest.length + 3) s
  else (.stop .assertion, s)

/-! ## The stack of files -/

/-- `is_directive` -/
def isDirective (line : List Char) : Bool :=
  (line.dropWhile fun c => c = ' ' || c = '\t').head? = some '#'

/-- The stack of files, innermost first, with the position that is reported. -/
structure InputState where
  sources : List Source := []
  stale : Bool := false
  currentFilePath : List Char := []
  currentFileLine : Nat := 0
deriving DecidableEq, Repr

/-- `push_file` -/
def pushFile (bufferSize : Nat) (path content : List Char) (chunks : List Nat) (s : InputState) :
    InputState :=
  { s with
    sources :=
      { file := { rest := content, chunks := chunks }, size := bufferSize, path := path } ::
        s.sources
    currentFileLine := 0
    currentFilePath := path }

/-- `set_input_file`, for a file. -/
def setInputFile (bufferSize : Nat) (path content : List Char) (chunks : List Nat)
    (s : InputState) : InputState :=
  pushFile bufferSize path content chunks { s with sources := [] }

/-- The position of the innermost file is reported again when a file has ended. -/
def refreshPosition (source : Source) (s : InputState) : InputState :=
  if s.stale then
    { s with currentFilePath := source.path, currentFileLine := source.line, stale := false }
  else s

/-- The state when the innermost file has ended. -/
def popFile (outer : List Source) (s : InputState) : InputState :=
  { s with stale := true, sources := outer }

/-- The state when a line has been read from the innermost file. -/
def advance (source source' : Source) (outer : List Source) (s : InputState) : InputState :=
  { s with
    sources := source' :: outer
    currentFileLine := s.currentFileLine + (source'.line - source.line) }

/-- The loop of `getprepline`, in a block that is active or not. -/
def getpreplineLoop (bufferSize : Nat) (active : Bool) : Nat → InputState → Prepline × InputState
  | 0, s => (.stop .fuel, s)
  | fuel + 1, s =>
    match s.sources with
    | [] => (.end_, s)
    | source :: outer =>
      let s := refreshPosition source s
      match initialPreprocessLine bufferSize source with
      | (.stop e, _) => (.stop e, s)
      | (.end_, _) =>
        let s := popFile outer s
        if outer = [] then (.end_, s)
        else if active then getpreplineLoop bufferSize active fuel s
        -- `is_directive` is called with a null pointer
        else (.stop .undefined, s)
      | (.line text, source') =>
        let s := advance source source' outer s
        if !active && !isDirective text then getpreplineLoop bufferSize active fuel s
        else (.line text, s)

/-- What is to be read of a file. -/
def Source.pending (s : Source) : List Char := s.data.drop s.processed ++ s.file.rest

/-- A bound on the turns of the loop of `getprepline`. -/
def InputState.fuel (s : InputState) : Nat :=
  (s.sources.map fun source => source.pending.length + 1).sum + 1

/-- `getprepline` -/
def getprepline (bufferSize : Nat) (active : Bool) (s : InputState) : Prepline × InputState :=
  getpreplineLoop bufferSize active s.fuel s

/-! ## Reading a file -/

/-- The input ends with a newline. -/
def EndsWithNewline (input : List Char) : Prop := input = [] ∨ input.getLast? = some '\n'

theorem endsWithNewline_of_suffix {r input : List Char} (h : r <:+ input)
    (hi : EndsWithNewline input) : EndsWithNewline r := by
  rcases h with ⟨used, rfl⟩
  by_cases hr : r = []
  · exact Or.inl hr
  · refine Or.inr ?_
    rcases hi with hi | hi
    · exact absurd (append_eq_nil_iff.1 hi).2 hr
    · rwa [getLast?_append_of_ne_nil _ hr] at hi

theorem fread_append (f : File) (n : Nat) : (f.fread n).1 ++ (f.fread n).2.rest = f.rest :=
  take_append_drop _ _

theorem fread_length_le (f : File) (n : Nat) : (f.fread n).1.length ≤ n := by
  simp only [File.fread, File.chunk, length_take]
  split <;> omega

/-- The reads that are left until the end of a file is seen. -/
def File.left (f : File) : Nat := f.rest.length + if f.eof then 0 else 1

/-- The end of a file is seen at its end. -/
def File.Ended (f : File) : Prop := f.eof = true → f.rest = []

theorem ended_fread {f : File} (h : f.Ended) (n : Nat) : (f.fread n).2.Ended := by
  intro heof
  simp only [File.fread, Bool.or_eq_true, decide_eq_true_eq] at heof ⊢
  rcases heof with heof | heof
  · rw [h heof, drop_nil]
  · exact drop_eq_nil_of_le heof.2

theorem left_fread {f : File} {n : Nat} (heof : f.eof = false) (hn : 0 < n) :
    (f.fread n).2.left < f.left := by
  have hk : 0 < f.chunk n := by
    unfold File.chunk
    split <;> omega
  simp only [File.left, File.fread, heof, length_drop, Bool.false_or, decide_eq_true_eq,
    Bool.false_eq_true, if_false]
  by_cases hr : f.rest.length = 0
  · have hk' : f.rest.length ≤ f.chunk n := by omega
    rw [if_pos ⟨by omega, hk'⟩]
    omega
  · split <;> omega

theorem eof_fread {f : File} {n : Nat} (hn : 0 < n) (hr : f.rest = []) :
    (f.fread n).2.eof = true := by
  simp [File.fread, hr, hn]

/-- A buffer between two turns of the loop of `initial_preprocess_line`. -/
structure Source.WellFormed (s : Source) : Prop where
  processed_le : s.processed ≤ s.data.length
  room : s.data.length + 2 ≤ s.size
  start : s.processed = 0 → s.data.length + 2 < s.size
  ended : s.file.Ended
  isFile : s.isStringStream = false
  newline : EndsWithNewline s.pending

/-- A buffer between two lines. -/
structure Source.Settled (s : Source) : Prop extends s.WellFormed where
  fresh : s.processed = 0 → s.file.eof = false

/-- A source has the same input to be read as another one, in the same place. -/
structure SameSource (s t : Source) : Prop where
  pending : s.pending = t.pending
  path : s.path = t.path
  line : s.line = t.line

/-- A buffer that holds input to be processed. -/
structure Source.Ready (s : Source) : Prop where
  processed_lt : s.processed < s.data.length
  room : s.data.length + 2 ≤ s.size
  ended : s.file.Ended
  isFile : s.isStringStream = false
  newline : EndsWithNewline s.pending

/-- A bound on the turns of the loop of `initial_preprocess_line`. -/
def Source.turns (s : Source) : Nat := s.file.left + if s.processed = 0 then 0 else 1

theorem SameSource.refl (s : Source) : SameSource s s := ⟨rfl, rfl, rfl⟩

theorem kept_eq {s : Source} (h : s.processed = s.data.length ∨ s.processed = 0) :
    (if s.processed = 0 then s.data else []) = s.data.drop s.processed := by
  by_cases h0 : s.processed = 0
  · rw [if_pos h0, h0, drop_zero]
  · rw [if_neg h0, h.resolve_right h0, drop_length]

theorem Source.WellFormed.room_kept {s : Source} (h : s.WellFormed) :
    (s.data.drop s.processed).length + 2 < s.size := by
  rw [length_drop]
  by_cases h0 : s.processed = 0
  · have := h.start h0
    omega
  · have := h.room
    have := h.processed_le
    omega

theorem refill_end {s : Source} (h : s.WellFormed) (hp : s.pending = []) :
    refill s = .error .end_ := by
  rcases append_eq_nil_iff.1 hp with ⟨hdata, hrest⟩
  have hlen : s.processed = s.data.length :=
    Nat.le_antisymm h.processed_le (drop_eq_nil_iff.1 hdata)
  unfold refill
  rw [if_pos (Or.inl hlen)]
  cases heof : s.file.eof with
  | true => simp [hlen]
  | false =>
    have hroom := h.room_kept
    rw [hdata] at hroom
    have hread := eof_fread (n := s.size - 2) (by simp at hroom; omega) hrest
    have hnone := fread_append s.file (s.size - 2)
    rw [hrest, append_eq_nil_iff] at hnone
    simp [kept_eq (Or.inl hlen), hdata, hread, hnone.1]

/-- With something to be read, the buffer is filled, or a last line without an end is in it. -/
theorem refill_spec {s : Source} (h : s.WellFormed) (hp : s.pending ≠ []) :
    (s.processed = 0 ∧ s.file.eof = true ∧
      refill s = .error (.stop (.error "Unable to process the whole input."))) ∨
    ∃ s', refill s = .ok s' ∧ s'.Ready ∧ SameSource s' s ∧ s'.file.left < s.turns := by
  unfold refill
  by_cases hmore : s.processed = s.data.length ∨ s.processed = 0
  · rw [if_pos hmore]
    cases heof : s.file.eof with
    | true =>
      have hrest := h.ended heof
      have hlt : s.processed < s.data.length := by
        refine Nat.lt_of_le_of_ne h.processed_le fun hlen => hp ?_
        rw [Source.pending, hrest, hlen, drop_length, append_nil]
      refine Or.inl ⟨hmore.resolve_left (Nat.ne_of_lt hlt), rfl, ?_⟩
      simp [h.isFile, hlt]
    | false =>
      refine Or.inr ?_
      have hroom := h.room_kept
      have hpending : s.data.drop s.processed ++ s.file.rest = s.pending := rfl
      dsimp only
      rw [kept_eq hmore]
      generalize s.data.drop s.processed = kept at hroom hpending ⊢
      have hn : 0 < s.size - kept.length - 2 := by omega
      generalize hsize : s.size - kept.length - 2 = n at hn ⊢
      have hleft := left_fread heof hn
      have hle := fread_length_le s.file n
      have hended := ended_fread h.ended n
      have hfront := fread_append s.file n
      generalize s.file.fread n = read at hleft hle hended hfront ⊢
      rcases read with ⟨added, file⟩
      simp only at hleft hle hended hfront ⊢
      rw [← hfront, ← append_assoc] at hpending
      have hne : kept ++ added ≠ [] := by
        intro hnil
        rcases append_eq_nil_iff.1 hnil with ⟨_, rfl⟩
        rw [hnil, nil_append] at hpending
        have heof' : file.eof = true := by
          by_contra hno
          simp [File.left, heof, hno, ← hfront] at hleft
        exact hp (hpending ▸ hended heof')
      have hlen : (kept ++ added).length + 2 ≤ s.size := by
        rw [length_append]
        omega
      generalize kept ++ added = data at hpending hlen hne ⊢
      have hsame : SameSource { s with file := file, data := data, processed := 0 } s :=
        ⟨by rw [Source.pending, drop_zero, hpending], rfl, rfl⟩
      refine ⟨{ s with file := file, data := data, processed := 0 }, ?_,
        ⟨length_pos_iff.2 hne, hlen, hended, h.isFile, hsame.pending ▸ h.newline⟩, hsame,
        Nat.lt_of_lt_of_le hleft (Nat.le_add_right _ _)⟩
      cases heof' : file.eof with
      | false => rfl
      | true =>
        rw [hended heof', append_nil] at hpending
        have hlast := h.newline.resolve_left hp
        rw [← hpending] at hlast
        simp [hne, h.isFile, hlast]
  · rw [if_neg hmore]
    rw [not_or] at hmore
    refine Or.inr ⟨s, rfl, ?_, SameSource.refl s, ?_⟩
    · exact ⟨Nat.lt_of_le_of_ne h.processed_le hmore.1, h.room, h.ended, h.isFile, h.newline⟩
    · rw [Source.turns, if_neg hmore.2]
      omega

theorem moreRoom_processed (bufferSize : Nat) (s : Source) :
    (moreRoom bufferSize s).processed = 0 := by
  unfold moreRoom
  split
  · assumption
  · rfl

theorem sameSource_moreRoom (bufferSize : Nat) (s : Source) :
    SameSource (moreRoom bufferSize s) s := by
  unfold moreRoom
  split
  · exact ⟨rfl, rfl, rfl⟩
  · exact ⟨by rw [Source.pending, drop_zero, Source.pending], rfl, rfl⟩

theorem turns_moreRoom (bufferSize : Nat) (s : Source) :
    (moreRoom bufferSize s).turns = s.file.left := by
  rw [Source.turns, if_pos (moreRoom_processed bufferSize s), moreRoom]
  split <;> rfl

theorem Source.Ready.moreRoom {bufferSize : Nat} (hsize : 0 < bufferSize) {s : Source}
    (h : s.Ready) : (moreRoom bufferSize s).WellFormed := by
  have hnewline : EndsWithNewline (Preprocessor.moreRoom bufferSize s).pending := by
    rw [(sameSource_moreRoom bufferSize s).pending]
    exact h.newline
  have hroom := h.room
  have hlt := h.processed_lt
  by_cases h0 : s.processed = 0
  · rw [Preprocessor.moreRoom, if_pos h0] at hnewline ⊢
    refine ⟨Nat.le_of_lt hlt, ?_, fun _ => ?_, h.ended, h.isFile, hnewline⟩
    · exact Nat.le_trans hroom (Nat.le_add_right _ _)
    · exact Nat.lt_of_le_of_lt hroom (Nat.lt_add_of_pos_right hsize)
  · rw [Preprocessor.moreRoom, if_neg h0] at hnewline ⊢
    have hlen : (s.data.drop s.processed).length + 2 < s.size := by
      rw [length_drop]
      omega
    exact ⟨Nat.zero_le _, Nat.le_of_lt hlen, fun _ => hlen, h.ended, h.isFile, hnewline⟩

/-- The line that is read is the first one of the input that is to be read. -/
def ReadsLine (s : Source) (r : Prepline × Source) : Prop :=
  match readLine s.pending with
  | .incomplete => r.1 = .stop (.error "Unable to process the whole input.")
  | .newlineInLiteral => r.1 = .stop (.error "Unexpected newline in literal.")
  | .line text rest lines =>
    r.1 = .line text ∧ r.2.Settled ∧ r.2.pending = rest ∧ r.2.path = s.path ∧
      r.2.line = s.line + lines

theorem ReadsLine.of_same {s t : Source} {r : Prepline × Source} (h : SameSource s t)
    (hs : ReadsLine s r) : ReadsLine t r := by
  unfold ReadsLine at hs ⊢
  rwa [h.pending, h.path, h.line] at hs

theorem Source.Ready.line {s : Source} (h : s.Ready) {text rest : List Char} {lines : Nat}
    (hl : readLine (s.data.drop s.processed) = .line text rest lines) :
    ReadsLine s (.line text,
      { s with
        processed := s.processed + ((s.data.drop s.processed).length - rest.length)
        line := s.line + lines }) := by
  have hbehind := readLineFrom_behind hl
  rcases hbehind.suffix with ⟨used, hused⟩
  have happ := readLine_append (s.data.drop s.processed) s.file.rest (by simp [hl])
  rw [hl] at happ
  have hcount : (s.data.drop s.processed).length - rest.length = used.length := by
    rw [← hused, length_append, Nat.add_sub_cancel]
  have hpos : 0 < used.length := by
    have := hbehind.length_lt
    omega
  have hdrop : s.data.drop (s.processed + used.length) = rest := by
    rw [← drop_drop, ← hused, drop_left]
  have hpending : s.pending = used ++ (rest ++ s.file.rest) := by
    rw [Source.pending, ← hused, append_assoc]
  unfold ReadsLine
  rw [Source.pending, happ]
  have hmoved : s.processed + used.length ≠ 0 := by omega
  refine ⟨rfl, ⟨⟨?_, h.room, ?_, h.ended, h.isFile, ?_⟩, ?_⟩, ?_, rfl, rfl⟩
  · simp only [hcount]
    have := congrArg List.length hused
    rw [length_append, length_drop] at this
    have := h.processed_lt
    omega
  · exact fun h0 => absurd (hcount ▸ h0) hmoved
  · simp only [Source.pending, hcount, hdrop]
    exact endsWithNewline_of_suffix ⟨used, hpending.symm⟩ h.newline
  · exact fun h0 => absurd (hcount ▸ h0) hmoved
  · simp only [Source.pending, hcount, hdrop]

theorem initialPreprocessLineLoop_spec {bufferSize : Nat} (hsize : 0 < bufferSize) {fuel : Nat}
    {s : Source} (h : s.WellFormed) (hp : s.pending ≠ []) (hfuel : s.turns < fuel)
    (hlast : s.file.eof = true → s.processed = 0 → readLine s.pending = .incomplete) :
    ReadsLine s (initialPreprocessLineLoop bufferSize fuel s) := by
  induction fuel generalizing s with
  | zero => exact absurd hfuel (Nat.not_lt_zero _)
  | succ fuel ih =>
    rw [initialPreprocessLineLoop]
    rcases refill_spec h hp with ⟨h0, heof, hrefill⟩ | ⟨s', hrefill, hready, hsame, hleft⟩
    · rw [hrefill]
      simp [ReadsLine, hlast heof h0]
    · rw [hrefill]
      refine ReadsLine.of_same hsame ?_
      simp only [Nat.not_le.2 hready.processed_lt, if_false]
      have happ := readLine_append (s'.data.drop s'.processed) s'.file.rest
      cases hl : readLine (s'.data.drop s'.processed) with
      | line text rest lines => exact hready.line hl
      | newlineInLiteral =>
        rw [hl] at happ
        rw [ReadsLine, Source.pending, happ (by simp)]
        rfl
      | incomplete =>
        have hmore := sameSource_moreRoom bufferSize s'
        refine ReadsLine.of_same hmore (ih (hready.moreRoom hsize) ?_ ?_ ?_)
        · rw [hmore.pending, hsame.pending]
          exact hp
        · rw [turns_moreRoom]
          omega
        · intro heof _
          have heof' : s'.file.eof = true := by
            unfold moreRoom at heof
            split at heof <;> exact heof
          rw [hmore.pending, Source.pending, hready.ended heof', append_nil, hl]

/-- The next line of a file is the first line of all that is to be read of it. -/
theorem initialPreprocessLine_spec {bufferSize : Nat} (hsize : 0 < bufferSize) {s : Source}
    (h : s.Settled) :
    if s.pending = [] then (initialPreprocessLine bufferSize s).1 = .end_
    else ReadsLine s (initialPreprocessLine bufferSize s) := by
  have hroom := h.room
  have hval : initialPreprocessLine bufferSize s =
      initialPreprocessLineLoop bufferSize (s.file.rest.length + 3) s :=
    if_pos ⟨h.processed_le, by omega⟩
  rw [hval]
  split
  · rename_i hp
    rw [initialPreprocessLineLoop, refill_end h.toWellFormed hp]
  · rename_i hp
    refine initialPreprocessLineLoop_spec hsize h.toWellFormed hp ?_ fun heof h0 => ?_
    · simp only [Source.turns, File.left]
      split <;> split <;> omega
    · rw [h.fresh h0] at heof
      cases heof

/-! ## The stack of files -/

/-- A stack of files with the same input to be read as another one. -/
structure SameInput (s t : InputState) : Prop where
  sources : List.Forall₂ SameSource s.sources t.sources
  settledLeft : ∀ source ∈ s.sources, source.Settled
  settledRight : ∀ source ∈ t.sources, source.Settled
  stale : s.stale = t.stale
  path : s.currentFilePath = t.currentFilePath
  line : s.currentFileLine = t.currentFileLine

theorem ReadsLine.same {s t : Source} {r r' : Prepline × Source} (h : SameSource s t)
    (hs : ReadsLine s r) (ht : ReadsLine t r') :
    (∃ e, e ≠ .fuel ∧ r.1 = .stop e ∧ r'.1 = .stop e) ∨
    ∃ text, r.1 = .line text ∧ r'.1 = .line text ∧ SameSource r.2 r'.2 ∧ r.2.Settled ∧
      r'.2.Settled ∧ r.2.pending.length < s.pending.length := by
  unfold ReadsLine at hs ht
  rw [← h.pending] at ht
  cases hl : readLine s.pending with
  | incomplete =>
    rw [hl] at hs ht
    exact Or.inl ⟨_, by simp, hs, ht⟩
  | newlineInLiteral =>
    rw [hl] at hs ht
    exact Or.inl ⟨_, by simp, hs, ht⟩
  | line text rest lines =>
    rw [hl] at hs ht
    rcases hs with ⟨hs, hsettled, hpending, hpath, hline⟩
    rcases ht with ⟨ht, hsettled', hpending', hpath', hline'⟩
    refine Or.inr ⟨text, hs, ht, ⟨?_, ?_, ?_⟩, hsettled, hsettled', ?_⟩
    · rw [hpending, hpending']
    · rw [hpath, hpath', h.path]
    · rw [hline, hline', h.line]
    · rw [hpending]
      exact (readLineFrom_behind hl).length_lt

theorem SameInput.refresh {s t : InputState} (h : SameInput s t) {a b : Source}
    (hab : SameSource a b) : SameInput (refreshPosition a s) (refreshPosition b t) := by
  unfold refreshPosition
  rw [← h.stale]
  split
  · exact ⟨h.sources, h.settledLeft, h.settledRight, rfl, hab.path, hab.line⟩
  · exact h

section Steps

variable {bufferSize fuel : Nat} {active : Bool} {s : InputState} {source : Source}
  {outer : List Source}

theorem getpreplineLoop_stop (hs : s.sources = source :: outer) {e : Stop}
    (h : (initialPreprocessLine bufferSize source).1 = .stop e) :
    getpreplineLoop bufferSize active (fuel + 1) s = (.stop e, refreshPosition source s) := by
  rw [getpreplineLoop, hs]
  rcases hr : initialPreprocessLine bufferSize source with ⟨p, source'⟩
  rw [hr] at h
  cases h
  simp only [hr]

theorem getpreplineLoop_end (hs : s.sources = source :: outer)
    (h : (initialPreprocessLine bufferSize source).1 = .end_) :
    getpreplineLoop bufferSize active (fuel + 1) s =
      if outer = [] then (.end_, popFile outer (refreshPosition source s))
      else if active then
        getpreplineLoop bufferSize active fuel (popFile outer (refreshPosition source s))
      else (.stop .undefined, popFile outer (refreshPosition source s)) := by
  rw [getpreplineLoop, hs]
  rcases hr : initialPreprocessLine bufferSize source with ⟨p, source'⟩
  rw [hr] at h
  cases h
  simp only [hr]

theorem getpreplineLoop_line (hs : s.sources = source :: outer) {text : List Char}
    (h : (initialPreprocessLine bufferSize source).1 = .line text) :
    getpreplineLoop bufferSize active (fuel + 1) s =
      let next := advance source (initialPreprocessLine bufferSize source).2 outer
        (refreshPosition source s)
      if !active && !isDirective text then getpreplineLoop bufferSize active fuel next
      else (.line text, next) := by
  rw [getpreplineLoop, hs]
  rcases hr : initialPreprocessLine bufferSize source with ⟨p, source'⟩
  rw [hr] at h
  cases h
  simp only [hr]

end Steps

theorem SameInput.pop {s t : InputState} (h : SameInput s t) {a b : Source}
    {outer outer' : List Source} (hs : s.sources = a :: outer) (ht : t.sources = b :: outer')
    (hab : SameSource a b) (houter : List.Forall₂ SameSource outer outer') :
    SameInput (popFile outer (refreshPosition a s)) (popFile outer' (refreshPosition b t)) := by
  have hposition := h.refresh hab
  refine ⟨houter, fun x hx => h.settledLeft x ?_, fun x hx => h.settledRight x ?_, rfl,
    hposition.path, hposition.line⟩
  · rw [hs]
    exact mem_cons_of_mem _ hx
  · rw [ht]
    exact mem_cons_of_mem _ hx

theorem SameInput.advance {s t : InputState} (h : SameInput s t) {a b a' b' : Source}
    {outer outer' : List Source} (hs : s.sources = a :: outer) (ht : t.sources = b :: outer')
    (hab : SameSource a b) (houter : List.Forall₂ SameSource outer outer')
    (hab' : SameSource a' b') (ha' : a'.Settled) (hb' : b'.Settled) :
    SameInput (advance a a' outer (refreshPosition a s))
      (advance b b' outer' (refreshPosition b t)) := by
  have hposition := h.refresh hab
  refine ⟨List.Forall₂.cons hab' houter, ?_, ?_, hposition.stale, hposition.path, ?_⟩
  · intro x hx
    rcases mem_cons.1 hx with rfl | hx
    · exact ha'
    · exact h.settledLeft x (hs ▸ mem_cons_of_mem _ hx)
  · intro x hx
    rcases mem_cons.1 hx with rfl | hx
    · exact hb'
    · exact h.settledRight x (ht ▸ mem_cons_of_mem _ hx)
  · simp only [Preprocessor.advance, hposition.line, hab.line, hab'.line]

/-- The loop of `getprepline` takes the same lines whatever the buffers hold. -/
theorem getpreplineLoop_same {sizeL sizeR : Nat} (hL : 0 < sizeL) (hR : 0 < sizeR) (active : Bool)
    (fuel : Nat) {s t : InputState} (h : SameInput s t) :
    (getpreplineLoop sizeL active fuel s).1 = (getpreplineLoop sizeR active fuel t).1 ∧
      SameInput (getpreplineLoop sizeL active fuel s).2 (getpreplineLoop sizeR active fuel t).2 ∧
      (s.fuel ≤ fuel → (getpreplineLoop sizeL active fuel s).1 ≠ .stop .fuel) := by
  induction fuel generalizing s t with
  | zero => exact ⟨rfl, h, fun hfuel => absurd hfuel (Nat.not_succ_le_zero _)⟩
  | succ fuel ih =>
    have hsources := h.sources
    cases hs : s.sources with
    | nil =>
      rw [hs, forall₂_nil_left_iff] at hsources
      rw [getpreplineLoop, getpreplineLoop, hs, hsources]
      exact ⟨rfl, h, fun _ => by simp⟩
    | cons a outer =>
      rw [hs] at hsources
      rcases forall₂_cons_left_iff.1 hsources with ⟨b, outer', hab, houter, ht⟩
      have hbound : s.fuel = a.pending.length + 1 + InputState.fuel { s with sources := outer } := by
        simp [InputState.fuel, hs, Nat.add_assoc]
      have ha := initialPreprocessLine_spec hL (h.settledLeft a (hs ▸ mem_cons_self))
      have hb := initialPreprocessLine_spec hR (h.settledRight b (ht ▸ mem_cons_self))
      rw [← hab.pending] at hb
      by_cases hp : a.pending = []
      · rw [if_pos hp] at ha hb
        rw [getpreplineLoop_end hs ha, getpreplineLoop_end ht hb]
        have hpop := h.pop hs ht hab houter
        have hnil : outer = [] ↔ outer' = [] := by
          constructor
          · rintro rfl
            exact forall₂_nil_left_iff.1 houter
          · rintro rfl
            exact forall₂_nil_right_iff.1 houter
        by_cases houter0 : outer = []
        · rw [if_pos houter0, if_pos (hnil.1 houter0)]
          exact ⟨rfl, hpop, fun _ => by simp⟩
        · rw [if_neg houter0, if_neg (mt hnil.2 houter0)]
          cases active with
          | false => exact ⟨rfl, hpop, fun _ => by simp⟩
          | true =>
            rcases ih hpop with ⟨hline, hstate, hfuel⟩
            refine ⟨hline, hstate, fun hle => hfuel ?_⟩
            have hless : (popFile outer (refreshPosition a s)).fuel =
                InputState.fuel { s with sources := outer } := rfl
            omega
      · rw [if_neg hp] at ha hb
        rcases ha.same hab hb with ⟨e, hne, hea, heb⟩ | ⟨text, hla, hlb, hsame, hca, hcb, hlt⟩
        · rw [getpreplineLoop_stop hs hea, getpreplineLoop_stop ht heb]
          have hposition := h.refresh hab
          exact ⟨rfl, hposition, fun _ => by simpa using hne⟩
        · rw [getpreplineLoop_line hs hla, getpreplineLoop_line ht hlb]
          have hnext := h.advance hs ht hab houter hsame hca hcb
          simp only
          split
          · rcases ih hnext with ⟨hline, hstate, hfuel⟩
            refine ⟨hline, hstate, fun hle => hfuel ?_⟩
            have hless : (advance a (initialPreprocessLine sizeL a).2 outer
                (refreshPosition a s)).fuel =
                (initialPreprocessLine sizeL a).2.pending.length + 1 +
                  InputState.fuel { s with sources := outer } := by
              simp [InputState.fuel, advance, Nat.add_assoc]
            omega
          · exact ⟨rfl, hnext, fun _ => by simp⟩

theorem SameInput.fuel_eq {s t : InputState} (h : SameInput s t) : s.fuel = t.fuel := by
  have hlengths : (s.sources.map fun source => source.pending.length + 1) =
      t.sources.map fun source => source.pending.length + 1 := by
    have hsources := h.sources
    generalize s.sources = sources, t.sources = sources' at hsources ⊢
    induction hsources with
    | nil => rfl
    | cons hab _ ih => rw [map_cons, map_cons, hab.pending, ih]
  rw [InputState.fuel, InputState.fuel, hlengths]

/-- A call takes the same line whatever the buffers hold. -/
theorem getprepline_same {sizeL sizeR : Nat} (hL : 0 < sizeL) (hR : 0 < sizeR) (active : Bool)
    {s t : InputState} (h : SameInput s t) :
    (getprepline sizeL active s).1 = (getprepline sizeR active t).1 ∧
      SameInput (getprepline sizeL active s).2 (getprepline sizeR active t).2 ∧
      (getprepline sizeL active s).1 ≠ .stop .fuel := by
  rw [getprepline, getprepline, ← h.fuel_eq]
  rcases getpreplineLoop_same hL hR active s.fuel h with ⟨hline, hstate, hfuel⟩
  exact ⟨hline, hstate, hfuel (Nat.le_refl _)⟩

/-! ## Runs -/

/-- What the preprocessor does with its input: the first file, a call of `getprepline` in a block
that is active or not, an included file, and a `#line` directive. -/
inductive InputAction where
  | setInputFile (path content : List Char)
  | getprepline (active : Bool)
  | include_ (path content : List Char)
  | setLine (line : Nat) (path : Option (List Char))
deriving DecidableEq, Repr

/-- The content of the file that is opened. -/
def InputAction.content : InputAction → Option (List Char)
  | .setInputFile _ content | .include_ _ content => some content
  | .getprepline _ | .setLine _ _ => none

/-- What a call of `getprepline` gives, and the position that is reported behind it. -/
structure Report where
  prepline : Prepline
  path : List Char
  line : Nat
deriving DecidableEq, Repr

/-- The reports of a run that stops with the first call that does not return.  The files are
delivered in the chunks that belong to their number. -/
def runInput (bufferSize : Nat) (chunks : Nat → List Nat) :
    Nat → InputState → List InputAction → List Report
  | _, _, [] => []
  | opened, s, .setInputFile path content :: actions =>
    runInput bufferSize chunks (opened + 1)
      (setInputFile bufferSize path content (chunks opened) s) actions
  | opened, s, .include_ path content :: actions =>
    runInput bufferSize chunks (opened + 1)
      (pushFile bufferSize path content (chunks opened) s) actions
  | opened, s, .setLine line path :: actions =>
    runInput bufferSize chunks opened
      { s with currentFileLine := line, currentFilePath := path.getD s.currentFilePath } actions
  | opened, s, .getprepline active :: actions =>
    let (p, s) := getprepline bufferSize active s
    ⟨p, s.currentFilePath, s.currentFileLine⟩ ::
      match p with
      | .stop _ => []
      | _ => runInput bufferSize chunks opened s actions

/-- A buffer that holds every file of a run. -/
def oneBufferSize (actions : List InputAction) : Nat :=
  ((actions.filterMap InputAction.content).map List.length).foldr max 0 + 3

theorem settled_new {bufferSize : Nat} (hsize : 3 ≤ bufferSize) {content : List Char}
    (h : EndsWithNewline content) (path : List Char) (chunks : List Nat) :
    Source.Settled { file := { rest := content, chunks := chunks }, size := bufferSize,
                     path := path } :=
  ⟨⟨Nat.le_refl _, by simp; omega, fun _ => by simp; omega, by simp [File.Ended], rfl, h⟩,
    fun _ => rfl⟩

theorem SameInput.push {sizeL sizeR : Nat} (hL : 3 ≤ sizeL) (hR : 3 ≤ sizeR) {s t : InputState}
    (h : SameInput s t) {content : List Char} (hc : EndsWithNewline content) (path : List Char)
    (chunksL chunksR : List Nat) :
    SameInput (pushFile sizeL path content chunksL s) (pushFile sizeR path content chunksR t) := by
  refine ⟨List.Forall₂.cons ⟨rfl, rfl, rfl⟩ h.sources, ?_, ?_, h.stale, rfl, rfl⟩
  · intro x hx
    rcases mem_cons.1 hx with rfl | hx
    · exact settled_new hL hc path chunksL
    · exact h.settledLeft x hx
  · intro x hx
    rcases mem_cons.1 hx with rfl | hx
    · exact settled_new hR hc path chunksR
    · exact h.settledRight x hx

theorem runInput_same {sizeL sizeR : Nat} (hL : 3 ≤ sizeL) (hR : 3 ≤ sizeR)
    (chunksL chunksR : Nat → List Nat) {actions : List InputAction}
    (hnewline : ∀ a ∈ actions, ∀ content ∈ a.content, EndsWithNewline content) (opened : Nat)
    {s t : InputState} (h : SameInput s t) :
    runInput sizeL chunksL opened s actions = runInput sizeR chunksR opened t actions ∧
      ∀ r ∈ runInput sizeL chunksL opened s actions, r.prepline ≠ .stop .fuel := by
  induction actions generalizing opened s t with
  | nil => exact ⟨rfl, fun r hr => absurd hr not_mem_nil⟩
  | cons a actions ih =>
    have hrest := fun a ha => hnewline a (mem_cons_of_mem _ ha)
    have hcontent := hnewline a mem_cons_self
    cases a with
    | setInputFile path content =>
      have hempty : SameInput { s with sources := [] } { t with sources := [] } :=
        ⟨List.Forall₂.nil, by simp, by simp, h.stale, h.path, h.line⟩
      exact ih hrest (opened + 1) (hempty.push hL hR (hcontent content rfl) path _ _)
    | include_ path content =>
      exact ih hrest (opened + 1) (h.push hL hR (hcontent content rfl) path _ _)
    | setLine line path =>
      refine ih hrest opened ⟨h.sources, h.settledLeft, h.settledRight, h.stale, ?_, rfl⟩
      rw [h.path]
    | getprepline active =>
      rcases getprepline_same (Nat.lt_of_lt_of_le (by decide) hL)
        (Nat.lt_of_lt_of_le (by decide) hR) active h with ⟨hline, hstate, hfuel⟩
      rw [runInput, runInput]
      generalize getprepline sizeL active s = r at hline hstate hfuel ⊢
      generalize getprepline sizeR active t = r' at hline hstate ⊢
      rcases r with ⟨p, s'⟩
      rcases r' with ⟨p', t'⟩
      simp only at hline hstate hfuel
      subst hline
      rcases ih hrest opened hstate with ⟨hreports, hreturn⟩
      cases p with
      | stop e => exact ⟨by simp only [hstate.path, hstate.line], by simpa using hfuel⟩
      | line text =>
        exact ⟨by simp only [hstate.path, hstate.line, hreports],
          forall_mem_cons.2 ⟨hfuel, hreturn⟩⟩
      | end_ =>
        exact ⟨by simp only [hstate.path, hstate.line, hreports],
          forall_mem_cons.2 ⟨hfuel, hreturn⟩⟩

/-- The lines and the positions that are reported are those that are reported when every file
is read into one buffer. -/
theorem runInput_oneBuffer {bufferSize : Nat} (hsize : 3 ≤ bufferSize) (chunks : Nat → List Nat)
    {actions : List InputAction}
    (hnewline : ∀ a ∈ actions, ∀ content ∈ a.content, EndsWithNewline content) :
    runInput bufferSize chunks 0 {} actions =
        runInput (oneBufferSize actions) (fun _ => []) 0 {} actions ∧
      ∀ r ∈ runInput bufferSize chunks 0 {} actions, r.prepline ≠ .stop .fuel :=
  runInput_same hsize (Nat.le_add_left _ _) chunks (fun _ => []) hnewline 0
    ⟨List.Forall₂.nil, by simp, by simp, rfl, rfl, rfl⟩

/-- The chunks of a file end inside of a line continuation, a trigraph and a comment. -/
theorem runInput_oneBuffer_chunks :
    let actions := [InputAction.setInputFile "a.c".toList "x\\\ny??=/**/\n".toList,
      .getprepline true, .include_ "b.h".toList "'z'\n".toList, .getprepline true,
      .getprepline false]
    (∀ a ∈ actions, ∀ content ∈ a.content, EndsWithNewline content) ∧
      runInput 3 (fun _ => [1, 1]) 0 {} actions =
        runInput (oneBufferSize actions) (fun _ => []) 0 {} actions := by
  have hnewline : ∀ a ∈ [InputAction.setInputFile "a.c".toList "x\\\ny??=/**/\n".toList,
      .getprepline true, .include_ "b.h".toList "'z'\n".toList, .getprepline true,
      .getprepline false], ∀ content ∈ a.content, EndsWithNewline content := by
    simp [InputAction.content, EndsWithNewline]
  exact ⟨hnewline, (runInput_oneBuffer (by decide) (fun _ => [1, 1]) hnewline).1⟩

end Kcs.Preprocessor
