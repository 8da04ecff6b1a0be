import Processx.Connection.Reading
import Processx.Connection.Utf8

/-!
# Reading lines

`processx_connection_read_lines()` returns the lines of the decoded stream, whatever
the chunks, as long as no call reaches the end of the file with line feeds in the
UTF-8 buffer that it has not counted. The scan for a line feed does not look at what
it has just read, so such calls exist: they return the rest of the file, line feeds
included, as one string.
-/

namespace Processx

open Incremental Textual

variable {σ : Type} {ic : Riconv σ} {d : Decoder σ UInt8 UInt8}

/-- A call on a connection that is read by lines. -/
inductive LineOp
  | readLines (nlines : ℤ)
  | poll
  deriving DecidableEq

/-- One call: what it returns or throws, and the state it leaves. -/
def LineOp.run (ic : Riconv σ) (op : LineOp) (ccon : Connection σ) (os : Os) :
    Except String (List Bytes) × Connection σ × Os :=
  match op with
  | .readLines nlines => connectionReadLines ic ccon os nlines
  | .poll => (.ok [], (prePollConnection ic ccon).2, os)

/-- A connection, the operating system, and all the strings returned so far. -/
structure LineReader (σ : Type) where
  returned : List Bytes
  ccon : Connection σ
  os : Os

/-- A call appends what it returns; a call that throws returns nothing. -/
def LineReader.step (ic : Riconv σ) (s : LineReader σ) (op : LineOp) : LineReader σ :=
  match op.run ic s.ccon s.os with
  | (.ok lines, ccon, os) => ⟨s.returned ++ lines, ccon, os⟩
  | (.error _, ccon, os) => ⟨s.returned, ccon, os⟩

/-- A fresh connection. -/
def LineReader.create (osHandle : ℤ) (os : Os) :
    LineReader σ := ⟨[], cConnectionCreate osHandle, os⟩

/-- A sequence of calls. -/
def LineReader.run (ic : Riconv σ) (s : LineReader σ) (ops : List LineOp) : LineReader σ :=
  ops.foldl (LineReader.step ic) s

/-- The lines of the whole stream. -/
def streamLines (ic : Riconv σ) (d : Decoder σ UInt8 UInt8) (os : Os) : List Bytes :=
  lines lineFeed carriageReturn (d.decode ic.open_ os.stream)

/-- The number of line feeds a call counts at most: none if the text it starts from
has none, else the number of lines that was asked for. -/
def countable (newline : Option ℕ) (nlines : ℤ) : ℕ :=
  if newline.isNone then 0 else (if nlines < 0 then 1000 else nlines).toNat

/-- A call counts all line feeds, if its reading ends at an unterminated end of the file. -/
def LineOp.Counts (ic : Riconv σ) (op : LineOp) (ccon : Connection σ) (os : Os) : Prop :=
  match op with
  | .poll => True
  | .readLines nlines =>
    let (result, ccon, _) := connectionReadUntilNewline ic ccon os
    ∀ newline ∈ result.toOption,
      unterminatedEnd ccon = true → ccon.utf8.count lineFeed ≤ countable newline nlines

/-- Every call of a sequence counts all line feeds at an unterminated end. -/
def LineReader.Counts (ic : Riconv σ) : LineReader σ → List LineOp → Prop
  | _, [] => True
  | s, op :: ops => op.Counts ic s.ccon s.os ∧ LineReader.Counts ic (s.step ic op) ops

instance (op : LineOp) (ccon : Connection σ) (os : Os) : Decidable (op.Counts ic ccon os) :=
  match op with
  | .poll => isTrue trivial
  | .readLines nlines =>
    inferInstanceAs (Decidable (∀ newline ∈ (connectionReadUntilNewline ic ccon os).1.toOption,
      unterminatedEnd (connectionReadUntilNewline ic ccon os).2.1 = true →
        (connectionReadUntilNewline ic ccon os).2.1.utf8.count lineFeed ≤
          countable newline nlines))

instance LineReader.decidableCounts :
    ∀ (s : LineReader σ) (ops : List LineOp), Decidable (s.Counts ic ops)
  | _, [] => isTrue trivial
  | s, op :: ops =>
    have := LineReader.decidableCounts (s.step ic op) ops
    inferInstanceAs (Decidable (op.Counts ic s.ccon s.os ∧ (s.step ic op).Counts ic ops))

/-- No line feed is found where there is none. -/
theorem notMem_of_findNewline {utf8 : Bytes} {start : ℕ} (h : findNewline utf8 start = none) :
    lineFeed ∉ utf8.drop start := by
  unfold findNewline at h
  by_cases hnil : utf8.length = 0
  · simp [List.length_eq_zero_iff.mp hnil]
  · rw [if_neg hnil, Option.map_eq_none_iff, List.idxOf?_eq_none_iff] at h
    exact h

/-- The line feed that is found ends the first piece of the text. -/
theorem drop_eq_of_findNewline {utf8 : Bytes} {start eol : ℕ}
    (h : findNewline utf8 start = some eol) :
    ∃ piece, utf8.drop start = piece ++ lineFeed :: utf8.drop (eol + 1) ∧ lineFeed ∉ piece ∧
      eol = start + piece.length := by
  unfold findNewline at h
  by_cases hnil : utf8.length = 0
  · rw [if_pos hnil] at h
    cases h
  · rw [if_neg hnil, Option.map_eq_some_iff] at h
    obtain ⟨i, hi, heol⟩ := h
    obtain ⟨hsplit, hpiece, hlt⟩ := split_of_idxOf?_eq_some hi
    refine ⟨(utf8.drop start).take i, ?_, hpiece, ?_⟩
    · rwa [List.drop_drop, ← Nat.add_assoc, heol] at hsplit
    · rw [List.length_take_of_le (le_of_lt hlt), heol]

/-- What is found is a line feed. -/
theorem getElem?_of_findNewline {utf8 : Bytes} {start eol : ℕ}
    (h : findNewline utf8 start = some eol) : utf8[eol]? = some lineFeed := by
  obtain ⟨piece, hsplit, _, heol⟩ := drop_eq_of_findNewline h
  rw [heol, ← List.getElem?_drop, hsplit]
  simp

/-- It is one of the line feeds from there on, and the others are behind it. -/
theorem count_of_findNewline {utf8 : Bytes} {start eol : ℕ}
    (h : findNewline utf8 start = some eol) :
    (utf8.drop start).count lineFeed = 1 + (utf8.drop (eol + 1)).count lineFeed := by
  obtain ⟨piece, hsplit, hpiece, _⟩ := drop_eq_of_findNewline h
  rw [hsplit, List.count_append, List.count_cons_self, List.count_eq_zero_of_not_mem hpiece]
  omega

/-- The counting loop counts the line feeds from where it starts, up to its limit. -/
theorem countLines_findNewline (utf8 : Bytes) (maxlines start : ℕ) :
    countLines utf8 maxlines (findNewline utf8 start) =
      min maxlines ((utf8.drop start).count lineFeed) := by
  induction maxlines generalizing start with
  | zero => simp [countLines]
  | succ maxlines ih =>
    cases hfound : findNewline utf8 start with
    | none =>
      have hnone := List.count_eq_zero_of_not_mem (notMem_of_findNewline hfound)
      simp [countLines, hnone]
    | some eol =>
      rw [countLines, ih, count_of_findNewline hfound]
      omega

/-- From the first line feed of the text it counts all of them, and from nothing it
counts none. -/
theorem countLines_eq_min {utf8 : Bytes} {newline : Option ℕ}
    (h : newline = none ∨ newline = findNewline utf8 0) (nlines : ℤ) :
    countLines utf8 (if nlines < 0 then 1000 else nlines).toNat newline =
      min (countable newline nlines) (utf8.count lineFeed) := by
  cases newline with
  | none =>
    have hnone : ∀ maxlines, countLines utf8 maxlines none = 0 := fun maxlines => by
      cases maxlines <;> rfl
    simp [hnone, countable]
  | some eol =>
    rcases h with hnone | hfind
    · cases hnone
    · rw [hfind, countLines_findNewline, List.drop_zero, ← hfind]
      rfl

/-- The byte in front of a line feed is the last one of its piece. -/
theorem getElem?_before_eol {utf8 piece : Bytes} {start : ℕ}
    (hstart : start = 0 ∨ utf8[start - 1]? = some lineFeed)
    (hpiece : piece <+: utf8.drop start) :
    0 < start + piece.length ∧ utf8[start + piece.length - 1]? = some carriageReturn ↔
      piece.getLast? = some carriageReturn := by
  rcases List.eq_nil_or_concat piece with hnil | ⟨front, last, hlast⟩
  · have hne : some lineFeed ≠ some carriageReturn := by decide
    subst hnil
    rcases hstart with hzero | hlf
    · simp [hzero]
    · simp [hlf, hne]
  · rw [List.concat_eq_append] at hlast
    subst hlast
    obtain ⟨behind, hbehind⟩ := hpiece
    have hget : utf8[start + (front ++ [last]).length - 1]? = some last := by
      have hindex : start + (front ++ [last]).length - 1 = start + front.length := by
        rw [List.length_append, List.length_singleton]
        omega
      rw [hindex, ← List.getElem?_drop, ← hbehind]
      simp
    have hpos : 0 < start + (front ++ [last]).length := by
      rw [List.length_append, List.length_singleton]
      omega
    rw [hget, List.getLast?_concat, and_iff_right hpos]

/-- The string made of a piece is the piece without its carriage return. -/
private theorem take_slashr {utf8 piece : Bytes} {start eol : ℕ}
    (hstart : start = 0 ∨ utf8[start - 1]? = some lineFeed)
    (hpiece : piece <+: utf8.drop start) (heol : eol = start + piece.length) :
    let slashr := if 0 < eol ∧ utf8[eol - 1]? = some carriageReturn then 1 else 0
    (utf8.drop start).take (eol - start - slashr) = chomp carriageReturn piece ∧
      eol - start - slashr = (chomp carriageReturn piece).length := by
  have hlast := getElem?_before_eol hstart hpiece
  obtain ⟨behind, hbehind⟩ := hpiece
  rw [← heol] at hlast
  have hlen : eol - start = piece.length := by omega
  by_cases hcr : piece.getLast? = some carriageReturn
  · rw [if_pos (hlast.mpr hcr), chomp, if_pos hcr, ← hbehind, hlen, List.length_dropLast]
    refine ⟨?_, rfl⟩
    rw [List.take_append_of_le_length (Nat.sub_le _ _), List.dropLast_eq_take]
  · rw [if_neg (hlast.not.mpr hcr), chomp, if_neg hcr, ← hbehind, hlen]
    exact ⟨List.take_left, rfl⟩

/-- **The complete lines.** Taking lines out of a text takes that many and leaves the text behind
them. The strings are these lines exactly if none of them is too long for an `int`. -/
theorem takeLines_behind {utf8 : Bytes} (more : Bytes) {k : ℕ} (start : ℕ) {behind : ℕ}
    {strings : List Bytes} (hk : k ≤ (utf8.drop start).count lineFeed)
    (hstart : start = 0 ∨ utf8[start - 1]? = some lineFeed)
    (htake : takeLines utf8 k start = .ok (strings, behind)) :
    strings.length = k ∧
      lines lineFeed carriageReturn (utf8.drop behind ++ more) =
        (lines lineFeed carriageReturn (utf8.drop start ++ more)).drop k ∧
      (utf8.drop start).count lineFeed = k + (utf8.drop behind).count lineFeed ∧
      (behind = 0 ∨ utf8[behind - 1]? = some lineFeed) ∧
      (strings = (lines lineFeed carriageReturn (utf8.drop start ++ more)).take k ↔
        ∀ line ∈ (lines lineFeed carriageReturn (utf8.drop start ++ more)).take k,
          line.length < 2 ^ 31) := by
  induction k generalizing start strings with
  | zero =>
    obtain ⟨rfl, rfl⟩ := Prod.mk.inj (Except.ok.inj htake)
    refine ⟨rfl, rfl, (Nat.zero_add _).symm, hstart, iff_of_true rfl ?_⟩
    simp
  | succ k ih =>
    cases hfound : findNewline utf8 start with
    | none =>
      have hnone := List.count_eq_zero_of_not_mem (notMem_of_findNewline hfound)
      omega
    | some eol =>
      obtain ⟨piece, hsplit, hpiece, heol⟩ := drop_eq_of_findNewline hfound
      have hlines : lines lineFeed carriageReturn (utf8.drop start ++ more) =
          chomp carriageReturn piece ::
            lines lineFeed carriageReturn (utf8.drop (eol + 1) ++ more) := by
        rw [hsplit, List.append_assoc, List.cons_append, lines_append_cons hpiece]
      have hcount := count_of_findNewline hfound
      obtain ⟨hstring, hlen⟩ := take_slashr hstart ⟨_, hsplit.symm⟩ heol
      rw [takeLines, hfound, Option.getD_some] at htake
      dsimp only at htake hstring hlen
      generalize (if 0 < eol ∧ utf8[eol - 1]? = some carriageReturn then 1 else 0) = slashr
        at htake hstring hlen
      cases hline : mkCharLenCE (utf8.drop start) (toInt (eol - start - slashr)) with
      | error msg => rw [hline] at htake; cases htake
      | ok line =>
        cases hmore : takeLines utf8 k (eol + 1) with
        | error msg => rw [hline, hmore] at htake; cases htake
        | ok rest =>
          obtain ⟨strings', behind'⟩ := rest
          rw [hline, hmore] at htake
          obtain ⟨rfl, rfl⟩ := Prod.mk.inj (Except.ok.inj htake)
          have hlf : utf8[eol + 1 - 1]? = some lineFeed := getElem?_of_findNewline hfound
          obtain ⟨hlength, hrest, hleft, hend, hstrings⟩ :=
            ih (eol + 1) (by omega) (Or.inr hlf) hmore
          refine ⟨by rw [List.length_cons, hlength], ?_, by omega, hend, ?_⟩
          · rw [hrest, hlines, List.drop_succ_cons]
          · have hinside : eol - start - slashr ≤ (utf8.drop start).length := by
              have hle := congrArg List.length hsplit
              rw [List.length_append] at hle
              omega
            have hchars := eq_take_iff_of_mkCharLenCE hinside hline
            rw [hstring, hlen] at hchars
            rw [hlines, List.take_succ_cons, List.cons.injEq, List.forall_mem_cons, hchars,
              hstrings]

/-- So the lines of the text are the strings and the lines that are left. -/
theorem takeLines_spec {utf8 : Bytes} (more : Bytes) {k : ℕ} (start : ℕ) {behind : ℕ}
    {strings : List Bytes}
    (hk : k ≤ (utf8.drop start).count lineFeed)
    (hstart : start = 0 ∨ utf8[start - 1]? = some lineFeed)
    (hshort : ∀ line ∈ lines lineFeed carriageReturn (utf8.drop start ++ more),
      line.length < 2 ^ 31)
    (htake : takeLines utf8 k start = .ok (strings, behind)) :
    lines lineFeed carriageReturn (utf8.drop start ++ more) =
        strings ++ lines lineFeed carriageReturn (utf8.drop behind ++ more) ∧
      (utf8.drop start).count lineFeed = k + (utf8.drop behind).count lineFeed ∧
      (behind = 0 ∨ utf8[behind - 1]? = some lineFeed) := by
  obtain ⟨_, hrest, hcount, hend, hstrings⟩ := takeLines_behind more start hk hstart htake
  refine ⟨?_, hcount, hend⟩
  rw [hstrings.mpr fun line hline => hshort line (List.mem_of_mem_take hline), hrest,
    List.take_append_drop]

/-- A step that keeps the text that can still be read. -/
structure SameText (ic : Riconv σ) (d : Decoder σ UInt8 UInt8) (ccon : Connection σ) (os : Os)
    (ccon' : Connection σ) (os' : Os) : Prop where
  sound : Sound ccon' os'
  text : pendingText ic d ccon' os' = pendingText ic d ccon os

/-- Two such steps make one. -/
theorem SameText.trans {ccon₁ ccon₂ ccon₃ : Connection σ} {os₁ os₂ os₃ : Os}
    (h₁ : SameText ic d ccon₁ os₁ ccon₂ os₂) (h₂ : SameText ic d ccon₂ os₂ ccon₃ os₃) :
    SameText ic d ccon₁ os₁ ccon₃ os₃ :=
  ⟨h₂.sound, h₂.text.trans h₁.text⟩

/-- Moving text along keeps it. -/
theorem Moves.sameText {ccon ccon' : Connection σ} {os os' : Os} {newBytes : ℕ}
    (h : Moves ic d ccon os newBytes ccon' os') : SameText ic d ccon os ccon' os' :=
  ⟨h.sound, h.text⟩

/-- A larger UTF-8 buffer keeps a state sound. -/
theorem Sound.grow {ccon : Connection σ} {os : Os} (h : Sound ccon os) :
    Sound (if ccon.utf8.length ≥ ccon.utf8AllocatedSize - 8 then connectionRealloc ccon else ccon)
      os := by
  by_cases hfull : ccon.utf8.length ≥ ccon.utf8AllocatedSize - 8
  · rw [if_pos hfull]
    refine ⟨h.wellFormed, h.textMode, h.buffer_le, ?_, ?_, h.eofRaw, h.eof⟩
    · have hle := h.utf8_le
      simp only [connectionRealloc]
      split_ifs <;> omega
    · intro hnone
      have hzero := h.unallocated hnone
      simp [connectionRealloc, hzero]
  · rw [if_neg hfull]
    exact h

/-- And it keeps the text. -/
theorem SameText.grow (ic : Riconv σ) (d : Decoder σ UInt8 UInt8) {ccon : Connection σ} {os : Os}
    (h : Sound ccon os) :
    SameText ic d ccon os
      (if ccon.utf8.length ≥ ccon.utf8AllocatedSize - 8 then connectionRealloc ccon else ccon)
      os := by
  refine ⟨h.grow, ?_⟩
  split_ifs <;> rfl

/-- The scan keeps what each of its reads keeps. -/
theorem readUntilNewlineLoop_keeps {P : Connection σ → Os → Prop}
    (hread : ∀ ccon os, P ccon os →
      P (connectionRead ic (if ccon.utf8.length ≥ ccon.utf8AllocatedSize - 8 then
          connectionRealloc ccon else ccon) os).2.1
        (connectionRead ic (if ccon.utf8.length ≥ ccon.utf8AllocatedSize - 8 then
          connectionRealloc ccon else ccon) os).2.2)
    (fuel ptr end_ : ℕ) {ccon : Connection σ} {os : Os} (h : P ccon os) :
    P (readUntilNewlineLoop ic fuel ccon os ptr end_).2.1
      (readUntilNewlineLoop ic fuel ccon os ptr end_).2.2 := by
  induction fuel generalizing ccon os ptr with
  | zero => exact h
  | succ fuel ih =>
    have hnext := hread ccon os h
    rw [readUntilNewlineLoop]
    dsimp only
    generalize ((((ccon.utf8.take end_).drop ptr).idxOf? lineFeed).map (ptr + ·)).getD end_ = ptr'
    generalize connectionRead ic (if ccon.utf8.length ≥ ccon.utf8AllocatedSize - 8 then
      connectionRealloc ccon else ccon) os = answer at hnext ⊢
    by_cases hfound : ptr' < end_
    · rw [if_pos hfound]
      exact h
    by_cases heof : ccon.isEof = true
    · rw [if_neg hfound, if_pos heof]
      exact h
    rw [if_neg hfound, if_neg heof]
    obtain ⟨msg | newBytes, ccon', os'⟩ := answer
    · exact hnext
    · dsimp only at hnext ⊢
      by_cases hnone : newBytes = 0
      · rw [if_pos hnone]
        exact hnext
      · rw [if_neg hnone]
        exact ih ptr' hnext

/-- So does `processx__connection_read_until_newline()`. -/
theorem connectionReadUntilNewline_keeps {P : Connection σ → Os → Prop}
    (hfirst : ∀ ccon os, P ccon os → ccon.utf8.length = 0 →
      P (connectionRead ic ccon os).2.1 (connectionRead ic ccon os).2.2)
    (hread : ∀ ccon os, P ccon os →
      P (connectionRead ic (if ccon.utf8.length ≥ ccon.utf8AllocatedSize - 8 then
          connectionRealloc ccon else ccon) os).2.1
        (connectionRead ic (if ccon.utf8.length ≥ ccon.utf8AllocatedSize - 8 then
          connectionRealloc ccon else ccon) os).2.2)
    {ccon : Connection σ} {os : Os} (h : P ccon os) :
    P (connectionReadUntilNewline ic ccon os).2.1 (connectionReadUntilNewline ic ccon os).2.2 := by
  unfold connectionReadUntilNewline
  have hstart : P
      (if ccon.utf8.length = 0 then connectionRead ic ccon os else (.ok 0, ccon, os)).2.1
      (if ccon.utf8.length = 0 then connectionRead ic ccon os else (.ok 0, ccon, os)).2.2 := by
    by_cases hempty : ccon.utf8.length = 0
    · rw [if_pos hempty]
      exact hfirst ccon os h hempty
    · rw [if_neg hempty]
      exact h
  generalize (if ccon.utf8.length = 0 then connectionRead ic ccon os else (.ok 0, ccon, os)) =
    answer at hstart ⊢
  obtain ⟨msg | n, ccon₁, os₁⟩ := answer
  · exact hstart
  · dsimp only at hstart ⊢
    by_cases hempty : ccon₁.utf8.length = 0
    · rw [if_pos hempty]
      exact hstart
    · rw [if_neg hempty]
      exact readUntilNewlineLoop_keeps hread _ _ _ hstart

/-- Once the scan has passed the end it started with, it finds no line feed any more. -/
theorem readUntilNewlineLoop_passed (ic : Riconv σ) (fuel end_ : ℕ) (ccon : Connection σ)
    (os : Os) {newline : Option ℕ}
    (h : (readUntilNewlineLoop ic fuel ccon os end_ end_).1 = .ok newline) : newline = none := by
  induction fuel generalizing ccon os with
  | zero => exact (Except.ok.inj h).symm
  | succ fuel ih =>
    have hscan : ((((ccon.utf8.take end_).drop end_).idxOf? lineFeed).map (end_ + ·)).getD end_ =
        end_ := by
      rw [List.drop_eq_nil_of_le (List.length_take_le _ _)]
      rfl
    rw [readUntilNewlineLoop] at h
    simp only [hscan, lt_irrefl, if_false] at h
    by_cases heof : ccon.isEof = true
    · rw [if_pos heof] at h
      exact (Except.ok.inj h).symm
    · rw [if_neg heof] at h
      generalize connectionRead ic (if ccon.utf8.length ≥ ccon.utf8AllocatedSize - 8 then
        connectionRealloc ccon else ccon) os = answer at h
      obtain ⟨msg | newBytes, ccon', os'⟩ := answer
      · cases h
      · dsimp only at h
        by_cases hnone : newBytes = 0
        · rw [if_pos hnone] at h
          exact (Except.ok.inj h).symm
        · rw [if_neg hnone] at h
          exact ih ccon' os' h

/-- The bound on the rounds is never reached: more rounds change nothing. -/
theorem readUntilNewlineLoop_rounds (hic : ic.Follows d) {ccon : Connection σ} {os : Os}
    (h : Sound ccon os) {fuel : ℕ} (hfuel : readRounds ccon os ≤ fuel) (ptr end_ : ℕ) :
    readUntilNewlineLoop ic fuel ccon os ptr end_ =
      readUntilNewlineLoop ic (readRounds ccon os) ccon os ptr end_ := by
  suffices hany : ∀ left fuel₁ fuel₂ : ℕ, left < fuel₁ → left < fuel₂ →
      ∀ (ccon : Connection σ) (os : Os) (ptr : ℕ), Sound ccon os →
        ccon.buffer.length + os.stream.length ≤ left →
        readUntilNewlineLoop ic fuel₁ ccon os ptr end_ =
          readUntilNewlineLoop ic fuel₂ ccon os ptr end_ from
    hany _ _ _ hfuel (Nat.lt_succ_self _) ccon os ptr h (le_refl _)
  clear hfuel h ccon os ptr
  intro left
  induction left using Nat.strong_induction_on with
  | _ left ih =>
    intro fuel₁ fuel₂ h₁ h₂ ccon os ptr h hleft
    obtain ⟨fuel₁, rfl⟩ := Nat.exists_eq_add_of_lt h₁
    obtain ⟨fuel₂, rfl⟩ := Nat.exists_eq_add_of_lt h₂
    rw [readUntilNewlineLoop, readUntilNewlineLoop]
    generalize ((((ccon.utf8.take end_).drop ptr).idxOf? lineFeed).map (ptr + ·)).getD end_ = ptr'
    by_cases hfound : ptr' < end_
    · simp only [if_pos hfound]
    by_cases heof : ccon.isEof = true
    · simp only [if_neg hfound, if_pos heof]
    simp only [if_neg hfound, if_neg heof]
    have hgrow := SameText.grow ic d h
    have hbuffer : (if ccon.utf8.length ≥ ccon.utf8AllocatedSize - 8 then connectionRealloc ccon
        else ccon).buffer = ccon.buffer := by
      split_ifs <;> rfl
    generalize (if ccon.utf8.length ≥ ccon.utf8AllocatedSize - 8 then connectionRealloc ccon
      else ccon) = ccon₁ at hgrow hbuffer ⊢
    obtain ⟨newBytes, hmoves, hnew⟩ := connectionRead_moves hic hgrow.sound
    generalize connectionRead ic ccon₁ os = answer at hmoves hnew ⊢
    obtain ⟨result, ccon', os'⟩ := answer
    cases result with
    | error msg => rfl
    | ok n =>
      dsimp only
      by_cases hnone : n = 0
      · rw [if_pos hnone, if_pos hnone]
      · -- a round that goes on has taken something from the raw buffer or the stream
        have hprogress := hmoves.progress (by rw [← hnew n rfl]; omega)
        rw [if_neg hnone, if_neg hnone]
        rw [hbuffer] at hprogress
        dsimp only at hprogress
        exact ih (ccon'.buffer.length + os'.stream.length) (by omega) _ _ (by omega) (by omega)
          ccon' os' ptr' hmoves.sound (le_refl _)

/-- A scan that finds nothing ends where the text it started with ends. -/
theorem readUntilNewlineLoop_skip {ccon : Connection σ} {end_ : ℕ}
    (h : lineFeed ∉ ccon.utf8.take end_) (os : Os) (fuel ptr : ℕ) :
    readUntilNewlineLoop ic (fuel + 1) ccon os ptr end_ =
      readUntilNewlineLoop ic (fuel + 1) ccon os end_ end_ := by
  have hscan : ∀ start, (((ccon.utf8.take end_).drop start).idxOf? lineFeed) = none := fun start =>
    List.idxOf?_eq_none_iff.mpr fun hmem => h (List.mem_of_mem_drop hmem)
  rw [readUntilNewlineLoop, readUntilNewlineLoop, hscan, hscan]
  rfl

/-- What `processx__connection_read_until_newline()` returns is the first line feed of
the UTF-8 buffer it leaves, or nothing. -/
theorem connectionReadUntilNewline_newline {ccon : Connection σ} {os : Os} {newline : Option ℕ}
    (h : (connectionReadUntilNewline ic ccon os).1 = .ok newline) :
    newline = none ∨ newline = findNewline (connectionReadUntilNewline ic ccon os).2.1.utf8 0 := by
  unfold connectionReadUntilNewline at h ⊢
  generalize (if ccon.utf8.length = 0 then connectionRead ic ccon os else (.ok 0, ccon, os)) =
    answer at h ⊢
  obtain ⟨msg | n, ccon₁, os₁⟩ := answer
  · cases h
  · dsimp only at h ⊢
    by_cases hempty : ccon₁.utf8.length = 0
    · rw [if_pos hempty] at h
      exact Or.inl (Except.ok.inj h).symm
    · rw [if_neg hempty, readRounds] at h ⊢
      cases hscan : ccon₁.utf8.idxOf? lineFeed with
      | none =>
        have hnone : lineFeed ∉ ccon₁.utf8.take ccon₁.utf8.length := by
          rw [List.take_length]
          exact List.idxOf?_eq_none_iff.mp hscan
        rw [readUntilNewlineLoop_skip hnone] at h
        exact Or.inl (readUntilNewlineLoop_passed ic _ _ ccon₁ os₁ h)
      | some eol =>
        have hlt := (split_of_idxOf?_eq_some hscan).2.2
        have hfind : findNewline ccon₁.utf8 0 = some (0 + eol) := by
          rw [findNewline, if_neg hempty, List.drop_zero, hscan]
          rfl
        have hptr : 0 + eol < ccon₁.utf8.length := by omega
        rw [readUntilNewlineLoop] at h ⊢
        simp only [List.take_length, List.drop_zero, hscan, Option.map_some, Option.getD_some,
          if_pos hptr] at h ⊢
        exact Or.inr ((Except.ok.inj h).symm.trans hfind.symm)

/-- Reading until there is a line feed keeps the text. -/
theorem connectionReadUntilNewline_spec (hic : ic.Follows d) {ccon : Connection σ} {os : Os}
    (h : Sound ccon os) :
    SameText ic d ccon os (connectionReadUntilNewline ic ccon os).2.1
        (connectionReadUntilNewline ic ccon os).2.2 ∧
      ∀ newline, (connectionReadUntilNewline ic ccon os).1 = .ok newline →
        newline = none ∨
          newline = findNewline (connectionReadUntilNewline ic ccon os).2.1.utf8 0 := by
  refine ⟨?_, fun newline hnewline => connectionReadUntilNewline_newline hnewline⟩
  refine connectionReadUntilNewline_keeps (P := SameText ic d ccon os) (fun ccon' os' hsame _ => ?_)
    (fun ccon' os' hsame => ?_) ⟨h, rfl⟩
  · obtain ⟨_, hmoves, _⟩ := connectionRead_moves hic hsame.sound
    exact hsame.trans hmoves.sameText
  · have hgrow := SameText.grow ic d hsame.sound
    obtain ⟨_, hmoves, _⟩ := connectionRead_moves hic hgrow.sound
    exact hsame.trans (hgrow.trans hmoves.sameText)

/-- What is taken out of the buffer: the complete lines, and at an unterminated end also what
stands behind them. -/
theorem takeText_cases {utf8 : Bytes} {linesRead taken : ℕ} {eof : Bool} {strings : List Bytes}
    (htake : takeText utf8 linesRead eof = .ok (strings, taken)) :
    ∃ complete start, takeLines utf8 linesRead 0 = .ok (complete, start) ∧
      (eof = false ∧ strings = complete ∧ taken = start ∨
        eof = true ∧ taken = utf8.length ∧
          ∃ last, mkCharLenCE (utf8.drop start) (toInt (utf8.length - start)) = .ok last ∧
            strings = complete ++ [last]) := by
  cases hlines : takeLines utf8 linesRead 0 with
  | error msg =>
    rw [takeText, hlines] at htake
    cases htake
  | ok found =>
    obtain ⟨complete, start⟩ := found
    refine ⟨complete, start, rfl, ?_⟩
    cases eof with
    | false =>
      rw [takeText, hlines] at htake
      obtain ⟨rfl, rfl⟩ := Prod.mk.inj (Except.ok.inj htake)
      exact .inl ⟨rfl, rfl, rfl⟩
    | true =>
      cases hchars : mkCharLenCE (utf8.drop start) (toInt (utf8.length - start)) with
      | error msg =>
        simp only [takeText, hlines, bind, Except.bind, if_true, hchars] at htake
        cases htake
      | ok last =>
        simp only [takeText, hlines, bind, Except.bind, if_true, hchars] at htake
        obtain ⟨rfl, rfl⟩ := Prod.mk.inj (Except.ok.inj htake)
        exact .inr ⟨rfl, rfl, last, rfl, rfl⟩

/-- An unterminated text does not end where a line ends. -/
theorem drop_ne_nil_of_unterminated {utf8 : Bytes} {start : ℕ} (hne : utf8 ≠ [])
    (hlast : utf8.getLast? ≠ some lineFeed)
    (hstart : start = 0 ∨ utf8[start - 1]? = some lineFeed) : utf8.drop start ≠ [] := by
  intro hnil
  have hlen := List.drop_eq_nil_iff.mp hnil
  rcases hstart with rfl | hlf
  · rw [List.drop_zero] at hnil
    exact hne hnil
  · have hlt := (List.getElem?_eq_some_iff.mp hlf).1
    have hend : start - 1 = utf8.length - 1 := by omega
    rw [hend, ← List.getLast?_eq_getElem?] at hlf
    exact hlast hlf

/-- The strings `processx_connection_read_lines()` makes are the first lines of the
text, if it counts all line feeds in front of an unterminated end. -/
theorem takeText_spec {utf8 more : Bytes} {linesRead taken : ℕ} {eof : Bool}
    {strings : List Bytes} (hle : linesRead ≤ utf8.count lineFeed)
    (heof : eof = true → more = [] ∧ utf8 ≠ [] ∧ utf8.getLast? ≠ some lineFeed ∧
      utf8.count lineFeed ≤ linesRead)
    (hshort : ∀ line ∈ lines lineFeed carriageReturn (utf8 ++ more), line.length < 2 ^ 31)
    (htake : takeText utf8 linesRead eof = .ok (strings, taken)) :
    strings ++ lines lineFeed carriageReturn (utf8.drop taken ++ more) =
      lines lineFeed carriageReturn (utf8 ++ more) := by
  obtain ⟨complete, start, hlines, hcase⟩ := takeText_cases htake
  obtain ⟨htext, hcount, hstart⟩ :=
    takeLines_spec more 0 (by simpa using hle) (Or.inl rfl) (by simpa using hshort) hlines
  rw [List.drop_zero] at htext hcount
  obtain ⟨rfl, rfl, rfl⟩ | ⟨rfl, rfl, last, hchars, rfl⟩ := hcase
  · exact htext.symm
  · obtain ⟨hmore, hne, hlast, hall⟩ := heof rfl
    subst hmore
    have hnone : lineFeed ∉ utf8.drop start := List.count_eq_zero.mp (by omega)
    have hrest := drop_ne_nil_of_unterminated hne hlast hstart
    rw [List.append_nil (utf8.drop start), lines_of_notMem hnone hrest] at htext
    have hlen := hshort (utf8.drop start) (by rw [htext]; simp)
    rw [List.length_drop] at hlen
    have hwhole := eq_take_of_mkCharLenCE hlen hchars
    rw [← List.length_drop, List.take_length] at hwhole
    rw [List.drop_length, htext, hwhole]
    simp

/-- The invariant of a reader: the strings returned and the lines of what can still be
read make up the lines of the text. -/
structure LineReader.Keeps (ic : Riconv σ) (d : Decoder σ UInt8 UInt8) (all : List Bytes)
    (s : LineReader σ) : Prop where
  sound : Sound s.ccon s.os
  lines : s.returned ++ lines lineFeed carriageReturn (pendingText ic d s.ccon s.os) = all

/-- `processx__connection_find_lines()` counts line feeds that are there, and all of
them in front of an unterminated end if the call does. -/
theorem connectionFindLines_spec (hic : ic.Follows d) {ccon : Connection σ} {os : Os}
    (h : Sound ccon os) {nlines : ℤ} (hop : (LineOp.readLines nlines).Counts ic ccon os) :
    SameText ic d ccon os (connectionFindLines ic ccon os nlines).2.1
        (connectionFindLines ic ccon os nlines).2.2 ∧
      ∀ linesRead eof, (connectionFindLines ic ccon os nlines).1 = .ok (linesRead, eof) →
        linesRead ≤ (connectionFindLines ic ccon os nlines).2.1.utf8.count lineFeed ∧
        eof = unterminatedEnd (connectionFindLines ic ccon os nlines).2.1 ∧
        (eof = true →
          (connectionFindLines ic ccon os nlines).2.1.utf8.count lineFeed ≤ linesRead) := by
  unfold connectionFindLines
  cases checkValidConn ccon with
  | error msg => exact ⟨⟨h, rfl⟩, by simp⟩
  | ok _ =>
    obtain ⟨hsame, hnewline⟩ := connectionReadUntilNewline_spec hic h
    unfold LineOp.Counts at hop
    dsimp only at hop ⊢
    generalize connectionReadUntilNewline ic ccon os = answer at hsame hnewline hop ⊢
    obtain ⟨result, ccon', os'⟩ := answer
    cases result with
    | error msg => exact ⟨hsame, by simp⟩
    | ok newline =>
      refine ⟨hsame, fun linesRead eof heq => ?_⟩
      obtain ⟨hlines, heof⟩ := Prod.mk.inj (Except.ok.inj heq)
      dsimp only at hop hnewline ⊢
      rw [← hlines, ← heof, countLines_eq_min (hnewline newline rfl)]
      refine ⟨Nat.min_le_right _ _, rfl, fun hend => ?_⟩
      have hall := hop newline rfl hend
      omega

/-- The UTF-8 buffer is part of what can still be read. -/
theorem utf8_length_le_pendingText (ic : Riconv σ) (d : Decoder σ UInt8 UInt8)
    (ccon : Connection σ) (os : Os) : ccon.utf8.length ≤ (pendingText ic d ccon os).length := by
  rw [pendingText, List.length_append]
  exact Nat.le_add_right _ _

/-- Line feeds that are not counted end up in the last string. -/
theorem lineFeed_mem_of_takeText {utf8 : Bytes} {linesRead taken : ℕ} {strings : List Bytes}
    (hfew : linesRead < utf8.count lineFeed) (hsize : utf8.length < 2 ^ 31)
    (hshort : ∀ line ∈ lines lineFeed carriageReturn (utf8 ++ []), line.length < 2 ^ 31)
    (htake : takeText utf8 linesRead true = .ok (strings, taken)) :
    ∃ string ∈ strings, lineFeed ∈ string := by
  obtain ⟨complete, start, hlines, ⟨hend, -⟩ | ⟨-, rfl, last, hchars, rfl⟩⟩ := takeText_cases htake
  · cases hend
  · obtain ⟨_, hcount, _⟩ := takeLines_spec [] 0 (by simpa using le_of_lt hfew)
      (Or.inl rfl) (by simpa using hshort) hlines
    rw [List.drop_zero] at hcount
    have hwhole := eq_take_of_mkCharLenCE (by omega) hchars
    rw [← List.length_drop, List.take_length] at hwhole
    refine ⟨last, by simp, ?_⟩
    rw [hwhole, ← List.count_pos_iff]
    omega

/-- The condition is needed: a call that leaves line feeds uncounted in front of an
unterminated end throws, or returns a string with a line feed. -/
theorem lineFeed_mem_of_not_counts (hic : ic.Follows d) {ccon ccon' : Connection σ} {os os' : Os}
    (h : Sound ccon os) (hshort : (pendingText ic d ccon os).length < 2 ^ 31) {nlines : ℤ}
    (hop : ¬(LineOp.readLines nlines).Counts ic ccon os) {strings : List Bytes}
    (hread : connectionReadLines ic ccon os nlines = (.ok strings, ccon', os')) :
    ∃ string ∈ strings, lineFeed ∈ string := by
  obtain ⟨hsame, hnewline⟩ := connectionReadUntilNewline_spec hic h
  unfold connectionReadLines connectionFindLines at hread
  unfold LineOp.Counts at hop
  cases hvalid : checkValidConn ccon with
  | error msg => simp [hvalid] at hread
  | ok _ =>
    cases hread_until : connectionReadUntilNewline ic ccon os with
    | mk result rest =>
      obtain ⟨ccon₁, os₁⟩ := rest
      rw [hread_until] at hsame hnewline hop
      cases result with
      | error msg => simp [hvalid, hread_until] at hread
      | ok newline =>
        have hcounts : ¬(unterminatedEnd ccon₁ = true →
            ccon₁.utf8.count lineFeed ≤ countable newline nlines) := by
          intro hall
          refine hop fun found hfound => ?_
          rwa [← Option.some.inj hfound]
        obtain ⟨hend, hcount⟩ := Classical.not_imp.mp hcounts
        have hutf8 := utf8_length_le_pendingText ic d ccon₁ os₁
        rw [hsame.text] at hutf8
        have hlines : ∀ line ∈ lines lineFeed carriageReturn (ccon₁.utf8 ++ []),
            line.length < 2 ^ 31 := by
          intro line hline
          have hle := length_le_of_mem_lines hline
          rw [List.append_nil] at hle
          omega
        have hfew : countLines ccon₁.utf8 (if nlines < 0 then 1000 else nlines).toNat newline <
            ccon₁.utf8.count lineFeed := by
          rw [countLines_eq_min (hnewline newline rfl)]
          omega
        simp only [hvalid, hread_until, hend] at hread
        generalize countLines ccon₁.utf8 (if nlines < 0 then 1000 else nlines).toNat newline =
          linesRead at hfew hread
        cases htake : takeText ccon₁.utf8 linesRead true with
        | error msg => simp [htake] at hread
        | ok answer =>
          obtain ⟨all, taken⟩ := answer
          simp only [htake] at hread
          have heq := Except.ok.inj (Prod.mk.inj hread).1
          subst heq
          exact lineFeed_mem_of_takeText hfew (by omega) hlines htake

/-- Keeping the text keeps the invariant. -/
theorem LineReader.Keeps.of_sameText {all returned : List Bytes} {ccon ccon' : Connection σ}
    {os os' : Os} (h : LineReader.Keeps ic d all ⟨returned, ccon, os⟩)
    (hsame : SameText ic d ccon os ccon' os') :
    LineReader.Keeps ic d all ⟨returned, ccon', os'⟩ := by
  refine ⟨hsame.sound, ?_⟩
  have hlines := h.lines
  rwa [← hsame.text] at hlines

/-- An unterminated end is the end of the text. -/
theorem Sound.unterminated (ic : Riconv σ) (d : Decoder σ UInt8 UInt8) {ccon : Connection σ}
    {os : Os} (h : Sound ccon os) (hend : unterminatedEnd ccon = true) :
    d.decode (ic.ctx ccon) (ccon.buffer ++ os.stream) = [] ∧ ccon.utf8 ≠ [] ∧
      ccon.utf8.getLast? ≠ some lineFeed := by
  rw [unterminatedEnd, decide_eq_true_eq] at hend
  obtain ⟨hraw, hne, hbuffer, hlast⟩ := hend
  refine ⟨?_, List.ne_nil_of_length_pos (Nat.pos_of_ne_zero hne), hlast⟩
  rw [List.length_eq_zero_iff.mp hbuffer, h.wellFormed.stream_eq_nil (h.eofRaw hraw)]
  exact d.decode_nil _

/-- Nothing can be read any more once `is_eof_` is set. -/
theorem Sound.pendingText_eq_nil {ccon : Connection σ} {os : Os} (h : Sound ccon os)
    (heof : ccon.isEof = true) : pendingText ic d ccon os = [] := by
  obtain ⟨hraw, hbuffer, hutf8⟩ := h.eof heof
  rw [pendingText, hutf8, hbuffer, h.wellFormed.stream_eq_nil (h.eofRaw hraw), List.append_nil,
    Decoder.decode_nil]
  rfl

/-- Returning lines off the front of the UTF-8 buffer keeps the invariant. -/
theorem LineReader.Keeps.take {all returned strings : List Bytes} {ccon : Connection σ} {os : Os}
    (h : LineReader.Keeps ic d all ⟨returned, ccon, os⟩)
    (hshort : ∀ line ∈ all, line.length < 2 ^ 31) {linesRead taken : ℕ} {eof : Bool}
    (hle : linesRead ≤ ccon.utf8.count lineFeed)
    (heof : eof = true → unterminatedEnd ccon = true ∧ ccon.utf8.count lineFeed ≤ linesRead)
    (htake : takeText ccon.utf8 linesRead eof = .ok (strings, taken)) :
    LineReader.Keeps ic d all ⟨returned ++ strings, dropUtf8 ccon taken, os⟩ := by
  have hlines := h.lines
  dsimp only [pendingText] at hlines
  refine ⟨h.sound.dropUtf8 taken, ?_⟩
  rw [← hlines] at hshort
  have htext := takeText_spec hle (fun hend => ?_)
    (fun line hline => hshort line (List.mem_append_right _ hline)) htake
  · rw [← htext, ← List.append_assoc] at hlines
    exact hlines
  · obtain ⟨hset, hall⟩ := heof hend
    obtain ⟨hnone, hne, hlast⟩ := h.sound.unterminated ic d hset
    exact ⟨hnone, hne, hlast, hall⟩

/-- **One call.** A call that counts all line feeds keeps the invariant, whether it
returns or throws. -/
theorem LineReader.Keeps.step (hic : ic.Follows d) {all : List Bytes}
    (hshort : ∀ line ∈ all, line.length < 2 ^ 31) {s : LineReader σ} (h : s.Keeps ic d all)
    {op : LineOp} (hop : op.Counts ic s.ccon s.os) : (s.step ic op).Keeps ic d all := by
  obtain ⟨returned, ccon, os⟩ := s
  unfold LineReader.step LineOp.run
  cases op with
  | poll =>
    obtain ⟨newBytes, hmoves⟩ := prePollConnection_moves hic h.sound
    simpa using h.of_sameText hmoves.sameText
  | readLines nlines =>
    obtain ⟨hsame, hfound⟩ := connectionFindLines_spec hic h.sound hop
    dsimp only [connectionReadLines]
    generalize connectionFindLines ic ccon os nlines = answer at hsame hfound ⊢
    obtain ⟨result, ccon', os'⟩ := answer
    have hkeeps := h.of_sameText hsame
    cases result with
    | error msg => exact hkeeps
    | ok found =>
      obtain ⟨linesRead, eof⟩ := found
      obtain ⟨hle, heof, hall⟩ := hfound linesRead eof rfl
      dsimp only at hle heof hall ⊢
      cases htake : takeText ccon'.utf8 linesRead eof with
      | error msg => exact hkeeps
      | ok answer =>
        obtain ⟨strings, taken⟩ := answer
        exact hkeeps.take hshort hle (fun hend => ⟨heof.symm.trans hend, hall hend⟩) htake

/-- A fresh connection has all lines still to read. -/
theorem LineReader.keeps_create {os : Os} (hos : os.WellFormed) (osHandle : ℤ) :
    (LineReader.create osHandle os).Keeps ic d (streamLines ic d os) := by
  refine ⟨⟨hos, rfl, le_refl _, le_refl _, fun _ => rfl, ?_, ?_⟩, ?_⟩
  · simp [LineReader.create, cConnectionCreate]
  · simp [LineReader.create, cConnectionCreate]
  · simp [pendingText, LineReader.create, cConnectionCreate, Riconv.ctx, streamLines]

/-- A sequence of calls that count all line feeds keeps the invariant. -/
theorem LineReader.Keeps.run (hic : ic.Follows d) {all : List Bytes}
    (hshort : ∀ line ∈ all, line.length < 2 ^ 31) {s : LineReader σ} (h : s.Keeps ic d all)
    {ops : List LineOp} (hops : s.Counts ic ops) : (s.run ic ops).Keeps ic d all := by
  induction ops generalizing s with
  | nil => exact h
  | cons op ops ih => exact ih (h.step hic hshort hops.1) hops.2

/-- **Line reading.** If no line of the stream is too long for an `int`, and every call
counts all line feeds in front of an unterminated end, then the strings returned are
the first lines of the stream at any moment, and all of them once `is_eof_` is set. -/
theorem lineReader_lines (hic : ic.Follows d) {os : Os} (hos : os.WellFormed) (osHandle : ℤ)
    (hshort : ∀ line ∈ streamLines ic d os, line.length < 2 ^ 31) (ops : List LineOp)
    (hops : (LineReader.create osHandle os).Counts ic ops) :
    ((LineReader.create osHandle os).run ic ops).returned <+: streamLines ic d os ∧
      (∀ string ∈ ((LineReader.create osHandle os).run ic ops).returned, lineFeed ∉ string) ∧
      (((LineReader.create osHandle os).run ic ops).ccon.isEof = true →
        ((LineReader.create osHandle os).run ic ops).returned = streamLines ic d os) := by
  have h := (LineReader.keeps_create hos osHandle).run hic hshort hops
  refine ⟨⟨_, h.lines⟩, fun string hstring => ?_, fun heof => ?_⟩
  · have hmem : string ∈ streamLines ic d os := by
      rw [← h.lines]
      exact List.mem_append_left _ hstring
    exact separator_notMem_of_mem_lines hmem
  · have hlines := h.lines
    rwa [h.sound.pendingText_eq_nil heof, lines_nil, List.append_nil] at hlines

/-- Two lines that are asked for one by one, the first with a carriage return. -/
theorem lineReader_lines_one_by_one :
    let os : Os := ⟨[.eagain, .data [97, 13, 10, 98], .eof], false⟩
    let ops : List LineOp := [.readLines 1, .poll, .readLines 1, .readLines 1, .readLines (-1)]
    let reader := (LineReader.create 3 os).run utf8Riconv ops
    reader.returned <+: streamLines utf8Riconv utf8Decoder os ∧
      (∀ string ∈ reader.returned, lineFeed ∉ string) ∧
      (reader.ccon.isEof = true → reader.returned = streamLines utf8Riconv utf8Decoder os) ∧
      reader.ccon.isEof = true ∧ reader.returned = [[97], [98]] := by
  have hos : Os.WellFormed ⟨[.eagain, .data [97, 13, 10, 98], .eof], false⟩ := by decide
  obtain ⟨hfirst, hnone, hend⟩ := lineReader_lines utf8Riconv_follows hos 3 (by decide)
    [.readLines 1, .poll, .readLines 1, .readLines 1, .readLines (-1)] (by decide)
  exact ⟨hfirst, hnone, hend, by decide, by decide⟩

/-- Two lines in three chunks come back as one string. -/
theorem lineReader_joins_lines :
    let os : Os := ⟨[.data [97], .data [98, 10, 99], .eof], false⟩
    let reader := (LineReader.create 3 os).run utf8Riconv [.readLines (-1), .readLines (-1)]
    utf8Riconv.Follows utf8Decoder ∧ os.WellFormed ∧ reader.ccon.isEof = true ∧
      streamLines utf8Riconv utf8Decoder os = [[97, 98], [99]] ∧
      reader.returned = [[97, 98, 10, 99]] ∧
      ¬(reader.returned = streamLines utf8Riconv utf8Decoder os ∧
        ∀ string ∈ reader.returned, lineFeed ∉ string) :=
  ⟨utf8Riconv_follows, by decide, by decide, by decide, by decide, by decide⟩

end Processx
