import Processx.Connection.Chars
import Processx.Connection.ReadLines

/-!
# Reading one line from C

`processx_c_connection_read_line()` is a second implementation of line reading. It agrees
with `processx_connection_read_lines()` on lines that a bare line feed ends, as long as no
text stands behind them at the end of the file. It leaves the line feed behind after a
carriage return, strips the carriage return of an unterminated last line, and drops what
stands behind a line once the end of the file has been seen.
-/

namespace Processx

open Incremental Textual

variable {σ : Type} {ic : Riconv σ} {d : Decoder σ UInt8 UInt8}

/-- The arguments `linep` and `linecapp` and what they point to. Both are pointers, and `none`
is NULL; so is `*linep`, which the line is copied to. -/
structure LineBuffer where
  linep : Option (Option Bytes)
  linecapp : Option ℕ
  deriving DecidableEq

/-- How a call of `processx_c_connection_read_line()` ends. -/
inductive LineAnswer
  | ret (value : ℤ)
  | throw (msg : String)
  | crash
  deriving DecidableEq

/-- Copy a line to `*linep`: into new memory, into more memory, or in place. -/
def storeLine (linep : Option Bytes) (linecapp : ℕ) (line : Bytes) : LineBuffer :=
  match linep with
  | none => ⟨some (some (line ++ [0])), some (line.length + 1)⟩
  | some memory =>
    if linecapp < line.length + 1 then ⟨some (some (line ++ [0])), some (line.length + 1)⟩
    else ⟨some (some (line ++ 0 :: memory.drop (line.length + 1))), some linecapp⟩

/-- `processx_c_connection_read_line()` behind its reads. `before` is the byte in front of the
UTF-8 buffer, which the source looks at if the buffer starts with a line feed. -/
def serveLine (before : UInt8) (ccon : Connection σ) (newline : Option ℕ) (linep : Option Bytes)
    (linecapp : ℕ) : LineAnswer × LineBuffer × Connection σ :=
  let eof := unterminatedEnd ccon
  if newline = none ∧ !eof then (.ret 0, ⟨some linep, some linecapp⟩, ccon)
  else
    let newline := newline.getD ccon.utf8.length
    let slashr := (before :: ccon.utf8)[newline]? = some carriageReturn
    -- a length of -1 is `SIZE_MAX` to `memcpy()`
    if newline = 0 ∧ slashr then (.crash, ⟨some linep, some linecapp⟩, ccon)
    else
      let newline := if slashr then newline - 1 else newline
      (.ret newline, storeLine linep linecapp (ccon.utf8.take newline),
        if !eof then dropUtf8 ccon (newline + 1) else { ccon with utf8 := [] })

/-- `processx_c_connection_read_line()`. -/
def cConnectionReadLine (ic : Riconv σ) (before : UInt8) (ccon : Connection σ) (os : Os)
    (line : LineBuffer) : LineAnswer × LineBuffer × Connection σ × Os :=
  match line.linep, line.linecapp with
  | none, _ => (.throw "cannot read line, linep cannot be a null pointer", line, ccon, os)
  | some _, none => (.throw "cannot read line, linecapp cannot be a null pointer", line, ccon, os)
  | some linep, some linecapp =>
    if ccon.isEof then (.ret (-1), line, ccon, os)
    else
      match connectionReadUntilNewline ic ccon os with
      | (.error msg, ccon, os) => (.throw msg, line, ccon, os)
      | (.ok newline, ccon, os) =>
        let (answer, line, ccon) := serveLine before ccon newline linep linecapp
        (answer, line, ccon, os)

/-- A call that reads a text-mode connection, or polls it. -/
inductive TextOp
  | readChars (nchars : ℤ)
  | cReadChars (nbyte : ℕ)
  | readLines (nlines : ℤ)
  | readLine (before : UInt8) (line : LineBuffer)
  | poll
  deriving DecidableEq

/-- The state a call leaves. -/
def TextOp.run (ic : Riconv σ) (op : TextOp) (ccon : Connection σ) (os : Os) :
    Connection σ × Os :=
  match op with
  | .readChars nchars => (connectionReadChars ic ccon os nchars).2
  | .cReadChars nbyte => (cConnectionReadChars ic ccon os nbyte).2
  | .readLines nlines => (connectionReadLines ic ccon os nlines).2
  | .readLine before line => (cConnectionReadLine ic before ccon os line).2.2
  | .poll => ((prePollConnection ic ccon).2, os)

/-- The connection after any calls on a fresh one, each of which may return or throw. -/
def textRun (ic : Riconv σ) (osHandle : ℤ) (os : Os) (ops : List TextOp) : Connection σ × Os :=
  ops.foldl (fun s op => op.run ic s.1 s.2) (cConnectionCreate osHandle, os)

/-- What `serveLine` leaves: the UTF-8 buffer loses some bytes at its front. -/
theorem serveLine_utf8 (before : UInt8) (ccon : Connection σ) (newline : Option ℕ)
    (linep : Option Bytes) (linecapp : ℕ) :
    ∃ taken, (serveLine before ccon newline linep linecapp).2.2 = dropUtf8 ccon taken := by
  have hnone : ccon = dropUtf8 ccon 0 := by simp [dropUtf8]
  have hall : { ccon with utf8 := [] } = dropUtf8 ccon ccon.utf8.length := by simp [dropUtf8]
  unfold serveLine
  dsimp only
  split_ifs
  · exact ⟨0, hnone⟩
  · exact ⟨0, hnone⟩
  all_goals first | exact ⟨_, rfl⟩ | exact ⟨_, hall⟩

/-- Finding characters keeps what its read keeps. -/
theorem connectionFindChars_keeps {P : Connection σ → Os → Prop}
    (hread : ∀ ccon os, P ccon os → ccon.utf8.length = 0 →
      P (connectionRead ic ccon os).2.1 (connectionRead ic ccon os).2.2)
    {ccon : Connection σ} {os : Os} (h : P ccon os) (maxchars maxbytes : ℤ) :
    P (connectionFindChars ic ccon os maxchars maxbytes).2.1
      (connectionFindChars ic ccon os maxchars maxbytes).2.2 := by
  unfold connectionFindChars
  cases checkValidConn ccon with
  | error msg => exact h
  | ok _ =>
    have hstate : P
        (if (!ccon.isEof) = true ∧ ccon.utf8.length = 0 then connectionRead ic ccon os
          else (.ok 0, ccon, os)).2.1
        (if (!ccon.isEof) = true ∧ ccon.utf8.length = 0 then connectionRead ic ccon os
          else (.ok 0, ccon, os)).2.2 := by
      split_ifs with hempty
      · exact hread ccon os h hempty.2
      · exact h
    dsimp only
    generalize (if (!ccon.isEof) = true ∧ ccon.utf8.length = 0 then connectionRead ic ccon os
      else (.ok 0, ccon, os)) = answer at hstate ⊢
    obtain ⟨msg | n, ccon', os'⟩ := answer
    · exact hstate
    · dsimp only
      split_ifs
      · exact hstate
      · exact hstate

/-- A call keeps what finding characters, reading until there is a line feed, polling and taking
text out of the UTF-8 buffer keep. -/
theorem TextOp.keeps {P : Connection σ → Os → Prop}
    (hfind : ∀ {ccon os} maxchars maxbytes, P ccon os →
      P (connectionFindChars ic ccon os maxchars maxbytes).2.1
        (connectionFindChars ic ccon os maxchars maxbytes).2.2)
    (huntil : ∀ {ccon os}, P ccon os → P (connectionReadUntilNewline ic ccon os).2.1
      (connectionReadUntilNewline ic ccon os).2.2)
    (hpoll : ∀ {ccon os}, P ccon os → P (prePollConnection ic ccon).2 os)
    (hdrop : ∀ {ccon os} bytes, P ccon os → P (dropUtf8 ccon bytes) os)
    (op : TextOp) {ccon : Connection σ} {os : Os} (h : P ccon os) :
    P (op.run ic ccon os).1 (op.run ic ccon os).2 := by
  unfold TextOp.run
  cases op with
  | poll => exact hpoll h
  | readChars nchars =>
    have hstate := hfind nchars (-1) h
    dsimp only [connectionReadChars]
    generalize connectionFindChars ic ccon os nchars (-1) = answer at hstate ⊢
    obtain ⟨_ | bytes, ccon', os'⟩ := answer
    · exact hstate
    · dsimp only at hstate ⊢
      cases mkCharLenCE ccon'.utf8 (toInt bytes) with
      | error msg => exact hstate
      | ok chars => exact hdrop bytes hstate
  | cReadChars nbyte =>
    dsimp only [cConnectionReadChars]
    by_cases hsmall : nbyte < 4
    · rw [if_pos hsmall]
      exact h
    · rw [if_neg hsmall]
      have hstate := hfind (-1) nbyte h
      generalize connectionFindChars ic ccon os (-1) nbyte = answer at hstate ⊢
      obtain ⟨_ | bytes, ccon', os'⟩ := answer
      · exact hstate
      · exact hdrop bytes hstate
  | readLines nlines =>
    dsimp only [connectionReadLines, connectionFindLines]
    cases checkValidConn ccon with
    | error msg => exact h
    | ok _ =>
      have hstate := huntil h
      dsimp only
      generalize connectionReadUntilNewline ic ccon os = answer at hstate ⊢
      obtain ⟨_ | newline, ccon', os'⟩ := answer
      · exact hstate
      · dsimp only at hstate ⊢
        generalize takeText ccon'.utf8 _ _ = taken
        obtain _ | ⟨strings, bytes⟩ := taken
        · exact hstate
        · exact hdrop bytes hstate
  | readLine before line =>
    obtain ⟨_ | linep, _ | linecapp⟩ := line
    · exact h
    · exact h
    · exact h
    · dsimp only [cConnectionReadLine]
      by_cases heof : ccon.isEof = true
      · rw [if_pos heof]
        exact h
      · rw [if_neg heof]
        have hstate := huntil h
        generalize connectionReadUntilNewline ic ccon os = answer at hstate ⊢
        obtain ⟨_ | newline, ccon', os'⟩ := answer
        · exact hstate
        · obtain ⟨taken, htaken⟩ := serveLine_utf8 before ccon' newline linep linecapp
          dsimp only at hstate ⊢
          rw [htaken]
          exact hdrop taken hstate

/-- Every call keeps a state sound. -/
theorem TextOp.sound (hic : ic.Follows d) (op : TextOp) {ccon : Connection σ} {os : Os}
    (h : Sound ccon os) : Sound (op.run ic ccon os).1 (op.run ic ccon os).2 := by
  refine op.keeps (P := Sound) (fun maxchars maxbytes h => ?_) (fun h => ?_) (fun h => ?_)
    (fun bytes h => h.dropUtf8 bytes) h
  · obtain ⟨_, hmoves, _⟩ := connectionFindChars_moves hic h maxchars maxbytes
    exact hmoves.sound
  · exact (connectionReadUntilNewline_spec hic h).1.sound
  · obtain ⟨_, hmoves⟩ := prePollConnection_moves hic h
    exact hmoves.sound

/-- A run keeps what each of its calls keeps. -/
theorem textRun_keeps {P : Connection σ → Os → Prop}
    (hstep : ∀ (op : TextOp) {ccon os}, P ccon os → P (op.run ic ccon os).1 (op.run ic ccon os).2)
    {osHandle : ℤ} {os : Os} (hcreate : P (cConnectionCreate osHandle) os) (ops : List TextOp) :
    P (textRun ic osHandle os ops).1 (textRun ic osHandle os ops).2 := by
  unfold textRun
  suffices hfold : ∀ s : Connection σ × Os, P s.1 s.2 →
      P (ops.foldl (fun s op => op.run ic s.1 s.2) s).1
        (ops.foldl (fun s op => op.run ic s.1 s.2) s).2 from hfold _ hcreate
  induction ops with
  | nil => exact fun s hs => hs
  | cons op ops ih => exact fun s hs => ih _ (hstep op hs)

/-- A fresh connection is sound. -/
theorem Sound.create {os : Os} (hos : os.WellFormed) (osHandle : ℤ) :
    Sound (cConnectionCreate osHandle : Connection σ) os := by
  refine ⟨hos, rfl, le_refl _, le_refl _, fun _ => rfl, ?_, ?_⟩
  · simp [cConnectionCreate]
  · simp [cConnectionCreate]

/-- Every reachable state of a text-mode connection is sound. -/
theorem textRun_sound (hic : ic.Follows d) {os : Os} (hos : os.WellFormed) (osHandle : ℤ)
    (ops : List TextOp) :
    Sound (textRun ic osHandle os ops).1 (textRun ic osHandle os ops).2 :=
  textRun_keeps (fun op _ _ h => op.sound hic h) (Sound.create hos osHandle) ops

/-- The memory `*linep` points to starts with a line and a NUL. -/
def LineBuffer.Holds (line : LineBuffer) (text : Bytes) : Prop :=
  ∃ rest, line.linep = some (some (text ++ 0 :: rest))

/-- `text` is the first line of `before`, and `after` is what stands behind its terminator. -/
def NextLine (before text after : Bytes) : Prop :=
  (∃ piece, before = piece ++ lineFeed :: after ∧ lineFeed ∉ piece ∧
    text = chomp carriageReturn piece) ∨
  (before = text ∧ text ≠ [] ∧ lineFeed ∉ text ∧ after = [])

/-- What a call of `processx_c_connection_read_line()` is to do: report the end of the file,
touch and consume nothing as there is no line to serve, or deliver the next line. -/
def ServesLine (ic : Riconv σ) (d : Decoder σ UInt8 UInt8) (ccon : Connection σ) (os : Os)
    (line : LineBuffer) (result : LineAnswer × LineBuffer × Connection σ × Os) : Prop :=
  let (answer, line', ccon', os') := result
  (answer = .ret (-1) ∧ ccon.isEof = true ∧ line' = line ∧
    pendingText ic d ccon' os' = pendingText ic d ccon os) ∨
  (answer = .ret 0 ∧ line' = line ∧ pendingText ic d ccon' os' = pendingText ic d ccon os ∧
    lineFeed ∉ ccon'.utf8 ∧ unterminatedEnd ccon' = false) ∨
  ∃ text : Bytes, answer = .ret text.length ∧ line'.Holds text ∧
    NextLine (pendingText ic d ccon os) text (pendingText ic d ccon' os')

/-- When a call serves a line, by the buffer its reads leave: the line feed it found has no
carriage return in front of it and no unterminated end of the file behind it; if it found
none, there is none, and an unterminated end is no carriage return. -/
def Servable (before : UInt8) (newline : Option ℕ) (ccon : Connection σ) : Prop :=
  match newline with
  | some eol => (before :: ccon.utf8)[eol]? ≠ some carriageReturn ∧ unterminatedEnd ccon = false
  | none => lineFeed ∉ ccon.utf8 ∧
      (unterminatedEnd ccon = true → ccon.utf8.getLast? ≠ some carriageReturn)

/-- The same for the state before a call. -/
def LineServable (ic : Riconv σ) (before : UInt8) (ccon : Connection σ) (os : Os) : Prop :=
  ccon.isEof = true ∨ ∀ newline ∈ (connectionReadUntilNewline ic ccon os).1.toOption,
    Servable before newline (connectionReadUntilNewline ic ccon os).2.1

instance (before : UInt8) (newline : Option ℕ) (ccon : Connection σ) :
    Decidable (Servable before newline ccon) :=
  match newline with
  | some eol => inferInstanceAs (Decidable ((before :: ccon.utf8)[eol]? ≠ some carriageReturn ∧
      unterminatedEnd ccon = false))
  | none => inferInstanceAs (Decidable (lineFeed ∉ ccon.utf8 ∧
      (unterminatedEnd ccon = true → ccon.utf8.getLast? ≠ some carriageReturn)))

instance (before : UInt8) (ccon : Connection σ) (os : Os) :
    Decidable (LineServable ic before ccon os) :=
  inferInstanceAs (Decidable (ccon.isEof = true ∨
    ∀ newline ∈ (connectionReadUntilNewline ic ccon os).1.toOption,
      Servable before newline (connectionReadUntilNewline ic ccon os).2.1))

/-- A stored line is there, with its NUL. -/
theorem storeLine_holds (linep : Option Bytes) (linecapp : ℕ) (text : Bytes) :
    (storeLine linep linecapp text).Holds text := by
  unfold storeLine
  cases linep with
  | none => exact ⟨[], rfl⟩
  | some memory =>
    dsimp only
    split_ifs
    · exact ⟨[], rfl⟩
    · exact ⟨_, rfl⟩

/-- Memory holds one line of a given length. -/
theorem LineBuffer.Holds.unique {line : LineBuffer} {text text' : Bytes} (h : line.Holds text)
    (h' : line.Holds text') (hlen : text.length = text'.length) : text = text' := by
  obtain ⟨rest, hrest⟩ := h
  obtain ⟨rest', hrest'⟩ := h'
  rw [hrest] at hrest'
  exact List.append_inj_left (Option.some.inj (Option.some.inj hrest')) hlen

/-- A call that stores something and consumes something serves a line if it stored the next. -/
theorem servesLine_stored_iff {ccon ccon' : Connection σ} {os os' : Os} {line : LineBuffer}
    {linep : Option Bytes} {linecapp n : ℕ} {text : Bytes} (hn : text.length = n)
    (hless : (pendingText ic d ccon' os').length < (pendingText ic d ccon os).length) :
    ServesLine ic d ccon os line (.ret n, storeLine linep linecapp text, ccon', os') ↔
      NextLine (pendingText ic d ccon os) text (pendingText ic d ccon' os') := by
  have hholds := storeLine_holds linep linecapp text
  constructor
  · rintro (⟨heof, _⟩ | ⟨_, _, hsame, _⟩ | ⟨text', hlen, hholds', hnext⟩)
    · have := LineAnswer.ret.inj heof
      omega
    · rw [hsame] at hless
      omega
    · have hlen' := LineAnswer.ret.inj hlen
      rwa [hholds.unique hholds' (by omega)]
  · exact fun hnext => Or.inr (Or.inr ⟨text, by rw [hn], hholds, hnext⟩)

/-- A text that ends without a line feed is a next line only as a whole. -/
theorem nextLine_nil_iff {before text : Bytes} (hlast : before.getLast? ≠ some lineFeed) :
    NextLine before text [] ↔ before = text ∧ text ≠ [] ∧ lineFeed ∉ text := by
  constructor
  · rintro (⟨piece, hbefore, _⟩ | ⟨hbefore, hne, hnone, _⟩)
    · rw [hbefore, List.getLast?_concat] at hlast
      exact absurd rfl hlast
    · exact ⟨hbefore, hne, hnone⟩
  · exact fun ⟨hbefore, hne, hnone⟩ => Or.inr ⟨hbefore, hne, hnone, rfl⟩

/-- At an unterminated end the whole text goes, which serves a line only if that is the line. -/
theorem servesLine_cleared_iff {ccon₀ ccon : Connection σ} {os₀ os : Os} (h : Sound ccon os)
    (htext : pendingText ic d ccon os = pendingText ic d ccon₀ os₀)
    (hend : unterminatedEnd ccon = true) {line : LineBuffer} {linep : Option Bytes}
    {linecapp n : ℕ} {text : Bytes} (hn : text.length = n) :
    ServesLine ic d ccon₀ os₀ line
        (.ret n, storeLine linep linecapp text, { ccon with utf8 := [] }, os) ↔
      ccon.utf8 = text ∧ text ≠ [] ∧ lineFeed ∉ text := by
  obtain ⟨hrest, hne, hlast⟩ := h.unterminated ic d hend
  have hpending : pendingText ic d ccon₀ os₀ = ccon.utf8 := by
    rw [← htext, pendingText, hrest, List.append_nil]
  have hafter : pendingText ic d { ccon with utf8 := [] } os = [] := by
    rw [pendingText, List.nil_append]
    exact hrest
  have hless : (pendingText ic d { ccon with utf8 := [] } os).length <
      (pendingText ic d ccon₀ os₀).length := by
    rw [hafter, hpending]
    exact List.length_pos_of_ne_nil hne
  rw [servesLine_stored_iff hn hless, hafter, hpending, nextLine_nil_iff hlast]

/-- The call found no line feed. -/
theorem serveLine_none_serves_iff {ccon₀ ccon : Connection σ} {os₀ os : Os} (h : Sound ccon os)
    (htext : pendingText ic d ccon os = pendingText ic d ccon₀ os₀) (before : UInt8)
    (linep : Option Bytes) (linecapp : ℕ) :
    ServesLine ic d ccon₀ os₀ ⟨some linep, some linecapp⟩
        ((serveLine before ccon none linep linecapp).1,
          (serveLine before ccon none linep linecapp).2.1,
          (serveLine before ccon none linep linecapp).2.2, os) ↔
      Servable before none ccon := by
  cases hend : unterminatedEnd ccon with
  | false =>
    -- nothing is served, which is right if there is no line feed
    simp only [serveLine, hend, Bool.not_false, and_self, if_true, Servable, Bool.false_eq_true,
      false_implies, and_true]
    constructor
    · rintro (⟨heof, _⟩ | ⟨_, _, _, hnone, _⟩ | ⟨text, hlen, _, hnext⟩)
      · have := LineAnswer.ret.inj heof
        omega
      · exact hnone
      · have hnil : text = [] := List.length_eq_zero_iff.mp (by
          have := LineAnswer.ret.inj hlen
          omega)
        rcases hnext with ⟨piece, hbefore, _⟩ | ⟨_, hne, _⟩
        · have hlength := congrArg List.length hbefore
          rw [htext, List.length_append, List.length_cons] at hlength
          omega
        · exact absurd hnil hne
    · exact fun hnone => Or.inr (Or.inl ⟨rfl, rfl, htext, hnone, hend⟩)
  | true =>
    obtain ⟨_, hne, _⟩ := h.unterminated ic d hend
    have hpos := List.length_pos_of_ne_nil hne
    have hget : (before :: ccon.utf8)[ccon.utf8.length]? = ccon.utf8.getLast? := by
      obtain ⟨n, hn⟩ : ∃ n, ccon.utf8.length = n + 1 := ⟨ccon.utf8.length - 1, by omega⟩
      rw [List.getLast?_eq_getElem?, hn]
      rfl
    have hnone : ccon.utf8.length ≠ 0 := by omega
    simp only [serveLine, hend, Bool.not_true, Bool.false_eq_true, and_false, if_false,
      Option.getD_none, hget, hnone, false_and, Servable, true_implies]
    by_cases hcr : ccon.utf8.getLast? = some carriageReturn
    · simp only [hcr, if_true, ne_eq, not_true_eq_false, and_false, iff_false]
      have hlen : (ccon.utf8.take (ccon.utf8.length - 1)).length = ccon.utf8.length - 1 := by
        rw [List.length_take]
        omega
      rw [servesLine_cleared_iff h htext hend hlen]
      rintro ⟨heq, _⟩
      have := congrArg List.length heq
      omega
    · simp only [hcr, if_false, ne_eq, not_false_eq_true, and_true]
      rw [List.take_length, servesLine_cleared_iff h htext hend rfl]
      exact ⟨fun hline => hline.2.2, fun hnone => ⟨rfl, hne, hnone⟩⟩

/-- The call found a line feed. -/
theorem serveLine_some_serves_iff {ccon₀ ccon : Connection σ} {os₀ os : Os} (h : Sound ccon os)
    (htext : pendingText ic d ccon os = pendingText ic d ccon₀ os₀) (before : UInt8)
    {eol : ℕ} (heol : findNewline ccon.utf8 0 = some eol)
    (linep : Option Bytes) (linecapp : ℕ) :
    ServesLine ic d ccon₀ os₀ ⟨some linep, some linecapp⟩
        ((serveLine before ccon (some eol) linep linecapp).1,
          (serveLine before ccon (some eol) linep linecapp).2.1,
          (serveLine before ccon (some eol) linep linecapp).2.2, os) ↔
      Servable before (some eol) ccon := by
  obtain ⟨piece, hsplit, hpiece, hlen⟩ := drop_eq_of_findNewline heol
  rw [List.drop_zero] at hsplit
  rw [Nat.zero_add] at hlen
  generalize hbehind : ccon.utf8.drop (eol + 1) = behind at hsplit
  have htake : ccon.utf8.take eol = piece := by
    rw [hsplit, hlen, List.take_left]
  generalize hrest : d.decode (ic.ctx ccon) (ccon.buffer ++ os.stream) = rest
  have hpending : pendingText ic d ccon₀ os₀ = piece ++ lineFeed :: (behind ++ rest) := by
    rw [← htext, pendingText, hrest, hsplit, List.append_assoc, List.cons_append]
  have hdrop : ∀ n, pendingText ic d (dropUtf8 ccon n) os = ccon.utf8.drop n ++ rest := by
    intro n
    rw [← hrest]
    rfl
  have hget : (before :: ccon.utf8)[eol]? = (before :: piece).getLast? := by
    rw [hsplit, hlen, List.getLast?_eq_getElem?, ← List.cons_append,
      List.getElem?_append_left (by simp)]
    simp
  -- at an unterminated end the whole text goes, with the line feed
  have hclear : unterminatedEnd ccon = true → ∀ (n : ℕ) (text : Bytes), text.length = n →
      ¬ServesLine ic d ccon₀ os₀ ⟨some linep, some linecapp⟩
        (.ret n, storeLine linep linecapp text, { ccon with utf8 := [] }, os) := by
    intro hend n text hn hserves
    obtain ⟨heq, _, hnone⟩ := (servesLine_cleared_iff h htext hend hn).mp hserves
    rw [← heq, hsplit] at hnone
    exact hnone (List.mem_append_right _ List.mem_cons_self)
  have hless : ∀ n, 0 < n → n ≤ eol + 1 → (pendingText ic d (dropUtf8 ccon n) os).length <
      (pendingText ic d ccon₀ os₀).length := by
    intro n hpos hle
    rw [hdrop, ← htext, pendingText, hrest, List.length_append, List.length_append,
      List.length_drop]
    have := congrArg List.length hsplit
    rw [List.length_append, List.length_cons] at this
    omega
  simp only [serveLine, reduceCtorEq, false_and, if_false, Option.getD_some, hget, Servable]
  by_cases hcr : (before :: piece).getLast? = some carriageReturn
  · simp only [hcr, and_true, if_true, ne_eq, not_true_eq_false, false_and, iff_false]
    by_cases hzero : eol = 0
    · simp only [hzero, if_true]
      rintro (⟨heof, _⟩ | ⟨hret, _⟩ | ⟨_, hret, _⟩)
      · cases heof
      · cases hret
      · cases hret
    · simp only [hzero, if_false]
      have hlength : (ccon.utf8.take (eol - 1)).length = eol - 1 := by
        rw [List.length_take, hsplit, List.length_append]
        omega
      cases hend : unterminatedEnd ccon with
      | true => simpa using hclear hend _ _ hlength
      | false =>
        simp only [Bool.not_false, if_true]
        rw [servesLine_stored_iff hlength (hless _ (by omega) (by omega)), hdrop,
          Nat.sub_add_cancel (by omega), hpending]
        have hleft : ccon.utf8.drop eol = lineFeed :: behind := by
          rw [hsplit, hlen, List.drop_left]
        rw [hleft]
        rintro (⟨piece', heq, _⟩ | ⟨_, _, _, hnil⟩)
        · -- the line feed that is left behind would stand inside the line
          rw [← List.singleton_append (l := lineFeed :: behind ++ rest), ← List.append_assoc,
            ← List.cons_append] at heq
          have hsame := List.append_cancel_right heq
          rw [hsame] at hpiece
          simp at hpiece
        · simp at hnil
  · simp only [hcr, and_false, if_false, ne_eq, not_false_eq_true, true_and, htake]
    cases hend : unterminatedEnd ccon with
    | true =>
      simp only [Bool.not_true, Bool.false_eq_true, if_false, reduceCtorEq, iff_false]
      exact hclear hend _ _ hlen.symm
    | false =>
      simp only [Bool.not_false, if_true, iff_true]
      rw [servesLine_stored_iff hlen.symm (hless _ (by omega) (by omega)), hdrop, hbehind,
        hpending]
      refine Or.inl ⟨piece, rfl, hpiece, ?_⟩
      -- a piece that does not end with a carriage return is the line
      rw [chomp]
      split_ifs with hlast
      · rw [List.getLast?_cons, hlast] at hcr
        exact absurd rfl hcr
      · rfl

/-- **One call.** In a sound state, a call that does not throw serves a line, or rightly none,
exactly if it can. -/
theorem cConnectionReadLine_serves_iff (hic : ic.Follows d) {ccon : Connection σ} {os : Os}
    (h : Sound ccon os) (before : UInt8) (linep : Option Bytes) (linecapp : ℕ)
    (hthrow : ∀ msg, (cConnectionReadLine ic before ccon os ⟨some linep, some linecapp⟩).1 ≠
      .throw msg) :
    ServesLine ic d ccon os ⟨some linep, some linecapp⟩
        (cConnectionReadLine ic before ccon os ⟨some linep, some linecapp⟩) ↔
      LineServable ic before ccon os := by
  unfold cConnectionReadLine at hthrow ⊢
  unfold LineServable
  dsimp only at hthrow ⊢
  by_cases heof : ccon.isEof = true
  · rw [if_pos heof]
    exact iff_of_true (Or.inl ⟨rfl, heof, rfl, rfl⟩) (Or.inl heof)
  · rw [if_neg heof] at hthrow ⊢
    obtain ⟨hsame, hnewline⟩ := connectionReadUntilNewline_spec hic h
    generalize connectionReadUntilNewline ic ccon os = answer at hsame hnewline hthrow ⊢
    obtain ⟨msg | newline, ccon', os'⟩ := answer
    · exact absurd rfl (hthrow msg)
    · have hservable : (ccon.isEof = true ∨ ∀ found ∈ Except.toOption (Except.ok newline :
          Except String (Option ℕ)), Servable before found ccon') ↔
          Servable before newline ccon' := by
        refine ⟨fun hor => hor.resolve_left heof newline rfl, fun hall => Or.inr ?_⟩
        intro found hfound
        rwa [← Option.some.inj hfound]
      dsimp only at hsame hnewline ⊢
      rw [hservable]
      rcases hnewline newline rfl with hnone | hfind
      · rw [hnone]
        exact serveLine_none_serves_iff hsame.sound hsame.text before linep linecapp
      · cases newline with
        | none => exact serveLine_none_serves_iff hsame.sound hsame.text before linep linecapp
        | some eol =>
          exact serveLine_some_serves_iff hsame.sound hsame.text before hfind.symm linep linecapp

/-- A call on a connection that C code reads line by line. -/
inductive LineCall
  | readLine (before : UInt8) (linep : Option Bytes) (linecapp : ℕ)
  | poll
  deriving DecidableEq

/-- The line a call delivers. It is the same wherever the line is copied to, so it can be read
off a call that allocates the memory. -/
def deliveredLine (ic : Riconv σ) (before : UInt8) (ccon : Connection σ) (os : Os) :
    Option Bytes :=
  match cConnectionReadLine ic before ccon os ⟨some none, some 0⟩ with
  | (.ret value, ⟨some (some memory), _⟩, _) => some (memory.take value.toNat)
  | _ => none

/-- A call adds the line it delivers. -/
def LineCall.step (ic : Riconv σ) (s : LineReader σ) : LineCall → LineReader σ
  | .readLine before linep linecapp =>
    let after := (cConnectionReadLine ic before s.ccon s.os ⟨some linep, some linecapp⟩).2.2
    ⟨s.returned ++ (deliveredLine ic before s.ccon s.os).toList, after.1, after.2⟩
  | .poll => ⟨s.returned, (prePollConnection ic s.ccon).2, s.os⟩

/-- A sequence of calls. -/
def LineCall.run (ic : Riconv σ) (s : LineReader σ) (calls : List LineCall) : LineReader σ :=
  calls.foldl (LineCall.step ic) s

/-- Every call of a sequence can serve its line. -/
def LineCall.Servable (ic : Riconv σ) : LineReader σ → List LineCall → Prop
  | _, [] => True
  | s, call :: calls =>
    (match call with
      | .readLine before _ _ => LineServable ic before s.ccon s.os
      | .poll => True) ∧ LineCall.Servable ic (call.step ic s) calls

instance LineCall.decidableServable :
    ∀ (s : LineReader σ) (calls : List LineCall), Decidable (LineCall.Servable ic s calls)
  | _, [] => isTrue trivial
  | s, .poll :: calls =>
    have := LineCall.decidableServable (LineCall.poll.step ic s) calls
    inferInstanceAs (Decidable (True ∧ LineCall.Servable ic (LineCall.poll.step ic s) calls))
  | s, .readLine before linep linecapp :: calls =>
    have := LineCall.decidableServable ((LineCall.readLine before linep linecapp).step ic s) calls
    inferInstanceAs (Decidable (LineServable ic before s.ccon s.os ∧
      LineCall.Servable ic ((LineCall.readLine before linep linecapp).step ic s) calls))

/-- The next line is the first of the lines. -/
theorem NextLine.lines_eq {before text after : Bytes} (h : NextLine before text after) :
    lines lineFeed carriageReturn before = text :: lines lineFeed carriageReturn after := by
  rcases h with ⟨piece, hbefore, hpiece, htext⟩ | ⟨hbefore, hne, hnone, hafter⟩
  · rw [hbefore, lines_append_cons hpiece, htext]
  · rw [hbefore, hafter, lines_of_notMem hnone hne, lines_nil]

/-- The connection a call leaves does not depend on where the line is copied to. -/
theorem cConnectionReadLine_memory (before : UInt8) (ccon : Connection σ) (os : Os)
    (linep : Option Bytes) (linecapp : ℕ) :
    (cConnectionReadLine ic before ccon os ⟨some linep, some linecapp⟩).2.2 =
        (cConnectionReadLine ic before ccon os ⟨some none, some 0⟩).2.2 ∧
      (cConnectionReadLine ic before ccon os ⟨some linep, some linecapp⟩).1 =
        (cConnectionReadLine ic before ccon os ⟨some none, some 0⟩).1 := by
  unfold cConnectionReadLine
  dsimp only
  by_cases heof : ccon.isEof = true
  · rw [if_pos heof, if_pos heof]
    exact ⟨rfl, rfl⟩
  · rw [if_neg heof, if_neg heof]
    rcases connectionReadUntilNewline ic ccon os with ⟨msg | newline, ccon', os'⟩
    · exact ⟨rfl, rfl⟩
    · dsimp only [serveLine]
      split_ifs <;> exact ⟨rfl, rfl⟩

/-- A call that throws or crashes has at most read. -/
theorem cConnectionReadLine_of_throw (hic : ic.Follows d) {ccon : Connection σ} {os : Os}
    (h : Sound ccon os) (before : UInt8) {msg : String}
    (hthrow : (cConnectionReadLine ic before ccon os ⟨some none, some 0⟩).1 = .throw msg) :
    SameText ic d ccon os (cConnectionReadLine ic before ccon os ⟨some none, some 0⟩).2.2.1
      (cConnectionReadLine ic before ccon os ⟨some none, some 0⟩).2.2.2 := by
  have hsame := (connectionReadUntilNewline_spec hic h).1
  unfold cConnectionReadLine at hthrow ⊢
  dsimp only at hthrow ⊢
  by_cases heof : ccon.isEof = true
  · rw [if_pos heof] at hthrow
    cases hthrow
  · rw [if_neg heof] at hthrow ⊢
    generalize connectionReadUntilNewline ic ccon os = answer at hsame hthrow ⊢
    obtain ⟨msg | newline, ccon', os'⟩ := answer
    · exact hsame
    · dsimp only [serveLine] at hthrow
      split_ifs at hthrow

/-- **One call of a run.** A call that can serve its line keeps the invariant of the lines. -/
theorem LineCall.keeps_step (hic : ic.Follows d) {all : List Bytes} {s : LineReader σ}
    (h : s.Keeps ic d all) {call : LineCall} {calls : List LineCall}
    (hcall : LineCall.Servable ic s (call :: calls)) : (call.step ic s).Keeps ic d all := by
  obtain ⟨returned, ccon, os⟩ := s
  cases call with
  | poll =>
    obtain ⟨_, hmoves⟩ := prePollConnection_moves hic h.sound
    exact h.of_sameText hmoves.sameText
  | readLine before linep linecapp =>
    have hsound : Sound ccon os := h.sound
    have hserves := cConnectionReadLine_serves_iff hic hsound before none 0
    have hkeep := (TextOp.readLine before ⟨some none, some 0⟩).sound hic hsound
    have hthrown := fun msg => @cConnectionReadLine_of_throw σ ic d hic ccon os hsound before msg
    dsimp only [LineCall.step, deliveredLine, TextOp.run] at hkeep ⊢
    rw [(@cConnectionReadLine_memory σ ic before ccon os linep linecapp).1]
    generalize cConnectionReadLine ic before ccon os ⟨some none, some 0⟩ = result
      at hserves hkeep hthrown ⊢
    obtain ⟨answer, line', ccon', os'⟩ := result
    have hlines := h.lines
    dsimp only at hlines hkeep hserves hthrown
    by_cases hthrow : ∃ msg, answer = .throw msg
    · obtain ⟨msg, rfl⟩ := hthrow
      have hsame := hthrown msg rfl
      simpa using h.of_sameText hsame
    · rcases (hserves fun msg heq => hthrow ⟨msg, heq⟩).mpr hcall.1 with
        ⟨rfl, _, rfl, hsame⟩ | ⟨rfl, rfl, hsame, _⟩ | ⟨text, rfl, ⟨rest, hrest⟩, hnext⟩
      · simpa using h.of_sameText ⟨hkeep, hsame⟩
      · simpa using h.of_sameText ⟨hkeep, hsame⟩
      · obtain ⟨linep', linecapp'⟩ := line'
        dsimp only at hrest
        subst hrest
        refine ⟨hkeep, ?_⟩
        rw [hnext.lines_eq] at hlines
        simpa using hlines

/-- **Line reading from C.** In every reachable state, a call that does not throw serves a line,
or rightly none, exactly if its line can be served. In every run of calls that can, the lines
delivered are the first lines of the stream, and all of them once `is_eof_` is set. -/
theorem cConnectionReadLine_lines (hic : ic.Follows d) {os : Os} (hos : os.WellFormed)
    (osHandle : ℤ) :
    (∀ (ops : List TextOp) (before : UInt8) (linep : Option Bytes) (linecapp : ℕ),
      (∀ msg, (cConnectionReadLine ic before (textRun ic osHandle os ops).1
        (textRun ic osHandle os ops).2 ⟨some linep, some linecapp⟩).1 ≠ .throw msg) →
      (ServesLine ic d (textRun ic osHandle os ops).1 (textRun ic osHandle os ops).2
          ⟨some linep, some linecapp⟩ (cConnectionReadLine ic before (textRun ic osHandle os ops).1
            (textRun ic osHandle os ops).2 ⟨some linep, some linecapp⟩) ↔
        LineServable ic before (textRun ic osHandle os ops).1 (textRun ic osHandle os ops).2)) ∧
    ∀ calls : List LineCall, LineCall.Servable ic (LineReader.create osHandle os) calls →
      (LineCall.run ic (LineReader.create osHandle os) calls).returned <+: streamLines ic d os ∧
        ((LineCall.run ic (LineReader.create osHandle os) calls).ccon.isEof = true →
          (LineCall.run ic (LineReader.create osHandle os) calls).returned =
            streamLines ic d os) := by
  refine ⟨fun ops before linep linecapp hthrow =>
    cConnectionReadLine_serves_iff hic (textRun_sound hic hos osHandle ops) before linep linecapp
      hthrow, fun calls hcalls => ?_⟩
  have hrun : ∀ s : LineReader σ, s.Keeps ic d (streamLines ic d os) →
      LineCall.Servable ic s calls →
        (LineCall.run ic s calls).Keeps ic d (streamLines ic d os) := by
    clear hcalls
    induction calls with
    | nil => exact fun s hs _ => hs
    | cons call calls ih =>
      exact fun s hs hcall => ih _ (LineCall.keeps_step hic hs hcall) hcall.2
  have h := hrun _ (LineReader.keeps_create hos osHandle) hcalls
  refine ⟨⟨_, h.lines⟩, fun heof => ?_⟩
  have hlines := h.lines
  rwa [h.sound.pendingText_eq_nil heof, lines_nil, List.append_nil] at hlines

/-- Two lines, the second without a line feed, into new memory and into memory of the caller. -/
theorem cConnectionReadLine_lines_two :
    let os : Os := ⟨[.eagain, .data [97, 10, 98], .eof], false⟩
    let calls : List LineCall := [.readLine 0 none 0, .poll, .readLine 0 none 0,
      .readLine 0 (some [1, 1, 1]) 3, .readLine 0 none 0]
    let reader := LineCall.run utf8Riconv (LineReader.create 3 os) calls
    let first := (textRun utf8Riconv 3 os [.poll, .readLines 1]).1
    let os' := (textRun utf8Riconv 3 os [.poll, .readLines 1]).2
    (ServesLine utf8Riconv utf8Decoder first os' ⟨some none, some 0⟩
        (cConnectionReadLine utf8Riconv 0 first os' ⟨some none, some 0⟩) ↔
      LineServable utf8Riconv 0 first os') ∧ LineServable utf8Riconv 0 first os' ∧
    reader.returned <+: streamLines utf8Riconv utf8Decoder os ∧
      (reader.ccon.isEof = true → reader.returned = streamLines utf8Riconv utf8Decoder os) ∧
      reader.ccon.isEof = true ∧ reader.returned = [[97], [98]] := by
  have hos : Os.WellFormed ⟨[.eagain, .data [97, 10, 98], .eof], false⟩ := by decide
  obtain ⟨hcall, hrun⟩ := cConnectionReadLine_lines utf8Riconv_follows hos 3
  obtain ⟨hfirst, hend⟩ := hrun [.readLine 0 none 0, .poll, .readLine 0 none 0,
    .readLine 0 (some [1, 1, 1]) 3, .readLine 0 none 0] (by decide)
  refine ⟨hcall [.poll, .readLines 1] 0 none 0 ?_, by decide, hfirst, hend, by decide, by decide⟩
  intro msg hmsg
  have hret : (cConnectionReadLine utf8Riconv 0 (textRun utf8Riconv 3
      ⟨[.eagain, .data [97, 10, 98], .eof], false⟩ [.poll, .readLines 1]).1 (textRun utf8Riconv 3
        ⟨[.eagain, .data [97, 10, 98], .eof], false⟩ [.poll, .readLines 1]).2
          ⟨some none, some 0⟩).1 = .ret 1 := by decide
  rw [hret] at hmsg
  cases hmsg

/-- Of `a`, a carriage return, a line feed, `b` and a line feed, C code gets three lines: the
first call leaves its line feed behind, which is an empty line to the second. -/
theorem cConnectionReadLine_splits_crlf :
    let os : Os := ⟨[.data [97, 13, 10, 98, 10], .eof], false⟩
    let call : LineCall := .readLine 0 none 0
    let ccon : Connection Unit := cConnectionCreate 3
    (LineCall.run utf8Riconv (LineReader.create 3 os) [call, call, call]).returned =
        [[97], [], [98]] ∧
      ((LineReader.create 3 os).run utf8Riconv [.readLines (-1)]).returned = [[97], [98]] ∧
      ¬ServesLine utf8Riconv utf8Decoder ccon os ⟨some none, some 0⟩
        (cConnectionReadLine utf8Riconv 0 ccon os ⟨some none, some 0⟩) := by
  have hos : Os.WellFormed ⟨[.data [97, 13, 10, 98, 10], .eof], false⟩ := by decide
  refine ⟨by decide, by decide, ?_⟩
  rw [cConnectionReadLine_serves_iff utf8Riconv_follows (Sound.create hos 3) 0 none 0]
  · decide
  · intro msg hmsg
    have hret : (cConnectionReadLine utf8Riconv 0 (cConnectionCreate 3)
        ⟨[.data [97, 13, 10, 98, 10], .eof], false⟩ ⟨some none, some 0⟩).1 = .ret 1 := by decide
    rw [hret] at hmsg
    cases hmsg

end Processx
