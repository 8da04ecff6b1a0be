import Processx.Connection.Chars
import Processx.Connection.ReadLine

/-!
# Reading characters and lines in turn

A connection may be read by characters at one time and by lines at another. Whatever the calls are,
each byte of the text is handed out once and in order: as it is by a call that reads characters, and
by one that reads lines in strings, each of which stands for a line and its line end. The last string
of the file may be an exception: it is then all that was left of the text, as it is.
-/

namespace Processx

open Incremental Textual

variable {σ : Type} {ic : Riconv σ} {d : Decoder σ UInt8 UInt8}

/-- A call: of `processx_connection_read_lines()`, or one that reads characters or polls. -/
inductive MixedOp
  | chars (op : CharOp)
  | lines (nlines : ℤ)
  deriving DecidableEq

/-- What a call returns. -/
inductive MixedReply
  | chars (chars : Bytes)
  | lines (strings : List Bytes)
  deriving DecidableEq

/-- One call: what it returns or throws, and the state it leaves. -/
def MixedOp.run (ic : Riconv σ) (op : MixedOp) (ccon : Connection σ) (os : Os) :
    Except String MixedReply × Connection σ × Os :=
  match op with
  | .chars op =>
    let (result, state) := op.run ic ccon os
    (result.map .chars, state)
  | .lines nlines =>
    let (result, state) := connectionReadLines ic ccon os nlines
    (result.map .lines, state)

/-- A connection, the operating system, and all that was returned so far. -/
structure MixedReader (σ : Type) where
  returned : List MixedReply
  ccon : Connection σ
  os : Os

/-- A call appends what it returns; a call that throws returns nothing. -/
def MixedReader.step (ic : Riconv σ) (s : MixedReader σ) (op : MixedOp) : MixedReader σ :=
  match op.run ic s.ccon s.os with
  | (.ok reply, ccon, os) => ⟨s.returned ++ [reply], ccon, os⟩
  | (.error _, ccon, os) => ⟨s.returned, ccon, os⟩

/-- A sequence of calls on a fresh connection. -/
def MixedReader.run (ic : Riconv σ) (osHandle : ℤ) (os : Os) (ops : List MixedOp) :
    MixedReader σ :=
  ops.foldl (MixedReader.step ic) ⟨[], cConnectionCreate osHandle, os⟩

/-- Strings that are made of the lines at the front of a text, and what is left of it. A string has
no line end, except that the last one may be the whole rest of the text: the line ends in it are
those that the last search for a newline did not see. -/
inductive Lined : Bytes → List Bytes → Bytes → Prop
  | none (text : Bytes) : Lined text [] text
  | line {piece rest left : Bytes} {strings : List Bytes} (hpiece : lineFeed ∉ piece)
      (hrest : Lined rest strings left) :
      Lined (piece ++ lineFeed :: rest) (chomp carriageReturn piece :: strings) left
  | last {text : Bytes} (hne : text ≠ []) (hend : text.getLast? ≠ some lineFeed) :
      Lined text [text] []

/-- Replies that are made of the front of a text, and what is left of it. -/
inductive Handed : Bytes → List MixedReply → Bytes → Prop
  | none (text : Bytes) : Handed text [] text
  | chars {chars rest left : Bytes} {replies : List MixedReply} (hrest : Handed rest replies left) :
      Handed (chars ++ rest) (.chars chars :: replies) left
  | lines {text rest left : Bytes} {strings : List Bytes} {replies : List MixedReply}
      (hstrings : Lined text strings rest) (hrest : Handed rest replies left) :
      Handed text (.lines strings :: replies) left

/-- One more reply. -/
theorem Handed.snoc_chars {text chars rest : Bytes} {replies : List MixedReply}
    (h : Handed text replies (chars ++ rest)) : Handed text (replies ++ [.chars chars]) rest := by
  generalize heq : chars ++ rest = left at h
  induction h with
  | none => exact heq ▸ .chars (.none rest)
  | chars hrest ih => exact .chars (ih heq)
  | lines hstrings hrest ih => exact .lines hstrings (ih heq)

/-- One more reply, of lines. -/
theorem Handed.snoc_lines {text left rest : Bytes} {replies : List MixedReply}
    {strings : List Bytes} (h : Handed text replies left) (hstrings : Lined left strings rest) :
    Handed text (replies ++ [.lines strings]) rest := by
  induction h with
  | none => exact .lines hstrings (.none rest)
  | chars hrest ih => exact .chars (ih hstrings)
  | lines hfirst hrest ih => exact .lines hfirst (ih hstrings)

/-- Lines and what stands behind them. -/
theorem Lined.append {text rest left : Bytes} {strings more : List Bytes}
    (h : Lined text strings rest) (hmore : Lined rest more left) (hne : rest ≠ []) :
    Lined text (strings ++ more) left := by
  induction h with
  | none => exact hmore
  | line hpiece hrest ih => exact .line hpiece (ih hmore hne)
  | last => exact absurd rfl hne

/-- The string of the first line of a text. -/
theorem takeLines_first {utf8 : Bytes} {start eol : ℕ} {line : Bytes} {k behind : ℕ}
    {strings : List Bytes} (hfound : findNewline utf8 start = some eol)
    (hstart : start = 0 ∨ utf8[start - 1]? = some lineFeed)
    (hshort : (utf8.drop start).length < 2 ^ 31)
    (htake : takeLines utf8 (k + 1) start = .ok (line :: strings, behind)) :
    ∃ piece, utf8.drop start = piece ++ lineFeed :: utf8.drop (eol + 1) ∧ lineFeed ∉ piece ∧
      line = chomp carriageReturn piece ∧
      takeLines utf8 k (eol + 1) = .ok (strings, behind) := by
  obtain ⟨piece, hsplit, hpiece, heol⟩ := drop_eq_of_findNewline hfound
  refine ⟨piece, hsplit, hpiece, ?_⟩
  rw [takeLines, hfound, Option.getD_some] at htake
  dsimp only at htake
  cases hline : mkCharLenCE (utf8.drop start) (toInt (eol - start -
      if 0 < eol ∧ utf8[eol - 1]? = some carriageReturn then 1 else 0)) with
  | error msg => rw [hline] at htake; cases htake
  | ok line' =>
    cases hmore : takeLines utf8 k (eol + 1) with
    | error msg => rw [hline, hmore] at htake; cases htake
    | ok rest =>
      rw [hline, hmore] at htake
      obtain ⟨hcons, rfl⟩ := Prod.mk.inj (Except.ok.inj htake)
      obtain ⟨rfl, rfl⟩ := List.cons.inj hcons
      have hone : takeLines utf8 1 start = .ok ([line'], eol + 1) := by
        rw [takeLines, hfound, Option.getD_some]
        dsimp only
        rw [hline]
        rfl
      have hcount := count_of_findNewline hfound
      obtain ⟨-, -, -, -, hstrings⟩ := takeLines_behind [] start (by omega) hstart hone
      have hfirst := hstrings.mpr fun l hl => by
        have hle := length_le_of_mem_lines (List.mem_of_mem_take hl)
        rw [List.append_nil] at hle
        omega
      rw [List.append_nil, hsplit, lines_append_cons hpiece] at hfirst
      exact ⟨(List.cons.inj hfirst).1, rfl⟩

/-- Taking complete lines out of a text. -/
theorem takeLines_lined {utf8 : Bytes} (more : Bytes) {k : ℕ} (start : ℕ) {behind : ℕ}
    {strings : List Bytes} (hk : k ≤ (utf8.drop start).count lineFeed)
    (hstart : start = 0 ∨ utf8[start - 1]? = some lineFeed)
    (hshort : (utf8.drop start).length < 2 ^ 31)
    (htake : takeLines utf8 k start = .ok (strings, behind)) :
    Lined (utf8.drop start ++ more) strings (utf8.drop behind ++ more) := by
  induction k generalizing start strings with
  | zero =>
    obtain ⟨rfl, rfl⟩ := Prod.mk.inj (Except.ok.inj htake)
    exact .none _
  | succ k ih =>
    obtain ⟨hlength, -⟩ := takeLines_behind more start hk hstart htake
    cases strings with
    | nil => cases hlength
    | cons line strings =>
      cases hfound : findNewline utf8 start with
      | none =>
        have hnone := List.count_eq_zero_of_not_mem (notMem_of_findNewline hfound)
        omega
      | some eol =>
        have hcount := count_of_findNewline hfound
        obtain ⟨piece, hsplit, hpiece, rfl, hrest⟩ := takeLines_first hfound hstart hshort htake
        have hlf : utf8[eol + 1 - 1]? = some lineFeed := getElem?_of_findNewline hfound
        have hle : (utf8.drop (eol + 1)).length < 2 ^ 31 := by
          have := congrArg List.length hsplit
          simp only [List.length_append, List.length_cons] at this
          omega
        rw [hsplit, List.append_assoc, List.cons_append]
        exact .line hpiece (ih (eol + 1) (by omega) (Or.inr hlf) hle hrest)

/-- The strings of `processx_connection_read_lines()`. -/
theorem takeText_lined {utf8 more : Bytes} {linesRead taken : ℕ} {eof : Bool}
    {strings : List Bytes} (hle : linesRead ≤ utf8.count lineFeed)
    (heof : eof = true → more = [] ∧ utf8 ≠ [] ∧ utf8.getLast? ≠ some lineFeed)
    (hshort : utf8.length < 2 ^ 31) (htake : takeText utf8 linesRead eof = .ok (strings, taken)) :
    Lined (utf8 ++ more) strings (utf8.drop taken ++ more) := by
  obtain ⟨complete, start, hlines, hcase⟩ := takeText_cases htake
  have hlined := takeLines_lined more 0 (by simpa using hle) (Or.inl rfl) (by simpa using hshort)
    hlines
  obtain ⟨-, -, -, hstart, -⟩ := takeLines_behind more 0 (by simpa using hle) (Or.inl rfl) hlines
  rw [List.drop_zero] at hlined
  obtain ⟨rfl, rfl, rfl⟩ | ⟨rfl, rfl, last, hchars, rfl⟩ := hcase
  · exact hlined
  · obtain ⟨rfl, hne, hlast⟩ := heof rfl
    have hrest : utf8.drop start ≠ [] := by
      -- the text does not end where a line ends
      intro hnil
      have hlen := List.drop_eq_nil_iff.mp hnil
      rcases hstart with rfl | hlf
      · exact hne hnil
      · have hlt := (List.getElem?_eq_some_iff.mp hlf).1
        have hend : start - 1 = utf8.length - 1 := by omega
        rw [hend, ← List.getLast?_eq_getElem?] at hlf
        exact hlast hlf
    have hwhole := eq_take_of_mkCharLenCE (by omega : utf8.length - start < 2 ^ 31) hchars
    rw [← List.length_drop, List.take_length] at hwhole
    subst hwhole
    rw [List.append_nil, List.append_nil, List.drop_length] at *
    refine hlined.append (.last hrest ?_) hrest
    rwa [List.getLast?_drop, if_neg (by simpa using hrest)]

/-- The invariant of a reader: the replies are made of the front of the text, and the rest of it can
still be read. -/
structure MixedReader.Keeps (ic : Riconv σ) (d : Decoder σ UInt8 UInt8) (text : Bytes)
    (s : MixedReader σ) : Prop where
  sound : Sound s.ccon s.os
  short : (pendingText ic d s.ccon s.os).length < 2 ^ 31
  handed : Handed text s.returned (pendingText ic d s.ccon s.os)

/-- Keeping the text keeps the invariant. -/
theorem MixedReader.Keeps.of_sameText {text : Bytes} {returned : List MixedReply}
    {ccon ccon' : Connection σ} {os os' : Os}
    (h : MixedReader.Keeps ic d text ⟨returned, ccon, os⟩) (hsame : SameText ic d ccon os ccon' os') :
    MixedReader.Keeps ic d text ⟨returned, ccon', os'⟩ :=
  ⟨hsame.sound, by simpa [hsame.text] using h.short, by simpa [hsame.text] using h.handed⟩

/-- Handing out characters off the front of the UTF-8 buffer keeps the invariant. -/
theorem MixedReader.Keeps.takeChars {text : Bytes} {returned : List MixedReply}
    {ccon : Connection σ} {os : Os} (h : MixedReader.Keeps ic d text ⟨returned, ccon, os⟩)
    (bytes : ℕ) : MixedReader.Keeps ic d text
      ⟨returned ++ [.chars (ccon.utf8.take bytes)], dropUtf8 ccon bytes, os⟩ := by
  obtain ⟨hsound, hshort, hhanded⟩ := h
  have htext := take_append_pendingText_dropUtf8 ic d ccon os bytes
  dsimp only at hshort hhanded
  rw [← htext] at hshort hhanded
  refine ⟨hsound.dropUtf8 bytes, ?_, hhanded.snoc_chars⟩
  rw [List.length_append] at hshort
  dsimp only
  omega

/-- Handing out lines keeps it, too. -/
theorem MixedReader.Keeps.takeLines {text : Bytes} {returned : List MixedReply}
    {ccon : Connection σ} {os : Os} (h : MixedReader.Keeps ic d text ⟨returned, ccon, os⟩)
    {linesRead taken : ℕ} {strings : List Bytes} (hle : linesRead ≤ ccon.utf8.count lineFeed)
    (htake : takeText ccon.utf8 linesRead (unterminatedEnd ccon) = .ok (strings, taken)) :
    MixedReader.Keeps ic d text
      ⟨returned ++ [.lines strings], dropUtf8 ccon taken, os⟩ := by
  obtain ⟨hsound, hshort, hhanded⟩ := h
  have hutf8 := utf8_length_le_pendingText ic d ccon os
  dsimp only at hsound hshort hhanded
  have hlined := takeText_lined hle (fun hend => hsound.unterminated ic d hend) (by omega) htake
  have hleft := congrArg List.length (take_append_pendingText_dropUtf8 ic d ccon os taken)
  rw [List.length_append] at hleft
  refine ⟨hsound.dropUtf8 taken, ?_, hhanded.snoc_lines hlined⟩
  dsimp only
  omega

/-- **One call.** Every call keeps the invariant, whether it returns or throws. -/
theorem MixedReader.Keeps.step (hic : ic.Follows d) {text : Bytes} {s : MixedReader σ}
    (h : s.Keeps ic d text) (op : MixedOp) : (s.step ic op).Keeps ic d text := by
  obtain ⟨returned, ccon, os⟩ := s
  have hsound : Sound ccon os := h.sound
  unfold MixedReader.step MixedOp.run
  rcases op with (nchars | nbyte | _) | nlines
  · obtain ⟨newBytes, hmoves, hbytes⟩ := connectionFindChars_moves hic hsound nchars (-1)
    dsimp only [CharOp.run, connectionReadChars]
    generalize connectionFindChars ic ccon os nchars (-1) = answer at hmoves hbytes ⊢
    obtain ⟨msg | utf8Bytes, ccon', os'⟩ := answer
    · exact h.of_sameText hmoves.sameText
    · have hkeeps := h.of_sameText hmoves.sameText
      have htake := hkeeps.takeChars utf8Bytes
      have hle := hbytes utf8Bytes rfl
      have hutf8 := utf8_length_le_pendingText ic d ccon' os'
      have hshort := hkeeps.short
      dsimp only at hle hshort
      cases hmk : mkCharLenCE ccon'.utf8 (toInt utf8Bytes) with
      | error msg =>
        simp only [hmk]
        exact hkeeps
      | ok chars =>
        rw [← eq_take_of_mkCharLenCE (by omega) hmk] at htake
        simp only [hmk]
        exact htake
  · dsimp only [CharOp.run, cConnectionReadChars]
    by_cases hsmall : nbyte < 4
    · simp only [if_pos hsmall]
      exact h
    · simp only [if_neg hsmall]
      obtain ⟨newBytes, hmoves, -⟩ := connectionFindChars_moves hic hsound (-1) nbyte
      generalize connectionFindChars ic ccon os (-1) nbyte = answer at hmoves ⊢
      obtain ⟨msg | utf8Bytes, ccon', os'⟩ := answer
      · exact h.of_sameText hmoves.sameText
      · exact (h.of_sameText hmoves.sameText).takeChars utf8Bytes
  · obtain ⟨newBytes, hmoves⟩ := prePollConnection_moves hic hsound
    have hkeeps := (h.of_sameText hmoves.sameText).takeChars 0
    exact hkeeps
  · obtain ⟨hsame, hnewline⟩ := connectionReadUntilNewline_spec hic hsound
    dsimp only [connectionReadLines, connectionFindLines]
    cases checkValidConn ccon with
    | error msg => exact h
    | ok _ =>
      dsimp only
      generalize connectionReadUntilNewline ic ccon os = answer at hsame hnewline ⊢
      obtain ⟨msg | newline, ccon', os'⟩ := answer
      · exact h.of_sameText hsame
      · have hkeeps := h.of_sameText hsame
        dsimp only at hnewline ⊢
        rw [countLines_eq_min (hnewline newline rfl)]
        cases htake : takeText ccon'.utf8
          (min (countable newline nlines) (ccon'.utf8.count lineFeed)) (unterminatedEnd ccon') with
        | error msg => exact hkeeps
        | ok found => exact hkeeps.takeLines (Nat.min_le_right _ _) htake

/-- A fresh connection has everything still to read. -/
theorem MixedReader.keeps_create {os : Os} (hos : os.WellFormed) (osHandle : ℤ)
    (hshort : (d.decode ic.open_ os.stream).length < 2 ^ 31) :
    MixedReader.Keeps ic d (d.decode ic.open_ os.stream) ⟨[], cConnectionCreate osHandle, os⟩ := by
  have htext : pendingText ic d (cConnectionCreate osHandle : Connection σ) os =
      d.decode ic.open_ os.stream := by simp [pendingText, cConnectionCreate, Riconv.ctx]
  exact ⟨Sound.create hos osHandle, by simpa [htext] using hshort, by simpa [htext] using .none _⟩

/-- Every sequence of calls keeps the invariant. -/
theorem MixedReader.keeps_run (hic : ic.Follows d) {os : Os} (hos : os.WellFormed) (osHandle : ℤ)
    (hshort : (d.decode ic.open_ os.stream).length < 2 ^ 31) (ops : List MixedOp) :
    (MixedReader.run ic osHandle os ops).Keeps ic d (d.decode ic.open_ os.stream) := by
  suffices hfold : ∀ s : MixedReader σ, s.Keeps ic d (d.decode ic.open_ os.stream) →
      (ops.foldl (MixedReader.step ic) s).Keeps ic d (d.decode ic.open_ os.stream) from
    hfold _ (MixedReader.keeps_create hos osHandle hshort)
  induction ops with
  | nil => exact fun s hs => hs
  | cons op ops ih => exact fun s hs => ih _ (hs.step hic op)

/-- **Mixed reading is lossless.** Whatever sequence of character reads, line reads and polls is made,
and however the stream was cut: what they return is made of the front of the text, each byte of which
is handed out once and in order, and when `is_eof_` is set nothing is left. -/
theorem mixedReader_lossless (hic : ic.Follows d) {os : Os} (hos : os.WellFormed) (osHandle : ℤ)
    (hshort : (d.decode ic.open_ os.stream).length < 2 ^ 31) (ops : List MixedOp) :
    ∃ left, Handed (d.decode ic.open_ os.stream) (MixedReader.run ic osHandle os ops).returned left ∧
      ((MixedReader.run ic osHandle os ops).ccon.isEof = true →
        (MixedReader.run ic osHandle os ops).os.eofReported = true ∧ left = []) := by
  have h := MixedReader.keeps_run hic hos osHandle hshort ops
  refine ⟨_, h.handed, fun heof => ⟨?_, h.sound.pendingText_eq_nil heof⟩⟩
  exact h.sound.eofRaw (h.sound.eof heof).1

/-- Some characters, lines from before and behind them, and the end of the file. -/
theorem mixedReader_lossless_rest :
    let os : Os := ⟨[.data [97, 98, 99, 13, 10, 100], .eagain, .data [101, 10, 102], .eof], false⟩
    let ops : List MixedOp := [.chars (.readChars 1), .lines 1, .lines 1, .chars (.cReadChars 4),
      .lines (-1), .lines (-1)]
    (MixedReader.run utf8Riconv 3 os ops).returned =
        [.chars [97], .lines [[98, 99]], .lines [], .chars [100], .lines [[101]], .lines [[102]]] ∧
      ∃ left, Handed (utf8Decoder.decode utf8Riconv.open_ os.stream)
          (MixedReader.run utf8Riconv 3 os ops).returned left ∧
        ((MixedReader.run utf8Riconv 3 os ops).ccon.isEof = true →
          (MixedReader.run utf8Riconv 3 os ops).os.eofReported = true ∧ left = []) := by
  refine ⟨by decide, mixedReader_lossless utf8Riconv_follows (by decide) 3 (by decide) _⟩

end Processx
