import Processx.Connection.ReadLine

/-!
# How many lines are returned

`processx_connection_read_lines()` counts complete lines up to the number that was asked for.
The last line of an unterminated file comes on top of them, whatever that number was, and it
is all the text that is left. The length of each line goes through an `int`.
-/

namespace Processx

open Incremental Textual

variable {σ : Type} {ic : Riconv σ} {d : Decoder σ UInt8 UInt8}

/-- The lines of the buffer that a call makes strings of: the complete ones up to its number, if
its scan has found a line feed, and what is behind all of these at an unterminated end. -/
def askedLines (ccon : Connection σ) (newline : Option ℕ) (nlines : ℤ) : List Bytes :=
  (lines lineFeed carriageReturn ccon.utf8).take
    (min (countable newline nlines) (ccon.utf8.count lineFeed) +
      (unterminatedEnd ccon).toNat)

/-- Does a call of `processx_connection_read_lines()` keep within its number of lines? At an
unterminated end of the file the buffer has to hold fewer line feeds than lines are asked
for, and the scan must not have missed them. And each of the lines has to have a length that is an
`int`. -/
def LinesFit (ic : Riconv σ) (ccon : Connection σ) (os : Os) (nlines : ℤ) : Prop :=
  let (result, ccon, _) := connectionReadUntilNewline ic ccon os
  ∀ newline ∈ result.toOption,
    (unterminatedEnd ccon = true →
      (ccon.utf8.count lineFeed : ℤ) < nlines ∧ (newline = none → lineFeed ∉ ccon.utf8)) ∧
    ∀ line ∈ askedLines ccon newline nlines, line.length < 2 ^ 31

/-- The strings a call makes of the buffer it has read: they are the next lines, and keep within a
limit, exactly if at an unterminated end the limit is beyond the line feeds and all of these were
counted, and no line is too long. -/
theorem takeText_fits_iff {utf8 more : Bytes} {linesRead taken : ℕ} (nlines : ℕ) {eof : Bool}
    {strings : List Bytes} (hle : linesRead ≤ utf8.count lineFeed) (hlimit : linesRead ≤ nlines)
    (heof : eof = true → more = [] ∧ utf8 ≠ [] ∧ utf8.getLast? ≠ some lineFeed)
    (htake : takeText utf8 linesRead eof = .ok (strings, taken)) :
    (strings.length ≤ nlines ∧ lines lineFeed carriageReturn (utf8 ++ more) =
        strings ++ lines lineFeed carriageReturn (utf8.drop taken ++ more)) ↔
      (eof = true → utf8.count lineFeed < nlines ∧ linesRead = utf8.count lineFeed) ∧
        ∀ line ∈ (lines lineFeed carriageReturn utf8).take (linesRead + eof.toNat),
          line.length < 2 ^ 31 := by
  obtain ⟨complete, start, hlines, hcase⟩ := takeText_cases htake
  obtain ⟨hlength, hrest, hcount, hstart, hstrings⟩ :=
    takeLines_behind more 0 (by simpa using hle) (Or.inl rfl) hlines
  rw [List.drop_zero] at hrest hstrings hcount
  rw [take_lines_append hle] at hstrings
  obtain ⟨rfl, rfl, rfl⟩ | ⟨rfl, rfl, last, hchars, rfl⟩ := hcase
  · have hsplit := List.take_append_drop linesRead (lines lineFeed carriageReturn (utf8 ++ more))
    rw [take_lines_append hle] at hsplit
    rw [← hsplit, hrest, List.append_cancel_right_eq, and_iff_right (by omega : _ ≤ nlines),
      eq_comm, hstrings]
    exact (and_iff_right fun h => absurd h Bool.false_ne_true).symm
  · obtain ⟨rfl, hne, hlast⟩ := heof rfl
    -- nothing is left, so the strings are to be all the lines
    have hall : (lines lineFeed carriageReturn utf8).length = utf8.count lineFeed + 1 :=
      length_linesFrom hne hlast
    have hchars := eq_take_iff_of_mkCharLenCE (by rw [List.length_drop]) hchars
    rw [← List.length_drop, List.take_length] at hchars
    rw [List.append_nil, List.append_nil] at hrest
    rw [List.append_nil, List.drop_length, List.append_nil, lines_nil, List.append_nil,
      List.length_append, hlength, List.length_singleton]
    by_cases hk : linesRead = utf8.count lineFeed
    · -- what is behind the complete lines is one more
      have hnone : lineFeed ∉ utf8.drop start := List.count_eq_zero.mp (by omega)
      rw [lines_of_notMem hnone (drop_ne_nil_of_unterminated hne hlast hstart)] at hrest
      generalize lines lineFeed carriageReturn utf8 = all at *
      have hsplit : all = all.take linesRead ++ [utf8.drop start] := by
        rw [hrest, List.take_append_drop]
      have htake : all.take (linesRead + true.toNat) = all :=
        List.take_of_length_le (by rw [hall, hk]; rfl)
      have hcut : all = complete ++ [last] ↔
          complete = all.take linesRead ∧ last = utf8.drop start := by
        constructor
        · intro h
          obtain ⟨hfirst, hsecond⟩ := List.append_inj' (h.symm.trans hsplit) rfl
          exact ⟨hfirst, List.singleton_inj.mp hsecond⟩
        · rintro ⟨hfirst, hsecond⟩
          rw [hfirst, hsecond, ← hsplit]
      have hshort : (∀ line ∈ all, line.length < 2 ^ 31) ↔
          (∀ line ∈ all.take linesRead, line.length < 2 ^ 31) ∧
            (utf8.drop start).length < 2 ^ 31 := by
        conv_lhs => rw [hsplit]
        rw [List.forall_mem_append, List.forall_mem_singleton]
      rw [htake, hshort, hcut, hstrings, hchars]
      refine and_congr_left fun _ => ⟨fun h _ => ⟨by omega, hk⟩, fun h => ?_⟩
      have := h rfl
      omega
    · refine iff_of_false (fun h => hk ?_) fun h => hk (h.1 rfl).2
      have hlengths := congrArg List.length h.2
      rw [hall, List.length_append, hlength, List.length_singleton] at hlengths
      omega

/-- **One call.** A call that returns keeps within its number of lines, and each line is one of its
strings or is left to be read, exactly if they fit. A call that throws leaves all lines. -/
theorem connectionReadLines_fits_iff (hic : ic.Follows d) {ccon : Connection σ} {os : Os}
    (h : Sound ccon os) {nlines : ℤ} (hn : 0 ≤ nlines) :
    (∀ strings ccon' os', connectionReadLines ic ccon os nlines = (.ok strings, ccon', os') →
      ((strings.length ≤ nlines ∧
          lines lineFeed carriageReturn (pendingText ic d ccon os) =
            strings ++ lines lineFeed carriageReturn (pendingText ic d ccon' os')) ↔
        LinesFit ic ccon os nlines)) ∧
    ∀ msg ccon' os', connectionReadLines ic ccon os nlines = (.error msg, ccon', os') →
      pendingText ic d ccon' os' = pendingText ic d ccon os := by
  obtain ⟨hsame, hnewline⟩ := connectionReadUntilNewline_spec hic h
  unfold connectionReadLines connectionFindLines LinesFit
  cases hvalid : checkValidConn ccon with
  | error msg =>
    dsimp only
    refine ⟨fun strings ccon' os' heq => ?_, fun msg' ccon' os' heq => ?_⟩
    · cases heq
    · cases heq
      rfl
  | ok _ =>
    dsimp only
    generalize connectionReadUntilNewline ic ccon os = answer at hsame hnewline ⊢
    obtain ⟨msg | newline, ccon₁, os₁⟩ := answer
    · dsimp only at hsame ⊢
      refine ⟨fun strings ccon' os' heq => ?_, fun msg' ccon' os' heq => ?_⟩
      · cases heq
      · cases heq
        exact hsame.text
    · dsimp only at hsame hnewline ⊢
      rw [countLines_eq_min (hnewline newline rfl)]
      generalize hread : min (countable newline nlines) (ccon₁.utf8.count lineFeed) = linesRead
      cases htake : takeText ccon₁.utf8 linesRead (unterminatedEnd ccon₁) with
      | error msg =>
        refine ⟨fun strings ccon' os' heq => ?_, fun msg' ccon' os' heq => ?_⟩
        · cases heq
        · cases heq
          exact hsame.text
      | ok found =>
        obtain ⟨found, taken⟩ := found
        refine ⟨fun strings ccon' os' heq => ?_, fun msg' ccon' os' heq => ?_⟩
        · cases heq
          have hcountable : countable newline nlines ≤ nlines.toNat := by
            unfold countable
            split_ifs <;> omega
          have hiff := takeText_fits_iff nlines.toNat (by omega) (by omega)
            (fun hend => hsame.sound.unterminated ic d hend) htake
          rw [← hsame.text]
          have hlimit : found.length ≤ nlines.toNat ↔ (found.length : ℤ) ≤ nlines := by omega
          rw [hlimit] at hiff
          refine hiff.trans ?_
          simp only [Except.toOption, Option.mem_def, Option.some.injEq, forall_eq', askedLines, hread]
          refine and_congr_left fun _ => ?_
          constructor
          · intro hfits hend
            obtain ⟨hless, hall⟩ := hfits hend
            refine ⟨by omega, fun hnone => ?_⟩
            have hzero : countable newline nlines = 0 := by
              rw [hnone]
              rfl
            exact List.count_eq_zero.mp (by omega)
          · intro hfits hend
            obtain ⟨hless, hscan⟩ := hfits hend
            refine ⟨by omega, ?_⟩
            cases newline with
            | none =>
              have hzero := List.count_eq_zero_of_not_mem (hscan rfl)
              omega
            | some eol =>
              have hsome : countable (some eol) nlines = nlines.toNat := by
                unfold countable
                simp only [Option.isNone_some, Bool.false_eq_true, if_false]
                rw [if_neg (by omega)]
              omega
        · cases heq

/-- **The number of lines.** In every reachable state and for every number of lines from zero
on, a call that returns keeps within it, and each line is one of its strings or is left to be
read, exactly if the lines fit. A call that throws leaves all lines. -/
theorem connectionReadLines_limit_iff (hic : ic.Follows d) {os : Os} (hos : os.WellFormed)
    (osHandle : ℤ) (ops : List TextOp) {nlines : ℤ} (hn : 0 ≤ nlines) :
    (∀ strings ccon' os', connectionReadLines ic (textRun ic osHandle os ops).1
        (textRun ic osHandle os ops).2 nlines = (.ok strings, ccon', os') →
      ((strings.length ≤ nlines ∧
          lines lineFeed carriageReturn (pendingText ic d (textRun ic osHandle os ops).1
              (textRun ic osHandle os ops).2) =
            strings ++ lines lineFeed carriageReturn (pendingText ic d ccon' os')) ↔
        LinesFit ic (textRun ic osHandle os ops).1 (textRun ic osHandle os ops).2 nlines)) ∧
    ∀ msg ccon' os', connectionReadLines ic (textRun ic osHandle os ops).1
        (textRun ic osHandle os ops).2 nlines = (.error msg, ccon', os') →
      pendingText ic d ccon' os' = pendingText ic d (textRun ic osHandle os ops).1
        (textRun ic osHandle os ops).2 :=
  connectionReadLines_fits_iff hic (textRun_sound hic hos osHandle ops) hn

/-- One line of two is asked for, and the other one is left. -/
theorem connectionReadLines_limit_one :
    let os : Os := ⟨[.eagain, .data [97, 10, 98], .eof], false⟩
    let s := textRun utf8Riconv 3 os [.poll, .readLines 1]
    let after := connectionReadLines utf8Riconv s.1 s.2 1
    ((([[97]] : List Bytes).length : ℤ) ≤ 1 ∧
        lines lineFeed carriageReturn (pendingText utf8Riconv utf8Decoder s.1 s.2) =
          [[97]] ++ lines lineFeed carriageReturn
            (pendingText utf8Riconv utf8Decoder after.2.1 after.2.2)) ∧
      after.1 = .ok [[97]] ∧
      lines lineFeed carriageReturn
        (pendingText utf8Riconv utf8Decoder after.2.1 after.2.2) = [[98]] := by
  have hos : Os.WellFormed ⟨[.eagain, .data [97, 10, 98], .eof], false⟩ := by decide
  obtain ⟨hreturn, _⟩ := connectionReadLines_limit_iff utf8Riconv_follows hos 3
    [.poll, .readLines 1] (show (0 : ℤ) ≤ 1 by decide)
  refine ⟨(hreturn [[97]] _ _ (Prod.ext_iff.mpr ⟨?_, rfl⟩)).mpr ?_, by decide, by decide⟩
  · decide
  · intro newline hnewline
    refine ⟨fun hend => absurd hend (by decide), fun line hline => ?_⟩
    have hlength : line.length ≤ 3 :=
      (length_le_of_mem_lines (List.mem_of_mem_take hline)).trans (by decide)
    omega

/-- One line is asked for where two are left, the second without a line feed: both come. So does
the only line if none is asked for. -/
theorem connectionReadLines_past_limit :
    let os : Os := ⟨[.data [0], .data [98, 98, 98, 99, 10, 100], .eof], false⟩
    let s := textRun utf8Riconv 3 os [.readLines 1, .cReadChars 4]
    os.WellFormed ∧ s.1.isEofRaw = true ∧ s.1.utf8 = [99, 10, 100] ∧
      (connectionReadLines utf8Riconv s.1 s.2 1).1 = .ok [[99], [100]] ∧
      ¬(([[99], [100]] : List Bytes).length : ℤ) ≤ 1 ∧
      (connectionReadLines utf8Riconv (cConnectionCreate 3) ⟨[.data [97], .eof], false⟩ 0).1 =
        .ok [[97]] :=
  ⟨by decide, by decide, by decide, by decide, by decide, by decide⟩

end Processx
