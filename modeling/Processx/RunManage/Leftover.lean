import Processx.Connection.Poll
import Processx.Connection.Warnings
import Processx.Library.Draining

/-!
# The loop over leftover output

After the process has ended, `run_manage()` reads until neither stream is incomplete, or until
both reads throw in the same round. A read at the end of the file returns an empty string, so it
counts as one that has read, and so does a read from which nothing could be converted. The loop is
an instance of draining two sources in lockstep: it goes on for ever if one stream never comes to
its end, and one of the two never throws.
-/

namespace Processx

open Incremental

variable {σ : Type} {ic : Riconv σ} {d : Decoder σ UInt8 UInt8}

/-- A connection to a standard stream of the process, with the conversion from its encoding and
what the operating system has for it. `opened` is whether `Riconv_open()` succeeds. -/
structure PipedStream (σ : Type) where
  ic : Riconv σ
  opened : Bool
  ccon : Connection σ
  os : Os

/-- The standard output or the standard error, as the loop finds it: there may be no pipe. -/
abbrev LeftoverStream (σ : Type) := Option (PipedStream σ)

/-- `processx_c_connection_close()`. -/
def cConnectionClose (ccon : Connection σ) : Connection σ :=
  { ccon with handle := -1, isClosed := true }

/-- `proc$is_incomplete_output()` and `proc$is_incomplete_error()`, for what is piped. -/
def LeftoverStream.isIncomplete : LeftoverStream σ → Bool
  | none => false
  | some s => !s.ccon.isEof

/-- `proc$poll_io(-1)`, for one stream. It does not have to wait: see `cConnectionPoll_hangup`. -/
def LeftoverStream.pollIo : LeftoverStream σ → LeftoverStream σ
  | none => none
  | some s => some { s with ccon := (prePollConnection s.ic s.ccon).2 }

/-- `proc$read_output(2000)` or `proc$read_output_bytes(2000)`. Under `options(warn = 2)` a
`warning()` throws. -/
def readOutput (ic : Riconv σ) (throws binary : Bool) (ccon : Connection σ) (os : Os) :
    Except String Bytes × Connection σ × Os :=
  if binary then connectionReadBytes ic ccon os 2000
  else connectionReadCharsThrowing ic throws ccon os 2000

/-- The part of `do_output()` for one stream: has it read? The error is caught. -/
def LeftoverStream.doOutput (throws binary : Bool) : LeftoverStream σ → Bool × LeftoverStream σ
  | none => (false, none)
  | some s =>
    match readOutput s.ic throws binary s.ccon s.os with
    | (.ok _, ccon, os) => (true, some { s with ccon := ccon, os := os })
    | (.error _, ccon, os) => (false, some { s with ccon := ccon, os := os })

/-- One round of the loop, `none` if it has ended. -/
def leftoverRound (throws binary : Bool) (s : LeftoverStream σ × LeftoverStream σ) :
    Option (LeftoverStream σ × LeftoverStream σ) :=
  let (out, err) := s
  if out.isIncomplete || err.isIncomplete then
    let (okOut, out) := out.pollIo.doOutput throws binary
    let (okErr, err) := err.pollIo.doOutput throws binary
    if okOut || okErr then some (out, err) else none
  else none

/-- Some rounds, `none` if the loop has ended. -/
def leftoverRounds (throws binary : Bool) :
    ℕ → LeftoverStream σ × LeftoverStream σ → Option (LeftoverStream σ × LeftoverStream σ)
  | 0, s => some s
  | n + 1, s => (leftoverRound throws binary s).bind (leftoverRounds throws binary n)

/-- The loop ends after finitely many rounds. -/
def LeftoverEnds (throws binary : Bool) (out err : LeftoverStream σ) : Prop :=
  ∃ n, leftoverRounds throws binary n (out, err) = none

/-- A stream when the loop begins: there is no pipe, or any calls have read from the connection
before, and nobody can write to the other end any more. A callback may have closed it. -/
inductive LeftoverStream.Begins (d : Decoder σ UInt8 UInt8) (throws binary : Bool) :
    LeftoverStream σ → Prop
  | none : Begins d throws binary none
  | text {ic : Riconv σ} {opened : Bool} (hic : ic.Converts d opened) {os : Os}
      (hos : os.WellFormed) {osHandle : ℤ} (hvalid : 0 ≤ osHandle) (ops : List TextOp)
      (hbinary : binary = false) (hfinal : (textRunThrowing ic throws osHandle os ops).2.Final) :
      Begins d throws binary (some ⟨ic, opened, (textRunThrowing ic throws osHandle os ops).1,
        (textRunThrowing ic throws osHandle os ops).2⟩)
  | bytes {ic : Riconv σ} {opened : Bool} (hic : ic.Converts d opened) {os : Os}
      (hos : os.WellFormed) {osHandle : ℤ} (hvalid : 0 ≤ osHandle) (ops : List RawOp)
      (hbinary : binary = true)
      (hfinal : (RawReader.run ic osHandle "binary" os ops).os.Final) :
      Begins d throws binary (some ⟨ic, opened, (RawReader.run ic osHandle "binary" os ops).ccon,
        (RawReader.run ic osHandle "binary" os ops).os⟩)
  | closed {ic : Riconv σ} {opened : Bool} {ccon : Connection σ} {os : Os}
      (h : Begins d throws binary (some ⟨ic, opened, ccon, os⟩)) :
      Begins d throws binary (some ⟨ic, opened, cConnectionClose ccon, os⟩)

/-- A read of the text that is still to come will throw: there is a NUL in it, or it ends in the
middle of a character and a warning throws. -/
def PipedStream.Refuses (d : Decoder σ UInt8 UInt8) (throws : Bool) (s : PipedStream σ) : Prop :=
  s.opened = true ∧ (0 ∈ pendingText s.ic d s.ccon s.os ∨
    (throws = true ∧ pendingCut s.ic d s.ccon s.os = true))

/-- There is more to come from a stream, but its end is never seen: it is closed, or a read of its
text will throw, or its bytes cannot be converted. -/
def LeftoverStream.Blocked (d : Decoder σ UInt8 UInt8) (throws binary : Bool) :
    LeftoverStream σ → Prop
  | none => False
  | some s => s.ccon.isEof = false ∧ (s.ccon.handle < 0 ∨ (binary = false ∧
      (s.Refuses d throws ∨ (s.opened = false ∧ s.ccon.buffer ++ s.os.stream ≠ []))))

/-- No read from a stream will throw, behind its end either: it is open, and its text can be
read. -/
def LeftoverStream.Readable (d : Decoder σ UInt8 UInt8) (throws binary : Bool) :
    LeftoverStream σ → Prop
  | none => False
  | some s => 0 ≤ s.ccon.handle ∧ (binary = false → ¬s.Refuses d throws)

/-- The text of an open stream ends in the middle of a character. -/
def LeftoverStream.IsCut (d : Decoder σ UInt8 UInt8) (binary : Bool) : LeftoverStream σ → Prop
  | none => False
  | some s => binary = false ∧ 0 ≤ s.ccon.handle ∧ s.opened = true ∧
      pendingCut s.ic d s.ccon s.os = true

/-- A poll does not wait if all the descriptors answer, as they do when nobody can write to the
other ends any more. -/
theorem cConnectionPoll_hangup (ic : Riconv σ) (heap : Heap σ) (pollables : List Pollable)
    {revents : ℕ → PollBits} (h : ∀ k, revents k ≠ {}) (interrupted : Bool)
    (calls : List PollCall) :
    (cConnectionPoll ic heap pollables (-1) (.answer revents interrupted :: calls)).isSome := by
  have hanswer : ∀ nfds timeout, nfds ≠ 0 → timeout = -1 ∨ timeout = 0 →
      interruptiblePoll nfds timeout (.answer revents interrupted :: calls) timeout =
        some (.ok revents) := by
    rintro nfds timeout hsome (rfl | rfl)
    · have hcount : pollCount nfds revents ≠ 0 := by
        refine Nat.pos_iff_ne_zero.mp (List.countP_pos_iff.mpr ⟨0, ?_, by simpa using h 0⟩)
        exact List.mem_range.mpr (Nat.pos_of_ne_zero hsome)
      rw [interruptiblePoll, if_pos (by decide)]
      simp only [if_pos hcount]
    · rw [interruptiblePoll, if_neg (by decide), if_pos (by decide)]
  have hsome : ∃ revents', pollAnswer ic heap pollables (-1)
      (.answer revents interrupted :: calls) = some (.ok revents') := by
    unfold pollAnswer
    dsimp only
    split_ifs with hnone hdata
    · exact ⟨_, rfl⟩
    · exact ⟨_, hanswer _ 0 hnone (Or.inr rfl)⟩
    · exact ⟨_, hanswer _ (-1) hnone (Or.inl rfl)⟩
  obtain ⟨revents', hanswer'⟩ := hsome
  unfold cConnectionPoll
  rw [hanswer']
  rfl

/-- The states of a stream in the loop from which every pull brings the end closer, or fails: it has
no pipe, it is closed, or it is open and is read in one of the two ways. -/
inductive LeftoverStream.Moving (d : Decoder σ UInt8 UInt8) (throws binary : Bool) :
    LeftoverStream σ → Prop
  | none : Moving d throws binary none
  | closed {s : PipedStream σ} (hclosed : s.ccon.isClosed = true) (hhandle : s.ccon.handle < 0) :
      Moving d throws binary (some s)
  | text {s : PipedStream σ} (hbinary : binary = false) (hopened : s.opened = true)
      (hic : s.ic.Follows d) (h : TextOpen s.ccon s.os)
      (hshift : throws = true → d.Stateless ∨ pendingCut s.ic d s.ccon s.os = false) :
      Moving d throws binary (some s)
  | bytes {s : PipedStream σ} (hbinary : binary = true) (hic : s.ic.Bounded)
      (h : RawOpen s.ccon s.os) : Moving d throws binary (some s)

/-- All the states of a stream in the loop: nothing may be converted either. -/
inductive LeftoverStream.Kept (d : Decoder σ UInt8 UInt8) (throws binary : Bool) :
    LeftoverStream σ → Prop
  | moving {s : LeftoverStream σ} (h : s.Moving d throws binary) : Kept d throws binary s
  | unconverted {s : PipedStream σ} (hbinary : binary = false) (hopened : s.opened = false)
      (hic : s.ic.Unopened) (h : Unconverted s.ccon.handle s.ccon s.os)
      (hvalid : 0 ≤ s.ccon.handle) (hfinal : s.os.Final) : Kept d throws binary (some s)

/-- It begins in one of them. -/
theorem LeftoverStream.Begins.kept (hd : Yields d) {throws binary : Bool} {s : LeftoverStream σ}
    (hshift : throws = true → d.Stateless ∨ ¬s.IsCut d binary) (h : s.Begins d throws binary) :
    s.Kept d throws binary := by
  cases h with
  | none => exact .moving .none
  | @text ic opened hic os hos osHandle hvalid ops hbinary hfinal =>
    cases opened with
    | true =>
      have hic : ic.Follows d := hic
      have hstate := textRunThrowing_state hic hd throws hos osHandle ops
      have hhandle := hvalid.trans_eq hstate.held.handle.symm
      refine .moving (.text hbinary rfl hic ⟨hstate.sound, hstate.whole, hhandle, hstate.held.sized,
        hfinal⟩ fun hthrows => (hshift hthrows).imp_right fun hnot => ?_)
      by_contra hcut
      exact hnot ⟨hbinary, hhandle, rfl, by simpa using hcut⟩
    | false =>
      have hic : ic.Unopened := hic
      have hstate := textRunThrowing_unconverted hic throws hos osHandle ops
      exact .unconverted hbinary rfl hic ⟨hstate.sound, hstate.utf8, rfl, hstate.held.sized⟩
        (hvalid.trans_eq hstate.held.handle.symm) hfinal
  | @bytes ic opened hic os hos osHandle hvalid ops hbinary hfinal =>
    have hheld := RawReader.run_held ic osHandle "binary" os ops
    exact .moving (.bytes hbinary hic.bounded
      ⟨(RawReader.keeps_run ic osHandle "binary" hos ops).untouched,
        hvalid.trans_eq hheld.handle.symm, hheld.sized, hfinal⟩)
  | closed h => exact .moving (.closed rfl (show (-1 : ℤ) < 0 by decide))

/-- The two streams as sources: a pull is a poll and a read. -/
def leftoverSource (throws binary : Bool) : Draining.Source (LeftoverStream σ) where
  more := LeftoverStream.isIncomplete
  pull s := s.pollIo.doOutput throws binary

/-- What is left of a stream. -/
def LeftoverStream.left (d : Decoder σ UInt8 UInt8) (binary : Bool) : LeftoverStream σ → ℕ
  | none => 0
  | some s => if binary then unread s.ccon s.os else textLeft s.ic d s.ccon s.os

/-- A pull whose read returns something. -/
theorem leftoverSource_pull_ok {throws binary : Bool} {s : PipedStream σ} {ccon : Connection σ}
    {os : Os} {bytes : Bytes}
    (h : readOutput s.ic throws binary (prePollConnection s.ic s.ccon).2 s.os =
      (.ok bytes, ccon, os)) :
    (leftoverSource throws binary).pull (some s) =
      (true, some { s with ccon := ccon, os := os }) := by
  show LeftoverStream.doOutput throws binary
    (some { s with ccon := (prePollConnection s.ic s.ccon).2 }) = _
  rw [LeftoverStream.doOutput, h]

/-- A pull whose read throws. -/
theorem leftoverSource_pull_error {throws binary : Bool} {s : PipedStream σ} {ccon : Connection σ}
    {os : Os} {msg : String}
    (h : readOutput s.ic throws binary (prePollConnection s.ic s.ccon).2 s.os =
      (.error msg, ccon, os)) :
    (leftoverSource throws binary).pull (some s) =
      (false, some { s with ccon := ccon, os := os }) := by
  show LeftoverStream.doOutput throws binary
    (some { s with ccon := (prePollConnection s.ic s.ccon).2 }) = _
  rw [LeftoverStream.doOutput, h]

/-- A pull on a closed stream fails and changes nothing. -/
theorem leftoverSource_pull_closed (throws binary : Bool) {s : PipedStream σ}
    (hclosed : s.ccon.isClosed = true) (hhandle : s.ccon.handle < 0) :
    (leftoverSource throws binary).pull (some s) = (false, some s) := by
  have hpoll : (prePollConnection s.ic s.ccon).2 = s.ccon := by
    unfold prePollConnection
    rw [if_pos hclosed]
  have hcheck : checkValidConn s.ccon =
      .error "Invalid (uninitialized or closed?) connection object" := if_pos hhandle
  have hanswer : readOutput s.ic throws binary (prePollConnection s.ic s.ccon).2 s.os =
      (.error "Invalid (uninitialized or closed?) connection object", s.ccon, s.os) := by
    rw [hpoll, readOutput]
    cases binary with
    | true => rw [if_pos rfl, connectionReadBytes, hcheck]
    | false =>
      rw [if_neg Bool.false_ne_true, connectionReadCharsThrowing, connectionFindCharsThrowing,
        hcheck]
  exact leftoverSource_pull_error hanswer

/-- What a pull on text does: it brings the end closer, or R refuses the text, or the read has
warned. -/
structure TextPull (d : Decoder σ UInt8 UInt8) (throws : Bool) (s : PipedStream σ) (ok : Bool)
    (s' : PipedStream σ) : Prop where
  pull : (leftoverSource throws false).pull (some s) = (ok, some s')
  same : s'.ic = s.ic ∧ s'.opened = s.opened
  textOpen : TextOpen s'.ccon s'.os
  shift : throws = true → d.Stateless ∨ pendingCut s'.ic d s'.ccon s'.os = false
  isEof : s.ccon.isEof = true → s'.ccon.isEof = true
  refuses : s'.Refuses d throws ↔ s.Refuses d throws
  less : ok = true → s.ccon.isEof = false →
    textLeft s'.ic d s'.ccon s'.os < textLeft s.ic d s.ccon s.os
  fails : ok = false →
    s.Refuses d throws ∧ (Refused s'.ccon ∨ (throws = true ∧ Stuck s'.ic s'.ccon))

/-- A pull on an open stream in text mode. -/
theorem leftoverSource_pull_text (hd : Yields d) (hshort : Short d) {throws : Bool}
    {s : PipedStream σ} (hopened : s.opened = true) (hic : s.ic.Follows d)
    (h : TextOpen s.ccon s.os)
    (hshift : throws = true → d.Stateless ∨ pendingCut s.ic d s.ccon s.os = false) :
    ∃ ok s', TextPull d throws s ok s' := by
  obtain ⟨hpolled, heof, htext, hle⟩ := h.poll hic hd
  have hcut := prePollConnection_cut hic h.sound
  have hleft : textLeft s.ic d (prePollConnection s.ic s.ccon).2 s.os ≤
      textLeft s.ic d s.ccon s.os := by
    unfold textLeft
    rw [htext]
    omega
  have hread : ∀ {answer}, connectionReadCharsThrowing s.ic throws
      (prePollConnection s.ic s.ccon).2 s.os 2000 = answer →
      readOutput s.ic throws false (prePollConnection s.ic s.ccon).2 s.os = answer := fun h => h
  rw [← hcut] at hshift
  rcases hpolled.readCharsThrowing hic hshift with ⟨hquiet, hsame⟩ |
    ⟨hthrows, hstateless, hcut', hopen, msg, ccon', os', hanswer, hopen', hstuck, htext', hcut''⟩
  · have hend : s.ccon.isEof = true → (connectionReadChars s.ic
        (prePollConnection s.ic s.ccon).2 s.os 2000).2.1.isEof = true := fun hset =>
      connectionReadChars_isEof s.os 2000 (heof.trans hset)
    rcases hpolled.readChars hic hd hshort with
      ⟨front, ccon', os', hanswer, hopen, hnul, hsplit, hless⟩ |
      ⟨msg, ccon', os', hanswer, hopen, hrefused, hpending⟩
    · rw [hanswer] at hend hsame
      have hnuls : 0 ∈ pendingText s.ic d ccon' os' ↔ 0 ∈ pendingText s.ic d s.ccon s.os := by
        rw [← htext, ← hsplit, List.mem_append]
        exact (or_iff_right hnul).symm
      refine ⟨true, { s with ccon := ccon', os := os' }, leftoverSource_pull_ok
        (hread (hquiet.trans hanswer)), ⟨rfl, rfl⟩, hopen, fun hthrows => ?_, hend, ?_,
        fun _ hset => lt_of_lt_of_le (hless (heof.trans hset)) hleft,
        fun hfailed => Bool.noConfusion hfailed⟩
      · exact (hshift hthrows).imp_right fun hnot => (hsame hthrows).trans hnot
      · refine and_congr_right fun _ => or_congr hnuls (and_congr_right fun hthrows => ?_)
        rw [← hcut, ← hsame hthrows]
    · rw [hanswer] at hend hsame
      have hnul : 0 ∈ pendingText s.ic d s.ccon s.os := by
        obtain ⟨chars, hchars, hnul⟩ := hrefused
        rw [← htext, ← hpending, pendingText, ← hchars.flatten, ← List.take_append_drop 2000 chars,
          List.flatten_append]
        exact List.mem_append_left _ (List.mem_append_left _ hnul)
      refine ⟨false, { s with ccon := ccon', os := os' }, leftoverSource_pull_error
        (hread (hquiet.trans hanswer)), ⟨rfl, rfl⟩, hopen, fun hthrows => ?_, hend, ?_,
        fun hok => Bool.noConfusion hok, fun _ => ⟨⟨hopened, Or.inl hnul⟩, Or.inl hrefused⟩⟩
      · exact (hshift hthrows).imp_right fun hnot => (hsame hthrows).trans hnot
      · refine and_congr_right fun _ => or_congr ?_ (and_congr_right fun hthrows => ?_)
        · rw [hpending, htext]
        · rw [← hcut, ← hsame hthrows]
  · refine ⟨false, { s with ccon := ccon', os := os' }, leftoverSource_pull_error (hread hanswer),
      ⟨rfl, rfl⟩, hopen', fun _ => Or.inl hstateless, fun hset => ?_, ?_,
      fun hok => Bool.noConfusion hok,
      fun _ => ⟨⟨hopened, Or.inr ⟨hthrows, hcut.symm.trans hcut'⟩⟩, Or.inr ⟨hthrows, hstuck⟩⟩⟩
    · rw [heof, hset] at hopen
      cases hopen
    · exact iff_of_true ⟨hopened, Or.inr ⟨hthrows, hcut''⟩⟩
        ⟨hopened, Or.inr ⟨hthrows, hcut.symm.trans hcut'⟩⟩

/-- A pull on text that R refuses, or behind a warning, fails again. -/
theorem leftoverSource_pull_refused (hd : Yields d) (hshort : Short d) {throws : Bool}
    {s : PipedStream σ} (hic : s.ic.Follows d) (h : TextOpen s.ccon s.os)
    (hfails : Refused s.ccon ∨ (throws = true ∧ Stuck s.ic s.ccon)) :
    ((leftoverSource throws false).pull (some s)).1 = false := by
  rcases hfails with hrefused | ⟨rfl, hstuck⟩
  · obtain ⟨hpoll, hread⟩ := h.refused hic hd hshort hrefused
    have hsome : ¬((!s.ccon.isEof) = true ∧ s.ccon.utf8.length = 0) := by
      rintro ⟨-, hempty⟩
      obtain ⟨chars, hchars, hnul⟩ := hrefused
      have hzero : 0 ∈ s.ccon.utf8 := by
        rw [← hchars.flatten, ← List.take_append_drop 2000 chars, List.flatten_append]
        exact List.mem_append_left _ hnul
      rw [List.length_eq_zero_iff.mp hempty] at hzero
      cases hzero
    have hanswer : readOutput s.ic throws false (prePollConnection s.ic s.ccon).2 s.os =
        (.error "embedded nul in string", s.ccon, s.os) := by
      rw [hpoll]
      exact (connectionReadCharsThrowing_eq 2000 (absurd · hsome)).trans hread
    rw [leftoverSource_pull_error hanswer]
  · obtain ⟨hpoll, msg, ccon', os', hread⟩ := hstuck.read h.sound h.final
    have hanswer : readOutput s.ic true false (prePollConnection s.ic s.ccon).2 s.os =
        (.error msg, ccon', os') := by
      rw [hpoll]
      exact connectionReadCharsThrowing_error 2000 h.valid
        ⟨by rw [hstuck.isEof]; rfl, by rw [hstuck.utf8]; rfl⟩ hread
    rw [leftoverSource_pull_error hanswer]

/-- A pull on an open stream that is read as raw bytes succeeds and brings the end closer. -/
theorem leftoverSource_pull_bytes (throws : Bool) {s : PipedStream σ} (hic : s.ic.Bounded)
    (h : RawOpen s.ccon s.os) :
    ∃ ccon os, (leftoverSource throws true).pull (some s) =
        (true, some { s with ccon := ccon, os := os }) ∧
      RawOpen ccon os ∧ (s.ccon.isEof = true → ccon.isEof = true) ∧
      (s.ccon.isEof = false → unread ccon os < unread s.ccon s.os) := by
  obtain ⟨bytes, ccon, os, hanswer, hopen, hend, hless⟩ := h.readBytes hic
  rw [← prePollConnection_untouched s.ic h.untouched] at hanswer
  exact ⟨ccon, os, leftoverSource_pull_ok hanswer, hopen, hend, hless⟩

/-- A pull from which nothing can be converted succeeds, and sees the end only if there are no
bytes. -/
theorem leftoverSource_pull_unconverted (throws : Bool) {s : PipedStream σ} (hic : s.ic.Unopened)
    (h : Unconverted s.ccon.handle s.ccon s.os) (hvalid : 0 ≤ s.ccon.handle)
    (hfinal : s.os.Final) :
    ∃ ccon os, (leftoverSource throws false).pull (some s) =
        (true, some { s with ccon := ccon, os := os }) ∧
      Unconverted ccon.handle ccon os ∧ ccon.handle = s.ccon.handle ∧ os.Final ∧
      ccon.buffer ++ os.stream = s.ccon.buffer ++ s.os.stream ∧
      (s.ccon.isEof = true → ccon.isEof = true) ∧
      (s.ccon.buffer ++ s.os.stream = [] → ccon.isEof = true) := by
  obtain ⟨ctx, hpoll⟩ := hic.prePoll s.ccon
  obtain ⟨ccon, os, hanswer, hnext, hfinal', hraw, hend⟩ :=
    (h.ctx ctx).readChars hic throws hvalid hfinal
  have heof : s.ccon.isEof = true → ccon.isEof = true := by
    intro hset
    obtain ⟨hraw', hbuffer, -⟩ := h.sound.eof hset
    refine hend ?_
    show s.ccon.buffer ++ s.os.stream = []
    rw [hbuffer, h.sound.wellFormed.stream_eq_nil (h.sound.eofRaw hraw')]
    rfl
  have hread : readOutput s.ic throws false (prePollConnection s.ic s.ccon).2 s.os =
      (.ok [], ccon, os) := by
    rw [hpoll]
    exact hanswer
  exact ⟨ccon, os, leftoverSource_pull_ok hread,
    ⟨hnext.sound, hnext.utf8, rfl, hnext.held.sized⟩, hnext.held.handle, hfinal', hraw, heof, hend⟩

/-- An end stays: what is more to come is not what there was not. -/
theorem LeftoverStream.isIncomplete_eq_false {s s' : PipedStream σ}
    (h : s.ccon.isEof = true → s'.ccon.isEof = true)
    (hend : LeftoverStream.isIncomplete (some s) = false) :
    LeftoverStream.isIncomplete (some s') = false := by
  have hset : s.ccon.isEof = true := by simpa [LeftoverStream.isIncomplete] using hend
  simp [LeftoverStream.isIncomplete, h hset]

/-- In the moving states a stream drains: an end and a failure are final, and what is left gets
smaller. -/
theorem leftoverSource_drains (hd : Yields d) (hshort : Short d) (throws binary : Bool) :
    (leftoverSource (σ := σ) throws binary).Drains (LeftoverStream.Moving d throws binary)
      (LeftoverStream.left d binary) where
  keeps s h := by
    cases h with
    | none => exact .none
    | closed hclosed hhandle =>
      rw [leftoverSource_pull_closed throws binary hclosed hhandle]
      exact .closed hclosed hhandle
    | text hbinary hopened hic h hshift =>
      subst hbinary
      obtain ⟨ok, s', hpull⟩ := leftoverSource_pull_text hd hshort hopened hic h hshift
      rw [hpull.pull]
      exact .text rfl (hpull.same.2.trans hopened) (hpull.same.1 ▸ hic) hpull.textOpen hpull.shift
    | bytes hbinary hic h =>
      subst hbinary
      obtain ⟨ccon, os, hpull, hopen, -⟩ := leftoverSource_pull_bytes throws hic h
      rw [hpull]
      exact .bytes rfl hic hopen
  ended s h hend := by
    cases h with
    | none => exact hend
    | closed hclosed hhandle =>
      rw [leftoverSource_pull_closed throws binary hclosed hhandle]
      exact hend
    | text hbinary hopened hic h hshift =>
      subst hbinary
      obtain ⟨ok, s', hpull⟩ := leftoverSource_pull_text hd hshort hopened hic h hshift
      rw [hpull.pull]
      exact LeftoverStream.isIncomplete_eq_false hpull.isEof hend
    | bytes hbinary hic h =>
      subst hbinary
      obtain ⟨ccon, os, hpull, -, heof, -⟩ := leftoverSource_pull_bytes throws hic h
      rw [hpull]
      exact LeftoverStream.isIncomplete_eq_false heof hend
  failed s h hfail := by
    cases h with
    | none => rfl
    | closed hclosed hhandle =>
      rw [leftoverSource_pull_closed throws binary hclosed hhandle,
        leftoverSource_pull_closed throws binary hclosed hhandle]
    | text hbinary hopened hic h hshift =>
      subst hbinary
      obtain ⟨ok, s', hpull⟩ := leftoverSource_pull_text hd hshort hopened hic h hshift
      rw [hpull.pull] at hfail ⊢
      exact leftoverSource_pull_refused hd hshort (hpull.same.1 ▸ hic) hpull.textOpen
        (hpull.fails hfail).2
    | bytes hbinary hic h =>
      subst hbinary
      obtain ⟨ccon, os, hpull, -⟩ := leftoverSource_pull_bytes throws hic h
      rw [hpull] at hfail
      cases hfail
  progress s h hmore hok := by
    cases h with
    | none => cases hmore
    | closed hclosed hhandle =>
      rw [leftoverSource_pull_closed throws binary hclosed hhandle] at hok
      cases hok
    | @text s hbinary hopened hic h hshift =>
      subst hbinary
      obtain ⟨ok, s', hpull⟩ := leftoverSource_pull_text hd hshort hopened hic h hshift
      rw [hpull.pull] at hok ⊢
      have hset : (!s.ccon.isEof) = true := hmore
      exact hpull.less hok (by simpa using hset)
    | @bytes s hbinary hic h =>
      subst hbinary
      obtain ⟨ccon, os, hpull, -, -, hless⟩ := leftoverSource_pull_bytes throws hic h
      rw [hpull]
      have hset : (!s.ccon.isEof) = true := hmore
      exact hless (by simpa using hset)

/-- In all of them, an end and a failure are final. -/
theorem leftoverSource_settles (hd : Yields d) (hshort : Short d) (throws binary : Bool) :
    (leftoverSource (σ := σ) throws binary).Settles (LeftoverStream.Kept d throws binary) where
  keeps s h := by
    cases h with
    | moving h => exact .moving ((leftoverSource_drains hd hshort throws binary).keeps s h)
    | unconverted hbinary hopened hic h hvalid hfinal =>
      subst hbinary
      obtain ⟨ccon, os, hpull, hnext, hhandle, hfinal', -⟩ :=
        leftoverSource_pull_unconverted throws hic h hvalid hfinal
      rw [hpull]
      exact .unconverted rfl hopened hic hnext (hvalid.trans_eq hhandle.symm) hfinal'
  ended s h hend := by
    cases h with
    | moving h => exact (leftoverSource_drains hd hshort throws binary).ended s h hend
    | unconverted hbinary hopened hic h hvalid hfinal =>
      subst hbinary
      obtain ⟨ccon, os, hpull, -, -, -, -, heof, -⟩ :=
        leftoverSource_pull_unconverted throws hic h hvalid hfinal
      rw [hpull]
      exact LeftoverStream.isIncomplete_eq_false heof hend
  failed s h hfail := by
    cases h with
    | moving h => exact (leftoverSource_drains hd hshort throws binary).failed s h hfail
    | unconverted hbinary hopened hic h hvalid hfinal =>
      subst hbinary
      obtain ⟨ccon, os, hpull, -⟩ :=
        leftoverSource_pull_unconverted throws hic h hvalid hfinal
      rw [hpull] at hfail
      cases hfail

/-- The loop is draining the two streams in lockstep. -/
theorem leftoverRounds_eq (throws binary : Bool) (n : ℕ)
    (s : LeftoverStream σ × LeftoverStream σ) :
    leftoverRounds throws binary n s = (leftoverSource throws binary).rounds n s := by
  induction n generalizing s with
  | zero => rfl
  | succ n ih =>
    rw [leftoverRounds, Draining.Source.rounds, funext ih]
    rfl

/-- An open stream in text mode stays open, and what makes its reads throw stays there. -/
theorem leftoverSource_after_text (hd : Yields d) (hshort : Short d) {throws : Bool}
    {s : PipedStream σ} (hopened : s.opened = true) (hic : s.ic.Follows d)
    (h : TextOpen s.ccon s.os)
    (hshift : throws = true → d.Stateless ∨ pendingCut s.ic d s.ccon s.os = false) (n : ℕ) :
    ∃ s', (leftoverSource throws false).after (some s) n = some s' ∧ s'.opened = true ∧
      s'.ic.Follows d ∧ TextOpen s'.ccon s'.os ∧
      (throws = true → d.Stateless ∨ pendingCut s'.ic d s'.ccon s'.os = false) ∧
      (s'.Refuses d throws ↔ s.Refuses d throws) := by
  induction n with
  | zero => exact ⟨s, rfl, hopened, hic, h, hshift, Iff.rfl⟩
  | succ n ih =>
    obtain ⟨s', hafter, hopened', hic', hopen, hshift', hiff⟩ := ih
    obtain ⟨ok, s'', hpull⟩ := leftoverSource_pull_text hd hshort hopened' hic' hopen hshift'
    refine ⟨s'', ?_, hpull.same.2.trans hopened', hpull.same.1 ▸ hic', hpull.textOpen, hpull.shift,
      hpull.refuses.trans hiff⟩
    rw [Draining.Source.after_succ, hafter, hpull.pull]

/-- One that is read as raw bytes stays open. -/
theorem leftoverSource_after_bytes (throws : Bool) {s : PipedStream σ} (hic : s.ic.Bounded)
    (h : RawOpen s.ccon s.os) (n : ℕ) :
    ∃ s', (leftoverSource throws true).after (some s) n = some s' ∧ s'.ic.Bounded ∧
      RawOpen s'.ccon s'.os := by
  induction n with
  | zero => exact ⟨s, rfl, hic, h⟩
  | succ n ih =>
    obtain ⟨s', hafter, hic', hopen⟩ := ih
    obtain ⟨ccon, os, hpull, hopen', -⟩ := leftoverSource_pull_bytes throws hic' hopen
    refine ⟨{ s' with ccon := ccon, os := os }, ?_, hic', hopen'⟩
    rw [Draining.Source.after_succ, hafter, hpull]

/-- One from which nothing is converted keeps its bytes. -/
theorem leftoverSource_after_unconverted (throws : Bool) {s : PipedStream σ} (hic : s.ic.Unopened)
    (h : Unconverted s.ccon.handle s.ccon s.os) (hvalid : 0 ≤ s.ccon.handle)
    (hfinal : s.os.Final) (n : ℕ) :
    ∃ s', (leftoverSource throws false).after (some s) n = some s' ∧ s'.ic.Unopened ∧
      Unconverted s'.ccon.handle s'.ccon s'.os ∧ 0 ≤ s'.ccon.handle ∧ s'.os.Final ∧
      s'.ccon.buffer ++ s'.os.stream = s.ccon.buffer ++ s.os.stream := by
  induction n with
  | zero => exact ⟨s, rfl, hic, h, hvalid, hfinal, rfl⟩
  | succ n ih =>
    obtain ⟨s', hafter, hic', hnext, hvalid', hfinal', hraw⟩ := ih
    obtain ⟨ccon, os, hpull, hnext', hhandle, hfinal'', hraw', -⟩ :=
      leftoverSource_pull_unconverted throws hic' hnext hvalid' hfinal'
    refine ⟨{ s' with ccon := ccon, os := os }, ?_, hic', hnext', hvalid'.trans_eq hhandle.symm,
      hfinal'', hraw'.trans hraw⟩
    rw [Draining.Source.after_succ, hafter, hpull]

/-- A closed stream stays as it is. -/
theorem leftoverSource_after_closed (throws binary : Bool) {s : PipedStream σ}
    (hclosed : s.ccon.isClosed = true) (hhandle : s.ccon.handle < 0) (n : ℕ) :
    (leftoverSource throws binary).after (some s) n = some s := by
  induction n with
  | zero => rfl
  | succ n ih =>
    rw [Draining.Source.after_succ, ih, leftoverSource_pull_closed throws binary hclosed hhandle]

/-- Text that makes reads throw never comes to its end. -/
theorem leftoverSource_neverEnds_text (hd : Yields d) (hshort : Short d) {throws : Bool}
    {s : PipedStream σ} (hopened : s.opened = true) (hic : s.ic.Follows d)
    (h : TextOpen s.ccon s.os)
    (hshift : throws = true → d.Stateless ∨ pendingCut s.ic d s.ccon s.os = false)
    (hrefuses : s.Refuses d throws) : (leftoverSource throws false).NeverEnds (some s) := by
  intro n
  obtain ⟨s', hafter, -, -, hopen, -, hiff⟩ :=
    leftoverSource_after_text hd hshort hopened hic h hshift n
  rw [hafter]
  show (!s'.ccon.isEof) = true
  by_contra hset
  have hset : s'.ccon.isEof = true := by simpa using hset
  rcases (hiff.mpr hrefuses).2 with hnul | ⟨-, hcut⟩
  · rw [hopen.sound.pendingText_eq_nil hset] at hnul
    cases hnul
  · obtain ⟨hraw, hbuffer, -⟩ := hopen.sound.eof hset
    rw [pendingCut, hbuffer, hopen.sound.wellFormed.stream_eq_nil (hopen.sound.eofRaw hraw)] at hcut
    cases hcut

/-- A stream never fails exactly if it can be read. -/
theorem LeftoverStream.Kept.neverFails_iff (hd : Yields d) (hshort : Short d) {throws binary : Bool}
    {s : LeftoverStream σ} (h : s.Kept d throws binary) :
    (leftoverSource throws binary).NeverFails s ↔ s.Readable d throws binary := by
  cases h with
  | moving h =>
    have hmoving := h
    cases h with
    | none => exact iff_of_false (fun hfails => nomatch hfails 0) id
    | closed hclosed hhandle =>
      refine iff_of_false (fun hfails => ?_) fun hreadable =>
        absurd hreadable.1 (Int.not_le.mpr hhandle)
      have hfirst := hfails 0
      rw [Draining.Source.after_zero, leftoverSource_pull_closed throws binary hclosed hhandle]
        at hfirst
      cases hfirst
    | text hbinary hopened hic h hshift =>
      subst hbinary
      constructor
      · exact fun hfails => ⟨h.valid, fun _ hrefuses =>
          (leftoverSource_drains hd hshort throws false).ends_or_fails hmoving
            ⟨leftoverSource_neverEnds_text hd hshort hopened hic h hshift hrefuses, hfails⟩⟩
      · rintro ⟨-, hnone⟩ n
        obtain ⟨s', hafter, hopened', hic', hopen, hshift', hiff⟩ :=
          leftoverSource_after_text hd hshort hopened hic h hshift n
        obtain ⟨ok, s'', hpull⟩ := leftoverSource_pull_text hd hshort hopened' hic' hopen hshift'
        rw [hafter, hpull.pull]
        by_contra hbad
        exact hnone rfl (hiff.mp (hpull.fails (by simpa using hbad)).1)
    | bytes hbinary hic h =>
      subst hbinary
      refine iff_of_true (fun n => ?_) ⟨h.valid, nofun⟩
      obtain ⟨s', hafter, hic', hopen⟩ := leftoverSource_after_bytes throws hic h n
      obtain ⟨ccon, os, hpull, -⟩ := leftoverSource_pull_bytes throws hic' hopen
      rw [hafter, hpull]
  | @unconverted s hbinary hopened hic h hvalid hfinal =>
    subst hbinary
    refine iff_of_true (fun n => ?_) ⟨hvalid, fun _ hrefuses => ?_⟩
    · obtain ⟨s', hafter, hic', hnext, hvalid', hfinal', -⟩ :=
        leftoverSource_after_unconverted throws hic h hvalid hfinal n
      obtain ⟨ccon, os, hpull, -⟩ :=
        leftoverSource_pull_unconverted throws hic' hnext hvalid' hfinal'
      rw [hafter, hpull]
    · cases hopened.symm.trans hrefuses.1

/-- A stream never comes to its end exactly if there is more to come whose end is never seen. -/
theorem LeftoverStream.Kept.neverEnds_iff (hd : Yields d) (hshort : Short d) {throws binary : Bool}
    {s : LeftoverStream σ} (h : s.Kept d throws binary) :
    (leftoverSource throws binary).NeverEnds s ↔ s.Blocked d throws binary := by
  have hfails := h.neverFails_iff hd hshort
  have hfirst : (leftoverSource throws binary).NeverEnds s → s.isIncomplete = true := fun hends =>
    hends 0
  cases h with
  | moving h =>
    have hnotBoth := (leftoverSource_drains hd hshort throws binary).ends_or_fails h
    cases h with
    | none => exact iff_of_false (fun hends => nomatch hends 0) id
    | @closed s hclosed hhandle =>
      constructor
      · exact fun hends =>
          ⟨by simpa [LeftoverStream.isIncomplete] using hfirst hends, Or.inl hhandle⟩
      · rintro ⟨hopen, -⟩ n
        rw [leftoverSource_after_closed throws binary hclosed hhandle n]
        show (!s.ccon.isEof) = true
        rw [hopen]
        rfl
    | @text s hbinary hopened hic h hshift =>
      subst hbinary
      constructor
      · intro hends
        refine ⟨by simpa [LeftoverStream.isIncomplete] using hfirst hends,
          Or.inr ⟨rfl, Or.inl ?_⟩⟩
        by_contra hnone
        exact hnotBoth ⟨hends, hfails.mpr ⟨h.valid, fun _ => hnone⟩⟩
      · rintro ⟨-, hclosed | ⟨-, hrefuses | ⟨hunopened, -⟩⟩⟩
        · exact absurd h.valid (Int.not_le.mpr hclosed)
        · exact leftoverSource_neverEnds_text hd hshort hopened hic h hshift hrefuses
        · rw [hopened] at hunopened
          cases hunopened
    | bytes hbinary hic h =>
      subst hbinary
      refine iff_of_false (fun hends => hnotBoth ⟨hends, hfails.mpr ⟨h.valid, nofun⟩⟩) ?_
      rintro ⟨-, hclosed | ⟨hbinary, -⟩⟩
      · exact absurd h.valid (Int.not_le.mpr hclosed)
      · cases hbinary
  | @unconverted s hbinary hopened hic h hvalid hfinal =>
    subst hbinary
    constructor
    · intro hends
      refine ⟨by simpa [LeftoverStream.isIncomplete] using hfirst hends,
        Or.inr ⟨rfl, Or.inr ⟨hopened, fun hnil => ?_⟩⟩⟩
      obtain ⟨ccon, os, hpull, -, -, -, -, -, hend⟩ :=
        leftoverSource_pull_unconverted throws hic h hvalid hfinal
      have hsecond := hends 1
      rw [Draining.Source.after_succ, Draining.Source.after_zero, hpull] at hsecond
      have hopen : (!ccon.isEof) = true := hsecond
      rw [hend hnil] at hopen
      cases hopen
    · rintro ⟨-, hclosed | ⟨-, hrefuses | ⟨-, hsome⟩⟩⟩ n
      · exact absurd hvalid (Int.not_le.mpr hclosed)
      · cases hopened.symm.trans hrefuses.1
      · obtain ⟨s', hafter, -, hnext, -, -, hraw⟩ :=
          leftoverSource_after_unconverted throws hic h hvalid hfinal n
        rw [hafter]
        show (!s'.ccon.isEof) = true
        by_contra hset
        obtain ⟨heofRaw, hbuffer, -⟩ := hnext.sound.eof (by simpa using hset)
        rw [hbuffer, hnext.sound.wellFormed.stream_eq_nil (hnext.sound.eofRaw heofRaw)] at hraw
        exact hsome hraw.symm

/-- A round that changes nothing is made for ever. -/
theorem leftoverRounds_fixed {throws binary : Bool} {s : LeftoverStream σ × LeftoverStream σ}
    (h : leftoverRound throws binary s = some s) (n : ℕ) :
    leftoverRounds throws binary n s = some s := by
  induction n with
  | zero => rfl
  | succ n ih => rw [leftoverRounds, h, Option.bind_some, ih]

end Processx
