import Processx.Connection.Model
import Mathlib.Tactic.Common

/-!
# The input of the supervisor on Windows

On Windows the supervisor gets its lines from `get_line_nonblock()`, which looks into the pipe
and, if there is a line end among the bytes it sees, takes them all. R writes into a named pipe of
the message type, the standard input of the supervisor is a pipe of the byte type. Both are
modelled, with the lines delivered and the bytes taken out of the pipe.
-/

namespace Processx

/-- The type a pipe was made with. -/
inductive PipeType
  | byte
  | message
  deriving DecidableEq

/-- A pipe that is read by one process: what was written to it and is not read yet, one entry a
write. The first entry can be a rest. -/
structure InputPipe where
  type : PipeType
  queue : List Bytes

/-- All bytes in a pipe. -/
def InputPipe.bytes (pipe : InputPipe) : Bytes := pipe.queue.flatten

/-- `WIN_INPUT_BUF_LEN` -/
def winInputBufLen : ℕ := 1024

/-- `INPUT_BUF_LEN` -/
def inputBufLen : ℕ := 1024

/-- `PeekNamedPipe()`: the first bytes, for a pipe of the message type those of one message. -/
def peekNamedPipe (pipe : InputPipe) : Bytes :=
  match pipe.type with
  | .byte => pipe.bytes.take winInputBufLen
  | .message => (pipe.queue.headD []).take winInputBufLen

/-- Take bytes from the first entries. -/
def dropBytes : ℕ → List Bytes → List Bytes
  | _, [] => []
  | n, message :: queue =>
    if n < message.length then message.drop n :: queue else dropBytes (n - message.length) queue

/-- `ReadFile()` in byte mode, for no more bytes than there are. -/
def readFile (n : ℕ) (pipe : InputPipe) : Bytes × InputPipe :=
  (pipe.bytes.take n, { pipe with queue := dropBytes n pipe.queue })

/-- What `snprintf(buf, n, "%s", text)` leaves in `buf`, as a string. -/
def snprintfString (n : ℕ) (text : Bytes) : Bytes :=
  (text.take (n - 1)).takeWhile fun c => c ≠ 0

/-- Is there a line end among the bytes? -/
def foundNewline (input : Bytes) : Bool := input.any fun c => c = carriageReturn || c = lineFeed

/-- `get_line_nonblock()` on a pipe: the line in `buf`, or `none` for `NULL`, and the pipe. The
arguments tell whether the calls of the system succeed. -/
def getLineNonblock (peeked read : Bool) (maxChars : ℕ) (pipe : InputPipe) :
    Option Bytes × InputPipe :=
  if !peeked then (none, pipe)
  else
    let inputCharBuf := peekNamedPipe pipe
    let n := inputCharBuf.length
    if foundNewline inputCharBuf then
      if !read then (none, pipe)
      else
        let (inputCharBuf, pipe) := readFile n pipe
        (some (snprintfString (min n maxChars) inputCharBuf), pipe)
    else (none, pipe)

/-- R writes to the pipe, or the supervisor asks for a line. -/
inductive InputStep
  | write (text : Bytes)
  | getLine (peeked read : Bool)

/-- The pipe, all that was written to it, the lines that the supervisor has got, and whether the
last call has found no line, with nothing written since. -/
structure InputState where
  pipe : InputPipe
  written : Bytes := []
  delivered : List Bytes := []
  exhausted : Bool := false

/-- A new pipe. -/
def InputState.start (type : PipeType) : InputState := { pipe := ⟨type, []⟩ }

/-- One step. A call that fails has not looked for a line. -/
def InputState.step (s : InputState) : InputStep → InputState
  | .write text =>
    { s with pipe := { s.pipe with queue := s.pipe.queue ++ [text] }, written := s.written ++ text,
             exhausted := false }
  | .getLine peeked read =>
    let (line, pipe) := getLineNonblock peeked read inputBufLen s.pipe
    { s with pipe := pipe, delivered := s.delivered ++ line.toList,
             exhausted := peeked && !foundNewline (peekNamedPipe s.pipe) }

/-- A sequence of steps. -/
def InputState.run (s : InputState) (steps : List InputStep) : InputState :=
  steps.foldl InputState.step s

/-- No line is lost: what was written are the lines delivered, each with its line feed, followed
by what is still in the pipe, and when a call finds no line there is none. -/
structure InputState.LosesNoLine (s : InputState) : Prop where
  whole : ∀ line ∈ s.delivered, lineFeed ∉ line
  written : s.delivered.flatMap (· ++ [lineFeed]) ++ s.pipe.bytes = s.written
  exhausted : s.exhausted = true → lineFeed ∉ s.pipe.bytes

/-- What a call sees is one line, which ends where the view ends, or the view has no line end and
there is no line in the pipe. -/
def SeesOneLine (pipe : InputPipe) : Prop :=
  (∃ line, peekNamedPipe pipe = line ++ [lineFeed] ∧ lineFeed ∉ line ∧ 0 ∉ line) ∨
    foundNewline (peekNamedPipe pipe) = false ∧ lineFeed ∉ pipe.bytes

/-- A write, a call that fails, or a call that sees just one line or none. -/
def InputStep.Lossless (s : InputState) : InputStep → Prop
  | .write _ => True
  | .getLine peeked read =>
    peeked = true → (foundNewline (peekNamedPipe s.pipe) = true → read = true) → SeesOneLine s.pipe

/-- The same for all the steps of a run. -/
def InputState.AllLossless : InputState → List InputStep → Prop
  | _, [] => True
  | s, step :: steps => step.Lossless s ∧ (s.step step).AllLossless steps

/-- Dropping bytes from the queue drops them from its text. -/
theorem flatten_dropBytes (n : ℕ) (queue : List Bytes) :
    (dropBytes n queue).flatten = queue.flatten.drop n := by
  induction queue generalizing n with
  | nil => simp [dropBytes]
  | cons message queue ih =>
    rw [dropBytes]
    by_cases hn : n < message.length
    · rw [if_pos hn, List.flatten_cons, List.flatten_cons,
        List.drop_append_of_le_length (Nat.le_of_lt hn)]
    · rw [if_neg hn, ih, List.flatten_cons, List.drop_append,
        List.drop_eq_nil_of_le (show message.length ≤ n by omega), List.nil_append]

/-- What a call sees are the first bytes, and reading as many gets just these. -/
theorem readFile_peek (pipe : InputPipe) :
    (readFile (peekNamedPipe pipe).length pipe).1 = peekNamedPipe pipe ∧
      peekNamedPipe pipe ++ (readFile (peekNamedPipe pipe).length pipe).2.bytes = pipe.bytes := by
  have hfirst : peekNamedPipe pipe <+: pipe.bytes := by
    unfold peekNamedPipe InputPipe.bytes
    cases pipe.type with
    | byte => exact List.take_prefix _ _
    | message =>
      refine (List.take_prefix _ _).trans ?_
      cases pipe.queue with
      | nil => exact List.prefix_rfl
      | cons message queue => exact List.prefix_append _ _
  obtain ⟨rest, hrest⟩ := hfirst
  have htake : pipe.bytes.take (peekNamedPipe pipe).length = peekNamedPipe pipe := by
    rw [← hrest, List.take_left]
  refine ⟨htake, ?_⟩
  show _ ++ (dropBytes _ pipe.queue).flatten = _
  rw [flatten_dropBytes]
  show _ ++ pipe.bytes.drop _ = _
  rw [← hrest, List.drop_left]

/-- A peek sees at most as much as the buffer holds. -/
theorem peekNamedPipe_length (pipe : InputPipe) : (peekNamedPipe pipe).length ≤ inputBufLen := by
  unfold peekNamedPipe
  cases pipe.type <;> exact List.length_take_le _ _

/-- The string that is left of some bytes and a line feed are these bytes exactly if they are one
line. -/
theorem snprintfString_eq_iff (input : Bytes) :
    lineFeed ∉ snprintfString input.length input ∧
        snprintfString input.length input ++ [lineFeed] = input ↔
      ∃ line, input = line ++ [lineFeed] ∧ lineFeed ∉ line ∧ 0 ∉ line := by
  constructor
  · rintro ⟨hline, heq⟩
    refine ⟨_, heq.symm, hline, fun hzero => ?_⟩
    simpa using List.mem_takeWhile_imp hzero
  · rintro ⟨line, rfl, hline, hzero⟩
    have hstring : snprintfString (line ++ [lineFeed]).length (line ++ [lineFeed]) = line := by
      rw [snprintfString, List.length_append, List.length_singleton, Nat.add_sub_cancel,
        List.take_left, List.takeWhile_eq_self_iff]
      intro c hc
      simpa using fun heq : c = 0 => hzero (heq ▸ hc)
    rw [hstring]
    exact ⟨hline, rfl⟩

/-- No line is lost when R writes. -/
theorem InputState.LosesNoLine.write {s : InputState} (h : s.LosesNoLine) (text : Bytes) :
    (s.step (.write text)).LosesNoLine := by
  refine ⟨h.whole, ?_, fun hnone => ?_⟩
  · show _ ++ (s.pipe.queue ++ [text]).flatten = s.written ++ text
    rw [List.flatten_append, List.flatten_singleton, ← List.append_assoc]
    exact congrArg (· ++ text) h.written
  · cases hnone

/-- A call that gets a line takes all the bytes that it sees. -/
theorem getLineNonblock_found {pipe : InputPipe} (h : foundNewline (peekNamedPipe pipe) = true) :
    getLineNonblock true true inputBufLen pipe =
      (some (snprintfString (peekNamedPipe pipe).length (peekNamedPipe pipe)),
        (readFile (peekNamedPipe pipe).length pipe).2) := by
  have hread := (readFile_peek pipe).1
  simp only [getLineNonblock, h, Bool.not_true, Bool.false_eq_true, if_false, if_true,
    Nat.min_eq_left (peekNamedPipe_length pipe)]
  rw [hread]

/-- A call that gets no line changes at most what is known of the pipe. -/
theorem InputState.LosesNoLine.noLine {s : InputState} (h : s.LosesNoLine) {peeked read : Bool}
    (hnone : getLineNonblock peeked read inputBufLen s.pipe = (none, s.pipe)) :
    (s.step (.getLine peeked read)).LosesNoLine ↔
      ((peeked && !foundNewline (peekNamedPipe s.pipe)) = true → lineFeed ∉ s.pipe.bytes) := by
  have hstep : s.step (.getLine peeked read) =
      { s with exhausted := peeked && !foundNewline (peekNamedPipe s.pipe) } := by
    simp [InputState.step, hnone]
  rw [hstep]
  exact ⟨fun hafter => hafter.exhausted, fun hempty => ⟨h.whole, h.written, hempty⟩⟩

/-- A call: no line is lost exactly if it fails or sees one line, or none. -/
theorem InputState.LosesNoLine.getLine {s : InputState} (h : s.LosesNoLine) (peeked read : Bool) :
    (s.step (.getLine peeked read)).LosesNoLine ↔
      (InputStep.getLine peeked read).Lossless s := by
  unfold InputStep.Lossless
  cases peeked with
  | false =>
    rw [h.noLine rfl]
    simp
  | true =>
    by_cases hfound : foundNewline (peekNamedPipe s.pipe) = true
    · cases read with
      | false =>
        rw [h.noLine (by simp [getLineNonblock, hfound])]
        simp [hfound]
      | true =>
        have hstep : s.step (.getLine true true) =
            { s with pipe := (readFile (peekNamedPipe s.pipe).length s.pipe).2
                     delivered := s.delivered ++
                       [snprintfString (peekNamedPipe s.pipe).length (peekNamedPipe s.pipe)]
                     exhausted := false } := by
          simp only [InputState.step, getLineNonblock_found hfound, hfound, Option.toList_some]
          rfl
        have hsees : SeesOneLine s.pipe ↔ ∃ line, peekNamedPipe s.pipe = line ++ [lineFeed] ∧
            lineFeed ∉ line ∧ 0 ∉ line :=
          or_iff_left fun hnone => by rw [hfound] at hnone; cases hnone.1
        obtain ⟨-, hbytes⟩ := readFile_peek s.pipe
        rw [hstep, hsees, ← snprintfString_eq_iff]
        have hwritten := h.written
        rw [← hbytes, ← List.append_assoc] at hwritten
        constructor
        · intro hafter _ _
          have hall := hafter.written
          simp only [List.flatMap_append, List.flatMap_singleton] at hall
          rw [← hwritten] at hall
          refine ⟨hafter.whole _ (by simp), ?_⟩
          exact List.append_cancel_left (List.append_cancel_right hall)
        · intro hline
          obtain ⟨hfeed, heq⟩ := hline rfl fun _ => rfl
          refine ⟨fun line hmem => ?_, ?_, fun hnone => by cases hnone⟩
          · rcases List.mem_append.mp hmem with hold | hnew
            · exact h.whole line hold
            · rwa [List.mem_singleton.mp hnew]
          · simp only [List.flatMap_append, List.flatMap_singleton]
            rw [heq]
            exact hwritten
    · have hsees : SeesOneLine s.pipe ↔ lineFeed ∉ s.pipe.bytes := by
        rw [Bool.not_eq_true] at hfound
        refine ⟨fun hsees => ?_, fun hnone => Or.inr ⟨hfound, hnone⟩⟩
        rcases hsees with ⟨line, hline, -⟩ | hnone
        · simp [hline, foundNewline] at hfound
        · exact hnone.2
      rw [h.noLine (by simp [getLineNonblock, hfound]), hsees]
      simp [hfound]

/-- **No line of the input is lost** in any state of a run exactly if every call that succeeds
sees just one line, or sees no line end where the pipe has no line. -/
theorem input_losesNoLine_iff (type : PipeType) (steps : List InputStep) :
    (∀ k, ((InputState.start type).run (steps.take k)).LosesNoLine) ↔
      (InputState.start type).AllLossless steps := by
  have hrun : ∀ s : InputState, s.LosesNoLine →
      ((∀ k, (s.run (steps.take k)).LosesNoLine) ↔ s.AllLossless steps) := by
    induction steps with
    | nil => exact fun s h => iff_of_true (fun k => by rwa [List.take_nil]) trivial
    | cons step steps ih =>
      intro s h
      have hstep : (s.step step).LosesNoLine ↔ step.Lossless s := by
        cases step with
        | write text => exact iff_of_true (h.write text) trivial
        | getLine peeked read => exact h.getLine peeked read
      constructor
      · intro hall
        have hnow := hall 1
        exact ⟨hstep.mp hnow, (ih _ hnow).mp fun k => hall (k + 1)⟩
      · rintro ⟨hlossless, hrest⟩ k
        cases k with
        | zero => exact h
        | succ k => exact (ih _ (hstep.mpr hlossless)).mpr hrest k
  exact hrun _ ⟨fun _ hline => absurd hline List.not_mem_nil, rfl, fun hnone => by cases hnone⟩

/-- R watches two processes at once: the supervisor gets one string, and reads only the first
number from it. -/
theorem input_two_lines_lost :
    ((InputState.start .message).run
        [.write "12\n34\n".toUTF8.toList, .getLine true true]).delivered =
        ["12\n34".toUTF8.toList] ∧
      ¬∀ (type : PipeType) (steps : List InputStep) (k : ℕ),
        ((InputState.start type).run (steps.take k)).LosesNoLine := by
  refine ⟨by decide +kernel, fun hall => ?_⟩
  have hlost := (hall .message [.write "12\n34\n".toUTF8.toList, .getLine true true] 2).whole
    "12\n34".toUTF8.toList
  revert hlost
  decide +kernel

end Processx
