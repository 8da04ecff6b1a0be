import Processx.Connection.Model
import Processx.Library.Lines

/-!
# Line callbacks of `run()`

`run_manage()` gets the output of the child in chunks, and puts the lines together again: what
stands behind the last line feed of a chunk is pushed back and comes before the next chunk.
What is pushed back when the last chunk has come is never passed to the callback.
-/

namespace Processx

open Textual

/-- What one call of `proc$read_output()` or `proc$read_error()` does. -/
inductive Chunk
  | text (chunk : Bytes)
  | error
  deriving DecidableEq

/-- The text that comes with a read. -/
def Chunk.bytes : Chunk → Bytes
  | .text chunk => chunk
  | .error => []

/-- The standard output or the standard error: whether there is a pipe and a line callback, what
the reads to come will return until the end of the file is seen, the buffer of the result, the
pushback, and what was passed to the callback. -/
structure Stream where
  has : Bool
  lineCallback : Bool
  reads : List Chunk
  buffer : Bytes := []
  pushback : Bytes := []
  lines : List Bytes := []

/-- `strsplit(text, "\r?\n")[[1]]`, where `token` is read already: a match ends a token, and
there is no empty token behind the last match. -/
def strsplitFrom (token : Bytes) : Bytes → List Bytes
  | [] => if token = [] then [] else [token]
  | 13 :: 10 :: text => token :: strsplitFrom [] text
  | 10 :: text => token :: strsplitFrom [] text
  | c :: text => strsplitFrom (token ++ [c]) text

/-- `strsplit(text, "\r?\n")[[1]]` -/
def strsplit (text : Bytes) : List Bytes := strsplitFrom [] text

/-- The line callback of `do_output()` on a chunk that is not empty. -/
def Stream.callLines (s : Stream) (newout : Bytes) : Stream :=
  let newout := s.pushback ++ newout
  let lines := strsplit newout
  if newout.getLast? ≠ some lineFeed then
    { s with pushback := lines.getLast?.getD [], lines := s.lines ++ lines.dropLast }
  else { s with pushback := [], lines := s.lines ++ lines }

/-- The part of `do_output()` for one stream, and whether it has read. At the end of the file a
read returns an empty string. -/
def Stream.doOutput (s : Stream) : Bool × Stream :=
  if !s.has then (false, s)
  else
    match s.reads with
    | [] => (true, s)
    | .error :: reads => (false, { s with reads := reads })
    | .text newout :: reads =>
      let s := { s with reads := reads }
      if newout = [] then (true, s)
      else
        let s := { s with buffer := s.buffer ++ newout }
        (true, if s.lineCallback then s.callLines newout else s)

/-- Both streams. -/
structure Streams where
  out : Stream
  err : Stream

/-- `do_output()` -/
def Streams.doOutput (s : Streams) : Bool × Streams :=
  let (okOut, out) := s.out.doOutput
  let (okErr, err) := s.err.doOutput
  (okOut || okErr, ⟨out, err⟩)

/-- A round of the main loop: the time is up, or a poll, after which a stream is ready or not. -/
inductive Round
  | timeout
  | polled (ready : Bool)
  deriving DecidableEq

/-- The main loop, over the rounds while the process is alive. -/
def mainLoop : List Round → Streams → Streams
  | [], s => s
  | .timeout :: _, s => s
  | .polled ready :: rounds, s => mainLoop rounds (if ready then s.doOutput.2 else s)

/-- `proc$is_incomplete_output()` and `proc$is_incomplete_error()`, for what is piped. -/
def Stream.incomplete (s : Stream) : Bool := s.has && !s.reads.isEmpty

/-- The loop over leftover output. Each round reads from a stream that is not at its end. -/
def leftoverLoop : ℕ → Streams → Streams
  | 0, s => s
  | rounds + 1, s =>
    if s.out.incomplete ∨ s.err.incomplete then
      let (ok, s) := s.doOutput
      if ok then leftoverLoop rounds s else s
    else s

/-- How often `do_output()` is called for a pty on Windows, after the process has ended. -/
def drainPty : ℕ → Streams → Streams
  | 0, s => s
  | polls + 1, s => drainPty polls s.doOutput.2

/-- `run_manage()`, without the process status. -/
def runManage (rounds : List Round) (ptyPolls : ℕ) (s : Streams) : Streams :=
  let s := drainPty ptyPolls (mainLoop rounds s)
  leftoverLoop (s.out.reads.length + s.err.reads.length) s

/-- A stream before the first read. -/
def Stream.start (has lineCallback : Bool) (reads : List Chunk) : Stream :=
  { has := has, lineCallback := lineCallback, reads := reads }

/-- The whole output of the child. -/
def wholeOutput (reads : List Chunk) : Bytes := reads.flatMap Chunk.bytes

/-- The callback got exactly the lines of the whole output. -/
def Stream.LinesComplete (s : Stream) (reads : List Chunk) : Prop :=
  s.has = true → s.lineCallback = true →
    s.lines = Textual.lines lineFeed carriageReturn (wholeOutput reads)

/-- The calls of `do_output()` before the leftover loop. -/
def callsBefore : List Round → ℕ → ℕ
  | [], ptyPolls => ptyPolls
  | .timeout :: _, ptyPolls => ptyPolls
  | .polled ready :: rounds, ptyPolls => callsBefore rounds ptyPolls + if ready then 1 else 0

/-- Nothing can be read at the call number `k`: the reads from all streams fail. -/
def AllFail (s : Streams) (k : ℕ) : Prop :=
  (s.out.has = true → s.out.reads[k]? = some .error) ∧
    (s.err.has = true → s.err.reads[k]? = some .error)

/-- The output is empty or ends with a line feed, and no failure ends the leftover loop before
its text was read. -/
def Stream.WellEnded (s : Stream) (streams : Streams) (before : ℕ) : Prop :=
  s.has = true → s.lineCallback = true →
    Terminated lineFeed (wholeOutput s.reads) ∧
      ∀ k, before ≤ k → AllFail streams k → wholeOutput (s.reads.drop (k + 1)) = []

/-- The split of R's `strsplit()` is the split into lines where no `\r\n` is torn apart. -/
theorem strsplitFrom_eq (token text : Bytes)
    (h : token.getLast? = some carriageReturn → text.head? ≠ some lineFeed) :
    strsplitFrom token text = linesFrom lineFeed carriageReturn token text := by
  have hne : carriageReturn ≠ lineFeed := by decide
  fun_induction strsplitFrom token text with
  | case1 => rfl
  | case2 token hnil => simp [linesFrom, hnil]
  | case3 token text ih =>
    show token :: strsplitFrom [] text = linesFrom lineFeed carriageReturn token
      (carriageReturn :: lineFeed :: text)
    rw [linesFrom, if_neg hne, linesFrom, if_pos rfl, ih (by simp)]
    simp [chomp]
  | case4 token text ih =>
    have hchomp : chomp carriageReturn token = token := by
      rw [chomp, if_neg fun hlast => h hlast rfl]
    show token :: strsplitFrom [] text = linesFrom lineFeed carriageReturn token (lineFeed :: text)
    rw [linesFrom, if_pos rfl, hchomp, ih (by simp)]
  | case5 token c text hcrlf hlf ih =>
    have hc : c ≠ lineFeed := hlf
    rw [linesFrom, if_neg hc]
    refine ih fun hlast hhead => ?_
    cases text with
    | nil => cases hhead
    | cons d text =>
      have hcr : c = carriageReturn := by simpa using hlast
      have hd : d = lineFeed := by simpa using hhead
      exact hcrlf text hcr (by rw [hd]; rfl)

/-- The pieces of a text are its lines. -/
theorem strsplit_eq (text : Bytes) : strsplit text = Textual.lines lineFeed carriageReturn text :=
  strsplitFrom_eq [] text (by simp)

/-- The text that came so far, put together: complete lines, which the callback got, and the
pushback. -/
def Stream.Assembled (s : Stream) (text : Bytes) : Prop :=
  ∃ front, text = front ++ s.pushback ∧ Terminated lineFeed front ∧ lineFeed ∉ s.pushback ∧
    s.lines = Textual.lines lineFeed carriageReturn front

/-- The next chunk. -/
theorem Stream.Assembled.callLines {s : Stream} {text : Bytes} (h : s.Assembled text)
    {newout : Bytes} (hne : newout ≠ []) : (s.callLines newout).Assembled (text ++ newout) := by
  obtain ⟨front, rfl, hfront, hpushback, hlines⟩ := h
  unfold Stream.callLines
  dsimp only
  rw [strsplit_eq]
  by_cases hlast : (s.pushback ++ newout).getLast? = some lineFeed
  · rw [if_neg (not_not.mpr hlast)]
    refine ⟨front ++ (s.pushback ++ newout), by simp, Or.inr ?_, by simp, ?_⟩
    · rw [List.getLast?_append, hlast]
      rfl
    · show s.lines ++ _ = _
      rw [lines_append hfront, hlines]
  · rw [if_pos hlast]
    -- the last piece has no line feed and is not empty
    obtain ⟨complete, piece, hsplit, hcomplete, hpiece⟩ :=
      exists_terminated_append lineFeed (s.pushback ++ newout)
    have hnonempty : piece ≠ [] := by
      intro hnil
      have hterm := (terminated_append_iff hcomplete hpiece).mpr hnil
      rw [← hsplit] at hterm
      exact hlast (hterm.resolve_left (by simp [hne]))
    have hpieces : Textual.lines lineFeed carriageReturn (s.pushback ++ newout) =
        Textual.lines lineFeed carriageReturn complete ++ [piece] := by
      rw [hsplit, lines_append hcomplete, lines_of_notMem hpiece hnonempty]
    rw [hpieces]
    refine ⟨front ++ complete, ?_, ?_, ?_, ?_⟩
    · simp [hsplit]
    · rcases hcomplete with rfl | hlf
      · simpa using hfront
      · refine Or.inr ?_
        rw [List.getLast?_append, hlf]
        rfl
    · simpa using hpiece
    · show s.lines ++ _ = _
      rw [List.dropLast_concat, lines_append hfront, hlines]

/-- A stream after some calls. -/
def Stream.calls (s : Stream) : ℕ → Stream
  | 0 => s
  | k + 1 => (s.calls k).doOutput.2

/-- Nothing but its reads, its buffer and its lines changes in a stream. -/
theorem Stream.doOutput_same (s : Stream) :
    s.doOutput.2.has = s.has ∧ s.doOutput.2.lineCallback = s.lineCallback ∧
      s.doOutput.2.reads = if s.has then s.reads.tail else s.reads := by
  obtain ⟨has, lineCallback, reads, buffer, pushback, lines⟩ := s
  cases has with
  | false => exact ⟨rfl, rfl, rfl⟩
  | true =>
    cases reads with
    | nil => exact ⟨rfl, rfl, rfl⟩
    | cons chunk reads =>
      cases chunk with
      | error => exact ⟨rfl, rfl, rfl⟩
      | text newout =>
        unfold Stream.doOutput Stream.callLines
        simp only [Bool.not_true, Bool.false_eq_true, if_false, if_true, List.tail_cons]
        split_ifs <;> exact ⟨rfl, rfl, rfl⟩

/-- The calls change neither the presence nor the callback of a stream, and consume its reads in
order. -/
theorem Stream.calls_same (s : Stream) (k : ℕ) :
    (s.calls k).has = s.has ∧ (s.calls k).lineCallback = s.lineCallback ∧
      (s.has = true → (s.calls k).reads = s.reads.drop k) := by
  induction k with
  | zero => exact ⟨rfl, rfl, fun _ => rfl⟩
  | succ k ih =>
    obtain ⟨hhas, hcallback, hreads⟩ := ih
    obtain ⟨hhas', hcallback', hreads'⟩ := (s.calls k).doOutput_same
    refine ⟨hhas'.trans hhas, hcallback'.trans hcallback, fun h => ?_⟩
    rw [hhas, h, if_pos rfl, hreads h] at hreads'
    rw [Stream.calls, hreads', List.tail_drop]

/-- One more read adds its bytes to the output. -/
theorem wholeOutput_take_succ (reads : List Chunk) (k : ℕ) :
    wholeOutput (reads.take (k + 1)) =
      wholeOutput (reads.take k) ++ (reads[k]?.map Chunk.bytes).getD [] := by
  rw [List.take_add_one, wholeOutput, wholeOutput, List.flatMap_append]
  cases reads[k]? <;> simp

/-- After any number of calls the text that has come is put together. -/
theorem Stream.assembled_calls (reads : List Chunk) (k : ℕ) :
    ((Stream.start true true reads).calls k).Assembled (wholeOutput (reads.take k)) := by
  induction k with
  | zero => exact ⟨[], rfl, Or.inl rfl, by simp [Stream.calls, Stream.start], rfl⟩
  | succ k ih =>
    obtain ⟨hhas, hcallback, hreads⟩ := (Stream.start true true reads).calls_same k
    have hnow : ((Stream.start true true reads).calls k).reads = reads.drop k := hreads rfl
    have hhead : (reads.drop k).head? = reads[k]? := List.head?_drop
    rw [wholeOutput_take_succ, Stream.calls]
    generalize (Stream.start true true reads).calls k = s at ih hhas hcallback hnow ⊢
    have hhas : s.has = true := hhas
    have hcallback : s.lineCallback = true := hcallback
    rw [← hhead, ← hnow]
    unfold Stream.doOutput
    rw [hhas, if_neg (by simp)]
    cases hr : s.reads with
    | nil => simpa using ih
    | cons chunk rest =>
      cases chunk with
      | error =>
        show s.Assembled _
        simpa [Chunk.bytes] using ih
      | text newout =>
        by_cases hempty : newout = []
        · simp only [if_pos hempty]
          show s.Assembled _
          simpa [Chunk.bytes, hempty] using ih
        · simp only [if_neg hempty, hcallback, if_true]
          exact Stream.Assembled.callLines (s := ⟨true, true, rest, s.buffer ++ newout, s.pushback,
            s.lines⟩) ih hempty

/-- Both streams after some calls. -/
def Streams.calls (s : Streams) (k : ℕ) : Streams := ⟨s.out.calls k, s.err.calls k⟩

/-- Calls made in two groups are calls made in a row. -/
theorem Stream.calls_add (s : Stream) (j k : ℕ) : (s.calls j).calls k = s.calls (j + k) := by
  induction k with
  | zero => rfl
  | succ k ih => rw [Stream.calls, ih, ← Nat.add_assoc, Stream.calls]

/-- The same of both streams together. -/
theorem Streams.calls_add (s : Streams) (j k : ℕ) : (s.calls j).calls k = s.calls (j + k) := by
  unfold Streams.calls
  rw [Stream.calls_add, Stream.calls_add]

/-- What happens before the leftover loop is a number of calls. -/
theorem drainPty_mainLoop (rounds : List Round) (ptyPolls : ℕ) (s : Streams) :
    drainPty ptyPolls (mainLoop rounds s) = s.calls (callsBefore rounds ptyPolls) := by
  have hdrain : ∀ (polls : ℕ) (s : Streams), drainPty polls s = s.calls polls := by
    intro polls
    induction polls with
    | zero => exact fun _ => rfl
    | succ polls ih =>
      intro s
      rw [drainPty, ih]
      show (s.calls 1).calls polls = _
      rw [Streams.calls_add, Nat.add_comm]
  induction rounds generalizing s with
  | nil => exact hdrain ptyPolls s
  | cons round rounds ih =>
    cases round with
    | timeout => exact hdrain ptyPolls s
    | polled ready =>
      rw [mainLoop, ih, callsBefore]
      cases ready with
      | false => rfl
      | true =>
        show (s.calls 1).calls _ = _
        rw [Streams.calls_add, Nat.add_comm]
        rfl

/-- The reads that are still to be made. -/
def Stream.remaining (s : Stream) : ℕ := if s.has then s.reads.length else 0

/-- A stream is incomplete while reads remain. -/
theorem Stream.incomplete_iff (s : Stream) : s.incomplete = true ↔ 0 < s.remaining := by
  unfold Stream.incomplete Stream.remaining
  cases s.has <;> cases s.reads <;> simp

/-- A call consumes one read. -/
theorem Stream.remaining_doOutput (s : Stream) :
    s.doOutput.2.remaining = s.remaining - 1 := by
  obtain ⟨hhas, -, hreads⟩ := s.doOutput_same
  unfold Stream.remaining
  rw [hhas, hreads]
  cases s.has <;> simp

/-- A stream does not read if it has no pipe or if the read fails. -/
theorem Stream.doOutput_fst (s : Stream) :
    s.doOutput.1 = false ↔ (s.has = true → s.reads.head? = some .error) := by
  obtain ⟨has, lineCallback, reads, buffer, pushback, lines⟩ := s
  cases has with
  | false => simp [Stream.doOutput]
  | true =>
    cases reads with
    | nil => simp [Stream.doOutput]
    | cons chunk reads =>
      cases chunk with
      | error => simp [Stream.doOutput]
      | text newout =>
        by_cases hempty : newout = []
        · simp [Stream.doOutput, hempty]
        · simp [Stream.doOutput, hempty]

/-- A call reads nothing exactly if all its reads fail. -/
theorem Streams.doOutput_fst (s : Streams) (k : ℕ) :
    (s.calls k).doOutput.1 = false ↔ AllFail s k := by
  have hstream : ∀ x : Stream, (x.calls k).doOutput.1 = false ↔
      (x.has = true → x.reads[k]? = some .error) := by
    intro x
    obtain ⟨hhas, -, hreads⟩ := x.calls_same k
    rw [Stream.doOutput_fst, hhas]
    refine imp_congr_right fun h => ?_
    rw [hreads h, List.head?_drop]
  show ((s.out.calls k).doOutput.1 || (s.err.calls k).doOutput.1) = false ↔ _
  rw [Bool.or_eq_false_iff, hstream, hstream]
  rfl

/-- The leftover loop calls until both streams are at their end, or until a call reads nothing. -/
theorem leftoverLoop_calls (s : Streams) (rounds m : ℕ)
    (hrounds : (s.out.calls m).remaining + (s.err.calls m).remaining ≤ rounds) :
    ∃ k, m ≤ k ∧ leftoverLoop rounds (s.calls m) = s.calls k ∧
      (((s.out.calls k).remaining = 0 ∧ (s.err.calls k).remaining = 0) ∨
        ∃ j, m ≤ j ∧ k = j + 1 ∧ AllFail s j) ∧
      ∀ j, m ≤ j → AllFail s j → k ≤ j + 1 := by
  induction rounds generalizing m with
  | zero =>
    have hzero : (s.out.calls m).remaining = 0 ∧ (s.err.calls m).remaining = 0 := by omega
    exact ⟨m, Nat.le_refl _, rfl, Or.inl hzero, fun j hj _ => by omega⟩
  | succ rounds ih =>
    by_cases hincomplete : (s.calls m).out.incomplete ∨ (s.calls m).err.incomplete
    · have hpos : 0 < (s.out.calls m).remaining + (s.err.calls m).remaining := by
        rcases hincomplete with h | h
        · have := (Stream.incomplete_iff _).mp h
          exact Nat.add_pos_left this _
        · have := (Stream.incomplete_iff _).mp h
          exact Nat.add_pos_right _ this
      rw [leftoverLoop, if_pos hincomplete]
      by_cases hfail : AllFail s m
      · have hok : (s.calls m).doOutput.1 = false := (s.doOutput_fst m).mpr hfail
        dsimp only
        rw [hok, if_neg (by simp)]
        exact ⟨m + 1, Nat.le_succ m, rfl, Or.inr ⟨m, Nat.le_refl _, rfl, hfail⟩,
          fun j hj _ => by omega⟩
      · have hok : (s.calls m).doOutput.1 = true := by
          rw [← Bool.not_eq_false]
          exact fun h => hfail ((s.doOutput_fst m).mp h)
        dsimp only
        rw [hok, if_pos rfl]
        have hout : (s.out.calls (m + 1)).remaining = (s.out.calls m).remaining - 1 :=
          Stream.remaining_doOutput _
        have herr : (s.err.calls (m + 1)).remaining = (s.err.calls m).remaining - 1 :=
          Stream.remaining_doOutput _
        obtain ⟨k, hk, hloop, hend, hfirst⟩ := ih (m + 1) (by omega)
        refine ⟨k, by omega, hloop, ?_, fun j hj hjfail => ?_⟩
        · rcases hend with hend | ⟨j, hj, hrest⟩
          · exact Or.inl hend
          · exact Or.inr ⟨j, by omega, hrest⟩
        · rcases Nat.eq_or_lt_of_le hj with rfl | hlt
          · exact absurd hjfail hfail
          · exact hfirst j hlt hjfail
    · rw [leftoverLoop, if_neg hincomplete]
      rw [not_or, Stream.incomplete_iff, Stream.incomplete_iff] at hincomplete
      have hzero : (s.out.calls m).remaining = 0 ∧ (s.err.calls m).remaining = 0 :=
        ⟨Nat.eq_zero_of_not_pos hincomplete.1, Nat.eq_zero_of_not_pos hincomplete.2⟩
      exact ⟨m, Nat.le_refl _, rfl, Or.inl hzero, fun j hj _ => by omega⟩

/-- After `k` calls the callback has all the lines exactly if the rest of the reads brings no
text and no unterminated line was pushed back. -/
theorem Stream.lines_calls_iff (reads : List Chunk) (k : ℕ) :
    ((Stream.start true true reads).calls k).lines =
        Textual.lines lineFeed carriageReturn (wholeOutput reads) ↔
      Terminated lineFeed (wholeOutput reads) ∧ wholeOutput (reads.drop k) = [] := by
  obtain ⟨front, htext, hfront, hpushback, hlines⟩ := Stream.assembled_calls reads k
  have hwhole : wholeOutput reads = front ++
      (((Stream.start true true reads).calls k).pushback ++ wholeOutput (reads.drop k)) := by
    rw [← List.append_assoc, ← htext, wholeOutput, wholeOutput, wholeOutput,
      ← List.flatMap_append, List.take_append_drop]
  rw [hlines, hwhole, lines_append hfront, List.self_eq_append_right, lines_eq_nil_iff,
    List.append_eq_nil_iff]
  constructor
  · rintro ⟨hnil, hrest⟩
    rw [hnil, hrest, List.append_nil, List.append_nil]
    exact ⟨hfront, rfl⟩
  · rintro ⟨hterminated, hrest⟩
    rw [hrest, List.append_nil] at hterminated
    exact ⟨(terminated_append_iff hfront hpushback).mp hterminated, hrest⟩

/-- Once nothing is left to come, nothing comes later. -/
theorem wholeOutput_drop_of_le {reads : List Chunk} {k l : ℕ}
    (h : wholeOutput (reads.drop k) = []) (hkl : k ≤ l) : wholeOutput (reads.drop l) = [] := by
  rw [wholeOutput, List.flatMap_eq_nil_iff] at h ⊢
  intro chunk hchunk
  refine h chunk ?_
  rw [show l = k + (l - k) by omega, ← List.drop_drop] at hchunk
  exact List.mem_of_mem_drop hchunk

/-- The callbacks of both streams get exactly the lines of the output, if and only if the output
is empty or ends with a line feed, and no failure ends the leftover loop before the text. -/
theorem runManage_lines_iff (rounds : List Round) (ptyPolls : ℕ) (hasOut lineCallbackOut : Bool)
    (readsOut : List Chunk) (hasErr lineCallbackErr : Bool) (readsErr : List Chunk) :
    let s : Streams :=
      ⟨.start hasOut lineCallbackOut readsOut, .start hasErr lineCallbackErr readsErr⟩
    ((runManage rounds ptyPolls s).out.LinesComplete readsOut ↔
        s.out.WellEnded s (callsBefore rounds ptyPolls)) ∧
      ((runManage rounds ptyPolls s).err.LinesComplete readsErr ↔
        s.err.WellEnded s (callsBefore rounds ptyPolls)) := by
  intro s
  set m := callsBefore rounds ptyPolls with hm
  have hfuel : ∀ x : Stream, x.remaining ≤ x.reads.length := by
    intro x
    unfold Stream.remaining
    split
    · exact Nat.le_refl _
    · exact Nat.zero_le _
  obtain ⟨k, hk, hloop, hend, hfirst⟩ := leftoverLoop_calls s
    ((s.out.calls m).reads.length + (s.err.calls m).reads.length) m
    (Nat.add_le_add (hfuel _) (hfuel _))
  have hrun : runManage rounds ptyPolls s = s.calls k := by
    unfold runManage
    rw [drainPty_mainLoop]
    exact hloop
  -- the argument is the same for both streams
  have hstream : ∀ (has lineCallback : Bool) (reads : List Chunk),
      (((Stream.start has lineCallback reads).calls k).remaining = 0 ∨
        ∃ j, m ≤ j ∧ k = j + 1 ∧ AllFail s j) →
      (((Stream.start has lineCallback reads).calls k).LinesComplete reads ↔
        (Stream.start has lineCallback reads).WellEnded s m) := by
    intro has lineCallback reads hend
    obtain ⟨hhas, hcallback, hreads⟩ := (Stream.start has lineCallback reads).calls_same k
    unfold Stream.LinesComplete Stream.WellEnded
    rw [hhas, hcallback]
    refine imp_congr_right fun hhas' => imp_congr_right fun hcallback' => ?_
    have hhas' : has = true := hhas'
    have hcallback' : lineCallback = true := hcallback'
    subst hhas' hcallback'
    have hzero : ((Stream.start true true reads).calls k).remaining = 0 →
        wholeOutput (reads.drop k) = [] := by
      intro hremaining
      rw [Stream.remaining, hhas] at hremaining
      have hnil : ((Stream.start true true reads).calls k).reads = [] :=
        List.length_eq_zero_iff.mp hremaining
      have hdrop : reads.drop k = [] := (hreads rfl).symm.trans hnil
      rw [hdrop]
      rfl
    refine (Stream.lines_calls_iff reads k).trans (and_congr_right fun _ => ⟨?_, ?_⟩)
    · intro hnone j hj hfail
      exact wholeOutput_drop_of_le hnone (hfirst j hj hfail)
    · intro hfailures
      rcases hend with hremaining | ⟨j, hj, rfl, hfail⟩
      · exact hzero hremaining
      · exact hfailures j hj hfail
  rw [hrun]
  exact ⟨hstream _ _ _ (hend.imp_left And.left), hstream _ _ _ (hend.imp_left And.right)⟩

/-- The output `foo` without a line feed: the callback is not called. -/
theorem unterminated_line_lost :
    (runManage [.polled true] 0 ⟨.start true true [.text [102, 111, 111]],
      .start true false []⟩).out.lines
        = [] ∧
      ¬ (runManage [.polled true] 0
          ⟨.start true true [.text [102, 111, 111]], .start true false []⟩).out.LinesComplete
        [.text [102, 111, 111]] := by
  unfold Stream.LinesComplete
  decide

end Processx
