import Processx.RunManage
import Mathlib.Logic.Function.Iterate

/-!
# What is pushed back

Between two calls of `do_output()` the loops of `run_manage()` keep the end of the output that is
not a line yet. What the line callback got and what is kept are computed here from the output
alone, so that they do not depend on how the output was cut into chunks.
-/

namespace Processx

open Textual

/-- The text of a stream that is for its line callback: none without a pipe or a callback. -/
def Stream.forCallback (s : Stream) (text : Bytes) : Bytes :=
  if s.has && s.lineCallback then text else []

/-- The line callback got the terminated lines of a text, and its unterminated end is kept. -/
def Stream.Reassembles (s : Stream) (text : Bytes) : Prop :=
  s.lines = Textual.lines lineFeed carriageReturn (complete lineFeed (s.forCallback text)) ∧
    s.pushback = unterminated lineFeed (s.forCallback text)

/-- Without a pipe or a callback no line is passed on and nothing is kept. -/
theorem Stream.doOutput_quiet {s : Stream} (h : (s.has && s.lineCallback) = false) :
    s.doOutput.2.lines = s.lines ∧ s.doOutput.2.pushback = s.pushback := by
  unfold Stream.doOutput
  cases hhas : s.has with
  | false => exact ⟨rfl, rfl⟩
  | true =>
    have hcallback : s.lineCallback = false := by simpa [hhas] using h
    rw [if_neg (by simp)]
    cases s.reads with
    | nil => exact ⟨rfl, rfl⟩
    | cons chunk reads =>
      cases chunk with
      | error => exact ⟨rfl, rfl⟩
      | text newout =>
        simp only [hcallback, Bool.false_eq_true, if_false]
        split_ifs <;> exact ⟨rfl, rfl⟩

/-- One stream after some calls, whether it is used or not. -/
theorem Stream.reassembles_calls (has lineCallback : Bool) (reads : List Chunk) (k : ℕ) :
    ((Stream.start has lineCallback reads).calls k).Reassembles (wholeOutput (reads.take k)) := by
  have hsame := (Stream.start has lineCallback reads).calls_same
  unfold Stream.Reassembles Stream.forCallback
  rw [(hsame k).1, (hsame k).2.1]
  show _ = Textual.lines _ _ (complete _ (if (has && lineCallback) = true then _ else _)) ∧
    _ = unterminated _ (if (has && lineCallback) = true then _ else _)
  cases hused : has && lineCallback with
  | true =>
    obtain ⟨rfl, rfl⟩ := Bool.and_eq_true_iff.mp hused
    obtain ⟨front, htext, hfront, hpushback, hlines⟩ := Stream.assembled_calls reads k
    obtain ⟨hcomplete, hunterminated⟩ := complete_append hfront hpushback
    rw [if_pos rfl, htext, hcomplete, hunterminated]
    exact ⟨hlines, rfl⟩
  | false =>
    rw [if_neg Bool.false_ne_true]
    induction k with
    | zero => exact ⟨rfl, rfl⟩
    | succ k ih =>
      obtain ⟨hlines, hpushback⟩ :=
        Stream.doOutput_quiet (s := (Stream.start has lineCallback reads).calls k)
          (by rw [(hsame k).1, (hsame k).2.1]; exact hused)
      exact ⟨hlines.trans ih.1, hpushback.trans ih.2⟩

/-- Calling `do_output()` again and again. -/
theorem Streams.iterate_doOutput (s : Streams) (k : ℕ) :
    (fun s : Streams => s.doOutput.2)^[k] s = s.calls k := by
  induction k with
  | zero => rfl
  | succ k ih =>
    rw [Function.iterate_succ_apply', ih]
    rfl

/-- **The pushback invariant.** After any number of calls of `do_output()` each line callback got
exactly the terminated lines of the text of the chunks so far, and the pushback is the end of that
text. So if the same texts are cut in another way, the lines and the pushbacks are the same. -/
theorem Streams.pushback_invariant (hasOut lineCallbackOut hasErr lineCallbackErr : Bool)
    (readsOut readsErr : List Chunk) (k : ℕ) :
    let run (readsOut readsErr : List Chunk) (k : ℕ) : Streams :=
      (fun s : Streams => s.doOutput.2)^[k]
        ⟨.start hasOut lineCallbackOut readsOut, .start hasErr lineCallbackErr readsErr⟩
    (run readsOut readsErr k).out.Reassembles (wholeOutput (readsOut.take k)) ∧
      (run readsOut readsErr k).err.Reassembles (wholeOutput (readsErr.take k)) ∧
      ∀ (readsOut' readsErr' : List Chunk) (k' : ℕ),
        wholeOutput (readsOut'.take k') = wholeOutput (readsOut.take k) →
        wholeOutput (readsErr'.take k') = wholeOutput (readsErr.take k) →
        ((run readsOut' readsErr' k').out.lines, (run readsOut' readsErr' k').out.pushback) =
            ((run readsOut readsErr k).out.lines, (run readsOut readsErr k).out.pushback) ∧
          ((run readsOut' readsErr' k').err.lines, (run readsOut' readsErr' k').err.pushback) =
            ((run readsOut readsErr k).err.lines, (run readsOut readsErr k).err.pushback) := by
  intro run
  have hstream (has lineCallback : Bool) (reads reads' : List Chunk) (k' : ℕ)
      (htext : wholeOutput (reads'.take k') = wholeOutput (reads.take k)) :
      (((Stream.start has lineCallback reads').calls k').lines,
          ((Stream.start has lineCallback reads').calls k').pushback) =
        (((Stream.start has lineCallback reads).calls k).lines,
          ((Stream.start has lineCallback reads).calls k).pushback) := by
    obtain ⟨hlines, hpushback⟩ := Stream.reassembles_calls has lineCallback reads k
    obtain ⟨hlines', hpushback'⟩ := Stream.reassembles_calls has lineCallback reads' k'
    have hsame := (Stream.start has lineCallback reads).calls_same k
    have hsame' := (Stream.start has lineCallback reads').calls_same k'
    unfold Stream.forCallback at hlines hpushback hlines' hpushback'
    rw [hsame.1, hsame.2.1] at hlines hpushback
    rw [hsame'.1, hsame'.2.1, htext] at hlines' hpushback'
    rw [hlines, hpushback, hlines', hpushback']
    rfl
  simp only [run, Streams.iterate_doOutput]
  exact ⟨Stream.reassembles_calls _ _ _ _, Stream.reassembles_calls _ _ _ _,
    fun _ _ _ hout herr => ⟨hstream _ _ _ _ _ hout, hstream _ _ _ _ _ herr⟩⟩

/-- `a`, CR, LF and `b` at once, and with a cut between CR and LF. -/
theorem Streams.pushback_invariant_crlf :
    let run (reads : List Chunk) (k : ℕ) : Streams :=
      (fun s : Streams => s.doOutput.2)^[k] ⟨.start true true reads, .start false false []⟩
    (run [.text [97, 13, 10, 98]] 1).out.lines = [[97]] ∧
      ((run [.text [97, 13], .text [10, 98]] 2).out.lines,
          (run [.text [97, 13], .text [10, 98]] 2).out.pushback) =
        ((run [.text [97, 13, 10, 98]] 1).out.lines,
          (run [.text [97, 13, 10, 98]] 1).out.pushback) :=
  ⟨by decide, ((Streams.pushback_invariant true true false false [.text [97, 13, 10, 98]] []
    1).2.2 [.text [97, 13], .text [10, 98]] [] 2 (by decide) (by decide)).1⟩

end Processx
