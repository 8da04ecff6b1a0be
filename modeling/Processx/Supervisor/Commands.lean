import Processx.Connection.Utf8
import Processx.Library.Lines
import Processx.Supervisor.Children

/-!
# Lines and the history

What a line of the input asks for can be told from the line alone. The supervisor looks at more:
`extract_pid()` reads `errno`, which an earlier line can have set. It also looks at less, as
`strtol()` takes a number from the start of a line and ignores what follows.
-/

namespace Processx

open Textual

/-- A line without its line end. -/
def lineText (readbuf : Bytes) : Bytes :=
  if readbuf.getLast? = some lineFeed then chomp carriageReturn readbuf.dropLast else readbuf

/-- The digits of a number, without its sign. -/
def unsignedPart (text : Bytes) : Bytes := if text.head? = some 45 then text.tail else text

/-- Is a text a decimal number? -/
def isNumber (text : Bytes) : Bool :=
  !(unsignedPart text).isEmpty && (unsignedPart text).all isDigitByte

/-- The value of a decimal number. -/
def numberValue (text : Bytes) : ℤ :=
  let value := (unsignedPart text).foldl (fun n c => 10 * n + (c.toNat - 48 : ℤ)) 0
  if text.head? = some 45 then -value else value

/-- What a line asks for: `kill`, or a number, up to `INT_MAX` with or without a sign, that is the
whole line. Any other line asks for nothing. -/
def lineMeaning (readbuf : Bytes) : Command :=
  let text := lineText readbuf
  if readbuf.take 4 = [107, 105, 108, 108] then .kill
  else if isNumber text ∧ -intMax ≤ numberValue text ∧ numberValue text ≤ intMax then
    numberCommand (numberValue text)
  else .other

/-- A line has the effect that it asks for, and if its number is negated this does not
overflow. -/
structure Supervisor.Obeys (long : LongRange) (s : Supervisor) (readbuf : Bytes) : Prop where
  children : (s.readLine long readbuf).children.toFinset =
    ((lineMeaning readbuf).apply ⟨s.children.toFinset, s.exiting⟩).pids
  exiting : (s.readLine long readbuf).exiting =
    ((lineMeaning readbuf).apply ⟨s.children.toFinset, s.exiting⟩).exiting
  negation : readbuf.take 4 ≠ [107, 105, 108, 108] →
    (extractPid long readbuf s.erange).1 < 0 → -(extractPid long readbuf s.erange).1 ≤ intMax

/-- When a line is obeyed: it is a `kill`. Or `errno` is `ERANGE`, and what the line asks for
changes nothing. Or `errno` is something else, the number in front is not `INT_MIN`, and it is the
whole line, or to watch or unwatch this number changes nothing. -/
def Supervisor.HearsRight (long : LongRange) (s : Supervisor) (readbuf : Bytes) : Prop :=
  readbuf.take 4 = [107, 105, 108, 108] ∨
    s.erange = true ∧ (lineMeaning readbuf).Idle s ∨
    s.erange = false ∧ strtol long readbuf ≠ (intMin, false) ∧
      (isNumber (lineText readbuf) = true ∨ (lineCommand long readbuf).Idle s)

/-- The supervisor after some steps. -/
def Supervisor.run (long : LongRange) (s : Supervisor) (steps : List SupervisorStep) :
    Supervisor :=
  steps.foldl (fun s step => (s.step long step).1) s

/-- Behind the text of a line there is no digit. -/
theorem exists_lineText_append (readbuf : Bytes) :
    ∃ ending, readbuf = lineText readbuf ++ ending ∧ ending.takeWhile isDigitByte = [] := by
  unfold lineText chomp
  by_cases hfeed : readbuf.getLast? = some lineFeed
  · obtain ⟨line, rfl⟩ := List.getLast?_eq_some_iff.mp hfeed
    rw [if_pos hfeed, List.dropLast_concat]
    by_cases hreturn : line.getLast? = some carriageReturn
    · obtain ⟨text, rfl⟩ := List.getLast?_eq_some_iff.mp hreturn
      rw [if_pos hreturn, List.dropLast_concat]
      exact ⟨[carriageReturn, lineFeed], by simp, rfl⟩
    · rw [if_neg hreturn]
      exact ⟨[lineFeed], rfl, rfl⟩
  · rw [if_neg hfeed]
    exact ⟨[], by simp, rfl⟩

/-- A digit is neither white space nor a sign. -/
theorem digit_not_space_or_sign (c : UInt8) :
    isDigitByte c = true → isSpaceByte c = false ∧ c ≠ 43 :=
  forall_byte (P := fun c => isDigitByte c = true → isSpaceByte c = false ∧ c ≠ 43)
    (by decide +kernel) c

/-- `strtol()` on a line that is a number. -/
theorem strtol_of_isNumber (long : LongRange) {readbuf : Bytes}
    (h : isNumber (lineText readbuf) = true) :
    strtol long readbuf =
      if numberValue (lineText readbuf) > long.max then (long.max, true)
      else if numberValue (lineText readbuf) < long.min then (long.min, true)
      else (numberValue (lineText readbuf), false) := by
  obtain ⟨ending, hending, hdigit⟩ := exists_lineText_append readbuf
  generalize lineText readbuf = text at h hending ⊢
  subst hending
  have htake {digits : Bytes} (hall : digits.all isDigitByte = true) :
      (digits ++ ending).takeWhile isDigitByte = digits := by
    rw [List.takeWhile_append_of_pos (by simpa using hall), hdigit, List.append_nil]
  cases text with
  | nil => cases h
  | cons c digits =>
    simp only [isNumber, unsignedPart, Bool.and_eq_true] at h
    unfold strtol numberValue unsignedPart
    by_cases hminus : c = 45
    · subst hminus
      have hall : digits.all isDigitByte = true := by simpa using h.2
      have hspace : (45 :: digits ++ ending).dropWhile isSpaceByte = 45 :: (digits ++ ending) := rfl
      simp only [hspace, List.head?_cons, true_or, if_true, List.tail_cons, htake hall]
    · have hall : (c :: digits).all isDigitByte = true := by simpa [hminus] using h.2
      have hc : isDigitByte c = true := by
        rw [List.all_cons, Bool.and_eq_true] at hall
        exact hall.1
      obtain ⟨hspace, hplus⟩ := digit_not_space_or_sign c hc
      have hdrop : (c :: digits ++ ending).dropWhile isSpaceByte = c :: digits ++ ending :=
        List.dropWhile_cons_of_neg (by simp [hspace])
      have htext : (c :: digits ++ ending).head? = some c := rfl
      rw [hdrop]
      simp only [htext, List.head?_cons, Option.some.injEq, hminus, hplus, or_self, if_false,
        htake hall]

/-- The number that the supervisor acts on, if `errno` is not `ERANGE` before. -/
theorem lineCommand_eq (long : LongRange) {readbuf : Bytes}
    (hkill : readbuf.take 4 ≠ [107, 105, 108, 108]) :
    lineCommand long readbuf = numberCommand (extractPid long readbuf false).1 := by
  unfold lineCommand extractPid
  obtain ⟨pid, outOfRange⟩ := strtol long readbuf
  dsimp only
  rw [if_neg hkill, Bool.false_or]
  split_ifs <;> rfl

/-- It is a number of type `int`, and `INT_MIN` only if it is read like this. -/
theorem extractPid_range (long : LongRange) (readbuf : Bytes) :
    intMin ≤ (extractPid long readbuf false).1 ∧
      ((extractPid long readbuf false).1 = intMin ↔ strtol long readbuf = (intMin, false)) := by
  unfold extractPid
  obtain ⟨pid, outOfRange⟩ := strtol long readbuf
  dsimp only
  rw [Bool.false_or]
  by_cases hbad : outOfRange = true ∨ pid > intMax ∨ pid < intMin
  · rw [if_pos hbad]
    refine ⟨show intMin ≤ 0 by decide, iff_of_false (show (0 : ℤ) ≠ intMin by decide) ?_⟩
    intro heq
    obtain ⟨rfl, rfl⟩ := Prod.mk.inj heq
    revert hbad
    decide
  · rw [if_neg hbad]
    simp only [not_or, not_lt, Bool.not_eq_true] at hbad
    exact ⟨hbad.2.2, by simp [hbad.1]⟩

/-- A line that is not a `kill` asks for what a number asks for, or for nothing. -/
theorem lineMeaning_eq {readbuf : Bytes} (hkill : readbuf.take 4 ≠ [107, 105, 108, 108]) :
    ∃ pid, lineMeaning readbuf = numberCommand pid := by
  unfold lineMeaning
  dsimp only
  rw [if_neg hkill]
  split_ifs
  · exact ⟨_, rfl⟩
  · exact ⟨0, rfl⟩

/-- For a number that is the whole line the two meanings are the same, up to `INT_MIN`. -/
theorem lineMeaning_of_isNumber (long : LongRange) {readbuf : Bytes}
    (h : isNumber (lineText readbuf) = true) (hmin : strtol long readbuf ≠ (intMin, false)) :
    lineMeaning readbuf = lineCommand long readbuf := by
  have hrange := long.min_le
  have hrange' := long.le_max
  unfold lineMeaning lineCommand
  rw [strtol_of_isNumber long h] at hmin ⊢
  dsimp only
  generalize numberValue (lineText readbuf) = value at hmin ⊢
  have hnegative : intMin = -intMax - 1 := rfl
  by_cases hkill : readbuf.take 4 = [107, 105, 108, 108]
  · rw [if_pos hkill, if_pos hkill]
  rw [if_neg hkill, if_neg hkill, h]
  by_cases hlarge : value > long.max
  · rw [if_pos hlarge, if_neg (by omega)]
    rfl
  by_cases hsmall : value < long.min
  · rw [if_neg hlarge, if_pos hsmall, if_neg (by omega)]
    rfl
  rw [if_neg hlarge, if_neg hsmall] at hmin ⊢
  have hvalue : value ≠ intMin := fun heq => hmin (by rw [heq])
  by_cases hfits : -intMax ≤ value ∧ value ≤ intMax
  · rw [if_pos ⟨rfl, hfits⟩, if_neg (by simp; omega)]
  · rw [if_neg fun hnumber => hfits hnumber.2, if_pos (by simp; omega)]

/-- A line is obeyed exactly if it is heard right. -/
theorem Supervisor.Keeps.obeys_iff (long : LongRange) {s : Supervisor} (h : s.Keeps)
    (readbuf : Bytes) : s.Obeys long readbuf ↔ s.HearsRight long readbuf := by
  by_cases hkill : readbuf.take 4 = [107, 105, 108, 108]
  · refine iff_of_true ⟨?_, ?_, fun hnot => absurd hkill hnot⟩ (Or.inl hkill)
    · rw [Supervisor.readLine, if_pos hkill, lineMeaning, if_pos hkill]
      rfl
    · rw [Supervisor.readLine, if_pos hkill, lineMeaning, if_pos hkill]
      rfl
  obtain ⟨asked, hasked⟩ := lineMeaning_eq hkill
  set w : WatchSet := ⟨s.children.toFinset, s.exiting⟩
  have hidle (command : Command) : (w.pids = (command.apply w).pids) ↔ command.Idle s :=
    pids_eq_apply_iff (w := w) h rfl command
  cases herange : s.erange with
  | true =>
    -- the number is taken for an error
    have hzero : extractPid long readbuf s.erange = (0, true) := by
      unfold extractPid
      rw [herange]
      simp
    have hread : s.readLine long readbuf = { s with erange := true } := by
      rw [Supervisor.readLine, if_neg hkill, hzero]
      rfl
    have hright : s.HearsRight long readbuf ↔ (lineMeaning readbuf).Idle s := by
      simp [Supervisor.HearsRight, hkill, herange]
    rw [hright, ← hidle]
    constructor
    · intro hobeys
      have hchildren := hobeys.children
      rwa [hread] at hchildren
    · intro hpids
      refine ⟨?_, ?_, fun _ hneg => ?_⟩
      · rwa [hread]
      · rw [hread, hasked, exiting_numberCommand]
      · rw [hzero] at hneg
        exact absurd hneg (lt_irrefl 0)
  | false =>
    obtain ⟨hmin, hintMin⟩ := extractPid_range long readbuf
    have hcommand := lineCommand_eq long hkill
    have hread : (s.readLine long readbuf).Agrees ((lineCommand long readbuf).apply w) := by
      rw [hcommand, Supervisor.readLine, if_neg hkill, herange]
      have hkeeps : ({ s with erange := (extractPid long readbuf false).2 } : Supervisor).Keeps :=
        ⟨h.nodup, h.fits, h.positive⟩
      exact Supervisor.Agrees.watchPid hkeeps (w := w) ⟨rfl, rfl⟩ _
    have hexiting :
        (s.readLine long readbuf).exiting = ((lineMeaning readbuf).apply w).exiting := by
      rw [hread.2, hcommand, hasked, exiting_numberCommand, exiting_numberCommand]
    have hobeys : s.Obeys long readbuf ↔
        ((lineCommand long readbuf).apply w).pids = ((lineMeaning readbuf).apply w).pids ∧
          strtol long readbuf ≠ (intMin, false) := by
      rw [Ne, ← hintMin]
      constructor
      · rintro ⟨hchildren, -, hnegation⟩
        rw [herange] at hnegation
        refine ⟨hread.1.symm.trans hchildren, fun heq => ?_⟩
        have hfits := hnegation hkill
        rw [heq] at hfits
        exact absurd (hfits (by decide)) (by decide)
      · rintro ⟨hpids, hne⟩
        refine ⟨hread.1.trans hpids, hexiting, fun _ _ => ?_⟩
        rw [herange]
        have hnegative : intMin = -intMax - 1 := rfl
        omega
    have hright : s.HearsRight long readbuf ↔ strtol long readbuf ≠ (intMin, false) ∧
        (isNumber (lineText readbuf) = true ∨ (lineCommand long readbuf).Idle s) := by
      simp [Supervisor.HearsRight, hkill, herange]
    rw [hobeys, hright, and_comm]
    refine and_congr_right fun hne => ?_
    by_cases hnumber : isNumber (lineText readbuf) = true
    · rw [lineMeaning_of_isNumber long hnumber hne]
      exact iff_of_true rfl (Or.inl hnumber)
    · -- the line asks for nothing
      have hother : lineMeaning readbuf = .other := by
        unfold lineMeaning
        dsimp only
        rw [if_neg hkill, if_neg fun hboth => hnumber hboth.1]
      rw [hother, eq_comm, or_iff_right hnumber]
      exact hidle _

/-- The invariant survives any run of lines and sweeps. -/
theorem Supervisor.Keeps.run_keeps (long : LongRange) {s : Supervisor} (h : s.Keeps)
    (steps : List SupervisorStep) : (s.run long steps).Keeps := by
  induction steps generalizing s with
  | nil => exact h
  | cons step steps ih => exact ih (h.step long step)

end Processx
