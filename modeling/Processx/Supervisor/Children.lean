import Processx.Connection.Model
import Processx.Library.SwapArray
import Mathlib.Tactic.Common

/-!
# The children of the supervisor

The supervisor reads lines with process ids, and tracks these processes in a fixed array. As a
set the tracked ids are what the lines ask for, unless a number is out of range: then `errno`
stays at `ERANGE`, which `extract_pid()` takes for an error of its own call.
-/

namespace Processx

/-- `MAX_CHILDREN` -/
def maxChildren : ℕ := 1024

/-- `INT_MAX` -/
def intMax : ℤ := 2147483647

/-- `INT_MIN` -/
def intMin : ℤ := -2147483648

/-- The range of the type `long`, which is not smaller than that of `int`. -/
structure LongRange where
  min : ℤ
  max : ℤ
  min_le : min ≤ intMin
  le_max : intMax ≤ max

/-- A `long` of 64 bits. -/
def long64 : LongRange := ⟨-9223372036854775808, 9223372036854775807, by decide, by decide⟩

/-- `isspace()` -/
def isSpaceByte (c : UInt8) : Bool := c = 32 ∨ (9 ≤ c ∧ c ≤ 13)

/-- `isdigit()` -/
def isDigitByte (c : UInt8) : Bool := 48 ≤ c ∧ c ≤ 57

/-- `strtol(buf, NULL, 10)`: the number, and whether it is out of range. -/
def strtol (long : LongRange) (buf : Bytes) : ℤ × Bool :=
  let text := buf.dropWhile isSpaceByte
  let negative := text.head? = some 45
  let text := if negative ∨ text.head? = some 43 then text.tail else text
  let number := (text.takeWhile isDigitByte).foldl (fun n c => 10 * n + (c.toNat - 48 : ℤ)) 0
  let number := if negative then -number else number
  if number > long.max then (long.max, true)
  else if number < long.min then (long.min, true)
  else (number, false)

/-- The globals of the supervisor: `children` with `n_children`, whether `errno` is `ERANGE`, and
whether `kill_children()` was called, after which the program ends. -/
structure Supervisor where
  children : SwapArray ℤ
  erange : Bool
  exiting : Bool

/-- At the start of the polling loop. -/
def Supervisor.start (cells : ℕ → ℤ) : Supervisor := ⟨⟨cells, 0⟩, false, false⟩

/-- `extract_pid()`: the number, and whether `errno` is `ERANGE` now. -/
def extractPid (long : LongRange) (buf : Bytes) (erange : Bool) : ℤ × Bool :=
  let (pid, outOfRange) := strtol long buf
  let erange := erange || outOfRange
  if erange ∨ pid > intMax ∨ pid < intMin then (0, erange) else (pid, erange)

/-- What `main()` does with the number of a line. -/
def Supervisor.watchPid (s : Supervisor) (pid : ℤ) : Supervisor :=
  if pid > 0 then
    if s.children.count = maxChildren then s
    else if s.children.contains pid then s
    else { s with children := s.children.push pid }
  else if pid < 0 then
    -- the negation of `INT_MIN` overflows
    let pid := if pid = intMin then intMin else -pid
    { s with children := s.children.removeFirst pid }
  else s

/-- The body of the loop over the lines in `main()`, for one line in `readbuf`. -/
def Supervisor.readLine (long : LongRange) (s : Supervisor) (readbuf : Bytes) : Supervisor :=
  if readbuf.take 4 = [107, 105, 108, 108] then { s with exiting := true }
  else
    let (pid, erange) := extractPid long readbuf s.erange
    { s with erange := erange }.watchPid pid

/-- What `kill(pid, 0)` does. -/
inductive KillZero
  | ok
  | esrch
  | otherError
  deriving DecidableEq

/-- `pid_is_running()` -/
def pidIsRunning (answer : KillZero) : Bool := answer ≠ .esrch

/-- The loop that removes children that are not running, from place `i` on, with the processes
that it removes. Each round looks at one place, so the entries bound the rounds. -/
def sweepLoop (answer : ℕ → KillZero) : ℕ → ℕ → Supervisor → Supervisor × List ℤ
  | 0, _, s => (s, [])
  | rounds + 1, i, s =>
    if i < s.children.count then
      let s := { s with erange := s.erange && answer i = .ok }
      if pidIsRunning (answer i) then sweepLoop answer rounds (i + 1) s
      else
        let (after, removed) :=
          sweepLoop answer rounds (i + 1) { s with children := s.children.removeAt i }
        (after, s.children.cells i :: removed)
    else (s, [])

/-- One sweep, in `main()` or in `kill_children()`. -/
def Supervisor.sweep (answer : ℕ → KillZero) (s : Supervisor) : Supervisor × List ℤ :=
  sweepLoop answer s.children.count 0 s

/-- More rounds than entries change nothing. -/
theorem sweepLoop_rounds (answer : ℕ → KillZero) (rounds rounds' i : ℕ) (s : Supervisor)
    (h : s.children.count - i ≤ rounds) (h' : s.children.count - i ≤ rounds') :
    sweepLoop answer rounds i s = sweepLoop answer rounds' i s := by
  induction rounds generalizing rounds' i s with
  | zero =>
    cases rounds' with
    | zero => rfl
    | succ rounds' =>
      rw [sweepLoop, sweepLoop, if_neg (by omega)]
  | succ rounds ih =>
    cases rounds' with
    | zero => rw [sweepLoop, sweepLoop, if_neg (by omega)]
    | succ rounds' =>
      rw [sweepLoop, sweepLoop]
      by_cases hi : i < s.children.count
      · rw [if_pos hi, if_pos hi]
        dsimp only
        have hremove : (s.children.removeAt i).count = s.children.count - 1 := rfl
        rw [ih rounds' (i + 1) _ (by dsimp only; omega) (by dsimp only; omega),
          ih rounds' (i + 1) _ (by dsimp only; omega) (by dsimp only; omega)]
      · rw [if_neg hi, if_neg hi]

/-- What can happen: a line is read, `errno` is set to something else by a call that fails, dead
children are swept out, or a signal or the death of the parent ends the program. -/
inductive SupervisorStep
  | line (readbuf : Bytes)
  | errno
  | sweep (answer : ℕ → KillZero)
  | stop

/-- One step, with the processes that a sweep removes. No line is read when the program ends. -/
def Supervisor.step (long : LongRange) (s : Supervisor) : SupervisorStep → Supervisor × List ℤ
  | .line readbuf => (if s.exiting then s else s.readLine long readbuf, [])
  | .errno => ({ s with erange := false }, [])
  | .sweep answer => s.sweep answer
  | .stop => ({ s with exiting := true }, [])

/-- What a line asks for. -/
inductive Command
  | watch (pid : ℤ)
  | unwatch (pid : ℤ)
  | kill
  | other
  deriving DecidableEq

/-- The meaning of a number. -/
def numberCommand (pid : ℤ) : Command :=
  if pid > 0 then .watch pid else if pid < 0 then .unwatch (-pid) else .other

/-- The meaning of a line, which does not depend on the lines before. -/
def lineCommand (long : LongRange) (readbuf : Bytes) : Command :=
  let (pid, outOfRange) := strtol long readbuf
  if readbuf.take 4 = [107, 105, 108, 108] then .kill
  else if outOfRange ∨ pid > intMax ∨ pid < intMin then .other
  else numberCommand pid

/-- The set of processes to track, and whether the program is to end. -/
structure WatchSet where
  pids : Finset ℤ
  exiting : Bool

/-- A command on the set. -/
def Command.apply (w : WatchSet) : Command → WatchSet
  | .watch pid => if w.pids.card = maxChildren then w else { w with pids := insert pid w.pids }
  | .unwatch pid => { w with pids := w.pids.erase pid }
  | .kill => { w with exiting := true }
  | .other => w

/-- A step on the set, where `removed` are the processes that a sweep has removed. -/
def WatchSet.step (long : LongRange) (w : WatchSet) (removed : List ℤ) : SupervisorStep → WatchSet
  | .line readbuf => if w.exiting then w else (lineCommand long readbuf).apply w
  | .errno => w
  | .sweep _ => { w with pids := w.pids \ removed.toFinset }
  | .stop => { w with exiting := true }

/-- A sequence of steps of the supervisor and of the set. -/
def runBoth (long : LongRange) (s : Supervisor × WatchSet) (steps : List SupervisorStep) :
    Supervisor × WatchSet :=
  steps.foldl (fun s step => ((s.1.step long step).1, s.2.step long (s.1.step long step).2 step)) s

/-- No duplicates, no more entries than there are places, and just the set. -/
def Tracks (s : Supervisor) (w : WatchSet) : Prop :=
  s.children.entries.Nodup ∧ s.children.count ≤ maxChildren ∧ s.children.toFinset = w.pids

/-- A command that changes nothing, as things are. -/
def Command.Idle (s : Supervisor) : Command → Prop
  | .watch pid => s.children.count = maxChildren ∨ pid ∈ s.children.entries
  | .unwatch pid => pid ∉ s.children.entries
  | _ => True

/-- While `errno` is `ERANGE`, no line is read whose command changes the set. -/
def SupervisorStep.Heard (long : LongRange) (s : Supervisor) : SupervisorStep → Prop
  | .line readbuf =>
    s.exiting = false → s.erange = true → (lineCommand long readbuf).Idle s
  | _ => True

/-- The same for all the steps of a run. -/
def Supervisor.AllHeard (long : LongRange) : Supervisor → List SupervisorStep → Prop
  | _, [] => True
  | s, step :: steps => step.Heard long s ∧ (s.step long step).1.AllHeard long steps

/-- What holds in every run: the entries are distinct and fit, and they are positive numbers of
type `int`. -/
structure Supervisor.Keeps (s : Supervisor) : Prop where
  nodup : s.children.entries.Nodup
  fits : s.children.count ≤ maxChildren
  positive : ∀ pid ∈ s.children.entries, 0 < pid ∧ pid ≤ intMax

/-- The children are the set, and both have seen the end of the program or not. -/
def Supervisor.Agrees (s : Supervisor) (w : WatchSet) : Prop :=
  s.children.toFinset = w.pids ∧ s.exiting = w.exiting

/-- The set has as many pids as the list, which holds none twice. -/
theorem Supervisor.Keeps.card_eq {s : Supervisor} {w : WatchSet} (h : s.Keeps)
    (hset : s.children.toFinset = w.pids) : w.pids.card = s.children.count := by
  rw [← hset, SwapArray.card_toFinset h.nodup]

/-- A pid is in the set exactly when it is in the list. -/
theorem mem_pids {s : Supervisor} {w : WatchSet} (hset : s.children.toFinset = w.pids) (pid : ℤ) :
    pid ∈ w.pids ↔ pid ∈ s.children.entries := by
  rw [← hset, SwapArray.mem_toFinset]

/-- What a sweep does: it takes out the processes that it removes, and nothing else. -/
structure Swept (s after : Supervisor) (removed : List ℤ) : Prop where
  nodup : after.children.entries.Nodup
  count : after.children.count ≤ s.children.count
  pids : after.children.toFinset = s.children.toFinset \ removed.toFinset

/-- A sweep that asks about no pid leaves the list as it is. -/
theorem swept_refl {s : Supervisor} (h : s.children.entries.Nodup) : Swept s s [] where
  nodup := h
  count := le_rfl
  pids := by simp

/-- The loop of a sweep takes out what it removes and nothing else, whatever the answers are. -/
theorem sweepLoop_swept (answer : ℕ → KillZero) (rounds i : ℕ) {s : Supervisor}
    (h : s.children.entries.Nodup) :
    Swept s (sweepLoop answer rounds i s).1 (sweepLoop answer rounds i s).2 := by
  induction rounds generalizing i s with
  | zero => exact swept_refl h
  | succ rounds ih =>
    rw [sweepLoop]
    by_cases hi : i < s.children.count
    · rw [if_pos hi]
      dsimp only
      by_cases hrunning : pidIsRunning (answer i) = true
      · rw [if_pos hrunning]
        have hrest := ih (i + 1) (s := { s with erange := s.erange && answer i = .ok }) h
        exact ⟨hrest.nodup, hrest.count, hrest.pids⟩
      · rw [if_neg hrunning]
        -- the last entry is moved to place `i` and is not looked at in this sweep
        have hrest := ih (i + 1)
          (s := ⟨s.children.removeAt i, s.erange && decide (answer i = .ok), s.exiting⟩)
          (SwapArray.nodup_removeAt h hi)
        refine ⟨hrest.nodup, hrest.count.trans (Nat.sub_le _ 1), ?_⟩
        have hremove := SwapArray.toFinset_removeAt h hi
        refine hrest.pids.trans ?_
        rw [show (⟨s.children.removeAt i, s.erange && decide (answer i = .ok), s.exiting⟩ :
          Supervisor).children = s.children.removeAt i from rfl, hremove, List.toFinset_cons]
        ext pid
        simp only [Finset.mem_sdiff, Finset.mem_erase, Finset.mem_insert, not_or]
        tauto
    · rw [if_neg hi]
      exact swept_refl h

/-- A sweep does not tell the supervisor to exit. -/
theorem sweepLoop_exiting (answer : ℕ → KillZero) (rounds i : ℕ) (s : Supervisor) :
    (sweepLoop answer rounds i s).1.exiting = s.exiting := by
  induction rounds generalizing i s with
  | zero => rfl
  | succ rounds ih =>
    rw [sweepLoop]
    dsimp only
    split_ifs
    · exact ih _ _
    · exact ih _ _
    · rfl

/-- The invariant survives the watching of one more pid. -/
theorem Supervisor.Keeps.watchPid {s : Supervisor} (h : s.Keeps) {pid : ℤ} (hmax : pid ≤ intMax) :
    (s.watchPid pid).Keeps := by
  unfold Supervisor.watchPid
  by_cases hpos : pid > 0
  · rw [if_pos hpos]
    by_cases hfull : s.children.count = maxChildren
    · rwa [if_pos hfull]
    rw [if_neg hfull]
    by_cases hin : s.children.contains pid = true
    · rwa [if_pos hin]
    rw [if_neg hin]
    have hnew : pid ∉ s.children.entries := fun hpid => hin (SwapArray.contains_iff.mpr hpid)
    refine ⟨SwapArray.nodup_push h.nodup hnew, ?_, fun other hother => ?_⟩
    · have hfits := h.fits
      show s.children.count + 1 ≤ maxChildren
      omega
    · rcases SwapArray.mem_push.mp hother with rfl | hold
      · exact ⟨hpos, hmax⟩
      · exact h.positive other hold
  rw [if_neg hpos]
  by_cases hneg : pid < 0
  · rw [if_pos hneg]
    exact ⟨SwapArray.nodup_removeFirst h.nodup _,
      (SwapArray.count_removeFirst_le _ _).trans h.fits,
      fun other hother => h.positive other ((SwapArray.mem_removeFirst h.nodup).mp hother).1⟩
  · rwa [if_neg hneg]

/-- A number that is heard has the effect of its command. -/
theorem Supervisor.Agrees.watchPid {s : Supervisor} {w : WatchSet} (h : s.Keeps)
    (hagrees : s.Agrees w) (pid : ℤ) : (s.watchPid pid).Agrees ((numberCommand pid).apply w) := by
  obtain ⟨hset, hexiting⟩ := hagrees
  unfold Supervisor.watchPid numberCommand
  by_cases hpos : pid > 0
  · rw [if_pos hpos, if_pos hpos]
    unfold Command.apply
    dsimp only
    rw [h.card_eq hset]
    by_cases hfull : s.children.count = maxChildren
    · rw [if_pos hfull, if_pos hfull]
      exact ⟨hset, hexiting⟩
    rw [if_neg hfull, if_neg hfull]
    by_cases hin : s.children.contains pid = true
    · rw [if_pos hin]
      have hpid := (mem_pids hset pid).mpr (SwapArray.contains_iff.mp hin)
      rw [Finset.insert_eq_self.mpr hpid]
      exact ⟨hset, hexiting⟩
    · rw [if_neg hin]
      refine ⟨?_, hexiting⟩
      show (s.children.push pid).toFinset = insert pid w.pids
      rw [SwapArray.toFinset_push, hset]
  rw [if_neg hpos, if_neg hpos]
  by_cases hneg : pid < 0
  · rw [if_pos hneg, if_pos hneg]
    refine ⟨?_, hexiting⟩
    show (s.children.removeFirst _).toFinset = w.pids.erase (-pid)
    rw [SwapArray.toFinset_removeFirst h.nodup, hset]
    by_cases hintMin : pid = intMin
    · -- neither `INT_MIN` nor its negation is tracked
      have hrange : ∀ other ∈ w.pids, 0 < other ∧ other ≤ intMax :=
        fun other hother => h.positive other ((mem_pids hset other).mp hother)
      have hmin : intMin ∉ w.pids := fun hin => absurd (hrange _ hin).1 (by decide)
      have hminus : -intMin ∉ w.pids := fun hin => absurd (hrange _ hin).2 (by decide)
      rw [if_pos hintMin, hintMin, Finset.erase_eq_self.mpr hmin,
        Finset.erase_eq_self.mpr hminus]
    · rw [if_neg hintMin]
  · rw [if_neg hneg, if_neg hneg]
    exact ⟨hset, hexiting⟩

/-- The command of a line that is not heard leaves the set as it is exactly if it is idle. -/
theorem pids_eq_apply_iff {s : Supervisor} {w : WatchSet} (h : s.Keeps)
    (hset : s.children.toFinset = w.pids) (command : Command) :
    s.children.toFinset = (command.apply w).pids ↔ command.Idle s := by
  rw [hset]
  cases command with
  | watch pid =>
    unfold Command.apply Command.Idle
    dsimp only
    rw [h.card_eq hset]
    by_cases hfull : s.children.count = maxChildren
    · rw [if_pos hfull]
      exact iff_of_true rfl (Or.inl hfull)
    · rw [if_neg hfull, eq_comm, Finset.insert_eq_self, mem_pids hset]
      exact ⟨Or.inr, fun hidle => hidle.resolve_left hfull⟩
  | unwatch pid =>
    show w.pids = w.pids.erase pid ↔ pid ∉ s.children.entries
    rw [eq_comm, Finset.erase_eq_self, mem_pids hset]
  | kill => exact iff_of_true rfl trivial
  | other => exact iff_of_true rfl trivial

/-- No command but `kill` ends the program. -/
theorem exiting_numberCommand (pid : ℤ) (w : WatchSet) :
    ((numberCommand pid).apply w).exiting = w.exiting := by
  unfold numberCommand
  split_ifs
  · unfold Command.apply
    dsimp only
    split <;> rfl
  · rfl
  · rfl

/-- The invariant survives any line of input. -/
theorem Supervisor.Keeps.readLine (long : LongRange) {s : Supervisor} (h : s.Keeps)
    (readbuf : Bytes) : (s.readLine long readbuf).Keeps := by
  unfold Supervisor.readLine extractPid
  obtain ⟨pid, outOfRange⟩ := strtol long readbuf
  have hkeeps : ({ s with erange := s.erange || outOfRange } : Supervisor).Keeps :=
    ⟨h.nodup, h.fits, h.positive⟩
  dsimp only
  split_ifs with hkill hzero
  · exact ⟨h.nodup, h.fits, h.positive⟩
  · exact hkeeps.watchPid (show (0 : ℤ) ≤ intMax by decide)
  · exact hkeeps.watchPid (not_lt.mp (not_or.mp (not_or.mp hzero).2).1)

/-- A line: if the children were the set, they are what the command makes of the set exactly if
the line is heard. -/
theorem Supervisor.Agrees.readLine (long : LongRange) {s : Supervisor} {w : WatchSet} (h : s.Keeps)
    (hagrees : s.Agrees w) (readbuf : Bytes) (hrunning : s.exiting = false) :
    (s.readLine long readbuf).Agrees ((lineCommand long readbuf).apply w) ↔
      (SupervisorStep.line readbuf).Heard long s := by
  have hheard : (SupervisorStep.line readbuf).Heard long s ↔
      (s.erange = true → (lineCommand long readbuf).Idle s) :=
    ⟨fun hline => hline hrunning, fun hidle _ => hidle⟩
  rw [hheard]
  unfold Supervisor.readLine lineCommand extractPid
  obtain ⟨pid, outOfRange⟩ := strtol long readbuf
  dsimp only
  by_cases hkill : readbuf.take 4 = [107, 105, 108, 108]
  · rw [if_pos hkill, if_pos hkill]
    exact iff_of_true ⟨hagrees.1, rfl⟩ fun _ => trivial
  rw [if_neg hkill, if_neg hkill]
  by_cases hbad : outOfRange = true ∨ pid > intMax ∨ pid < intMin
  · -- no number: nothing is asked for, and nothing happens
    have hzero : (s.erange || outOfRange) = true ∨ pid > intMax ∨ pid < intMin :=
      hbad.imp_left fun hout => by rw [hout, Bool.or_true]
    simp only [if_pos hbad, if_pos hzero]
    exact iff_of_true hagrees fun _ => trivial
  by_cases herange : s.erange = true
  · -- the number is taken for an error
    have hzero : (s.erange || outOfRange) = true ∨ pid > intMax ∨ pid < intMin :=
      Or.inl (by rw [herange, Bool.true_or])
    simp only [if_neg hbad, if_pos hzero]
    have hidle := pids_eq_apply_iff h hagrees.1 (numberCommand pid)
    constructor
    · exact fun hnow _ => hidle.mp hnow.1
    · exact fun hnow => ⟨hidle.mpr (hnow herange),
        hagrees.2.trans (exiting_numberCommand pid w).symm⟩
  · have hclear : ¬ ((s.erange || outOfRange) = true ∨ pid > intMax ∨ pid < intMin) := by
      rw [Bool.not_eq_true] at herange
      rwa [herange, Bool.false_or]
    have hkeeps : ({ s with erange := s.erange || outOfRange } : Supervisor).Keeps :=
      ⟨h.nodup, h.fits, h.positive⟩
    simp only [if_neg hbad, if_neg hclear]
    have hnow : ({ s with erange := s.erange || outOfRange } : Supervisor).Agrees w := hagrees
    exact iff_of_true (hnow.watchPid hkeeps pid) fun herange' => absurd herange' herange

/-- Whatever happens, the entries stay distinct and within the array. -/
theorem Supervisor.Keeps.step (long : LongRange) {s : Supervisor} (h : s.Keeps)
    (step : SupervisorStep) : (s.step long step).1.Keeps := by
  cases step with
  | line readbuf =>
    show (if s.exiting then s else s.readLine long readbuf).Keeps
    split
    · exact h
    · exact h.readLine long readbuf
  | errno => exact ⟨h.nodup, h.fits, h.positive⟩
  | sweep answer =>
    have hswept := sweepLoop_swept answer s.children.count 0 h.nodup
    refine ⟨hswept.nodup, hswept.count.trans h.fits, fun pid hpid => ?_⟩
    have hin : pid ∈ s.children.toFinset \ (s.sweep answer).2.toFinset :=
      hswept.pids ▸ SwapArray.mem_toFinset.mpr hpid
    exact h.positive pid (SwapArray.mem_toFinset.mp (Finset.mem_sdiff.mp hin).1)
  | stop => exact ⟨h.nodup, h.fits, h.positive⟩

/-- One step: the children stay the set exactly if the step is heard. -/
theorem Supervisor.Agrees.step (long : LongRange) {s : Supervisor} {w : WatchSet} (h : s.Keeps)
    (hagrees : s.Agrees w) (step : SupervisorStep) :
    (s.step long step).1.Agrees (w.step long (s.step long step).2 step) ↔ step.Heard long s := by
  cases step with
  | line readbuf =>
    show (if s.exiting then s else s.readLine long readbuf).Agrees
      (if w.exiting then w else (lineCommand long readbuf).apply w) ↔ _
    rw [← hagrees.2]
    by_cases hexiting : s.exiting = true
    · rw [if_pos hexiting, if_pos hexiting]
      refine iff_of_true hagrees fun hrunning => ?_
      rw [hexiting] at hrunning
      cases hrunning
    · rw [if_neg hexiting, if_neg hexiting]
      exact hagrees.readLine long h readbuf (by simpa using hexiting)
  | errno => exact iff_of_true hagrees trivial
  | sweep answer =>
    have hswept := sweepLoop_swept answer s.children.count 0 h.nodup
    refine iff_of_true ⟨?_, (sweepLoop_exiting _ _ _ _).trans hagrees.2⟩ trivial
    show (s.sweep answer).1.children.toFinset = w.pids \ (s.sweep answer).2.toFinset
    rw [← hagrees.1]
    exact hswept.pids
  | stop => exact iff_of_true ⟨hagrees.1, rfl⟩ trivial

/-- Watching a pid does not tell the supervisor to exit. -/
theorem Supervisor.exiting_watchPid (s : Supervisor) (pid : ℤ) :
    (s.watchPid pid).exiting = s.exiting := by
  unfold Supervisor.watchPid
  dsimp only
  repeat' split
  all_goals rfl

/-- The end of the program is seen on both sides, heard or not. -/
theorem Supervisor.exiting_step (long : LongRange) {s : Supervisor} {w : WatchSet}
    (h : s.exiting = w.exiting) (step : SupervisorStep) :
    (s.step long step).1.exiting = (w.step long (s.step long step).2 step).exiting := by
  cases step with
  | line readbuf =>
    show (if s.exiting then s else s.readLine long readbuf).exiting =
      (if w.exiting then w else (lineCommand long readbuf).apply w).exiting
    rw [← h]
    split
    · exact h
    unfold Supervisor.readLine lineCommand
    dsimp only
    split_ifs
    · rfl
    · exact (exiting_watchPid _ _).trans h
    · rw [exiting_watchPid, exiting_numberCommand]
      exact h
  | errno => exact h
  | sweep answer => exact (sweepLoop_exiting _ _ _ _).trans h
  | stop => rfl

/-- The run of the supervisor and of the set, from a state on. -/
theorem Supervisor.Keeps.run (long : LongRange) (steps : List SupervisorStep) {s : Supervisor}
    {w : WatchSet} (h : s.Keeps) (hagrees : s.Agrees w) :
    (∀ k, Tracks (runBoth long (s, w) (steps.take k)).1 (runBoth long (s, w) (steps.take k)).2) ↔
      s.AllHeard long steps := by
  induction steps generalizing s w with
  | nil =>
    refine iff_of_true (fun k => ?_) trivial
    rw [List.take_nil]
    exact ⟨h.nodup, h.fits, hagrees.1⟩
  | cons step steps ih =>
    have hheard := hagrees.step long h step
    constructor
    · intro htracks
      have hnow := And.intro (htracks 1).2.2 (Supervisor.exiting_step long hagrees.2 step)
      exact ⟨hheard.mp hnow, (ih (h.step long step) hnow).mp fun k => htracks (k + 1)⟩
    · rintro ⟨hstep, hrest⟩ k
      cases k with
      | zero => exact ⟨h.nodup, h.fits, hagrees.1⟩
      | succ k => exact (ih (h.step long step) (hheard.mpr hstep)).mpr hrest k

/-- The invariant holds of the supervisor at its start. -/
theorem Supervisor.keeps_start (cells : ℕ → ℤ) : (Supervisor.start cells).Keeps :=
  ⟨List.nodup_nil, Nat.zero_le _, fun _ hpid => absurd hpid List.not_mem_nil⟩

/-- In every state of every run the entries are distinct, at most 1024, and valid ids. -/
theorem supervisor_keeps (long : LongRange) (cells : ℕ → ℤ) (w : WatchSet)
    (steps : List SupervisorStep) : (runBoth long (.start cells, w) steps).1.Keeps := by
  have hrun : ∀ (s : Supervisor × WatchSet), s.1.Keeps → (runBoth long s steps).1.Keeps := by
    induction steps with
    | nil => exact fun _ h => h
    | cons step steps ih => exact fun s h => ih _ (h.step long step)
  exact hrun _ (Supervisor.keeps_start cells)

end Processx
