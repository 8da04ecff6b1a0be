import Mathlib.Algebra.BigOperators.Group.List.Basic
import Mathlib.Algebra.Ring.Int.Defs
import Processx.Connection.Poll

/-!
# Waiting in slices

The package waits for events and processes in slices of 200 ms, so that the user can interrupt.
The loop that counts the time down is in the source four times: in
`processx__interruptible_poll()`, in both versions of `processx_wait()`, and in
`processx_c_connection_poll()` on Windows. The counter is an `int`, and three of the loops also
count it down if the timeout is infinite.
-/

namespace Processx.Timed

/-- How a system call that waits comes back on Unix: interrupted by a signal, with an event, with
an error, or after its time. In the last case the user may have interrupted, and the process may
still be there. -/
inductive Wake
  | eintr
  | event
  | error
  | quiet (interrupted alive : Bool)

/-- How a whole wait ends. -/
inductive WaitEnd
  | timeout
  | event
  | error
  | interrupt
  | gone
  deriving DecidableEq

/-- A wait: the times given to the system calls, the exact results of the subtractions from
`timeleft`, and the end, if it has come. -/
structure Slept where
  slices : List Int32 := []
  counters : List ℤ := []
  ended : Option WaitEnd := none

/-- A system call with this time comes before the rest of the wait. -/
def Slept.slept (slice : Int32) (s : Slept) : Slept := { s with slices := slice :: s.slices }

/-- A subtraction comes before the rest of the wait. -/
def Slept.counted (counter : ℤ) (s : Slept) : Slept := { s with counters := counter :: s.counters }

/-- `PROCESSX_INTERRUPT_INTERVAL` -/
def interruptInterval : Int32 := 200

/-- The loop over the slices and the call for the rest of the time. `checked` tells whether the
loop looks after the process between two slices, `always` whether it counts down if the timeout is
infinite. The subtraction wraps around. -/
def sliceLoop (checked always : Bool) (timeout : Int32) : List Wake → Int32 → Slept
  | [], timeleft =>
    if timeout < 0 ∨ timeleft > interruptInterval ∨ timeleft ≥ 0 then {}
    else { ended := some .timeout }
  | wake :: wakes, timeleft =>
    if timeout < 0 ∨ timeleft > interruptInterval then
      Slept.slept interruptInterval <| match wake with
        | .eintr => sliceLoop checked always timeout wakes timeleft
        | .event => { ended := some .event }
        | .error => { ended := some .error }
        | .quiet interrupted alive =>
          if interrupted then { ended := some .interrupt }
          else if checked && !alive then { ended := some .gone }
          else if always || timeout ≥ 0 then
            (sliceLoop checked always timeout wakes (timeleft - interruptInterval)).counted
              (timeleft.toInt - interruptInterval.toInt)
          else sliceLoop checked always timeout wakes timeleft
    else if timeleft ≥ 0 then
      Slept.slept timeleft <| match wake with
        | .eintr => sliceLoop checked always timeout wakes timeleft
        | .event => { ended := some .event }
        | .error => { ended := some .error }
        | .quiet _ _ => { ended := some .timeout }
    else { ended := some .timeout }

/-- `processx__interruptible_poll()`. -/
def interruptiblePoll (timeout : Int32) (wakes : List Wake) : Slept :=
  sliceLoop false true timeout wakes timeout

/-- The loop of `c_processx_wait()` on Unix. -/
def cProcessxWait (timeout : Int32) (wakes : List Wake) : Slept :=
  sliceLoop true false timeout wakes timeout

/-- How `WaitForSingleObject()` comes back: the process has ended, the call failed, or the time is
over, and the user may have interrupted. -/
inductive WinWake
  | object
  | failed
  | timeout (interrupted : Bool)

/-- The same in the terms of the other loops. -/
def WinWake.toWake : WinWake → Wake
  | .object => .event
  | .failed => .error
  | .timeout interrupted => .quiet interrupted true

/-- The loop of `processx_wait()` on Windows. -/
def processxWait (timeout : Int32) (wakes : List WinWake) : Slept :=
  sliceLoop false true timeout (wakes.map WinWake.toWake) timeout

/-- How a round of `processx_c_connection_poll()` on Windows ends: with an event for one of the
pollables, with an error, or without an event, and the user may have interrupted. -/
inductive PortWake
  | event
  | error
  | quiet (interrupted : Bool)

/-- The loop of `processx_c_connection_poll()` on Windows, where `hasdata` tells whether a
connection is ready before the loop. -/
def portLoop (hasdata : Bool) (timeout : Int32) : List PortWake → Int32 → Slept
  | [], timeleft => if timeout < 0 ∨ timeleft ≥ 0 then {} else { ended := some .timeout }
  | wake :: wakes, timeleft =>
    if timeout < 0 ∨ timeleft ≥ 0 then
      let pollTimeout :=
        if timeout < 0 ∨ timeleft > interruptInterval then interruptInterval else timeleft
      Slept.slept pollTimeout <| match wake with
        | .event => { ended := some .event }
        | .error => { ended := some .error }
        | .quiet interrupted =>
          if hasdata then { ended := some .event }
          else if interrupted then { ended := some .interrupt }
          else (portLoop hasdata timeout wakes (timeleft - interruptInterval)).counted
            (timeleft.toInt - interruptInterval.toInt)
    else { ended := some .timeout }

/-- `processx_c_connection_poll()` on Windows, from the loop on. -/
def cConnectionPoll (hasdata : Bool) (timeout : Int32) (wakes : List PortWake) : Slept :=
  portLoop hasdata (if hasdata then 0 else timeout) wakes (if hasdata then 0 else timeout)

/-- The slices of `n` calls without an event are right: each is between 0 and 200 ms, and as soon
as they are enough for the timeout, they add up to it and the timeout is reported. -/
structure SlicesExact (timeout : Int32) (n : ℕ) (s : Slept) : Prop where
  bounds : ∀ slice ∈ s.slices, 0 ≤ slice.toInt ∧ slice.toInt ≤ 200
  done : 0 < n → timeout.toInt ≤ 200 * n →
    s.ended = some .timeout ∧ (s.slices.map Int32.toInt).sum = timeout.toInt
  waiting : n = 0 ∨ 200 * n < timeout.toInt →
    s.ended = none ∧ (s.slices.map Int32.toInt).sum = 200 * n

/-- No subtraction leaves the range of an `int`. -/
def Slept.NoOverflow (s : Slept) : Prop :=
  ∀ counter ∈ s.counters, -2 ^ 31 ≤ counter ∧ counter < 2 ^ 31

/-- A subtraction that does not leave the range is exact. -/
theorem toInt_sub_interval {timeleft : Int32} (h : -2 ^ 31 ≤ timeleft.toInt - 200) :
    (timeleft - interruptInterval).toInt = timeleft.toInt - 200 := by
  have hlt := timeleft.toInt_lt
  rw [Int32.toInt_sub]
  show (timeleft.toInt - 200).bmod (2 ^ 32) = _
  exact Int.bmod_eq_of_le (by omega) (by omega)

/-- The C comparison `timeout < 0`, over the integers. -/
theorem lt_zero_iff (timeout : Int32) : timeout < 0 ↔ timeout.toInt < 0 := Int32.lt_iff_toInt_lt

/-- The C comparison `timeout >= 0`, over the integers. -/
theorem zero_le_iff (timeout : Int32) : 0 ≤ timeout ↔ 0 ≤ timeout.toInt := Int32.le_iff_toInt_le

/-- The C comparison with `PROCESSX_INTERRUPT_INTERVAL`, over the integers. -/
theorem interval_lt_iff (timeleft : Int32) : timeleft > interruptInterval ↔ 200 < timeleft.toInt :=
  Int32.lt_iff_toInt_lt

/-- One slice of 200 ms and the rest. -/
theorem SlicesExact.slept {timeleft : Int32} {n : ℕ} {s : Slept} (hlt : 200 < timeleft.toInt)
    (h : SlicesExact (timeleft - interruptInterval) n s) :
    SlicesExact timeleft (n + 1) (s.slept interruptInterval) := by
  have hnext := @toInt_sub_interval timeleft (by omega)
  have hinterval : interruptInterval.toInt = 200 := rfl
  have hsum : ((s.slept interruptInterval).slices.map Int32.toInt).sum =
      200 + (s.slices.map Int32.toInt).sum := List.sum_cons
  refine ⟨?_, fun _ henough => ?_, fun hfew => ?_⟩
  · intro slice hslice
    rcases List.mem_cons.mp hslice with rfl | hold
    · rw [hinterval]
      decide
    · exact h.bounds slice hold
  · obtain ⟨hended, hrest⟩ := h.done (by omega) (by omega)
    exact ⟨hended, by rw [hsum, hrest, hnext]; omega⟩
  · obtain ⟨hended, hrest⟩ := h.waiting (by omega)
    exact ⟨hended, by rw [hsum, hrest]; omega⟩

/-- The last slice. -/
theorem slicesExact_last {timeleft : Int32} (n : ℕ) (h : 0 ≤ timeleft.toInt)
    (hle : timeleft.toInt ≤ 200) :
    SlicesExact timeleft (n + 1) (Slept.slept timeleft { ended := some .timeout }) where
  bounds := by
    intro slice hslice
    rw [List.mem_singleton.mp hslice]
    exact ⟨h, hle⟩
  done _ _ := ⟨rfl, by simp [Slept.slept]⟩
  waiting hfew := by omega

/-- The loop with a finite timeout, when nothing happens. -/
theorem sliceLoop_exact (checked always : Bool) {timeout : Int32} (htimeout : 0 ≤ timeout)
    (n : ℕ) {timeleft : Int32} (h : 0 ≤ timeleft) :
    SlicesExact timeleft n
      (sliceLoop checked always timeout (List.replicate n (.quiet false true)) timeleft) := by
  have hfinite : ¬timeout < 0 := Int32.not_lt.mpr htimeout
  induction n generalizing timeleft with
  | zero =>
    have hloop : sliceLoop checked always timeout [] timeleft = {} := by
      rw [sliceLoop, if_pos (Or.inr (Or.inr h))]
    rw [List.replicate_zero, hloop]
    exact ⟨by simp, fun hpos => absurd hpos (lt_irrefl 0), fun _ => ⟨rfl, by simp⟩⟩
  | succ n ih =>
    have hnonneg := (zero_le_iff timeleft).mp h
    rw [List.replicate_succ, sliceLoop]
    by_cases hmore : timeleft > interruptInterval
    · have hlt := (interval_lt_iff timeleft).mp hmore
      have hnext := @toInt_sub_interval timeleft (by omega)
      have hrest := @ih (timeleft - interruptInterval) ((zero_le_iff _).mpr (by omega))
      have halways : (always || decide (timeout ≥ 0)) = true := by simp [htimeout]
      rw [if_pos (Or.inr hmore)]
      simp only [halways, Bool.false_eq_true, if_false, if_true, Bool.not_true, Bool.and_false]
      exact SlicesExact.slept hlt ⟨hrest.bounds, hrest.done, hrest.waiting⟩
    · have hle : timeleft.toInt ≤ 200 :=
        Int.not_lt.mp fun hlt => hmore ((interval_lt_iff _).mpr hlt)
      rw [if_neg (not_or.mpr ⟨hfinite, hmore⟩), if_pos h]
      exact slicesExact_last n hnonneg hle

/-- The loop with an infinite timeout never ends with a timeout, whatever happens. -/
theorem sliceLoop_infinite (checked always : Bool) {timeout : Int32} (htimeout : timeout < 0)
    (wakes : List Wake) (timeleft : Int32) :
    (sliceLoop checked always timeout wakes timeleft).ended ≠ some .timeout := by
  induction wakes generalizing timeleft with
  | nil =>
    unfold sliceLoop
    rw [if_pos (Or.inl htimeout)]
    exact fun heq => by cases heq
  | cons wake wakes ih =>
    unfold sliceLoop
    rw [if_pos (Or.inl htimeout)]
    cases wake with
    | eintr => exact ih timeleft
    | event => exact fun heq => by cases heq
    | error => exact fun heq => by cases heq
    | quiet interrupted alive =>
      dsimp only [Slept.slept]
      split_ifs
      · exact fun heq => by cases heq
      · exact fun heq => by cases heq
      · exact ih _
      · exact ih _

/-- **The time is sliced exactly.** With a finite timeout, when nothing happens and no call is
interrupted, `processx__interruptible_poll()` and `c_processx_wait()` make slices of at most 200
ms that add up to the timeout, and report it. With a negative one they never report a timeout. -/
theorem slices_exact (timeout : Int32) :
    (0 ≤ timeout → ∀ n,
      SlicesExact timeout n (interruptiblePoll timeout (List.replicate n (.quiet false true))) ∧
        SlicesExact timeout n (cProcessxWait timeout (List.replicate n (.quiet false true)))) ∧
      (timeout < 0 → ∀ wakes, (interruptiblePoll timeout wakes).ended ≠ some .timeout ∧
        (cProcessxWait timeout wakes).ended ≠ some .timeout) :=
  ⟨fun h n => ⟨sliceLoop_exact _ _ h n h, sliceLoop_exact _ _ h n h⟩,
    fun h wakes => ⟨sliceLoop_infinite _ _ h wakes _, sliceLoop_infinite _ _ h wakes _⟩⟩

/-- 450 ms are 200, 200 and 50 ms, and an infinite wait does not end after three slices. -/
theorem slices_exact_450 :
    (interruptiblePoll 450 (List.replicate 3 (.quiet false true))).slices = [200, 200, 50] ∧
      SlicesExact 450 3 (interruptiblePoll 450 (List.replicate 3 (.quiet false true))) ∧
      (interruptiblePoll (-1) (List.replicate 3 (.quiet false true))).ended ≠ some .timeout :=
  ⟨by decide, ((slices_exact 450).1 (by decide) 3).1, ((slices_exact (-1)).2 (by decide) _).1⟩

/-- A system call of the poll of connections as one of the loop. -/
def wakeOf (nfds : ℕ) : PollCall → Wake
  | .eintr => .eintr
  | .error => .error
  | .answer revents interrupted =>
    if pollCount nfds revents ≠ 0 then .event else .quiet interrupted true

/-- A result of the poll of connections as the end of a wait. -/
def endOf (nfds : ℕ) : Except String (ℕ → PollBits) → WaitEnd
  | .error message => if message = "interrupt" then .interrupt else .error
  | .ok revents => if pollCount nfds revents ≠ 0 then .event else .timeout

/-- What the poll of connections returns is how the loop over the slices ends. With an infinite
timeout the counter does not matter. -/
theorem interruptiblePoll_ended (nfds : ℕ) (timeout : Int32) (calls : List PollCall) :
    (Processx.interruptiblePoll nfds timeout.toInt calls timeout.toInt).map (endOf nfds) =
      (interruptiblePoll timeout (calls.map (wakeOf nfds))).ended := by
  have hloop : ∀ (left : ℤ) (timeleft : Int32),
      timeout < 0 ∨ left = timeleft.toInt ∧ 0 ≤ timeleft.toInt →
      (Processx.interruptiblePoll nfds timeout.toInt calls left).map (endOf nfds) =
        (sliceLoop false true timeout (calls.map (wakeOf nfds)) timeleft).ended := by
    induction calls with
    | nil =>
      intro left timeleft h
      have hwaiting : timeout < 0 ∨ timeleft > interruptInterval ∨ timeleft ≥ 0 :=
        h.imp_right fun hleft => Or.inr ((zero_le_iff timeleft).mpr hleft.2)
      unfold sliceLoop
      rw [List.map_nil]
      dsimp only
      rw [if_pos hwaiting]
      rfl
    | cons call calls ih =>
      intro left timeleft h
      have hmore : timeout.toInt < 0 ∨ left > pollInterval ↔
          timeout < 0 ∨ timeleft > interruptInterval := by
        rw [← lt_zero_iff, interval_lt_iff, pollInterval]
        refine or_congr_right' fun hfinite => ?_
        rw [(h.resolve_left hfinite).1]
      unfold Processx.interruptiblePoll sliceLoop
      rw [List.map_cons]
      dsimp only
      by_cases hslice : timeout < 0 ∨ timeleft > interruptInterval
      · rw [if_pos (hmore.mpr hslice), if_pos hslice]
        cases call with
        | eintr => exact ih left timeleft h
        | error => rfl
        | answer revents interrupted =>
          by_cases hevent : pollCount nfds revents ≠ 0
          · simp [wakeOf, endOf, Slept.slept, hevent]
          · simp only [wakeOf, if_neg hevent, Slept.slept]
            cases interrupted with
            | true => rfl
            | false =>
              refine ih _ _ (or_iff_not_imp_left.mpr fun hfinite => ?_)
              have hlt := (interval_lt_iff timeleft).mp (hslice.resolve_left hfinite)
              rw [toInt_sub_interval (by omega), (h.resolve_left hfinite).1, pollInterval]
              omega
      · have hfinite : ¬timeout < 0 := fun hinfinite => hslice (Or.inl hinfinite)
        obtain ⟨hleft, hnonneg⟩ := h.resolve_left hfinite
        rw [if_neg fun hthen => hslice (hmore.mp hthen), if_neg hslice,
          if_pos (by omega : left ≥ 0), if_pos ((zero_le_iff timeleft).mpr hnonneg)]
        cases call with
        | eintr => exact ih left timeleft h
        | error => rfl
        | answer revents interrupted =>
          by_cases hevent : pollCount nfds revents ≠ 0
          · simp [wakeOf, endOf, Slept.slept, hevent]
          · simp [wakeOf, endOf, Slept.slept, hevent]
  by_cases htimeout : timeout < 0
  · exact hloop _ _ (Or.inl htimeout)
  · exact hloop _ _ (Or.inr ⟨rfl, (zero_le_iff _).mp (Int32.not_lt.mp htimeout)⟩)

/-- A slice of sleep adds no subtraction. -/
theorem noOverflow_slept (slice : Int32) (s : Slept) :
    (s.slept slice).NoOverflow ↔ s.NoOverflow := Iff.rfl

/-- Each value of the counter has to fit. -/
theorem noOverflow_counted (counter : ℤ) (s : Slept) :
    (s.counted counter).NoOverflow ↔ (-2 ^ 31 ≤ counter ∧ counter < 2 ^ 31) ∧ s.NoOverflow :=
  List.forall_mem_cons

/-- One round of a loop that always counts down: if the rounds behind it are all right down to
some value, so are all. -/
theorem noOverflow_round {timeleft : Int32} {n : ℕ} {s : Slept}
    (h : s.NoOverflow ↔ -2 ^ 31 ≤ (timeleft - interruptInterval).toInt - 200 * n) :
    (s.counted (timeleft.toInt - interruptInterval.toInt)).NoOverflow ↔
      -2 ^ 31 ≤ timeleft.toInt - 200 * (n + 1 : ℕ) := by
  have hinterval : interruptInterval.toInt = 200 := rfl
  have hlt := timeleft.toInt_lt
  rw [noOverflow_counted, h, hinterval]
  by_cases hrange : -2 ^ 31 ≤ timeleft.toInt - 200
  · rw [toInt_sub_interval hrange]
    omega
  · exact iff_of_false (fun hboth => hrange hboth.1.1) (by omega)

/-- With an infinite timeout a loop that always counts down is all right just for as many rounds
as the range allows. -/
theorem sliceLoop_noOverflow_iff (checked : Bool) {timeout : Int32} (htimeout : timeout < 0)
    (n : ℕ) (timeleft : Int32) :
    (sliceLoop checked true timeout (List.replicate n (.quiet false true)) timeleft).NoOverflow ↔
      -2 ^ 31 ≤ timeleft.toInt - 200 * n := by
  induction n generalizing timeleft with
  | zero =>
    have hle := timeleft.le_toInt
    unfold sliceLoop
    rw [List.replicate_zero]
    dsimp only
    rw [if_pos (Or.inl htimeout)]
    exact iff_of_true (List.forall_mem_nil _) (by omega)
  | succ n ih =>
    unfold sliceLoop
    rw [List.replicate_succ]
    dsimp only
    rw [if_pos (Or.inl htimeout)]
    simp only [Bool.false_eq_true, if_false, Bool.not_true, Bool.and_false, Bool.true_or, if_true]
    exact noOverflow_round (ih (timeleft - interruptInterval))

/-- With a finite timeout the counter stays in the range, whatever happens. -/
theorem sliceLoop_noOverflow (checked always : Bool) {timeout : Int32} (htimeout : 0 ≤ timeout)
    (wakes : List Wake) (timeleft : Int32) :
    (sliceLoop checked always timeout wakes timeleft).NoOverflow := by
  have hfinite : ¬timeout < 0 := Int32.not_lt.mpr htimeout
  induction wakes generalizing timeleft with
  | nil =>
    unfold sliceLoop
    split_ifs <;> exact List.forall_mem_nil _
  | cons wake wakes ih =>
    unfold sliceLoop
    by_cases hmore : timeout < 0 ∨ timeleft > interruptInterval
    · rw [if_pos hmore, noOverflow_slept]
      have hlt := (interval_lt_iff timeleft).mp (hmore.resolve_left hfinite)
      cases wake with
      | eintr => exact ih timeleft
      | event => exact List.forall_mem_nil _
      | error => exact List.forall_mem_nil _
      | quiet interrupted alive =>
        dsimp only
        split_ifs
        · exact List.forall_mem_nil _
        · exact List.forall_mem_nil _
        · have hmax := timeleft.toInt_lt
          refine (noOverflow_counted _ _).mpr ⟨?_, ih _⟩
          have hinterval : interruptInterval.toInt = 200 := rfl
          omega
        · exact ih timeleft
    rw [if_neg hmore]
    by_cases hleft : timeleft ≥ 0
    · rw [if_pos hleft]
      cases wake with
      | eintr => exact ih timeleft
      | event => exact List.forall_mem_nil _
      | error => exact List.forall_mem_nil _
      | quiet _ _ => exact List.forall_mem_nil _
    · rw [if_neg hleft]
      exact List.forall_mem_nil _

/-- A loop that counts down only a finite timeout does not count down an infinite one. -/
theorem sliceLoop_noOverflow_of_infinite (checked : Bool) {timeout : Int32}
    (htimeout : timeout < 0) (wakes : List Wake) (timeleft : Int32) :
    (sliceLoop checked false timeout wakes timeleft).NoOverflow := by
  have hinfinite : (false || decide (timeout ≥ 0)) = false := by
    simpa using Int32.not_le.mpr htimeout
  induction wakes generalizing timeleft with
  | nil =>
    unfold sliceLoop
    split_ifs <;> exact List.forall_mem_nil _
  | cons wake wakes ih =>
    unfold sliceLoop
    rw [if_pos (Or.inl htimeout), noOverflow_slept]
    cases wake with
    | eintr => exact ih timeleft
    | event => exact List.forall_mem_nil _
    | error => exact List.forall_mem_nil _
    | quiet interrupted alive =>
      simp only [hinfinite, Bool.false_eq_true, if_false]
      split_ifs
      · exact List.forall_mem_nil _
      · exact List.forall_mem_nil _
      · exact ih timeleft

/-- Without a timeout the loop for the completion port counts down at every quiet slice, until it
leaves the range. -/
theorem portLoop_noOverflow_iff {timeout : Int32} (htimeout : timeout < 0) (n : ℕ)
    (timeleft : Int32) :
    (portLoop false timeout (List.replicate n (.quiet false)) timeleft).NoOverflow ↔
      -2 ^ 31 ≤ timeleft.toInt - 200 * n := by
  induction n generalizing timeleft with
  | zero =>
    have hle := timeleft.le_toInt
    unfold portLoop
    rw [List.replicate_zero]
    dsimp only
    rw [if_pos (Or.inl htimeout)]
    exact iff_of_true (List.forall_mem_nil _) (by omega)
  | succ n ih =>
    unfold portLoop
    rw [List.replicate_succ]
    dsimp only
    rw [if_pos (Or.inl htimeout)]
    simp only [Bool.false_eq_true, if_false]
    exact noOverflow_round (ih (timeleft - interruptInterval))

/-- With a timeout it stops in time. -/
theorem portLoop_noOverflow (hasdata : Bool) {timeout : Int32} (htimeout : 0 ≤ timeout)
    (wakes : List PortWake) (timeleft : Int32) :
    (portLoop hasdata timeout wakes timeleft).NoOverflow := by
  have hfinite : ¬timeout < 0 := Int32.not_lt.mpr htimeout
  induction wakes generalizing timeleft with
  | nil =>
    unfold portLoop
    split_ifs <;> exact List.forall_mem_nil _
  | cons wake wakes ih =>
    unfold portLoop
    by_cases hleft : timeout < 0 ∨ timeleft ≥ 0
    · rw [if_pos hleft]
      dsimp only
      rw [noOverflow_slept]
      have hnonneg := (zero_le_iff timeleft).mp (hleft.resolve_left hfinite)
      cases wake with
      | event => exact List.forall_mem_nil _
      | error => exact List.forall_mem_nil _
      | quiet interrupted =>
        dsimp only
        split_ifs
        · exact List.forall_mem_nil _
        · exact List.forall_mem_nil _
        · have hmax := timeleft.toInt_lt
          refine (noOverflow_counted _ _).mpr ⟨?_, ih _⟩
          have hinterval : interruptInterval.toInt = 200 := rfl
          omega
    · rw [if_neg hleft]
      exact List.forall_mem_nil _

/-- The loop of `processx_wait()` never leaves the range. -/
theorem cProcessxWait_noOverflow (timeout : Int32) (wakes : List Wake) :
    (cProcessxWait timeout wakes).NoOverflow := by
  by_cases htimeout : timeout < 0
  · exact sliceLoop_noOverflow_of_infinite true htimeout wakes timeout
  · exact sliceLoop_noOverflow true false (Int32.not_lt.mp htimeout) wakes timeout

/-- **The counter cannot overflow** in the four loops exactly if the timeout is not negative, or
the rounds without an event are few: `200 n` is at most the timeout and `2^31` more. On Unix the
counter of `c_processx_wait()` never overflows. -/
theorem timeleft_noOverflow_iff (timeout : Int32) (hasdata : Bool) (n : ℕ) :
    ((interruptiblePoll timeout (List.replicate n (.quiet false true))).NoOverflow ∧
        (cProcessxWait timeout (List.replicate n (.quiet false true))).NoOverflow ∧
        (processxWait timeout (List.replicate n (.timeout false))).NoOverflow ∧
        (cConnectionPoll hasdata timeout (List.replicate n (.quiet false))).NoOverflow ↔
      0 ≤ timeout ∨ 200 * n ≤ timeout.toInt + 2 ^ 31) ∧
    ∀ wakes, (cProcessxWait timeout wakes).NoOverflow := by
  refine ⟨?_, cProcessxWait_noOverflow timeout⟩
  have hwait : processxWait timeout (List.replicate n (.timeout false)) =
      interruptiblePoll timeout (List.replicate n (.quiet false true)) := by
    rw [processxWait, List.map_replicate]
    rfl
  rw [hwait]
  by_cases htimeout : timeout < 0
  · have hnegative := (lt_zero_iff timeout).mp htimeout
    have hfinite : ¬0 ≤ timeout := Int32.not_le.mpr htimeout
    have hpoll : (interruptiblePoll timeout (List.replicate n (.quiet false true))).NoOverflow ↔
        200 * n ≤ timeout.toInt + 2 ^ 31 := by
      rw [interruptiblePoll, sliceLoop_noOverflow_iff false htimeout]
      omega
    have hport (hfew : 200 * n ≤ timeout.toInt + 2 ^ 31) :
        (cConnectionPoll hasdata timeout (List.replicate n (.quiet false))).NoOverflow := by
      cases hasdata with
      | false => exact (portLoop_noOverflow_iff htimeout n timeout).mpr (by omega)
      | true => exact portLoop_noOverflow true (show (0 : Int32) ≤ 0 by decide) _ _
    rw [hpoll, or_iff_right hfinite]
    exact ⟨And.left, fun hfew => ⟨hfew, cProcessxWait_noOverflow _ _, hfew, hport hfew⟩⟩
  · have hfinite := Int32.not_lt.mp htimeout
    have hpoll := sliceLoop_noOverflow false true hfinite (List.replicate n (.quiet false true))
      timeout
    have hport :
        (cConnectionPoll hasdata timeout (List.replicate n (.quiet false))).NoOverflow := by
      cases hasdata with
      | false => exact portLoop_noOverflow false hfinite _ _
      | true => exact portLoop_noOverflow true (show (0 : Int32) ≤ 0 by decide) _ _
    exact iff_of_true ⟨hpoll, cProcessxWait_noOverflow _ _, hpoll, hport⟩ (Or.inl hfinite)

/-- An infinite wait of 10737419 rounds, which is less than 25 days: three of the counters
overflow. -/
theorem timeleft_overflow :
    ¬∀ (timeout : Int32) (n : ℕ),
      (interruptiblePoll timeout (List.replicate n (.quiet false true))).NoOverflow ∧
        (cProcessxWait timeout (List.replicate n (.quiet false true))).NoOverflow ∧
        (processxWait timeout (List.replicate n (.timeout false))).NoOverflow ∧
        (cConnectionPoll false timeout (List.replicate n (.quiet false))).NoOverflow := by
  intro hall
  have hpoll := (hall (-1) 10737419).1
  rw [interruptiblePoll, sliceLoop_noOverflow_iff false (by decide)] at hpoll
  revert hpoll
  decide

end Processx.Timed
