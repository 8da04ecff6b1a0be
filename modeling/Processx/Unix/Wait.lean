import Processx.Unix.Actions

/-!
# Waiting for a child

A wait polls a pipe whose write end the handler closes when it collects the child. No
wake-up is lost: whenever a wait polls, either the write end is closed already, or the
child is not collected and its handle holds the write end.
-/

namespace Processx

open Interruptible

/-- The write end of the pipe is closed, or the handler is going to close it. -/
def WakesUp (status : Sexp) (wr pipe : ℕ) (w : World) : Prop :=
  w.fds wr ≠ some (.waitWrite pipe) ∨
    ∃ h, w.handles status = some h ∧ h.collected = false ∧ h.waitpipe1 = some wr

/-- A poll that loses no wake-up: where the child is collected the write end is closed, and
a poll times out only while the child is not collected. -/
def Event.pollRight : Event → Prop
  | .poll _ collected hungup answer =>
    (collected = true → hungup = true) ∧ (answer = .timeout → collected = false)
  | _ => True

/-- All polls so far were right. -/
def PollsRight (w : World) : Prop := ∀ e ∈ w.log, e.pollRight

/-- The newest poll. -/
def lastPoll : List Event → Option Event
  | [] => none
  | .poll status collected hungup answer :: _ => some (.poll status collected hungup answer)
  | _ :: log => lastPoll log

/-- The polls stay right when one more event is noted that is right. -/
theorem PollsRight.cons {w w' : World} {e : Event} (h : PollsRight w) (he : e.pollRight)
    (hlog : w'.log = e :: w.log) : PollsRight w' := by
  intro e' he'
  rw [hlog] at he'
  rcases List.mem_cons.mp he' with rfl | hmem
  · exact he
  · exact h e' hmem

/-- Storing a status records no poll. -/
theorem PollsRight.collectExitStatus {w : World} (hw : PollsRight w) (status : Sexp)
    (wp : WaitResult) : PollsRight (w.collectExitStatus status wp) := by
  obtain ⟨_, heq⟩ | ⟨fd, _, heq⟩ := collectExitStatus_cases w status wp
  · rw [heq]
    exact hw
  · rw [heq]
    exact PollsRight.cons (e := .close .pty fd _) hw trivial rfl

/-- Nor does the work of the handler on one child. -/
theorem PollsRight.childExited {w : World} (hw : PollsRight w) (node : Node) (wp : WaitResult) :
    PollsRight (w.childExited node wp) := by
  have hcollect := hw.collectExitStatus node.status wp
  obtain ⟨_, heq⟩ | ⟨h, _, _, heq⟩ | ⟨h, fd, _, _, heq⟩ := childExited_cases w node wp
  · rw [heq]
    exact hw
  · rw [heq]
    exact hcollect
  · rw [heq]
    exact PollsRight.cons (e := .close .handler fd _) hcollect trivial rfl

/-- Where the handler collects the child of a wait, it closes the write end. -/
theorem WakesUp.childExited {w : World} {status : Sexp} {wr pipe : ℕ}
    (hw : WakesUp status wr pipe w) (node : Node) (wp : WaitResult) :
    WakesUp status wr pipe (w.childExited node wp) := by
  have hfds : ∀ n, (w.collectExitStatus node.status wp).fds n = none ∨
      (w.collectExitStatus node.status wp).fds n = w.fds n := by
    intro n
    rw [fds_collectExitStatus]
    split
    · exact Or.inl rfl
    · exact Or.inr rfl
  obtain ⟨_, heq⟩ | ⟨h, hnode, hpipe, heq⟩ | ⟨h, fd, hnode, hpipe, heq⟩ :=
    childExited_cases w node wp
  · rw [heq]
    exact hw
  · rw [heq]
    rcases hw with hclosed | ⟨h', hh', hcollected, hwr⟩
    · left
      rcases hfds wr with hnone | hsame
      · change (w.collectExitStatus node.status wp).fds wr ≠ _
        rw [hnone]
        exact nofun
      · exact fun h => hclosed (hsame.symm.trans h)
    · right
      have hne : status ≠ node.status := by
        rintro rfl
        rw [handles_of_nodeHandle hnode] at hh'
        obtain rfl := Option.some.inj hh'
        rw [hpipe] at hwr
        cases hwr
      refine ⟨h', ?_, hcollected, hwr⟩
      change (w.collectExitStatus node.status wp).handles status = _
      rw [handles_collectExitStatus, if_neg hne, hh']
  · rw [heq]
    by_cases hopen : w.fds wr = some (.waitWrite pipe) ∧ wr ≠ fd
    · have hstays := hw.resolve_left (not_not_intro hopen.1)
      obtain ⟨h', hh', hcollected, hwr⟩ := hstays
      right
      have hne : status ≠ node.status := by
        rintro rfl
        rw [handles_of_nodeHandle hnode] at hh'
        obtain rfl := Option.some.inj hh'
        rw [hpipe] at hwr
        exact hopen.2 (Option.some.inj hwr).symm
      refine ⟨h', ?_, hcollected, hwr⟩
      simp only [World.setHandle, World.close, if_neg hne, handles_collectExitStatus, hh']
    · left
      simp only [World.setHandle, World.close]
      split
      · exact nofun
      next hfd =>
        have hclosed : w.fds wr ≠ some (.waitWrite pipe) := fun h => hopen ⟨h, hfd⟩
        rcases hfds wr with hnone | hsame
        · rw [hnone]
          exact nofun
        · exact fun h => hclosed (hsame.symm.trans h)

/-- The newest poll stays the newest one while the handler works. -/
theorem lastPoll_childExited (w : World) (node : Node) (wp : WaitResult) :
    lastPoll (w.childExited node wp).log = lastPoll w.log := by
  have hcollect : lastPoll (w.collectExitStatus node.status wp).log = lastPoll w.log := by
    obtain ⟨_, heq⟩ | ⟨fd, _, heq⟩ := collectExitStatus_cases w node.status wp <;> rw [heq] <;> rfl
  obtain ⟨_, heq⟩ | ⟨h, _, _, heq⟩ | ⟨h, fd, _, _, heq⟩ := childExited_cases w node wp
  · rw [heq]
  · rw [heq]
    exact hcollect
  · rw [heq]
    exact hcollect

/-- What holds while a wait polls. -/
def Polling (status : Sexp) (wr pipe : ℕ) (w : World) : Prop :=
  WakesUp status wr pipe w ∧ PollsRight w

/-- What holds before the pipe is made. -/
def Uncollected (status : Sexp) (w : World) : Prop :=
  PollsRight w ∧ w.blocked = true ∧ ∃ h, w.handles status = some h ∧ h.collected = false

/-- What holds behind the polling: if the time was up, the child was not collected then. -/
def TimedOut (status : Sexp) (timedOut : Prop) (w : World) : Prop :=
  PollsRight w ∧ (timedOut → lastPoll w.log = some (.poll status false false .timeout))

/-- What holds behind the polling survives the moves of the kernel. -/
theorem kept_timedOut (status : Sexp) (timedOut : Prop) :
    Kept World.move PollsRight (TimedOut status timedOut) where
  move := by
    apply move_keeps
    · exact fun w pid stat hw _ => hw
    · exact fun w hw _ _ => ⟨hw.1.cons (e := .handler _ _) trivial rfl, hw.2⟩
    · rintro w node wp w₁ hw _ hwait _
      have hw₁ : TimedOut status timedOut w₁ := by
        obtain rfl | ⟨p, rfl⟩ := waitNohang_eq_setProc hwait
        · exact hw
        · exact hw
      refine ⟨hw₁.1.childExited node wp, fun h => ?_⟩
      rw [lastPoll_childExited]
      exact hw₁.2 h
    · exact fun w kept hw _ => hw
  safe _ h := h.1

/-- So does the correctness of the polls. -/
theorem kept_pollsRight : Kept World.move PollsRight PollsRight where
  move w m w' hw hmove :=
    ((kept_timedOut 0 False).move w m w' ⟨hw, False.elim⟩ hmove).1
  safe _ h := h

/-- So does what holds while the process polls. -/
theorem kept_polling (status : Sexp) (wr pipe : ℕ) :
    Kept World.move PollsRight (Polling status wr pipe) where
  move := by
    apply move_keeps
    · exact fun w pid stat hw _ => hw
    · exact fun w hw _ _ => ⟨hw.1, hw.2.cons (e := .handler _ _) trivial rfl⟩
    · rintro w node wp w₁ hw _ hwait _
      have hw₁ : Polling status wr pipe w₁ := by
        obtain rfl | ⟨p, rfl⟩ := waitNohang_eq_setProc hwait
        · exact hw
        · exact hw
      exact ⟨hw₁.1.childExited node wp, hw₁.2.childExited node wp⟩
    · exact fun w kept hw _ => hw
  safe _ h := h.2

/-- So does what holds before the pipe is made. -/
theorem kept_uncollected (status : Sexp) :
    Kept World.move PollsRight (Uncollected status) where
  move := by
    rintro w m w' ⟨hpolls, hblocked, hh⟩ hmove
    obtain ⟨pid, stat, _, rfl⟩ := move_blocked hblocked hmove
    exact ⟨hpolls, hblocked, hh⟩
  safe _ h := h.1

variable {α : Type}

/-- Programs in which every poll is right. -/
abbrev Polls (P : World → Prop) (p : Call α) (Q : Except String α → World → Prop) : Prop :=
  Ensures World.move PollsRight P p Q

/-- The end of a wait that does not tell that the time was up. -/
theorem Polls.endUntimed {P : World → Prop} (hP : Kept World.move PollsRight P) {p : Call Bool}
    (hp : p = .ret true ∨ ∃ msg, p = .throw msg) (status : Sexp) :
    Polls P p (fun r => TimedOut status (r = .ok false)) := by
  have hQ : ∀ r : Except String Bool, r ≠ .ok false → ∀ w, P w →
      TimedOut status (r = .ok false) w :=
    fun r hr w hw => ⟨hP.safe w hw, fun h => absurd h hr⟩
  obtain rfl | ⟨msg, rfl⟩ := hp
  · exact .ret hP (hQ _ nofun)
  · exact .throw hP (hQ _ nofun)

/-- A poll sees a closed write end, or a child that is not collected. -/
theorem poll_right {status : Sexp} {r wr pipe : ℕ} {w w' : World} {c : Choice} {answer : PollAnswer}
    (hw : Polling status wr pipe w) (hpoll : poll status r wr pipe w c = some (answer, w')) :
    Polling status wr pipe w' ∧ TimedOut status (answer = .timeout) w' := by
  have hwakes : w.fds wr = some (.waitWrite pipe) →
      ((w.handles status).map Handle.collected).getD false = false := by
    intro hopen
    obtain ⟨h, hh, hcollected, _⟩ := hw.1.resolve_left (not_not_intro hopen)
    rw [hh]
    exact hcollected
  have hseen : ∀ (hungup : Bool) (a : PollAnswer),
      (hungup = false → w.fds wr = some (.waitWrite pipe)) →
      (a = .timeout → hungup = false) → answer = a →
      w' = w.record (.poll status (((w.handles status).map Handle.collected).getD false) hungup a) →
      Polling status wr pipe w' ∧ TimedOut status (answer = .timeout) w' := by
    rintro hungup a hopen htimeout rfl rfl
    have hright : PollsRight (w.record
        (.poll status (((w.handles status).map Handle.collected).getD false) hungup answer)) := by
      refine hw.2.cons (e := .poll _ _ _ _)
        ⟨fun hcollected => ?_, fun h => hwakes (hopen (htimeout h))⟩ rfl
      cases hungup with
      | true => rfl
      | false => exact absurd (hwakes (hopen rfl)) (by rw [hcollected]; exact nofun)
    refine ⟨⟨hw.1, hright⟩, hright, ?_⟩
    rintro rfl
    obtain rfl := htimeout rfl
    change some _ = _
    rw [hwakes (hopen rfl)]
  unfold poll at hpoll
  cases c with
  | ok =>
    obtain ⟨hanswer, hw'⟩ := Prod.mk.inj (Option.some.inj hpoll)
    refine hseen (decide (w.fds wr ≠ some (.waitWrite pipe))) _ ?_ ?_ hanswer.symm hw'.symm
    · simp
    · intro h
      split at h
      · cases h
      next hboth => simpa using fun hne => hboth (Or.inl hne)
  | fail =>
    obtain ⟨hanswer, hw'⟩ := Prod.mk.inj (Option.some.inj hpoll)
    refine hseen (decide (w.fds wr ≠ some (.waitWrite pipe))) .error ?_ nofun hanswer.symm hw'.symm
    simp
  | _ => cases hpoll

/-- The last poll of a wait. -/
theorem poll_polls (status : Sexp) (r wr pipe : ℕ) :
    Polls (Polling status wr pipe) (Prog.lift (poll status r wr pipe))
      (fun answer => TimedOut status (answer = .ok .timeout)) := by
  refine .act (kept_polling status wr pipe) (fun answer => TimedOut status (answer = .timeout))
    (fun w c answer w' hw hpoll => (poll_right hw hpoll).2) fun answer => ?_
  refine .ret (kept_timedOut status _) fun w hw => ⟨hw.1, fun h => hw.2 (Except.ok.inj h)⟩

/-- The polling of a wait: by induction on the rounds, where a limited time is never used
up before the last poll. -/
theorem pollLoop_polls (status : Sexp) (pid r wr pipe : ℕ) (timeout : ℤ) (rounds : ℕ)
    (timeleft : ℤ) (htime : timeout < 0 ∨ 0 ≤ timeleft) :
    Polls (Polling status wr pipe) (pollLoop status pid r wr pipe timeout rounds timeleft)
      (fun answer => TimedOut status (answer = .ok .timeout)) := by
  have hkept := kept_polling status wr pipe
  have htimedOut : ∀ answer : Except String PollAnswer, answer ≠ .ok .timeout →
      ∀ w, Polling status wr pipe w → TimedOut status (answer = .ok .timeout) w :=
    fun answer hne w hw => ⟨hw.2, fun h => absurd h hne⟩
  induction rounds generalizing timeleft with
  | zero => exact .spin hkept
  | succ rounds ih =>
    rw [pollLoop]
    by_cases hloop : timeout < 0 ∨ timeleft > interruptInterval
    · rw [if_pos hloop]
      refine .step hkept (fun _ => Polling status wr pipe)
        (fun w c answer w' hw hpoll => (poll_right hw hpoll).1) fun answer => ?_
      by_cases hanswer : answer ≠ .timeout
      · rw [if_pos hanswer]
        exact .ret hkept (htimedOut _ fun h => hanswer (Except.ok.inj h))
      · rw [if_neg hanswer]
        refine .step hkept (fun _ => Polling status wr pipe) ?_ fun interrupted => ?_
        · rintro w c b w' hw ⟨⟩
          exact hw
        cases interrupted with
        | true => exact .throw hkept (htimedOut _ (by rintro ⟨⟩))
        | false =>
          refine .step hkept (fun _ => Polling status wr pipe) ?_ fun alive => ?_
          · intro w c alive w' hw hkill
            have hrecord : ∀ e : Event, e.pollRight → Polling status wr pipe (w.record e) :=
              fun e he => ⟨hw.1, hw.2.cons he rfl⟩
            cases c <;> cases hkill <;> exact hrecord (.kill _ _ _ _ _) trivial
          dsimp only
          by_cases halive : alive ≠ .ok
          · rw [if_pos halive]
            exact .ret hkept (htimedOut _ (by rintro ⟨⟩))
          · rw [if_neg halive]
            refine ih _ ?_
            rcases hloop with hneg | hlong
            · exact Or.inl hneg
            · right
              unfold interruptInterval at hlong ⊢
              split <;> omega
    · rw [if_neg hloop]
      have hleft : timeleft ≥ 0 := by
        rcases htime with hneg | hleft
        · exact absurd (Or.inl hneg) hloop
        · exact hleft
      rw [if_pos hleft]
      exact poll_polls status r wr pipe

/-- The end of a wait keeps what the last poll has seen. -/
theorem endWait_polls (status : Sexp) (pid : ℕ) (old : Bool) (answer : PollAnswer) :
    Polls (TimedOut status (answer = .timeout)) (endWait status pid old answer)
      (fun result => TimedOut status (result = .ok false)) := by
  have hkept := kept_timedOut status (answer = .timeout)
  rw [endWait]
  by_cases herror : answer = .error
  · rw [if_pos herror]
    exact .throw hkept fun w hw => ⟨hw.1, by rintro ⟨⟩⟩
  · rw [if_neg herror]
    refine .step hkept (fun _ => TimedOut status (answer = .timeout)) ?_ fun _ => ?_
    · rintro w c r w' hw ⟨⟩
      exact hw
    refine .step hkept (fun _ => TimedOut status (answer = .timeout)) ?_ fun _ => ?_
    · rintro w c r w' hw ⟨⟩
      cases old with
      | true => exact ⟨hw.1.cons (e := .waitEnded _ _ _ _) trivial rfl, hw.2⟩
      | false =>
        have hunblocked : PollsRight (w.procmaskSet false) :=
          hw.1.cons (e := .unblocked) trivial rfl
        exact ⟨hunblocked.cons (e := .waitEnded _ _ _ _) trivial rfl, hw.2⟩
    refine .ret hkept fun w hw => ⟨hw.1, fun h => hw.2 ?_⟩
    simpa using Except.ok.inj h

/-- A wait that stops because the pipe cannot be made, or because there is nothing to wait
for, has not timed out. -/
theorem stop_polls (status : Sexp) (a : Act Unit) {p : Call Bool}
    (ha : ∀ w c r w', PollsRight w → a w c = some (r, w') → PollsRight w')
    (hp : p = .ret true ∨ ∃ msg, p = .throw msg) :
    Polls PollsRight (Prog.lift a >>= fun _ => p)
      (fun result => TimedOut status (result = .ok false)) :=
  .step kept_pollsRight (fun _ => PollsRight) ha fun _ => Polls.endUntimed kept_pollsRight hp status

/-- Setting the mask is no poll. -/
theorem PollsRight.procmaskSet {w : World} (hw : PollsRight w) (old : Bool) :
    PollsRight (w.procmaskSet old) := by
  cases old with
  | true => exact hw
  | false => exact hw.cons (e := .unblocked) trivial rfl

/-- The handle of an uncollected child holds the write end of a new pipe. -/
theorem polling_makeWaitpipe {status : Sexp} {w w' : World} {c : Choice}
    {made : Option (ℕ × ℕ × ℕ)} (hw : Uncollected status w)
    (hmake : makeWaitpipe status w c = some (made, w')) :
    PollsRight w' ∧ ∀ r wr pipe, made = some (r, wr, pipe) → Polling status wr pipe w' := by
  obtain ⟨hpolls, _, h, hh, hcollected⟩ := hw
  obtain ⟨rfl, rfl⟩ | ⟨r, wr, handle, rfl, hhandle, _, _, _, rfl⟩ := makeWaitpipe_cases hmake
  · exact ⟨hpolls, nofun⟩
  · refine ⟨hpolls, ?_⟩
    rintro _ _ _ ⟨⟩
    rw [hh] at hhandle
    obtain rfl := Option.some.inj hhandle
    exact ⟨Or.inr ⟨_, if_pos rfl, hcollected, rfl⟩, hpolls⟩

/-- The part of a wait behind the making of the pipe. -/
theorem afterWaitpipe_polls (rounds : ℕ) (status : Sexp) (pid : ℕ) (old : Bool) (timeout : ℤ)
    (r wr pipe : ℕ) :
    Polls (Polling status wr pipe) (do
        Prog.lift (saveWaitpipe r wr)
        Prog.lift unblockSigchld
        let answer ← pollLoop status pid r wr pipe timeout rounds timeout
        endWait status pid old answer)
      (fun result => TimedOut status (result = .ok false)) := by
  have hkept := kept_polling status wr pipe
  refine .step hkept (fun _ => Polling status wr pipe) ?_ fun _ => ?_
  · intro w c r w' hw hsave
    unfold saveWaitpipe at hsave
    split at hsave <;> cases hsave <;> exact hw
  refine .step hkept (fun _ => Polling status wr pipe) ?_ fun _ => ?_
  · rintro w c r w' hw ⟨⟩
    exact ⟨hw.1, hw.2.cons (e := .unblocked) trivial rfl⟩
  refine (pollLoop_polls status pid r wr pipe timeout rounds timeout (by omega)).bind
    (fun answer => ?_) fun e w h => ⟨h.1, nofun⟩
  refine (endWait_polls status pid old answer).conseq (fun w h => ?_) fun _ _ h => h
  exact ⟨h.1, fun hanswer => h.2 (congrArg Except.ok hanswer)⟩

/-- A wait polls right, and says that the time was up only if it was. -/
theorem cProcessxWait_polls (rounds : ℕ) (status : Sexp) (timeout : ℤ) :
    Polls PollsRight (cProcessxWait rounds status timeout)
      (fun result => TimedOut status (result = .ok false)) := by
  have hany := kept_pollsRight
  refine .step hany (fun _ => PollsRight) ?_ fun registered => ?_
  · intro w c registered w' hw hcall
    obtain ⟨_, rfl⟩ | ⟨frame, frames, _, _, rfl⟩ := callOnExit_cases hcall
    · exact hw.cons (e := .waitSetupFailed _) trivial rfl
    · exact hw
  cases registered with
  | false => exact Polls.endUntimed hany (Or.inr ⟨_, rfl⟩) status
  | true =>
    refine .step hany (fun _ w => PollsRight w ∧ w.blocked = true) ?_ fun old => ?_
    · rintro w c old w' hw ⟨⟩
      exact ⟨hw, rfl⟩
    have hblocked : Kept World.move PollsRight (fun w => PollsRight w ∧ w.blocked = true) := by
      refine ⟨?_, fun _ h => h.1⟩
      rintro w m w' ⟨hpolls, hblocked⟩ hmove
      obtain ⟨pid, stat, _, rfl⟩ := move_blocked hblocked hmove
      exact ⟨hpolls, hblocked⟩
    refine .step hblocked (fun handle w => PollsRight w ∧ w.blocked = true ∧
      w.handles status = handle) ?_ fun handle => ?_
    · rintro w c handle w' hw ⟨⟩
      exact ⟨hw.1, hw.2, rfl⟩
    have hrestore := stop_polls status (procmaskSet old) (p := .ret true)
      (fun w c r w' hw h => by cases h; exact hw.procmaskSet old) (Or.inl rfl)
    cases handle with
    | none => exact hrestore.conseq (fun _ h => h.1) fun _ _ h => h
    | some h =>
      by_cases hcollected : h.collected = true
      · simp only [hcollected, if_true]
        exact hrestore.conseq (fun _ h => h.1) fun _ _ h => h
      · simp only [hcollected]
        have hkept := kept_uncollected status
        refine Ensures.conseq (R := Uncollected status) ?_ ?_ fun _ _ h => h
        · refine .step hkept (fun _ => Uncollected status) ?_ fun _ => ?_
          · rintro w c r w' hw ⟨⟩
            exact hw
          refine .step hkept (fun _ => Uncollected status) ?_ fun _ => ?_
          · rintro w c r w' hw ⟨⟩
            exact ⟨hw.1, rfl, hw.2.2⟩
          refine .step hkept (fun made w => PollsRight w ∧
            ∀ r wr pipe, made = some (r, wr, pipe) → Polling status wr pipe w)
            (fun w c made w' hw hmake => polling_makeWaitpipe hw hmake) fun made => ?_
          cases made with
          | none =>
            refine (stop_polls status (restoreAfterFailure old) ?_ (Or.inr ⟨_, rfl⟩)).conseq
              (fun _ h => h.1) fun _ _ h => h
            rintro w c r w' hw ⟨⟩
            exact (hw.procmaskSet old).cons (e := .waitSetupFailed _) trivial rfl
          | some ends =>
            obtain ⟨r, wr, pipe⟩ := ends
            exact (afterWaitpipe_polls rounds status h.pid old timeout r wr pipe).conseq
              (fun w hw => hw.2 r wr pipe rfl) fun _ _ h => h
        · rintro w ⟨hpolls, hblocked, hh⟩
          exact ⟨hpolls, hblocked, h, hh, by simpa using hcollected⟩

end Processx
