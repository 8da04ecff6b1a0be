import Processx.Unix.Signals

/-!
# The result of a kill

`c_processx_kill()` infers its result from the exit code that is stored in the end: it is true if
that is the signal that the function has sent last. A child that ends in another way, or that ends
from the first signal after the last poll of the grace period, makes it false.
-/

namespace Processx

open Interruptible

/-- The `waitpid()` calls and the ends of waits. -/
def Event.isTurn : Event → Bool
  | .waitpid .. => true
  | .waitEnded .. => true
  | _ => false

/-- Did the child `pid` run when a kill of the handle `s` checked it first? -/
def RunningAtCheck (s : Sexp) (pid : ℕ) (events : List Event) : Prop :=
  .waitpid .killCheck s pid .running ∈ events

/-- A child that has ended from a signal, waited for or not. -/
def Proc.EndedBy (sig : Fin 128) (p : Proc) : Prop :=
  p = .zombie (.signaled sig) ∨ p = .reaped (.signaled sig)

instance (sig : Fin 128) (p : Proc) : Decidable (p.EndedBy sig) :=
  inferInstanceAs (Decidable (_ ∨ _))

/-- The child has ended from `SIGTERM` and was waited for before the wait of the grace period was
over, and the time was not up; or it has ended from `SIGKILL` when the kill waits for it. -/
def EndsInTime (s : Sexp) (pid : ℕ) (events : List Event) : Prop :=
  (∃ old answer, .waitEnded old answer pid (.reaped (.signaled 15)) ∈ events ∧ answer ≠ .timeout) ∨
    ∃ before, .waitpid .killReap s pid before ∈ events ∧ before.EndedBy 9

/-- **The result.** If the child ran when it was checked first, and does not run when the kill
returns, then the result is true; if it did not run at the first check, then it is false. -/
def KillRight (s : Sexp) (events : List Event) (w' : World) (result : Bool) : Prop :=
  (∀ pid, RunningAtCheck s pid events → w'.procs pid ≠ .running → result = true) ∧
    ((∀ pid, ¬RunningAtCheck s pid events) → result = false)

/-- A handle whose child is not collected has the exit code that it was made with. -/
def FreshCodes (w : World) : Prop :=
  ∀ s h, w.handles s = some h → h.collected = false → h.exitcode = 0

/-- It is set together with the mark that the child is collected. -/
theorem handleRule_freshCodes : HandleRule fun h => h.collected = false → h.exitcode = 0 where
  new _ _ _ := rfl
  collect h wp hh := by
    unfold Handle.collect
    split
    · exact hh
    · exact nofun
  makePipe _ _ _ hh := hh
  clearPipe _ hh := hh
  closeWrite _ hh := hh
  setPty _ _ hh := hh
  setPid _ _ hh := hh

/-- Since `log₀` there were these `waitpid()` calls and ends of waits. -/
def Since (log₀ turns : List Event) (w : World) : Prop :=
  ∃ events, w.log = events ++ log₀ ∧ events.filter Event.isTurn = turns

/-- Other events make no difference. -/
theorem Since.append {log₀ turns : List Event} {w w' : World} (h : Since log₀ turns w)
    (new : List Event) (hlog : w'.log = new ++ w.log) (hnew : ∀ e ∈ new, e.isTurn = false) :
    Since log₀ turns w' := by
  obtain ⟨events, hevents, hturns⟩ := h
  refine ⟨new ++ events, by rw [hlog, hevents, List.append_assoc], ?_⟩
  rw [List.filter_append, hturns, List.filter_eq_nil_iff.mpr]
  · rfl
  · intro e he
    rw [hnew e he]
    exact Bool.false_ne_true

/-- One more of them. -/
theorem Since.cons {log₀ turns : List Event} {w w' : World} {e : Event} (h : Since log₀ turns w)
    (hlog : w'.log = e :: w.log) (he : e.isTurn = true) : Since log₀ (e :: turns) w' := by
  obtain ⟨events, hevents, hturns⟩ := h
  refine ⟨e :: events, by rw [hlog, hevents, List.cons_append], ?_⟩
  rw [List.filter_cons, if_pos he, hturns]

/-- What happens outside of the main program records neither. -/
theorem Since.move {log₀ turns : List Event} {w w' : World} {m : Move} (h : Since log₀ turns w)
    (hmove : w.move m = some w') : Since log₀ turns w' := by
  refine move_keeps (P := Since log₀ turns) ?_ ?_ ?_ ?_ w m w' h hmove
  · exact fun w pid stat hw _ => hw
  · exact fun w hw _ _ => hw.append [_] rfl fun e he => List.mem_singleton.mp he ▸ rfl
  · intro w node wp w₁ hw _ hwait _
    have hw₁ : Since log₀ turns w₁ := by
      obtain rfl | ⟨p, rfl⟩ := waitNohang_eq_setProc hwait
      · exact hw
      · exact hw
    obtain ⟨closes, hlog, hcloses⟩ := log_childExited w₁ node wp
    refine hw₁.append closes hlog fun e he => ?_
    obtain ⟨site, fd, before, rfl⟩ := hcloses e he
    rfl
  · exact fun w kept hw _ => hw

/-- A status is only dropped by a `waitpid()`. -/
theorem dropped_append_of_not_isTurn {new : List Event} (hnew : ∀ e ∈ new, e.isTurn = false)
    (s : Sexp) (log : List Event) : dropped s (new ++ log) = dropped s log := by
  induction new with
  | nil => rfl
  | cons e new ih =>
    have hdrops : e.drops s = false := by
      have hturn := hnew e List.mem_cons_self
      cases e <;> first | rfl | cases hturn
    rw [List.cons_append, dropped_cons, hdrops, ih fun e he => hnew e (List.mem_cons_of_mem _ he)]
    rfl

/-- What a kill looks at in a handle. -/
def Handle.account (h : Handle) : ℕ × Bool × ℤ := (h.pid, h.collected, h.exitcode)

/-- A step that leaves the processes and the accounts of the handles alone, and in which neither
a `waitpid()` nor the end of a wait is recorded. -/
structure Plain (w w' : World) : Prop where
  procs : w'.procs = w.procs
  accounts : ∀ s, (w'.handles s).map Handle.account = (w.handles s).map Handle.account
  childList : w'.childList = w.childList
  freeList : w'.freeList = w.freeList
  log : ∃ new, w'.log = new ++ w.log ∧ ∀ e ∈ new, e.isTurn = false

/-- A step that records nothing. -/
theorem Plain.of_log {w w' : World} (hprocs : w'.procs = w.procs)
    (haccounts : ∀ s, (w'.handles s).map Handle.account = (w.handles s).map Handle.account)
    (hlist : w'.childList = w.childList) (hfree : w'.freeList = w.freeList)
    (hlog : w'.log = w.log) : Plain w w' := ⟨hprocs, haccounts, hlist, hfree, [], hlog, nofun⟩

/-- A step that records an event, and changes nothing else but the mask. -/
theorem Plain.of_event {w w' : World} {e : Event} (hlog : w'.log = e :: w.log)
    (he : e.isTurn = false) (hprocs : w'.procs = w.procs) (hhandles : w'.handles = w.handles)
    (hlist : w'.childList = w.childList) (hfree : w'.freeList = w.freeList) : Plain w w' :=
  ⟨hprocs, fun s => by rw [hhandles], hlist, hfree, [e], hlog,
    fun _ hmem => List.mem_singleton.mp hmem ▸ he⟩

/-- A step that only records an event. -/
theorem Plain.record (w : World) {e : Event} (he : e.isTurn = false) : Plain w (w.record e) :=
  .of_event rfl he rfl rfl rfl rfl

/-- The handle before such a step. -/
theorem Plain.handle {w w' : World} (h : Plain w w') {s : Sexp} {h' : Handle}
    (hh' : w'.handles s = some h') :
    ∃ h, w.handles s = some h ∧ h.pid = h'.pid ∧ h.collected = h'.collected ∧
      h.exitcode = h'.exitcode := by
  have haccount := h.accounts s
  rw [hh'] at haccount
  obtain ⟨handle, hh, heq⟩ := Option.map_eq_some_iff.mp haccount.symm
  simp only [Handle.account, Prod.mk.injEq] at heq
  exact ⟨handle, hh, heq⟩

/-- A handle that changes in other fields. -/
theorem accounts_setHandle {w : World} {s : Sexp} {h' : Option Handle}
    (hsame : h'.map Handle.account = (w.handles s).map Handle.account) (s' : Sexp) :
    ((w.setHandle s h').handles s').map Handle.account =
      (w.handles s').map Handle.account := by
  by_cases hs : s' = s
  · subst hs
    simpa [World.setHandle] using hsame
  · simp [World.setHandle, hs]

/-- The child of the handle `s` is `pid`, its status was not dropped, and since `log₀` there were
these `waitpid()` calls and ends of waits. -/
structure Underway (s : Sexp) (pid : ℕ) (log₀ turns : List Event) (w : World) : Prop where
  tracked : Tracked none w
  pidOf : PidOf s (some pid) w
  fresh : FreshCodes w
  kept : dropped s w.log = false
  since : Since log₀ turns w

variable {s : Sexp} {pid : ℕ} {log₀ turns : List Event} {w w' : World}

/-- A plain step changes nothing of how far the kill has come. -/
theorem Underway.plain (h : Underway s pid log₀ turns w) (hplain : Plain w w') :
    Underway s pid log₀ turns w' := by
  obtain ⟨new, hlog, hnew⟩ := hplain.log
  refine ⟨?_, ?_, ?_, ?_, h.since.append new hlog hnew⟩
  · refine h.tracked.same hplain.procs (fun s h' hh' => hplain.handle hh') (fun s => ?_) ?_ ?_
    · rw [hlog]
      exact dropped_append_of_not_isTurn hnew s w.log
    · rw [hplain.childList]
      exact List.Subset.refl _
    · rw [hplain.freeList]
      exact List.Subset.refl _
  · obtain ⟨handle, hh, hpid⟩ := Option.map_eq_some_iff.mp h.pidOf
    have haccount := hplain.accounts s
    rw [hh] at haccount
    obtain ⟨h', hh', heq⟩ := Option.map_eq_some_iff.mp haccount
    simp only [Handle.account, Prod.mk.injEq] at heq
    rw [PidOf, hh', Option.map_some, heq.1, hpid]
  · intro s' h' hh' hcollected
    obtain ⟨handle, hh, _, hsame, hcode⟩ := hplain.handle hh'
    rw [← hcode]
    exact h.fresh s' handle hh (hsame.trans hcollected)
  · rw [hlog, dropped_append_of_not_isTurn hnew, h.kept]

/-- Nor does the exit of a child. -/
theorem kept_underway (s : Sexp) (pid : ℕ) (log₀ turns : List Event) :
    Kept World.move (fun _ => True) (Underway s pid log₀ turns) where
  move w m w' hw hmove := by
    refine ⟨hw.tracked.move hmove, PidOf.move w m w' hw.pidOf hmove,
      handleRule_freshCodes.kept.move w m w' hw.fresh hmove, ?_, hw.since.move hmove⟩
    have hnone : Since w.log [] w := ⟨[], rfl, rfl⟩
    obtain ⟨new, hlog, hturns⟩ := hnone.move hmove
    rw [hlog, dropped_append_of_not_isTurn, hw.kept]
    intro e he
    have hnot := List.filter_eq_nil_iff.mp hturns e he
    simpa using hnot
  safe _ _ := trivial

/-- The code that a kill reads: that of the status once the child was waited for. -/
def Proc.code : Proc → ℤ
  | .reaped stat => stat.exitcode
  | _ => 0

/-- The account of the handle. -/
theorem Underway.account (hw : Underway s pid log₀ turns w) :
    ∃ h, w.handles s = some h ∧ h.pid = pid ∧ h.collected = (w.procs pid).isReaped ∧
      h.exitcode = (w.procs pid).code ∧ w.procs pid ≠ .absent := by
  obtain ⟨h, hh, rfl⟩ := Option.map_eq_some_iff.mp hw.pidOf
  have haccounted := hw.tracked.accounted s h hh nofun
  rw [hw.kept] at haccounted
  refine ⟨h, hh, rfl, ?_⟩
  cases hproc : w.procs h.pid with
  | absent =>
    rw [hproc] at haccounted
    exact haccounted.elim
  | running =>
    cases hcollected : h.collected with
    | false => exact ⟨rfl, hw.fresh s h hh hcollected, nofun⟩
    | true =>
      rw [hproc, hcollected] at haccounted
      exact haccounted.elim
  | zombie stat =>
    cases hcollected : h.collected with
    | false => exact ⟨rfl, hw.fresh s h hh hcollected, nofun⟩
    | true =>
      rw [hproc, hcollected] at haccounted
      exact haccounted.elim
  | reaped stat =>
    cases hcollected : h.collected with
    | false =>
      rw [hproc, hcollected] at haccounted
      cases haccounted
    | true =>
      rw [hproc, hcollected] at haccounted
      exact ⟨rfl, haccounted, nofun⟩

/-- Programs of a kill. What it throws is of no interest. -/
abbrev Kills {α : Type} (P : World → Prop) (p : Call α) (Q : α → World → Prop) : Prop :=
  Ensures World.move (fun _ => True) P p fun result w => ∀ a, result = .ok a → Q a w

/-- The signal is blocked, and something is known of the child. -/
structure Stopped (s : Sexp) (pid : ℕ) (log₀ turns : List Event) (φ : Proc → Prop) (w : World) :
    Prop where
  blocked : w.blocked = true
  underway : Underway s pid log₀ turns w
  child : φ (w.procs pid)

/-- A child that runs may exit, even though the signal is blocked. -/
theorem kept_stopped {φ : Proc → Prop} (hφ : ∀ stat, φ .running → φ (.zombie stat)) :
    Kept World.move (fun _ => True) (Stopped s pid log₀ turns φ) where
  move w m w' hw hmove := by
    have hunderway := (kept_underway s pid log₀ turns).move w m w' hw.underway hmove
    obtain ⟨pid', stat, hrun, rfl⟩ := move_blocked hw.blocked hmove
    refine ⟨hw.blocked, hunderway, ?_⟩
    by_cases hpid : pid = pid'
    · subst hpid
      have hchild := hw.child
      rw [hrun] at hchild
      simpa [World.setProc] using hφ stat hchild
    · simpa [World.setProc, hpid] using hw.child
  safe _ _ := trivial

variable {φ : Proc → Prop} {Q : α → World → Prop}

/-- A plain step with the signal blocked. -/
theorem Stopped.plain (hw : Stopped s pid log₀ turns φ w) (hplain : Plain w w')
    (hblocked : w'.blocked = true) : Stopped s pid log₀ turns φ w' := by
  refine ⟨hblocked, hw.underway.plain hplain, ?_⟩
  rw [hplain.procs]
  exact hw.child

/-- A plain step, whether the signal is blocked or not. -/
theorem Underway.step {a : Act ρ} {f : ρ → Call α}
    (ha : ∀ w c r w', a w c = some (r, w') → Plain w w')
    (hf : ∀ r, Kills (Underway s pid log₀ turns) (f r) Q) :
    Kills (Underway s pid log₀ turns) (Prog.lift a >>= f) Q :=
  Ensures.step (kept_underway ..) (fun _ => Underway s pid log₀ turns)
    (fun w c r w' hw h => hw.plain (ha w c r w' h)) hf

/-- A `poll()` is plain. -/
theorem plain_poll {s : Sexp} {r wr pipe : ℕ} {c : Choice} {answer : PollAnswer}
    (h : poll s r wr pipe w c = some (answer, w')) : Plain w w' := by
  cases c <;> cases h <;> exact .record w rfl

/-- A signal is plain. -/
theorem plain_kill {site : KillSite} {s : Sexp} {target : ℤ} {sig : ℕ} {c : Choice}
    {r : KillResult} (h : kill site s target sig w c = some (r, w')) : Plain w w' := by
  obtain rfl := kill_eq_record h
  exact .record w rfl

/-- The polling, by induction on the rounds. -/
theorem pollLoop_kills (r wr pipe : ℕ) (timeout : ℤ) (rounds : ℕ) (timeleft : ℤ) :
    Kills (Underway s pid log₀ turns) (pollLoop s pid r wr pipe timeout rounds timeleft)
      (fun _ => Underway s pid log₀ turns) := by
  have hreturn : ∀ answer, Kills (Underway s pid log₀ turns) (.ret answer : Call PollAnswer)
      (fun _ => Underway s pid log₀ turns) :=
    fun answer => .ret (kept_underway ..) fun w hw _ _ => hw
  induction rounds generalizing timeleft with
  | zero => exact .spin (kept_underway ..)
  | succ rounds ih =>
    rw [pollLoop]
    split
    · apply Underway.step fun _ _ _ _ h => plain_poll h
      intro answer
      split
      · exact hreturn answer
      · apply Underway.step
        · rintro w c r w' ⟨⟩
          exact .of_log rfl (fun _ => rfl) rfl rfl rfl
        · rintro (_ | _)
          · apply Underway.step fun _ _ _ _ h => plain_kill h
            intro alive
            dsimp only
            split
            · exact hreturn .ready
            · exact ih _
          · exact .throw (kept_underway ..) fun w hw _ h => by cases h
    · split
      · exact Underway.step (fun _ _ _ _ h => plain_poll h) hreturn
      · exact hreturn .timeout

/-- Has the child been waited for in the same way as before? -/
def SameEnd (before p : Proc) : Prop := ∀ stat, p = .reaped stat ↔ before = .reaped stat

/-- What holds behind a wait that was called with the signal blocked. -/
def AfterWait (s : Sexp) (pid : ℕ) (log₀ turns : List Event) (finished : Bool) (w : World) : Prop :=
  ∃ answer before, finished = decide (answer ≠ .timeout) ∧
    Stopped s pid log₀ (.waitEnded true answer pid before :: turns) (SameEnd before) w

/-- A child that runs may come to its end. -/
theorem sameEnd_exit {before : Proc} (stat : WStat) (h : SameEnd before .running) :
    SameEnd before (.zombie stat) := by
  intro stat'
  rw [← h stat']
  exact iff_of_false nofun nofun

/-- The end of the wait. -/
theorem endWait_kills (answer : PollAnswer) :
    Kills (Underway s pid log₀ turns) (endWait s pid true answer)
      (AfterWait s pid log₀ turns) := by
  rw [endWait]
  split
  · exact .throw (kept_underway ..) fun w hw _ h => by cases h
  · apply Underway.step
    · rintro w c r w' ⟨⟩
      refine .of_log rfl (accounts_setHandle ?_) rfl rfl rfl
      rw [Option.map_map]
      rfl
    intro _
    refine Ensures.step (kept_underway ..) (fun _ w => ∃ before, Stopped s pid log₀
      (.waitEnded true answer pid before :: turns) (SameEnd before) w) ?_ fun _ => ?_
    · rintro w c r w' hw ⟨⟩
      have hmask : Underway s pid log₀ turns (w.procmaskSet true) :=
        hw.plain (.of_log rfl (fun _ => rfl) rfl rfl rfl)
      refine ⟨w.procs pid, rfl, ⟨?_, hmask.pidOf, hmask.fresh, hmask.kept, ?_⟩, fun stat => .rfl⟩
      · exact hmask.tracked.same rfl (fun s h hh => ⟨h, hh, rfl, rfl, rfl⟩) (fun s => rfl)
          (List.Subset.refl _) (List.Subset.refl _)
      · exact hmask.since.cons rfl rfl
    · apply Ensures.of_exists
      intro before
      refine .ret (kept_stopped sameEnd_exit) fun w hw _ h => ?_
      obtain rfl := Except.ok.inj h
      exact ⟨answer, before, rfl, hw⟩

/-- The wait for a child that has not been waited for, with the signal blocked. -/
theorem cProcessxWait_kills (rounds : ℕ) (timeout : ℤ) :
    Kills (Stopped s pid log₀ turns (·.isReaped = false)) (cProcessxWait rounds s timeout)
      (AfterWait s pid log₀ turns) := by
  have hkept : Kept World.move (fun _ => True) (Stopped s pid log₀ turns (·.isReaped = false)) :=
    kept_stopped fun _ _ => rfl
  have hthrow : ∀ msg, Kills (Underway s pid log₀ turns) (.throw msg : Call Bool)
      (AfterWait s pid log₀ turns) :=
    fun msg => .throw (kept_underway ..) fun w hw _ h => by cases h
  refine Ensures.step hkept (fun _ => Stopped s pid log₀ turns (·.isReaped = false)) ?_
    fun registered => ?_
  · intro w c registered w' hw hcall
    obtain ⟨_, rfl⟩ | ⟨frame, frames, _, _, rfl⟩ := callOnExit_cases hcall
    · exact hw.plain (.record w rfl) hw.blocked
    · exact hw.plain (.of_log rfl (fun _ => rfl) rfl rfl rfl) hw.blocked
  cases registered with
  | false => exact .throw hkept fun w hw _ h => by cases h
  | true =>
    refine Ensures.step hkept (fun old w => old = true ∧
      Stopped s pid log₀ turns (·.isReaped = false) w) ?_ fun old => .of_fact ?_
    · rintro w c old w' hw ⟨⟩
      exact ⟨hw.blocked, hw.plain (.of_log rfl (fun _ => rfl) rfl rfl rfl) rfl⟩
    rintro rfl
    refine Ensures.step hkept (fun handle w => (∃ h, handle = some h ∧ h.pid = pid ∧
      h.collected = false) ∧ Underway s pid log₀ turns w) ?_ fun handle => .of_fact ?_
    · rintro w c handle w' hw ⟨⟩
      obtain ⟨h, hh, hpid, hcollected, _⟩ := hw.underway.account
      exact ⟨⟨h, hh, hpid, hcollected.trans hw.child⟩, hw.underway⟩
    rintro ⟨h, rfl, rfl, hcollected⟩
    simp only [hcollected, Bool.false_eq_true, if_false]
    apply Underway.step
    · rintro w c r w' ⟨⟩
      exact .of_log rfl (fun _ => rfl) rfl rfl rfl
    intro _
    apply Underway.step
    · rintro w c r w' ⟨⟩
      exact .of_log rfl (fun _ => rfl) rfl rfl rfl
    intro _
    apply Underway.step
    · intro w c made w' hmake
      obtain ⟨_, rfl⟩ | ⟨r, wr, handle, _, hh, _, _, _, rfl⟩ := makeWaitpipe_cases hmake
      · exact .of_log rfl (fun _ => rfl) rfl rfl rfl
      · refine .of_log rfl (accounts_setHandle ?_) rfl rfl rfl
        rw [hh]
        rfl
    rintro (_ | ⟨r, wr, pipe⟩)
    · apply Underway.step
      · rintro w c r w' ⟨⟩
        exact .of_event rfl rfl rfl rfl rfl rfl
      exact fun _ => hthrow _
    · apply Underway.step
      · intro w c u w' hsave
        unfold saveWaitpipe at hsave
        split at hsave
        · cases hsave
          exact .of_log rfl (fun _ => rfl) rfl rfl rfl
        · cases hsave
          exact .of_log rfl (fun _ => rfl) rfl rfl rfl
      intro _
      apply Underway.step
      · rintro w c r w' ⟨⟩
        exact .of_event rfl rfl rfl rfl rfl rfl
      intro _
      apply Ensures.bind (pollLoop_kills r wr pipe timeout rounds timeout)
      · exact fun answer => (endWait_kills answer).conseq (fun w hw => hw answer rfl)
          fun _ _ hq => hq
      · exact fun msg w _ _ h => by cases h

/-- The child ran when it was checked first, and has not ended in time so far. -/
structure Undecided (s : Sexp) (pid : ℕ) (turns : List Event) : Prop where
  running : RunningAtCheck s pid turns
  only : ∀ pid', RunningAtCheck s pid' turns → pid' = pid
  late : ¬EndsInTime s pid turns

/-- The result fits what was seen. -/
def Verdict (s : Sexp) (turns : List Event) (result : Bool) : Prop :=
  (∀ pid, RunningAtCheck s pid turns → (result = true ↔ EndsInTime s pid turns)) ∧
    ((∀ pid, ¬RunningAtCheck s pid turns) → result = false)

/-- How a kill returns. -/
def Killed (s : Sexp) (log₀ : List Event) (result : Bool) (w : World) : Prop :=
  ∃ turns, Verdict s turns result ∧ Since log₀ turns w

/-- A result that is decided by whether the child has ended in time. -/
theorem Verdict.of_only {turns : List Event} {result : Bool} (hrunning : RunningAtCheck s pid turns)
    (honly : ∀ pid', RunningAtCheck s pid' turns → pid' = pid)
    (hresult : result = true ↔ EndsInTime s pid turns) : Verdict s turns result := by
  constructor
  · intro pid' hpid'
    rw [honly pid' hpid']
    exact hresult
  · exact fun hnone => absurd hrunning (hnone pid)

/-- As long as nothing is decided the kill has not ended the child. -/
theorem Undecided.verdict (h : Undecided s pid turns) : Verdict s turns false :=
  .of_only h.running h.only (iff_of_false Bool.false_ne_true h.late)

/-- Only the first check looks at whether the child runs. -/
theorem runningAtCheck_cons {e : Event} (he : ∀ pid, e ≠ .waitpid .killCheck s pid .running)
    (pid : ℕ) : RunningAtCheck s pid (e :: turns) ↔ RunningAtCheck s pid turns := by
  unfold RunningAtCheck
  rw [List.mem_cons]
  exact or_iff_right (Ne.symm (he pid))

/-- A wait is over. -/
theorem endsInTime_waitEnded (old : Bool) (answer : PollAnswer) (before : Proc) :
    EndsInTime s pid (.waitEnded old answer pid before :: turns) ↔
      (before = .reaped (.signaled 15) ∧ answer ≠ .timeout) ∨ EndsInTime s pid turns := by
  unfold EndsInTime
  constructor
  · rintro (⟨old', answer', hmem, hanswer⟩ | ⟨before', hmem, hended⟩)
    · rcases List.mem_cons.mp hmem with heq | hmem
      · cases heq
        exact Or.inl ⟨rfl, hanswer⟩
      · exact Or.inr (Or.inl ⟨old', answer', hmem, hanswer⟩)
    · rcases List.mem_cons.mp hmem with heq | hmem
      · cases heq
      · exact Or.inr (Or.inr ⟨before', hmem, hended⟩)
  · rintro (⟨rfl, hanswer⟩ | ⟨old', answer', hmem, hanswer⟩ | ⟨before', hmem, hended⟩)
    · exact Or.inl ⟨old, answer, List.mem_cons_self, hanswer⟩
    · exact Or.inl ⟨old', answer', List.mem_cons_of_mem _ hmem, hanswer⟩
    · exact Or.inr ⟨before', List.mem_cons_of_mem _ hmem, hended⟩

/-- The kill has waited for the child. -/
theorem endsInTime_killReap (before : Proc) :
    EndsInTime s pid (.waitpid .killReap s pid before :: turns) ↔
      before.EndedBy 9 ∨ EndsInTime s pid turns := by
  unfold EndsInTime
  constructor
  · rintro (⟨old, answer, hmem, hanswer⟩ | ⟨before', hmem, hended⟩)
    · rcases List.mem_cons.mp hmem with heq | hmem
      · cases heq
      · exact Or.inr (Or.inl ⟨old, answer, hmem, hanswer⟩)
    · rcases List.mem_cons.mp hmem with heq | hmem
      · cases heq
        exact Or.inl hended
      · exact Or.inr (Or.inr ⟨before', hmem, hended⟩)
  · rintro (hended | ⟨old, answer, hmem, hanswer⟩ | ⟨before', hmem, hended⟩)
    · exact Or.inr ⟨before, List.mem_cons_self, hended⟩
    · exact Or.inl ⟨old, answer, List.mem_cons_of_mem _ hmem, hanswer⟩
    · exact Or.inr ⟨before', List.mem_cons_of_mem _ hmem, hended⟩

/-- Only a signal has its negative number for a code. -/
theorem exitcode_eq_neg_iff (stat : WStat) {sig : Fin 128} (hsig : sig ≠ 0) :
    stat.exitcode = -((sig : ℕ) : ℤ) ↔ stat = .signaled sig := by
  have hpos : 0 < (sig : ℕ) := Fin.pos_iff_ne_zero.mpr hsig
  cases stat with
  | exited code =>
    apply iff_of_false
    · change ((code.toNat : ℕ) : ℤ) ≠ _
      omega
    · exact nofun
  | signaled sig' =>
    change -((sig' : ℕ) : ℤ) = _ ↔ _
    constructor
    · intro h
      have heq : (sig' : ℕ) = sig := by omega
      rw [Fin.ext heq]
    · intro h
      cases h
      rfl

/-- The exit of a child keeps what the log had at some time. -/
theorem kept_since (log₀ turns : List Event) :
    Kept World.move (fun _ => True) (Since log₀ turns) where
  move _ _ _ hw hmove := hw.move hmove
  safe _ _ := trivial

/-- The end of a kill. -/
theorem unblockAndReturn_kills {result : Bool} (hverdict : Verdict s turns result) :
    Kills (Since log₀ turns) (unblockAndReturn result) (Killed s log₀) := by
  refine Ensures.step (kept_since log₀ turns) (fun _ => Since log₀ turns) ?_ fun _ => ?_
  · rintro w c r w' hw ⟨⟩
    exact hw.append [.unblocked] rfl fun e he => List.mem_singleton.mp he ▸ rfl
  · refine .ret (kept_since log₀ turns) fun w hw _ h => ?_
    obtain rfl := Except.ok.inj h
    exact ⟨turns, hverdict, hw⟩

/-- The error exit of a kill. -/
theorem unblockAndThrow_kills (msg : String) :
    Kills (Since log₀ turns) (unblockAndThrow msg : Call Bool) (Killed s log₀) := by
  refine Ensures.step (kept_since log₀ turns) (fun _ => Since log₀ turns) ?_ fun _ => ?_
  · rintro w c r w' hw ⟨⟩
    exact hw.append [.unblocked] rfl fun e he => List.mem_singleton.mp he ▸ rfl
  · exact .throw (kept_since log₀ turns) fun w hw _ h => by cases h

/-- A signal of a kill. If it does not reach the child, the result is false. -/
theorem killWith_kills {sig : ℕ} {next : Call Bool} (hφ : ∀ stat, φ .running → φ (.zombie stat))
    (hundecided : Undecided s pid turns)
    (hnext : Kills (Stopped s pid log₀ turns φ) next (Killed s log₀)) :
    Kills (Stopped s pid log₀ turns φ) (killWith s pid sig next) (Killed s log₀) := by
  have hsince : ∀ w, Stopped s pid log₀ turns φ w → Since log₀ turns w :=
    fun w hw => hw.underway.since
  refine Ensures.step (kept_stopped hφ) (fun _ => Stopped s pid log₀ turns φ) ?_ fun ret => ?_
  · intro w c r w' hw hkill
    have hplain := plain_kill hkill
    obtain rfl := kill_eq_record hkill
    exact hw.plain hplain hw.blocked
  cases ret with
  | gone => exact (unblockAndReturn_kills hundecided.verdict).conseq hsince fun _ _ hq => hq
  | error => exact (unblockAndThrow_kills _).conseq hsince fun _ _ hq => hq
  | ok => exact hnext

/-- The child was waited for, the signal is blocked, and the handle has this code once the answer
is stored. -/
structure ReapedWith (s : Sexp) (log₀ turns : List Event) (code : Handle → ℤ) (value : ℤ)
    (w : World) : Prop where
  blocked : w.blocked = true
  since : Since log₀ turns w
  handle : (w.handles s).map code = some value

/-- It keeps the exit status that is stored for a collected child. -/
theorem kept_reapedWith (code : Handle → ℤ) (value : ℤ) :
    Kept World.move (fun _ => True) (ReapedWith s log₀ turns code value) where
  move w m w' hw hmove := by
    have hsince := hw.since.move hmove
    obtain ⟨pid, stat, _, rfl⟩ := move_blocked hw.blocked hmove
    exact ⟨hw.blocked, hsince, hw.handle⟩
  safe _ _ := trivial

/-- The blocking waitpid of a kill. -/
theorem reapedWith_waitpid {c : Choice} {wp : WaitResult} (hw : Stopped s pid log₀ turns φ w)
    (hwait : waitpidBlocking .killReap s pid w c = some (wp, w')) :
    ∃ before stat, (before = .zombie stat ∨ before = .reaped stat) ∧
      ReapedWith s log₀ (.waitpid .killReap s pid before :: turns)
        (fun h => (h.collect wp).exitcode) stat.exitcode w' := by
  obtain ⟨h, hh, rfl, hcollected, hcode, hpresent⟩ := hw.underway.account
  obtain ⟨hrun, w₁, hnohang, rfl⟩ := waitpidBlocking_cases hwait
  obtain ⟨_, _, hrunning⟩ | ⟨stat, rfl, hzombie, rfl⟩ | ⟨rfl, rfl, ⟨stat, hreaped⟩ | habsent⟩ :=
    waitNohang_cases hnohang
  · exact absurd hrunning hrun
  · refine ⟨_, stat, Or.inl hzombie, hw.blocked, hw.underway.since.cons rfl rfl, ?_⟩
    change (w.handles s).map _ = _
    rw [hzombie] at hcollected
    rw [hh, Option.map_some, Handle.collect, hcollected]
    rfl
  · refine ⟨_, stat, Or.inr hreaped, hw.blocked, hw.underway.since.cons rfl rfl, ?_⟩
    change (w₁.handles s).map _ = _
    rw [hreaped] at hcollected hcode
    rw [hh, Option.map_some, Handle.collect, hcollected]
    exact congrArg some hcode
  · exact absurd habsent hpresent

/-- The part of a kill with the second signal. -/
theorem killHard_kills (hφ : ∀ stat, φ .running → φ (.zombie stat))
    (hundecided : Undecided s pid turns) :
    Kills (Stopped s pid log₀ turns φ) (killHard s pid) (Killed s log₀) := by
  apply killWith_kills hφ hundecided
  refine Ensures.step (kept_stopped hφ) (fun wp w => ∃ before stat,
    (before = .zombie stat ∨ before = .reaped stat) ∧
      ReapedWith s log₀ (.waitpid .killReap s pid before :: turns)
        (fun h => (h.collect wp).exitcode) stat.exitcode w) ?_ fun wp => ?_
  · exact fun w c wp w' hw hwait => reapedWith_waitpid hw hwait
  apply Ensures.of_exists
  intro before
  apply Ensures.of_exists
  intro stat
  apply Ensures.of_fact
  intro hbefore
  refine Ensures.step (kept_reapedWith ..) (fun _ => ReapedWith s log₀
    (.waitpid .killReap s pid before :: turns) Handle.exitcode stat.exitcode) ?_ fun _ => ?_
  · rintro w c r w' hw ⟨⟩
    refine ⟨?_, ?_, ?_⟩
    · obtain ⟨_, heq⟩ | ⟨fd, _, heq⟩ := collectExitStatus_cases w s wp
      · rw [heq]
        exact hw.blocked
      · rw [heq]
        exact hw.blocked
    · obtain hlog | ⟨fd, released, hlog⟩ := log_collectExitStatus w s wp
      · exact hw.since.append [] hlog nofun
      · exact hw.since.append [_] hlog fun e he => List.mem_singleton.mp he ▸ rfl
    · rw [handles_collectExitStatus, if_pos rfl, Option.map_map]
      exact hw.handle
  refine Ensures.step (kept_reapedWith ..) (fun exitcode w => exitcode = stat.exitcode ∧
    Since log₀ (.waitpid .killReap s pid before :: turns) w) ?_ fun exitcode => .of_fact ?_
  · rintro w c exitcode w' hw ⟨⟩
    rw [hw.handle]
    exact ⟨rfl, hw.since⟩
  rintro rfl
  have hother : ∀ pid', Event.waitpid .killReap s pid before ≠
      .waitpid .killCheck s pid' .running := fun pid' => nofun
  apply unblockAndReturn_kills
  apply Verdict.of_only
  · exact (runningAtCheck_cons hother pid).mpr hundecided.running
  · exact fun pid' hpid' => hundecided.only pid' ((runningAtCheck_cons hother pid').mp hpid')
  · have hnine : (-9 : ℤ) = -(((9 : Fin 128) : ℕ) : ℤ) := rfl
    rw [endsInTime_killReap, or_iff_left hundecided.late, decide_eq_true_iff, hnine,
      exitcode_eq_neg_iff stat (by decide)]
    rcases hbefore with rfl | rfl
    · simp [Proc.EndedBy]
    · simp [Proc.EndedBy]

/-- The part of a kill with the first signal and the grace period. -/
theorem killGracefully_kills (rounds : ℕ) (graceMs : ℤ) (hundecided : Undecided s pid turns) :
    Kills (Stopped s pid log₀ turns (·.isReaped = false)) (killGracefully rounds s pid graceMs)
      (Killed s log₀) := by
  apply killWith_kills (fun _ _ => rfl) hundecided
  apply Ensures.bind (cProcessxWait_kills rounds graceMs)
  · intro finished
    refine Ensures.conseq ?_ (fun w hw => hw finished rfl) fun _ _ hq => hq
    apply Ensures.of_exists
    intro answer
    apply Ensures.of_exists
    intro before
    apply Ensures.of_fact
    intro hfinished
    have hother : ∀ pid', Event.waitEnded true answer pid before ≠
        .waitpid .killCheck s pid' .running := fun pid' => nofun
    have hrunning := (runningAtCheck_cons hother pid).mpr hundecided.running
    have honly : ∀ pid', RunningAtCheck s pid' (.waitEnded true answer pid before :: turns) →
        pid' = pid :=
      fun pid' hpid' => hundecided.only pid' ((runningAtCheck_cons hother pid').mp hpid')
    cases finished with
    | true =>
      have hanswer : answer ≠ .timeout := of_decide_eq_true hfinished.symm
      refine Ensures.step (kept_stopped sameEnd_exit) (fun exitcode w => ∃ p : Proc,
        (exitcode = p.code ∧ SameEnd before p) ∧
          Since log₀ (.waitEnded true answer pid before :: turns) w) ?_ fun exitcode => ?_
      · rintro w c exitcode w' hw ⟨⟩
        obtain ⟨h, hh, _, _, hcode, _⟩ := hw.underway.account
        refine ⟨w.procs pid, ⟨?_, hw.child⟩, hw.underway.since⟩
        rw [hh]
        exact hcode
      apply Ensures.of_exists
      intro p
      apply Ensures.of_fact
      rintro ⟨rfl, hsame⟩
      apply unblockAndReturn_kills
      apply Verdict.of_only hrunning honly
      rw [endsInTime_waitEnded, or_iff_left hundecided.late, decide_eq_true_iff,
        and_iff_left hanswer, ← hsame]
      cases p with
      | reaped stat =>
        have hfifteen : (-15 : ℤ) = -(((15 : Fin 128) : ℕ) : ℤ) := rfl
        rw [Proc.code, hfifteen, exitcode_eq_neg_iff stat (by decide), Proc.reaped.injEq]
      | _ =>
        have hzero : (0 : ℤ) ≠ -15 := by decide
        exact iff_of_false hzero nofun
    | false =>
      have hanswer : answer = .timeout := by simpa using hfinished
      apply killHard_kills sameEnd_exit
      refine ⟨hrunning, honly, ?_⟩
      rw [endsInTime_waitEnded, hanswer]
      rintro (⟨_, hne⟩ | hended)
      · exact hne rfl
      · exact hundecided.late hended
  · exact fun msg w _ _ h => by cases h

/-- What holds when a kill is called. -/
def KillStart (log₀ : List Event) (w : World) : Prop :=
  Tracked none w ∧ FreshCodes w ∧ Since log₀ [] w

/-- The handle was read with the signal blocked. -/
structure KillRead (s : Sexp) (log₀ : List Event) (handle : Option Handle) (w : World) : Prop where
  blocked : w.blocked = true
  start : KillStart log₀ w
  handle : w.handles s = handle

/-- It keeps what holds at the start of a kill. -/
theorem kept_killStart (log₀ : List Event) :
    Kept World.move (fun _ => True) (KillStart log₀) where
  move w m w' hw hmove :=
    ⟨hw.1.move hmove, handleRule_freshCodes.kept.move w m w' hw.2.1 hmove, hw.2.2.move hmove⟩
  safe _ _ := trivial

/-- It keeps the handle that was read. -/
theorem kept_killRead (handle : Option Handle) :
    Kept World.move (fun _ => True) (KillRead s log₀ handle) where
  move w m w' hw hmove := by
    have hstart := (kept_killStart log₀).move w m w' hw.start hmove
    obtain ⟨pid, stat, _, rfl⟩ := move_blocked hw.blocked hmove
    exact ⟨hw.blocked, hstart, hw.handle⟩
  safe _ _ := trivial

/-- What holds behind the first check, by its answer. -/
def Checked (s : Sexp) (h : Handle) (log₀ : List Event) (wp : WaitResult) (w : World) : Prop :=
  match wp with
  | .error => Since log₀ [] w
  | .none => Stopped s h.pid log₀ [.waitpid .killCheck s h.pid .running] (·.isReaped = false) w
  | _ => ∃ before, before ≠ .running ∧ Since log₀ [.waitpid .killCheck s h.pid before] w

/-- The first check. -/
theorem checked_waitpid {h : Handle} {c : Choice} {wp : WaitResult}
    (hw : KillRead s log₀ (some h) w) (hwait : waitpid .killCheck s h.pid w c = some (wp, w')) :
    Checked s h log₀ wp w' := by
  obtain ⟨htracked, hfresh, hsince⟩ := hw.start
  obtain ⟨rfl, rfl⟩ | ⟨w₁, hnohang, rfl⟩ := waitpid_cases hwait
  · exact hsince
  · obtain ⟨rfl, rfl, hrun⟩ | ⟨stat, rfl, hzombie, rfl⟩ | ⟨rfl, rfl, hgone⟩ :=
      waitNohang_cases hnohang
    · have hlost : dropped s w₁.log = false := by
        have haccounted := htracked.accounted s h hw.handle nofun
        rw [hrun] at haccounted
        cases hcollected : h.collected with
        | false =>
          rw [hcollected] at haccounted
          exact haccounted
        | true =>
          rw [hcollected] at haccounted
          exact haccounted.elim
      have hdrops : ∀ s', (Event.waitpid .killCheck s h.pid (w₁.procs h.pid)).drops s' = false :=
        fun s' => drops_waitpid (Or.inr (by rw [hrun]; rfl)) s' s h.pid
      refine ⟨hw.blocked, ⟨?_, congrArg _ hw.handle, hfresh, ?_, ?_⟩, ?_⟩
      · refine htracked.same rfl (fun s h hh => ⟨h, hh, rfl, rfl, rfl⟩) (fun s' => ?_)
          (List.Subset.refl _) (List.Subset.refl _)
        change (Event.drops s' _ || dropped s' w₁.log) = _
        rw [hdrops, Bool.false_or]
      · change (Event.drops s _ || dropped s w₁.log) = _
        rw [hdrops, hlost]
        rfl
      · rw [hrun]
        exact hsince.cons rfl rfl
      · change (w₁.procs h.pid).isReaped = false
        rw [hrun]
        rfl
    · exact ⟨w.procs h.pid, by rw [hzombie]; exact nofun, hsince.cons rfl rfl⟩
    · refine ⟨w₁.procs h.pid, ?_, hsince.cons rfl rfl⟩
      rcases hgone with ⟨stat, hreaped⟩ | habsent
      · rw [hreaped]
        exact nofun
      · rw [habsent]
        exact nofun

/-- A child that does not run at the first check gives a false result. -/
theorem verdict_of_not_running {before : Proc} (hbefore : before ≠ .running) (pid : ℕ) :
    Verdict s [.waitpid .killCheck s pid before] false := by
  have hnone : ∀ pid', ¬RunningAtCheck s pid' [.waitpid .killCheck s pid before] := by
    intro pid' hmem
    obtain heq := List.mem_singleton.mp hmem
    cases heq
    exact hbefore rfl
  exact ⟨fun pid' hrunning => absurd hrunning (hnone pid'), fun _ => rfl⟩

/-- **One kill.** Its result fits what it has seen. -/
theorem cProcessxKill_kills (rounds : ℕ) (s : Sexp) (graceMs : ℤ) (log₀ : List Event) :
    Kills (KillStart log₀) (cProcessxKill rounds s graceMs) (Killed s log₀) := by
  have hfalse : ∀ handle, Kills (KillRead s log₀ handle) (unblockAndReturn false)
      (Killed s log₀) := by
    intro handle
    have hverdict : Verdict s [] false := ⟨fun _ hmem => absurd hmem List.not_mem_nil, fun _ => rfl⟩
    exact (unblockAndReturn_kills hverdict).conseq (fun w hw => hw.start.2.2) fun _ _ hq => hq
  refine Ensures.step (kept_killStart log₀) (fun _ w => w.blocked = true ∧ KillStart log₀ w) ?_
    fun _ => ?_
  · intro w c r w' hw hblock
    obtain ⟨htracked, hfresh, hsince⟩ := hw
    cases hblock
    have hblocked : Tracked none { w with blocked := true } :=
      htracked.same rfl (fun s h hh => ⟨h, hh, rfl, rfl, rfl⟩) (fun s => rfl)
        (List.Subset.refl _) (List.Subset.refl _)
    exact ⟨rfl, hblocked, hfresh, hsince⟩
  have hkept : Kept World.move (fun _ => True) (fun w => w.blocked = true ∧ KillStart log₀ w) :=
    ⟨fun w m w' hw hmove => ⟨(blocked_move hmove).trans hw.1,
      (kept_killStart log₀).move w m w' hw.2 hmove⟩, fun _ _ => trivial⟩
  refine Ensures.step hkept (fun handle => KillRead s log₀ handle) ?_ fun handle => ?_
  · rintro w c handle w' hw ⟨⟩
    exact ⟨hw.1, hw.2, rfl⟩
  cases handle with
  | none => exact hfalse none
  | some h =>
    dsimp only
    split
    · exact hfalse (some h)
    · refine Ensures.step (kept_killRead (some h)) (Checked s h log₀)
        (fun w c wp w' hw hwait => checked_waitpid hw hwait) fun wp => ?_
      cases wp with
      | error => exact unblockAndThrow_kills _
      | exited stat =>
        apply Ensures.of_exists
        intro before
        apply Ensures.of_fact
        exact fun hbefore => unblockAndReturn_kills (verdict_of_not_running hbefore h.pid)
      | echild =>
        apply Ensures.of_exists
        intro before
        apply Ensures.of_fact
        intro hbefore
        refine Ensures.step (kept_since ..) (fun _ => Since log₀ _) ?_ fun _ =>
          unblockAndReturn_kills (verdict_of_not_running hbefore h.pid)
        rintro w c r w' hw ⟨⟩
        obtain hlog | ⟨fd, released, hlog⟩ := log_collectExitStatus w s .echild
        · exact hw.append [] hlog nofun
        · exact hw.append [_] hlog fun e he => List.mem_singleton.mp he ▸ rfl
      | none =>
        have hundecided : Undecided s h.pid [.waitpid .killCheck s h.pid .running] := by
          refine ⟨List.mem_singleton.mpr rfl, fun pid' hmem => ?_, ?_⟩
          · have heq := List.mem_singleton.mp hmem
            cases heq
            rfl
          · rintro (⟨old, answer, hmem, _⟩ | ⟨before, hmem, _⟩)
            · cases List.mem_singleton.mp hmem
            · cases List.mem_singleton.mp hmem
        dsimp only
        split
        · exact killGracefully_kills rounds graceMs hundecided
        · exact killHard_kills (fun _ _ => rfl) hundecided

/-- A result fits the call if and only if a child that ran at first and does not run in the end has
ended in time. -/
theorem Verdict.right_iff {events : List Event} {result : Bool} (h : Verdict s events result)
    (w' : World) : KillRight s events w' result ↔ ∀ pid, RunningAtCheck s pid events →
      w'.procs pid ≠ .running → EndsInTime s pid events := by
  constructor
  · intro hright pid hrunning hends
    exact (h.1 pid hrunning).mp (hright.1 pid hrunning hends)
  · intro htime
    constructor
    · exact fun pid hrunning hends => (h.1 pid hrunning).mpr (htime pid hrunning hends)
    · exact h.2

/-- The other events are of no interest. -/
theorem Verdict.of_turns {events : List Event} {result : Bool}
    (h : Verdict s (events.filter Event.isTurn) result) : Verdict s events result := by
  have hturn : ∀ {e : Event}, e.isTurn = true → (e ∈ events.filter Event.isTurn ↔ e ∈ events) :=
    fun he => List.mem_filter.trans (and_iff_left he)
  have hrunning : ∀ pid, RunningAtCheck s pid (events.filter Event.isTurn) ↔
      RunningAtCheck s pid events := fun pid => hturn rfl
  have htime : ∀ pid, EndsInTime s pid (events.filter Event.isTurn) ↔ EndsInTime s pid events := by
    intro pid
    unfold EndsInTime
    simp only [hturn (e := Event.waitEnded _ _ _ _) rfl, hturn (e := Event.waitpid _ _ _ _) rfl]
  constructor
  · intro pid hpid
    rw [← htime]
    exact h.1 pid ((hrunning pid).mpr hpid)
  · exact fun hnone => h.2 fun pid hpid => hnone pid ((hrunning pid).mp hpid)

/-- Closing the descriptors of a wait. -/
theorem callExits_kills (exits : List (Option (ℕ × ℕ))) :
    Kills (Since log₀ turns) (callExits exits) (fun _ => Since log₀ turns) := by
  have hclose : ∀ {fd : ℕ} {f : Unit → Call Unit},
      Kills (Since log₀ turns) (f ()) (fun _ => Since log₀ turns) →
      Kills (Since log₀ turns) (Prog.lift (closeFd fd) >>= f) (fun _ => Since log₀ turns) := by
    intro fd f hf
    refine Ensures.step (kept_since log₀ turns) (fun _ => Since log₀ turns) ?_ fun _ => hf
    rintro w c r w' hw ⟨⟩
    exact hw.append [.close .waitCleanup fd (w.fds fd)] rfl
      fun e he => List.mem_singleton.mp he ▸ rfl
  induction exits with
  | nil => exact .ret (kept_since log₀ turns) fun w hw _ _ => hw
  | cons exit exits ih =>
    cases exit with
    | none => exact ih
    | some ends =>
      obtain ⟨r, wr⟩ := ends
      exact hclose (hclose ih)

/-- One kill from the outside. -/
theorem processxKill_kills (rounds : ℕ) (s : Sexp) (graceMs : ℤ) (log₀ : List Event) :
    Kills (KillStart log₀) (processxKill rounds s graceMs) (Killed s log₀) := by
  have htrivial : Kept World.move (fun _ => True) (fun _ : World => True) :=
    ⟨fun _ _ _ _ _ => trivial, fun _ _ => trivial⟩
  refine Ensures.step (kept_killStart log₀) (fun _ => KillStart log₀) ?_ fun _ => ?_
  · intro w c r w' hw hpush
    obtain ⟨htracked, hfresh, hsince⟩ := hw
    cases hpush
    have hpushed : Tracked none { w with callbacks := [] :: w.callbacks } :=
      htracked.same rfl (fun s h hh => ⟨h, hh, rfl, rfl, rfl⟩) (fun s => rfl)
        (List.Subset.refl _) (List.Subset.refl _)
    exact ⟨hpushed, hfresh, hsince⟩
  refine (cProcessxKill_kills rounds s graceMs log₀).attempt fun result => ?_
  cases result with
  | error msg =>
    -- nothing is said of a kill that throws
    refine Ensures.conseq (R := fun _ => True) ?_ (fun _ _ => trivial) fun _ _ hq => hq
    refine Ensures.step htrivial (fun _ _ => True) (fun _ _ _ _ _ _ => trivial) fun exits => ?_
    have hexits : Ensures World.move (fun _ => True) (fun _ => True) (callExits exits)
        (fun _ _ => True) := fun _ _ _ _ _ => ⟨trivial, fun _ _ => trivial⟩
    apply Ensures.bind hexits
    · exact fun _ => .throw htrivial fun w _ _ h => by cases h
    · exact fun _ _ _ _ h => by cases h
  | ok result =>
    refine Ensures.conseq ?_ (fun w hw => hw result rfl) fun _ _ hq => hq
    apply Ensures.of_exists
    intro turns
    apply Ensures.of_fact
    intro hverdict
    refine Ensures.step (kept_since log₀ turns) (fun _ => Since log₀ turns) ?_ fun exits => ?_
    · rintro w c r w' hw ⟨⟩
      exact hw
    apply Ensures.bind (callExits_kills exits)
    · intro _
      refine Ensures.conseq ?_ (fun w hw => hw () rfl) fun _ _ hq => hq
      refine .ret (kept_since log₀ turns) fun w hw _ h => ?_
      obtain rfl := Except.ok.inj h
      exact ⟨turns, hverdict, hw⟩
    · exact fun _ _ _ _ h => by cases h

/-- **The result of a kill.** Called after any session, a kill returns what is right if and only
if a child that ran when it was checked first, and does not run in the end, has ended from
`SIGTERM` within the grace period or from `SIGKILL`. -/
theorem kill_result_right_iff (rounds : ℕ) (calls : List ProcessCall) {w₀ w w' : World}
    (hstart : Tracked none w₀) (hfresh : FreshCodes w₀) (hlog : w₀.log = [])
    (hsession : Runs World.move (runSession rounds calls) w₀ (some (.ok ())) w)
    (s : Sexp) (graceMs : ℤ) {result : Bool}
    (hrun : Runs World.move (processxKill rounds s graceMs) w (some (.ok result)) w') :
    ∃ events, w'.log = events ++ w.log ∧
      (KillRight s events w' result ↔ ∀ pid, RunningAtCheck s pid events →
        w'.procs pid ≠ .running → EndsInTime s pid events) := by
  have hsound : Truthful none w₀ := by
    refine ⟨hstart, fun _ => ?_⟩
    rw [hlog]
    exact nofun
  have htruthful := (runSession_keeps kept_sound rounds (processCall_watches rounds) calls w₀ _ w
    hsound hsession).2 _ rfl
  have hcodes := (runSession_keeps handleRule_freshCodes.kept rounds (fun call =>
    Ensures.each handleRule_freshCodes.kept
      (processCall_each handleRule_freshCodes.allowsAll rounds call)) calls w₀ _ w
    hfresh hsession).2 _ rfl
  obtain ⟨turns, hverdict, events, hevents, rfl⟩ := (processxKill_kills rounds s graceMs w.log w _
    w' ⟨htruthful.tracked, hcodes, [], rfl, rfl⟩ hrun).2 _ rfl result rfl
  exact ⟨events, hevents, hverdict.of_turns.right_iff w'⟩

/-- The handle of the session with one running child is fresh. -/
theorem freshCodes_oneChild : FreshCodes oneChild := by
  intro s h hh _
  unfold oneChild at hh
  dsimp only at hh
  split at hh
  · obtain rfl := Option.some.inj hh
    rfl
  · cases hh

/-- A child that ends from `SIGTERM` while the kill waits for it. -/
theorem kill_result_right_sigterm :
    ∃ w w', Runs World.move (runSession 1 [.isAlive 0]) oneChild (some (.ok ())) w ∧
      Runs World.move (processxKill 1 0 100) w (some (.ok true)) w' ∧
      w'.procs 100 = .reaped (.signaled 15) ∧
      ∃ events, w'.log = events ++ w.log ∧
        (KillRight 0 events w' true ↔ ∀ pid, RunningAtCheck 0 pid events →
          w'.procs pid ≠ .running → EndsInTime 0 pid events) := by
  have hruns : ∃ w w', Runs World.move (runSession 1 [.isAlive 0]) oneChild (some (.ok ())) w ∧
      Runs World.move (processxKill 1 0 100) w (some (.ok true)) w' ∧
      w'.procs 100 = .reaped (.signaled 15) :=
    exists_run_after_drive (acts [.ok, .ok, .ok, .ok])
      (acts [.ok, .ok, .ok, .ok, .ok, .ok, .ok, .ok, .ok, .ok, .fds 5 6, .ok, .ok] ++
        [.move (.exit 100 (.signaled 15)), .move .sigchld] ++
        acts [.ok, .ok, .ok, .ok, .ok, .ok, .ok, .ok])
      (fun _ w' : World => w'.procs 100) (by decide)
  obtain ⟨w, w', hsession, hrun, hproc⟩ := hruns
  exact ⟨w, w', hsession, hrun, hproc, kill_result_right_iff 1 _ tracked_oneChild
    freshCodes_oneChild rfl hsession 0 100 hrun⟩

/-- Two kills of a running child that return false: the child catches `SIGTERM` and exits with 0,
and the child ends from `SIGTERM` when the last poll of the grace period is over. -/
theorem kill_result_wrong :
    (∃ w', Runs World.move (processxKill 1 0 100) oneChild (some (.ok false)) w' ∧
      w'.procs 100 = .reaped (.exited 0) ∧ ¬KillRight 0 w'.log w' false) ∧
    ∃ w', Runs World.move (processxKill 1 0 100) oneChild (some (.ok false)) w' ∧
      w'.procs 100 = .reaped (.signaled 15) ∧ ¬KillRight 0 w'.log w' false := by
  have hcaught : ∃ w', Runs World.move (processxKill 1 0 100) oneChild (some (.ok false)) w' ∧
      (w'.procs 100, decide (Event.waitpid .killCheck 0 100 .running ∈ w'.log)) =
        (.reaped (.exited 0), true) :=
    exists_run_of_drive (acts [.ok, .ok, .ok, .ok, .ok, .ok, .ok, .ok, .ok, .ok, .fds 5 6, .ok,
      .ok] ++ [.move (.exit 100 (.exited 0)), .move .sigchld] ++
      acts [.ok, .ok, .ok, .ok, .ok, .ok, .ok, .ok])
      (fun w : World => (w.procs 100, decide (Event.waitpid .killCheck 0 100 .running ∈ w.log)))
      (by decide)
  have hlate : ∃ w', Runs World.move (processxKill 1 0 100) oneChild (some (.ok false)) w' ∧
      (w'.procs 100, decide (Event.waitpid .killCheck 0 100 .running ∈ w'.log)) =
        (.reaped (.signaled 15), true) :=
    exists_run_of_drive (acts [.ok, .ok, .ok, .ok, .ok, .ok, .ok, .ok, .ok, .ok, .fds 5 6, .ok,
      .ok, .ok, .ok, .ok] ++ [.move (.exit 100 (.signaled 15))] ++
      acts [.ok, .ok, .ok, .ok, .ok, .ok, .ok, .ok])
      (fun w : World => (w.procs 100, decide (Event.waitpid .killCheck 0 100 .running ∈ w.log)))
      (by decide)
  have hwrong : ∀ {w' : World} {stat : WStat},
      (w'.procs 100, decide (Event.waitpid .killCheck 0 100 .running ∈ w'.log)) =
        (.reaped stat, true) →
      w'.procs 100 = .reaped stat ∧ ¬KillRight 0 w'.log w' false := by
    intro w' stat hseen
    obtain ⟨hproc, hcheck⟩ := Prod.mk.inj hseen
    have hrunning : Event.waitpid .killCheck 0 100 .running ∈ w'.log := of_decide_eq_true hcheck
    refine ⟨hproc, fun hright => Bool.false_ne_true ?_⟩
    apply hright.1 100 hrunning
    rw [hproc]
    exact nofun
  obtain ⟨w, hrun, hseen⟩ := hcaught
  obtain ⟨w', hrun', hseen'⟩ := hlate
  exact ⟨⟨w, hrun, hwrong hseen⟩, w', hrun', hwrong hseen'⟩

end Processx
