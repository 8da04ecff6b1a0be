import Processx.Unix.Handler

/-!
# The signal mask

Every function of the package leaves SIGCHLD unblocked, with two exceptions. A wait that was entered
with the signal blocked, inside of a kill with a grace period, throws when it cannot be set up. And
R may throw while a child that was forked is not in the list yet: for the warning of
`processx__create_time()`, or for memory. Nothing on the way out unblocks the signal. A finalizer
that runs later in the same call does.
-/

namespace Processx

open Interruptible

/-- Was the newest of these events a fork or a failed wait that was entered with the signal blocked?
A fork is followed by the linking of the child, or by a failure for which the signal is unblocked,
unless R throws. -/
def stuckMask : List Event → Bool
  | [] => false
  | .forked .. :: _ => true
  | .waitSetupFailed true :: _ => true
  | .linked .. :: _ => false
  | .startFailed :: _ => false
  | .freelistFreed :: _ => false
  | _ :: log => stuckMask log

/-- The signal is blocked exactly after such an event. -/
def Settled (w : World) : Prop := w.blocked = stuckMask w.log

/-- A step that does not touch the mask. -/
def SameMask (w w' : World) : Prop :=
  w'.blocked = w.blocked ∧ stuckMask w'.log = stuckMask w.log

/-- Such a step keeps a settled mask. -/
theorem Settled.of_sameMask {w w' : World} (h : Settled w) (hsame : SameMask w w') :
    Settled w' := by
  rw [Settled, hsame.1, hsame.2]
  exact h

/-- No step at all. -/
theorem SameMask.refl (w : World) : SameMask w w := ⟨rfl, rfl⟩

/-- One such step after another. -/
theorem SameMask.trans {w₁ w₂ w₃ : World} (h₁ : SameMask w₁ w₂) (h₂ : SameMask w₂ w₃) :
    SameMask w₁ w₃ := ⟨h₂.1.trans h₁.1, h₂.2.trans h₁.2⟩

/-- A waitpid does not touch the mask. -/
theorem sameMask_waitNohang (w : World) (pid : ℕ) : SameMask w (w.waitNohang pid).2 := by
  unfold World.waitNohang
  split <;> exact ⟨rfl, rfl⟩

/-- Nor does storing a status. -/
theorem sameMask_collectExitStatus (w : World) (status : Sexp) (wp : WaitResult) :
    SameMask w (w.collectExitStatus status wp) := by
  unfold World.collectExitStatus
  repeat' split
  all_goals exact ⟨rfl, rfl⟩

/-- Nor does the work of the handler on one child. -/
theorem sameMask_childExited (w : World) (node : Node) (wp : WaitResult) :
    SameMask w (w.childExited node wp) := by
  have hcollect := sameMask_collectExitStatus w node.status wp
  unfold World.childExited
  split
  · exact ⟨rfl, rfl⟩
  · dsimp only
    repeat' split
    all_goals exact hcollect

/-- What happens outside of the main program does not touch the mask. -/
theorem sameMask_move {w w' : World} {m : Move} (h : w.move m = some w') : SameMask w w' := by
  refine move_keeps (P := SameMask w) ?_ ?_ ?_ ?_ w m w' (.refl w) h
  · exact fun w₁ pid stat hw _ => hw
  · exact fun w₁ hw _ _ => hw
  · intro w₁ node wp w₂ hw _ hwait _
    have hsame := sameMask_waitNohang w₁ node.pid
    rw [hwait] at hsame
    exact (hw.trans hsame).trans (sameMask_childExited w₂ node wp)
  · exact fun w₁ kept hw _ => hw

/-- So an assertion about the mask alone stays true. -/
theorem kept_of_sameMask {P : World → Prop}
    (hP : ∀ {w w' : World}, P w → SameMask w w' → P w') : Kept World.move (fun _ => True) P where
  move _ _ _ h hmove := hP h (sameMask_move hmove)
  safe _ _ := trivial

variable {α ρ : Type}

/-- What can be said of any world. -/
abbrev Anywhere (_ : World) : Prop := True

/-- Nothing that leaves the signal blocked has happened. -/
def Clear (w : World) : Prop := stuckMask w.log = false

/-- A wait is entered with the mask `old`. -/
structure Entered (old : Bool) (w : World) : Prop where
  blocked : w.blocked = old
  clear : Clear w

/-- Steps that do not touch the mask change nothing here. -/
theorem Clear.of_sameMask {w w' : World} (h : Clear w) (hsame : SameMask w w') : Clear w' :=
  hsame.2.trans h

/-- Nor here. -/
theorem Entered.of_sameMask {old : Bool} {w w' : World} (h : Entered old w)
    (hsame : SameMask w w') : Entered old w' := ⟨hsame.1.trans h.blocked, h.clear.of_sameMask hsame⟩

/-- A mask that is not blocked and not stuck is settled. -/
theorem Entered.settled {w : World} (h : Entered false w) : Settled w :=
  h.blocked.trans h.clear.symm

/-- The actions that do not touch the mask. -/
def KeepsMask (a : Act ρ) : Prop := ∀ w c r w', a w c = some (r, w') → SameMask w w'

/-- Installing the handler does not touch the mask. -/
theorem keepsMask_setupSigchld : KeepsMask setupSigchld := by
  rintro w c r w' ⟨⟩
  exact .refl w

/-- Nor does reading a handle. -/
theorem keepsMask_readHandle (status : Sexp) : KeepsMask (readHandle status) := by
  rintro w c r w' ⟨⟩
  exact .refl w

/-- Nor does `waitpid()`. -/
theorem keepsMask_waitpid (site : WaitSite) (status : Sexp) (pid : ℕ) :
    KeepsMask (waitpid site status pid) := by
  intro w c r w' h
  have hwait := sameMask_waitNohang w pid
  cases c <;> cases h
  · exact hwait
  · exact .refl w

/-- Nor does one that blocks. -/
theorem keepsMask_waitpidBlocking (site : WaitSite) (status : Sexp) (pid : ℕ) :
    KeepsMask (waitpidBlocking site status pid) := by
  intro w c r w' h
  have hwait := sameMask_waitNohang w pid
  unfold waitpidBlocking at h
  cases c with
  | ok =>
    dsimp only at h
    split at h
    · cases h
    · cases h
      exact hwait
  | _ => cases h

/-- Nor does storing an exit status. -/
theorem keepsMask_collectExitStatus (status : Sexp) (wp : WaitResult) :
    KeepsMask (collectExitStatus status wp) := by
  rintro w c r w' ⟨⟩
  exact sameMask_collectExitStatus w status wp

/-- Nor does `kill()`. -/
theorem keepsMask_kill (site : KillSite) (status : Sexp) (target : ℤ) (sig : ℕ) :
    KeepsMask (kill site status target sig) := by
  intro w c r w' h
  cases c <;> cases h <;> exact .refl w

/-- Nor does `poll()`. -/
theorem keepsMask_poll (status : Sexp) (r wr pipe : ℕ) : KeepsMask (poll status r wr pipe) := by
  intro w c answer w' h
  cases c <;> cases h <;> exact .refl w

/-- Nor does a look for an interrupt, whether there is one or not. -/
theorem keepsMask_checkUserInterrupt : KeepsMask checkUserInterrupt := by
  rintro w c r w' ⟨⟩
  exact .refl w

/-- Nor does clearing the wait pipe of a handle. -/
theorem keepsMask_clearWaitpipe (status : Sexp) : KeepsMask (clearWaitpipe status) := by
  rintro w c r w' ⟨⟩
  exact .refl w

/-- Nor does closing a descriptor. -/
theorem keepsMask_closeFd (fd : ℕ) : KeepsMask (closeFd fd) := by
  rintro w c r w' ⟨⟩
  exact .refl w

/-- Nor does leaving a context. -/
theorem keepsMask_popContext : KeepsMask popContext := by
  rintro w c r w' ⟨⟩
  exact .refl w

/-- Nor does opening one. -/
theorem keepsMask_pushContext : KeepsMask pushContext := by
  rintro w c r w' ⟨⟩
  exact .refl w

/-- Nor does freeing a handle. -/
theorem keepsMask_handleDestroy (status : Sexp) : KeepsMask (handleDestroy status) := by
  intro w c r w' h
  unfold handleDestroy at h
  dsimp only at h
  split at h <;> cases h <;> exact .refl w

/-- Nor does the choice of the objects that are collected. -/
theorem keepsMask_collectGarbage (inUse : Option Sexp) : KeepsMask (collectGarbage inUse) := by
  intro w c r w' h
  unfold collectGarbage at h
  repeat' split at h
  all_goals cases h
  all_goals exact .refl w

/-- Nor does a system call that succeeds or fails. -/
theorem keepsMask_sysCall : KeepsMask sysCall := by
  rintro w c r w' ⟨⟩
  exact .refl w

/-- Nor does a pseudo terminal. -/
theorem keepsMask_openPty (pty : Bool) : KeepsMask (openPty pty) := by
  rintro w c r w' ⟨⟩
  exact .refl w

/-- Nor does a new handle. -/
theorem keepsMask_makeHandle (cleanup : Bool) (cleanupGrace : ℤ) :
    KeepsMask (makeHandle cleanup cleanupGrace) := by
  intro w c r w' h
  cases c <;> cases h <;> exact .refl w

/-- Nor does reading the message of the child. -/
theorem keepsMask_readSignalPipe : KeepsMask readSignalPipe := by
  intro w c r w' h
  cases c <;> cases h <;> exact .refl w

/-- Nor does reading the exit status of a handle. -/
theorem keepsMask_readExitcode (status : Sexp) : KeepsMask (readExitcode status) := by
  rintro w c r w' ⟨⟩
  exact .refl w

/-- Nor does a new wait pipe. -/
theorem keepsMask_makeWaitpipe (status : Sexp) : KeepsMask (makeWaitpipe status) := by
  intro w c made w' h
  unfold makeWaitpipe at h
  split at h
  · split at h <;> cases h
    exact .refl w
  · cases h
    exact .refl w
  · cases h

/-- Nor does putting it on a context. -/
theorem keepsMask_saveWaitpipe (r wr : ℕ) : KeepsMask (saveWaitpipe r wr) := by
  intro w c u w' h
  unfold saveWaitpipe at h
  split at h <;> cases h <;> exact .refl w

/-- Nor does the descriptor of a pseudo terminal. -/
theorem keepsMask_openPtyChild (status : Sexp) (pty : Bool) :
    KeepsMask (openPtyChild status pty) := by
  intro w c u w' h
  unfold openPtyChild at h
  split at h
  · split at h <;> cases h
    exact .refl w
  · cases h
    exact .refl w

/-- Nor does an R error that jumps out, which is what leaves it as it is. -/
theorem keepsMask_leaves : KeepsMask leaves := by
  intro w c left w' h
  unfold leaves at h
  cases c <;> cases h <;> exact .refl w

/-- Nor does storing the number of a child. -/
theorem keepsMask_storePid (status : Sexp) (pid : ℕ) : KeepsMask (storePid status pid) := by
  rintro w c r w' ⟨⟩
  exact .refl w

/-- All runs of a program from `P` end with `Q`. -/
abbrev Ends (P : World → Prop) (p : Call α) (Q : Except String α → World → Prop) : Prop :=
  Ensures World.move Anywhere P p Q

/-- An action that does not touch the mask, and then the rest of a program. -/
theorem Ends.keep {P : World → Prop} (hP : ∀ {w w' : World}, P w → SameMask w w' → P w')
    {a : Act ρ} (ha : KeepsMask a) {f : ρ → Call α} {Q : Except String α → World → Prop}
    (hf : ∀ r, Ends P (f r) Q) : Ends P (Prog.lift a >>= f) Q :=
  .step (kept_of_sameMask hP) (fun _ => P) (fun w c r w' hw hact => hP hw (ha w c r w' hact)) hf

/-- Returning with a settled mask. -/
theorem Ends.retSettled {a : α} : Ends Settled (.ret a) (fun _ => Settled) :=
  .ret (kept_of_sameMask .of_sameMask) fun _ h => h

/-- Throwing with a settled mask. -/
theorem Ends.throwSettled {msg : String} :
    Ends Settled (.throw msg : Call α) (fun _ => Settled) :=
  .throw (kept_of_sameMask .of_sameMask) fun _ h => h

/-- Blocking the signal. -/
theorem Ends.block {f : Bool → Call α} {Q : Except String α → World → Prop}
    (hf : ∀ old, Ends Clear (f old) Q) : Ends Clear (Prog.lift blockSigchld >>= f) Q := by
  refine .step (kept_of_sameMask .of_sameMask) (fun _ => Clear) ?_ hf
  rintro w c r w' hw ⟨⟩
  exact hw

/-- Unblocking the signal. -/
theorem Ends.unblock {f : Unit → Call α} {Q : Except String α → World → Prop}
    (hf : Ends (Entered false) (f ()) Q) : Ends Clear (Prog.lift unblockSigchld >>= f) Q := by
  refine .step (kept_of_sameMask .of_sameMask) (fun _ => Entered false) ?_ fun _ => hf
  rintro w c r w' hw ⟨⟩
  exact ⟨rfl, hw⟩

/-- The end of the functions that block the signal. -/
theorem unblockAndReturn_ends (a : α) : Ends Clear (unblockAndReturn a) (fun _ => Settled) :=
  Ends.unblock (Ends.retSettled.conseq (fun _ h => h.settled) fun _ _ h => h)

/-- Their error exit. -/
theorem unblockAndThrow_ends (msg : String) :
    Ends Clear (unblockAndThrow msg : Call α) (fun _ => Settled) :=
  Ends.unblock (Ends.throwSettled.conseq (fun _ h => h.settled) fun _ _ h => h)

/-- An action that does not touch the mask, while the signal is blocked. -/
theorem Ends.keepClear {a : Act ρ} (ha : KeepsMask a) {f : ρ → Call α}
    {Q : Except String α → World → Prop} (hf : ∀ r, Ends Clear (f r) Q) :
    Ends Clear (Prog.lift a >>= f) Q := Ends.keep .of_sameMask ha hf

/-- Asking whether a child is alive. -/
theorem processxIsAlive_ends (status : Sexp) :
    Ends Clear (processxIsAlive status) (fun _ => Settled) := by
  refine Ends.block fun _ => Ends.keepClear (keepsMask_readHandle status) fun handle => ?_
  cases handle with
  | none => exact unblockAndReturn_ends _
  | some h =>
    dsimp only
    split
    · exact unblockAndReturn_ends _
    · refine Ends.keepClear (keepsMask_waitpid _ _ _) fun wp => ?_
      have hcollect : Ends Clear
          (Prog.lift (collectExitStatus status wp) >>= fun _ => unblockAndReturn false)
          (fun _ => Settled) :=
        Ends.keepClear (keepsMask_collectExitStatus status wp) fun _ => unblockAndReturn_ends _
      cases wp with
      | error => exact unblockAndThrow_ends _
      | none => exact unblockAndReturn_ends _
      | exited stat => exact hcollect
      | echild => exact hcollect

/-- Asking for the exit status. -/
theorem processxGetExitStatus_ends (status : Sexp) :
    Ends Clear (processxGetExitStatus status) (fun _ => Settled) := by
  refine Ends.block fun _ => Ends.keepClear (keepsMask_readHandle status) fun handle => ?_
  cases handle with
  | none => exact unblockAndReturn_ends _
  | some h =>
    dsimp only
    split
    · exact unblockAndReturn_ends _
    · refine Ends.keepClear (keepsMask_waitpid _ _ _) fun wp => ?_
      have hcollect : Ends Clear (Prog.lift (collectExitStatus status wp) >>= fun _ =>
          Prog.lift (readExitcode status) >>= fun exitcode => unblockAndReturn (some exitcode))
          (fun _ => Settled) := by
        refine Ends.keepClear (keepsMask_collectExitStatus status wp) fun _ => ?_
        exact Ends.keepClear (keepsMask_readExitcode status) fun _ => unblockAndReturn_ends _
      cases wp with
      | error => exact unblockAndThrow_ends _
      | none => exact unblockAndReturn_ends _
      | exited stat => exact hcollect
      | echild => exact hcollect

/-- Sending a signal. -/
theorem processxSignal_ends (status : Sexp) (sig : ℕ) (group : Bool) :
    Ends Clear (processxSignal status sig group) (fun _ => Settled) := by
  refine Ends.block fun _ => Ends.keepClear (keepsMask_readHandle status) fun handle => ?_
  cases handle with
  | none => exact unblockAndReturn_ends _
  | some h =>
    dsimp only
    split
    · exact unblockAndReturn_ends _
    · refine Ends.keepClear (keepsMask_kill _ _ _ _) fun ret => ?_
      split
      · exact unblockAndThrow_ends _
      · refine Ends.keepClear (keepsMask_waitpid _ _ _) fun wp => ?_
        cases wp with
        | error => exact unblockAndThrow_ends _
        | none => exact unblockAndReturn_ends _
        | exited stat => exact unblockAndReturn_ends _
        | echild =>
          refine Ends.keepClear (keepsMask_collectExitStatus _ _) fun _ => ?_
          exact unblockAndReturn_ends _

/-- The polling leaves the signal unblocked. -/
theorem pollLoop_ends (status : Sexp) (pid r wr pipe : ℕ) (timeout : ℤ) (rounds : ℕ)
    (timeleft : ℤ) :
    Ends (Entered false) (pollLoop status pid r wr pipe timeout rounds timeleft)
      (fun _ => Entered false) := by
  have hret : ∀ answer : PollAnswer,
      Ends (Entered false) (.ret answer) (fun _ => Entered false) :=
    fun _ => .ret (kept_of_sameMask .of_sameMask) fun _ h => h
  induction rounds generalizing timeleft with
  | zero => exact .spin (kept_of_sameMask .of_sameMask)
  | succ rounds ih =>
    rw [pollLoop]
    split
    · refine Ends.keep .of_sameMask (keepsMask_poll _ _ _ _) fun answer => ?_
      split
      · exact hret answer
      · refine Ends.keep .of_sameMask keepsMask_checkUserInterrupt fun interrupted => ?_
        split
        · exact .throw (kept_of_sameMask .of_sameMask) fun _ h => h
        · refine Ends.keep .of_sameMask (keepsMask_kill _ _ _ _) fun alive => ?_
          dsimp only
          split
          · exact hret .ready
          · exact ih _
    · split
      · exact .act (kept_of_sameMask .of_sameMask) (fun _ => Entered false)
          (fun w c r w' hw hact => hw.of_sameMask (keepsMask_poll _ _ _ _ w c r w' hact)) hret
      · exact hret .timeout

/-- Restoring the mask gives back the mask that the wait was entered with. -/
theorem Clear.procmaskSet {w : World} (h : Clear w) (old : Bool) :
    Entered old (w.procmaskSet old) := by
  cases old with
  | true => exact ⟨rfl, h⟩
  | false => exact ⟨rfl, h⟩

/-- How a wait ends: when it returns, the mask is as it was; when it throws, it is settled. -/
def WaitEnds (old : Bool) : Except String Bool → World → Prop
  | .ok _ => Entered old
  | .error _ => Settled

/-- A wait that is not polling restores the mask. -/
theorem restore_ends (old : Bool) {a : Act Unit}
    (ha : ∀ w c w', Clear w → a w c = some ((), w') → Entered old w') (result : Bool) :
    Ends Clear (Prog.lift a >>= fun _ => .ret result) (WaitEnds old) := by
  refine .step (kept_of_sameMask .of_sameMask) (fun _ => Entered old)
    (fun w c r w' hw hact => ha w c w' hw hact) fun _ => ?_
  exact .ret (kept_of_sameMask .of_sameMask) fun _ h => h

/-- The end of a wait restores the mask. -/
theorem endWait_ends (status : Sexp) (pid : ℕ) (old : Bool) (answer : PollAnswer) :
    Ends (Entered false) (endWait status pid old answer) (WaitEnds old) := by
  unfold endWait
  split
  · exact .throw (kept_of_sameMask .of_sameMask) fun _ h => h.settled
  · refine Ends.keep .of_sameMask (keepsMask_clearWaitpipe status) fun _ => ?_
    refine (restore_ends old ?_ _).conseq (fun _ h => h.clear) fun _ _ h => h
    rintro w c w' hw ⟨⟩
    exact ⟨(hw.procmaskSet old).blocked, (hw.procmaskSet old).clear⟩

/-- The callback of a wait is registered, or the wait throws. -/
theorem callOnExit_ends {old : Bool} {f : Bool → Call Bool} {msg : String}
    (hthrow : f false = .throw msg) (hf : Ends (Entered old) (f true) (WaitEnds old)) :
    Ends (Entered old) (Prog.lift callOnExit >>= f) (WaitEnds old) := by
  refine .step (kept_of_sameMask .of_sameMask)
    (fun registered w => if registered then Entered old w else Settled w) ?_ fun registered => ?_
  · rintro w c r w' ⟨hblocked, hclear⟩ hact
    unfold callOnExit at hact
    split at hact
    · cases hact
      exact ⟨hblocked, hclear⟩
    · cases hact
      rw [if_neg (by simp), Settled]
      cases old with
      | true => simp [World.record, hblocked, stuckMask]
      | false => simpa [World.record, hblocked, stuckMask] using hclear.symm
  cases registered with
  | false =>
    rw [hthrow]
    exact .throw (kept_of_sameMask .of_sameMask) fun _ h => h
  | true => exact hf

/-- Blocking the signal gives back the mask that the wait was entered with. -/
theorem Ends.save {old : Bool} {f : Bool → Call α} {Q : Except String α → World → Prop}
    (hf : Ends Clear (f old) Q) : Ends (Entered old) (Prog.lift blockSigchld >>= f) Q := by
  refine .step (kept_of_sameMask .of_sameMask) (fun saved w => saved = old ∧ Clear w) ?_
    fun saved => .of_fact ?_
  · rintro w c r w' hw ⟨⟩
    exact ⟨hw.blocked, hw.clear⟩
  rintro rfl
  exact hf

/-- The pipe of a wait cannot be made. -/
theorem restoreAfterFailure_ends (old : Bool) (msg : String) :
    Ends Clear (Prog.lift (restoreAfterFailure old) >>= fun _ => .throw msg) (WaitEnds old) := by
  refine .step (kept_of_sameMask .of_sameMask) (fun _ => Settled) ?_ fun _ => ?_
  · rintro w c r w' hw ⟨⟩
    cases old with
    | true => rfl
    | false => exact hw.symm
  · exact .throw (kept_of_sameMask .of_sameMask) fun _ h => h

/-- A wait restores the mask, unless it throws. -/
theorem cProcessxWait_ends (old : Bool) (rounds : ℕ) (status : Sexp) (timeout : ℤ) :
    Ends (Entered old) (cProcessxWait rounds status timeout) (WaitEnds old) := by
  have hrestore : Ends Clear (Prog.lift (procmaskSet old) >>= fun _ => .ret true)
      (WaitEnds old) := by
    refine restore_ends old ?_ true
    rintro w c w' hw ⟨⟩
    exact hw.procmaskSet old
  refine callOnExit_ends rfl (Ends.save ?_)
  refine Ends.keepClear (keepsMask_readHandle status) fun handle => ?_
  cases handle with
  | none => exact hrestore
  | some h =>
    dsimp only
    split
    · exact hrestore
    · refine Ends.keepClear keepsMask_setupSigchld fun _ => Ends.block fun _ => ?_
      refine Ends.keepClear (keepsMask_makeWaitpipe status) fun made => ?_
      cases made with
      | none => exact restoreAfterFailure_ends old _
      | some fds =>
        obtain ⟨r, wr, pipe⟩ := fds
        refine Ends.keepClear (keepsMask_saveWaitpipe r wr) fun _ => Ends.unblock ?_
        refine (pollLoop_ends status h.pid r wr pipe timeout rounds timeout).bind
          (fun answer => endWait_ends status h.pid old answer) fun _ _ h => h.settled

/-- `KILL_WITH()` in front of a program that ends with a settled mask. -/
theorem killWith_ends (status : Sexp) (pid sig : ℕ) {next : Call Bool}
    (hnext : Ends (Entered true) next (fun _ => Settled)) :
    Ends (Entered true) (killWith status pid sig next) (fun _ => Settled) := by
  refine Ends.keep .of_sameMask (keepsMask_kill _ _ _ _) fun ret => ?_
  cases ret with
  | gone => exact (unblockAndReturn_ends _).conseq (fun _ h => h.clear) fun _ _ h => h
  | error => exact (unblockAndThrow_ends _).conseq (fun _ h => h.clear) fun _ _ h => h
  | ok => exact hnext

/-- The end of a kill: the exit status is read. -/
theorem readAndReturn_ends (status : Sexp) (f : ℤ → Bool) :
    Ends Clear (Prog.lift (readExitcode status) >>= fun exitcode => unblockAndReturn (f exitcode))
      (fun _ => Settled) :=
  Ends.keepClear (keepsMask_readExitcode status) fun _ => unblockAndReturn_ends _

/-- Killing a child with SIGKILL. -/
theorem killHard_ends (status : Sexp) (pid : ℕ) :
    Ends (Entered true) (killHard status pid) (fun _ => Settled) := by
  refine killWith_ends status pid 9 ?_
  refine Ensures.conseq ?_ (fun _ h => h.clear) fun _ _ h => h
  refine Ends.keepClear (keepsMask_waitpidBlocking _ _ _) fun wp => ?_
  refine Ends.keepClear (keepsMask_collectExitStatus _ _) fun _ => ?_
  exact readAndReturn_ends status _

/-- Killing a child with SIGTERM first. -/
theorem killGracefully_ends (rounds : ℕ) (status : Sexp) (pid : ℕ) (graceMs : ℤ) :
    Ends (Entered true) (killGracefully rounds status pid graceMs) (fun _ => Settled) := by
  refine killWith_ends status pid 15 ?_
  refine (cProcessxWait_ends true rounds status graceMs).bind (fun finished => ?_) fun _ _ h => h
  dsimp only [WaitEnds]
  split
  · exact (readAndReturn_ends status _).conseq (fun _ h => h.clear) fun _ _ h => h
  · exact killHard_ends status pid

/-- Killing a child. -/
theorem cProcessxKill_ends (rounds : ℕ) (status : Sexp) (graceMs : ℤ) :
    Ends Clear (cProcessxKill rounds status graceMs) (fun _ => Settled) := by
  refine .step (kept_of_sameMask .of_sameMask) (fun _ => Entered true) ?_ fun _ => ?_
  · rintro w c r w' hw ⟨⟩
    exact ⟨rfl, hw⟩
  refine Ends.keep .of_sameMask (keepsMask_readHandle status) fun handle => ?_
  have hreturn : Ends (Entered true) (unblockAndReturn false) (fun _ => Settled) :=
    (unblockAndReturn_ends _).conseq (fun _ h => h.clear) fun _ _ h => h
  cases handle with
  | none => exact hreturn
  | some h =>
    dsimp only
    split
    · exact hreturn
    · refine Ends.keep .of_sameMask (keepsMask_waitpid _ _ _) fun wp => ?_
      cases wp with
      | echild => exact Ends.keep .of_sameMask (keepsMask_collectExitStatus _ _) fun _ => hreturn
      | error => exact (unblockAndThrow_ends _).conseq (fun _ h => h.clear) fun _ _ h => h
      | exited stat => exact hreturn
      | none =>
        dsimp only
        split
        · exact killGracefully_ends rounds status h.pid graceMs
        · exact killHard_ends status h.pid

/-- The exit callbacks do not touch the mask. -/
theorem callExits_ends (exits : List (Option (ℕ × ℕ))) :
    Ends Settled (callExits exits) (fun _ => Settled) := by
  induction exits with
  | nil => exact Ends.retSettled
  | cons fds rest ih =>
    refine Ensures.bind (R := fun _ => Settled) ?_ (fun _ => ih) fun _ _ h => h
    cases fds with
    | none => exact Ends.retSettled
    | some fds =>
      refine Ends.keep .of_sameMask (keepsMask_closeFd _) fun _ => ?_
      exact .act (kept_of_sameMask .of_sameMask) (fun _ => Settled)
        (fun w c r w' hw hact => hw.of_sameMask (keepsMask_closeFd _ w c r w' hact))
        fun _ => Ends.retSettled

/-- A context ends as its body does. -/
theorem withCleanupContext_ends {P : World → Prop} {body : Call α}
    (hP : ∀ {w w' : World}, P w → SameMask w w' → P w')
    (hbody : Ends P body (fun _ => Settled)) :
    Ends P (withCleanupContext body) (fun _ => Settled) := by
  refine Ends.keep hP keepsMask_pushContext fun _ => hbody.attempt fun result => ?_
  refine Ends.keep .of_sameMask keepsMask_popContext fun exits => ?_
  refine (callExits_ends exits).bind (fun _ => ?_) fun _ _ h => h
  cases result with
  | ok a => exact Ends.retSettled
  | error msg => exact Ends.throwSettled

/-- A finalizer leaves a settled mask, whatever it was. -/
theorem finalizer_ends (rounds : ℕ) (status : Sexp) :
    Ends Anywhere (finalizer rounds status) (fun _ => Settled) := by
  have hany : Kept World.move (fun _ => True) Anywhere := kept_of_sameMask fun _ _ => trivial
  refine .step hany (fun _ => Anywhere) (fun _ _ _ _ _ _ => trivial) fun handle => ?_
  refine .step hany (fun _ => Anywhere) (fun _ _ _ _ _ _ => trivial) fun _ => ?_
  refine .step hany (fun _ => Clear) ?_ fun _ => Ends.unblock ?_
  · rintro w c r w' _ ⟨⟩
    rfl
  have hdestroy : Ends Settled (Prog.lift (handleDestroy status)) (fun _ => Settled) :=
    .act (kept_of_sameMask .of_sameMask) (fun _ => Settled)
      (fun w c r w' hw hact => hw.of_sameMask (keepsMask_handleDestroy status w c r w' hact))
      fun _ => Ends.retSettled
  cases handle with
  | none => exact Ends.retSettled.conseq (fun _ h => h.settled) fun _ _ h => h
  | some h =>
    dsimp only
    split
    · have hkill := withCleanupContext_ends .of_sameMask
        (cProcessxKill_ends rounds status h.cleanupGrace)
      exact (hkill.conseq (fun _ h => h.clear) fun _ _ h => h).bind (fun _ => hdestroy)
        fun _ _ h => h
    · exact hdestroy.conseq (fun _ h => h.settled) fun _ _ h => h

/-- Finalizers leave a settled mask settled. -/
theorem runFinalizers_ends (rounds : ℕ) (statuses : List Sexp) :
    Ends Settled (runFinalizers rounds statuses) (fun _ => Settled) := by
  induction statuses with
  | nil => exact Ends.retSettled
  | cons status statuses ih =>
    exact ((finalizer_ends rounds status).conseq (fun _ _ => trivial) fun _ _ h => h).attempt
      fun _ => ih

/-- Nor does a garbage collection change it. -/
theorem gcPoint_ends (rounds : ℕ) (inUse : Option Sexp) :
    Ends Settled (gcPoint rounds inUse) (fun _ => Settled) :=
  Ends.keep .of_sameMask (keepsMask_collectGarbage inUse) fun dead => runFinalizers_ends rounds dead

/-- The pipes for the standard streams are made. -/
theorem makeSocketpairs_ends (outputs : List Output) :
    Ends Settled (makeSocketpairs outputs) (fun _ => Settled) := by
  induction outputs with
  | nil => exact Ends.retSettled
  | cons output outputs ih =>
    rw [makeSocketpairs]
    split
    · refine Ends.keep .of_sameMask keepsMask_sysCall fun ok => ?_
      split
      · exact Ends.throwSettled
      · exact ih
    · exact ih

/-- The end of a start. -/
theorem finishExec_ends (rounds : ℕ) (status : Sexp) (pid : ℕ) (started : Bool) :
    Ends Settled (finishExec rounds status pid started) (fun _ => Settled) := by
  refine (gcPoint_ends rounds (some status)).bind (fun _ => ?_) fun _ _ h => h
  refine Ends.keep .of_sameMask keepsMask_sysCall fun ok => ?_
  split
  · exact Ends.throwSettled
  · split
    · exact Ends.keep .of_sameMask (keepsMask_storePid status pid) fun _ => Ends.retSettled
    · exact Ends.throwSettled

/-- What follows the critical section. -/
theorem awaitExec_ends (rounds : ℕ) (status : Sexp) (pid : ℕ) :
    Ends Settled (awaitExec rounds status pid) (fun _ => Settled) := by
  refine Ends.keep .of_sameMask keepsMask_readSignalPipe fun r => ?_
  cases r with
  | eof => exact finishExec_ends rounds status pid true
  | errno => exact Ends.keep .of_sameMask (keepsMask_waitpidBlocking _ _ _) fun _ =>
    finishExec_ends rounds status pid _
  | epipe => exact Ends.keep .of_sameMask (keepsMask_waitpidBlocking _ _ _) fun _ =>
    finishExec_ends rounds status pid _
  | other => exact Ends.throwSettled

/-- A start that fails in the critical section unblocks the signal. -/
theorem unblockAfterFailure_ends {P : World → Prop} (hP : Kept World.move (fun _ => True) P)
    (msg : String) : Ends P (Prog.lift unblockAfterFailure >>= fun _ => .throw msg : Call α)
      (fun _ => Settled) := by
  refine .step hP (fun _ => Settled) ?_ fun _ => Ends.throwSettled
  rintro w c r w' _ ⟨⟩
  rfl

/-- The end of the critical section. -/
theorem linkAndAwait_ends (rounds : ℕ) (status : Sexp) (pid : ℕ) :
    Ends Settled (linkAndAwait rounds status pid) (fun _ => Settled) := by
  refine (gcPoint_ends rounds (some status)).bind (fun _ => ?_) fun _ _ h => h
  refine Ends.keep .of_sameMask keepsMask_leaves fun left => ?_
  cases left with
  | true => exact Ends.throwSettled
  | false =>
    refine .step (kept_of_sameMask .of_sameMask) (fun _ => Clear) ?_ fun _ => Ends.unblock ?_
    · rintro w c r w' _ ⟨⟩
      rfl
    · exact (awaitExec_ends rounds status pid).conseq (fun _ h => h.settled) fun _ _ h => h

/-- The critical section: the mask is settled there from the fork on. -/
theorem addChild_ends (rounds : ℕ) (status : Sexp) (pid : ℕ) (pty : Bool) :
    Ends Settled (addChild rounds status pid pty) (fun _ => Settled) := by
  refine (gcPoint_ends rounds (some status)).bind (fun _ => ?_) fun _ _ h => h
  refine Ends.keep .of_sameMask keepsMask_leaves fun left => ?_
  cases left with
  | true => exact Ends.throwSettled
  | false =>
    refine Ends.keep .of_sameMask (keepsMask_openPtyChild status pty) fun _ => ?_
    refine Ends.keep .of_sameMask keepsMask_sysCall fun ok => ?_
    cases ok with
    | false => exact unblockAfterFailure_ends (kept_of_sameMask .of_sameMask) _
    | true => exact linkAndAwait_ends rounds status pid

/-- `processx_exec()` from the handle on. -/
theorem startChild_ends (rounds : ℕ) (status : Sexp) (connections : List Output) (pty : Bool) :
    Ends Settled (startChild rounds status connections pty) (fun _ => Settled) := by
  have hany : Kept World.move (fun _ => True) Anywhere := kept_of_sameMask fun _ _ => trivial
  refine (gcPoint_ends rounds (some status)).bind (fun _ => ?_) fun _ _ h => h
  refine Ends.keep .of_sameMask (keepsMask_openPty pty) fun ok => ?_
  split
  · exact Ends.throwSettled
  · refine (makeSocketpairs_ends connections).bind (fun _ => ?_) fun _ _ h => h
    -- the signal is blocked, and the fork settles that
    refine .step (kept_of_sameMask .of_sameMask) (fun _ w => w.blocked = true) ?_ fun _ => ?_
    · rintro w c r w' _ ⟨⟩
      rfl
    refine .step (kept_of_sameMask fun h hsame => hsame.1.trans h)
      (fun child w => child ≠ none → Settled w) ?_ fun child => ?_
    · intro w c child w' hw hact hchild
      unfold fork at hact
      cases c with
      | pid n =>
        dsimp only at hact
        split at hact
        · cases hact
          exact hw
        · cases hact
      | fail =>
        cases hact
        exact absurd rfl hchild
      | _ => cases hact
    cases child with
    | none =>
      refine Ensures.conseq ?_ (fun _ _ => trivial) fun _ _ h => h
      exact unblockAfterFailure_ends hany _
    | some pid =>
      exact (addChild_ends rounds status pid pty).conseq (fun _ h => h (by simp)) fun _ _ h => h

/-- Starting a process. -/
theorem processxExec_ends (rounds : ℕ) (connections : List Output) (pty cleanup : Bool)
    (cleanupGrace : ℤ) :
    Ends Settled (processxExec rounds connections pty cleanup cleanupGrace) (fun _ => Settled) := by
  refine (gcPoint_ends rounds none).bind (fun _ => ?_) fun _ _ h => h
  refine Ends.keep .of_sameMask keepsMask_sysCall fun ok => ?_
  split
  · exact Ends.throwSettled
  · refine Ends.keep .of_sameMask keepsMask_setupSigchld fun _ => ?_
    refine Ends.keep .of_sameMask (keepsMask_makeHandle cleanup cleanupGrace) fun handle => ?_
    cases handle with
    | none => exact Ends.throwSettled
    | some status => exact startChild_ends rounds status connections pty

/-- The calls of the package that touch the mask. -/
inductive MaskCall
  | exec (connections : List Output) (pty cleanup : Bool) (cleanupGrace : ℤ)
  | isAlive (status : Sexp)
  | getExitStatus (status : Sexp)
  | signal (status : Sexp) (sig : ℕ) (group : Bool)
  | kill (status : Sexp) (graceMs : ℤ)
  | wait (status : Sexp) (timeout : ℤ)

/-- One call, without its result. -/
def MaskCall.run (rounds : ℕ) : MaskCall → Call Unit
  | .exec connections pty cleanup cleanupGrace => do
    let _ ← processxExec rounds connections pty cleanup cleanupGrace
  | .isAlive status => do
    let _ ← processxIsAlive status
  | .getExitStatus status => do
    let _ ← processxGetExitStatus status
  | .signal status sig group => do
    let _ ← processxSignal status sig group
  | .kill status graceMs => do
    let _ ← processxKill rounds status graceMs
  | .wait status timeout => do
    let _ ← processxWait rounds status timeout

/-- A result that is dropped does not matter. -/
theorem Ends.dropResult {P : World → Prop} {p : Call α} (h : Ends P p (fun _ => Settled)) :
    Ends P (p >>= fun _ => pure ()) (fun _ => Settled) :=
  h.bind (fun _ => Ends.retSettled) fun _ _ h => h

/-- Every call that begins with the signal unblocked leaves a settled mask. -/
theorem MaskCall.run_ends (rounds : ℕ) (call : MaskCall) :
    Ends (Entered false) (call.run rounds) (fun _ => Settled) := by
  have hclear : ∀ {p : Call Unit}, Ends Clear p (fun _ => Settled) →
      Ends (Entered false) p (fun _ => Settled) :=
    fun h => h.conseq (fun _ h => h.clear) fun _ _ h => h
  cases call with
  | exec connections pty cleanup cleanupGrace =>
    exact Ends.dropResult ((processxExec_ends rounds connections pty cleanup cleanupGrace).conseq
      (fun _ h => h.settled) fun _ _ h => h)
  | isAlive status => exact hclear (processxIsAlive_ends status).dropResult
  | getExitStatus status => exact hclear (processxGetExitStatus_ends status).dropResult
  | signal status sig group => exact hclear (processxSignal_ends status sig group).dropResult
  | kill status graceMs =>
    exact hclear (withCleanupContext_ends .of_sameMask
      (cProcessxKill_ends rounds status graceMs)).dropResult
  | wait status timeout =>
    refine Ends.dropResult (withCleanupContext_ends .of_sameMask ?_)
    refine (cProcessxWait_ends false rounds status timeout).conseq (fun _ h => h) ?_
    rintro (msg | result) w h
    · exact h
    · exact h.settled

end Processx
