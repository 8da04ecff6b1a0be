import Processx.Unix.Actions

/-!
# Sessions

What a user does with processes that are running: any sequence of calls, some of which
throw. Children may exit and the handler may run at any moment of a session.
-/

namespace Processx

open Interruptible

/-- The calls on a process object, and the unloading of the package. -/
inductive ProcessCall
  | isAlive (status : Sexp)
  | getExitStatus (status : Sexp)
  | signal (status : Sexp) (sig : ℕ) (group : Bool)
  | kill (status : Sexp) (graceMs : ℤ)
  | wait (status : Sexp) (timeout : ℤ)
  | unload

/-- One call, without its result. -/
def ProcessCall.run (rounds : ℕ) : ProcessCall → Call Unit
  | .isAlive status => do
    let _ ← processxIsAlive status
  | .getExitStatus status => do
    let _ ← processxGetExitStatus status
  | .signal status sig group => do
    let _ ← processxSignal status sig group
  | .kill status graceMs => do
    let _ ← processxKill rounds status graceMs
  | .wait status timeout => do
    let _ ← processxWait rounds status timeout
  | .unload => unloadCleanup

/-- One call after another; the errors are caught. -/
def runSession (rounds : ℕ) : List ProcessCall → Call Unit
  | [] => .ret ()
  | call :: calls => do
    let _ ← (call.run rounds).attempt
    runSession rounds calls

/-- All that the package does: processes are started, used and garbage collected. -/
inductive SystemCall
  | exec (connections : List Output) (pty cleanup : Bool) (cleanupGrace : ℤ)
  | process (call : ProcessCall)
  | gc

/-- One of these calls, without its result. -/
def SystemCall.run (rounds : ℕ) : SystemCall → Call Unit
  | .exec connections pty cleanup cleanupGrace => do
    let _ ← processxExec rounds connections pty cleanup cleanupGrace
  | .process call => call.run rounds
  | .gc => gcPoint rounds none

/-- One call after another; the errors are caught. -/
def runSystem (rounds : ℕ) : List SystemCall → Call Unit
  | [] => .ret ()
  | call :: calls => do
    let _ ← (call.run rounds).attempt
    runSystem rounds calls

variable {I P : World → Prop} {α : Type}

/-- The rule for a call whose result is dropped. -/
theorem ensures_dropResult {p : Call α} (hP : Kept World.move I P)
    (h : Ensures World.move I P p (fun _ => P)) :
    Ensures World.move I P (p >>= fun _ => pure ()) (fun _ => P) :=
  h.bind (fun _ => .ret hP fun _ hw => hw) fun _ _ hw => hw

/-- The rule for sessions: what every call keeps is kept. -/
theorem runSession_keeps (hP : Kept World.move I P) (rounds : ℕ)
    (hcall : ∀ call : ProcessCall, Ensures World.move I P (call.run rounds) (fun _ => P))
    (calls : List ProcessCall) :
    Ensures World.move I P (runSession rounds calls) (fun _ => P) := by
  induction calls with
  | nil => exact .ret hP fun _ hw => hw
  | cons call calls ih => exact (hcall call).attempt fun _ => ih

/-- The rule for all that the package does. -/
theorem runSystem_keeps (hP : Kept World.move I P) (rounds : ℕ)
    (hcall : ∀ call : SystemCall, Ensures World.move I P (call.run rounds) (fun _ => P))
    (calls : List SystemCall) :
    Ensures World.move I P (runSystem rounds calls) (fun _ => P) := by
  induction calls with
  | nil => exact .ret hP fun _ hw => hw
  | cons call calls ih => exact (hcall call).attempt fun _ => ih

/-- A property of all the actions that the package consists of. -/
structure AllowsAll (φ : ∀ {ρ : Type}, Act ρ → Prop) : Prop extends Allows φ where
  makeHandle : ∀ cleanup cleanupGrace, φ (makeHandle cleanup cleanupGrace)
  collectGarbage : ∀ inUse, φ (collectGarbage inUse)
  blockForFork : φ blockForFork
  unblockAfterFailure : φ unblockAfterFailure
  leaves : φ leaves
  fork : ∀ s, φ (fork s)
  openPtyChild : ∀ s pty, φ (openPtyChild s pty)
  linkChild : ∀ s pid, φ (linkChild s pid)
  storePid : ∀ s pid, φ (storePid s pid)
  clearNodeStatus : ∀ node, φ (clearNodeStatus node)
  clearChildList : φ clearChildList

section AllCalls

variable {φ : ∀ {ρ : Type}, Act ρ → Prop} (hφ : AllowsAll φ)

include hφ

/-- A property of the actions of a finalizer is one of a garbage collection. -/
theorem gcPoint_each (rounds : ℕ) (inUse : Option Sexp) : (gcPoint rounds inUse).Each φ :=
  .step (hφ.collectGarbage inUse) fun dead => runFinalizers_each hφ.toAllows rounds dead

/-- The same for the pipes of a child. -/
theorem makeSocketpairs_each (outputs : List Output) : (makeSocketpairs outputs).Each φ := by
  induction outputs with
  | nil => trivial
  | cons output outputs ih =>
    rw [makeSocketpairs]
    split
    · refine .step (hφ.note _ noteAct_sysCall) fun ok => ?_
      split
      · trivial
      · exact ih
    · exact ih

/-- The same for the end of `processx_exec()`. -/
theorem finishExec_each (rounds : ℕ) (s : Sexp) (pid : ℕ) (started : Bool) :
    (finishExec rounds s pid started).Each φ := by
  refine .bind (gcPoint_each hφ rounds _) fun _ => ?_
  refine .step (hφ.note _ noteAct_sysCall) fun ok => ?_
  split
  · trivial
  · split
    · exact .step (hφ.storePid s pid) fun _ => trivial
    · trivial

/-- The same for its wait for the message of the child. -/
theorem awaitExec_each (rounds : ℕ) (s : Sexp) (pid : ℕ) : (awaitExec rounds s pid).Each φ := by
  have hwait := hφ.waitpidBlocking .exec s pid
  refine .step (hφ.note _ noteAct_readSignalPipe) fun r => ?_
  cases r with
  | eof => exact finishExec_each hφ rounds s pid true
  | errno => exact .step hwait fun _ => finishExec_each hφ rounds s pid false
  | epipe => exact .step hwait fun _ => finishExec_each hφ rounds s pid true
  | other => trivial

/-- The same from the node of the child list to the end. -/
theorem linkAndAwait_each (rounds : ℕ) (s : Sexp) (pid : ℕ) :
    (linkAndAwait rounds s pid).Each φ := by
  refine .bind (gcPoint_each hφ rounds _) fun _ => ?_
  refine .step hφ.leaves fun left => ?_
  cases left with
  | true => trivial
  | false =>
    refine .step (hφ.linkChild s pid) fun _ => ?_
    exact .step (hφ.note _ noteAct_unblockSigchld) fun _ => awaitExec_each hφ rounds s pid

/-- The same from the fork to the end. -/
theorem addChild_each (rounds : ℕ) (s : Sexp) (pid : ℕ) (pty : Bool) :
    (addChild rounds s pid pty).Each φ := by
  refine .bind (gcPoint_each hφ rounds _) fun _ => ?_
  refine .step hφ.leaves fun left => ?_
  cases left with
  | true => trivial
  | false =>
    refine .step (hφ.openPtyChild s pty) fun _ => ?_
    refine .step (hφ.note _ noteAct_sysCall) fun ok => ?_
    cases ok with
    | false => exact .step hφ.unblockAfterFailure fun _ => trivial
    | true => exact linkAndAwait_each hφ rounds s pid

/-- The same for `processx_exec()`. -/
theorem processxExec_each (rounds : ℕ) (connections : List Output) (pty cleanup : Bool)
    (cleanupGrace : ℤ) : (processxExec rounds connections pty cleanup cleanupGrace).Each φ := by
  refine .bind (gcPoint_each hφ rounds _) fun _ => ?_
  refine .step (hφ.note _ noteAct_sysCall) fun ok => ?_
  split
  · trivial
  · refine .step (hφ.note _ noteAct_setupSigchld) fun _ => ?_
    refine .step (hφ.makeHandle cleanup cleanupGrace) fun handle => ?_
    cases handle with
    | none => trivial
    | some s =>
      refine .bind (gcPoint_each hφ rounds _) fun _ => ?_
      refine .step (hφ.note _ (noteAct_openPty pty)) fun ok => ?_
      split
      · trivial
      · refine .bind (makeSocketpairs_each hφ connections) fun _ => ?_
        refine .step hφ.blockForFork fun _ => ?_
        refine .step (hφ.fork s) fun child => ?_
        cases child with
        | none => exact .step hφ.unblockAfterFailure fun _ => trivial
        | some pid => exact addChild_each hφ rounds s pid pty

/-- The same for every call. -/
theorem processCall_each (rounds : ℕ) (call : ProcessCall) : (call.run rounds).Each φ := by
  have hnote : ∀ {ρ : Type} (a : Act ρ), NoteAct a → φ a := hφ.note
  cases call with
  | isAlive s =>
    exact .bind (processxIsAlive_each hnote (hφ.waitpid _ s) (hφ.collectExitStatus s))
      fun _ => trivial
  | getExitStatus s =>
    exact .bind (processxGetExitStatus_each hnote (hφ.waitpid _ s) (hφ.collectExitStatus s))
      fun _ => trivial
  | signal s sig group =>
    exact .bind (processxSignal_each hnote (fun target => hφ.kill _ s target sig)
      (hφ.waitpid _ s) (hφ.collectExitStatus s) group) fun _ => trivial
  | kill s graceMs =>
    exact .bind (withCleanupContext_each hφ.toAllows
      (cProcessxKill_each hφ.toAllows rounds s graceMs)) fun _ => trivial
  | wait s timeout =>
    exact .bind (withCleanupContext_each hφ.toAllows
      (cProcessxWait_each hφ.toAllows rounds s timeout)) fun _ => trivial
  | unload =>
    exact unloadCleanup_each hnote (fun s target => hφ.kill _ s target 9)
      (hφ.waitpidBlocking _) hφ.clearNodeStatus hφ.clearChildList

/-- The same for every event of a session. -/
theorem systemCall_each (rounds : ℕ) (call : SystemCall) : (call.run rounds).Each φ := by
  cases call with
  | exec connections pty cleanup cleanupGrace =>
    exact .bind (processxExec_each hφ rounds connections pty cleanup cleanupGrace) fun _ => trivial
  | process call => exact processCall_each hφ rounds call
  | gc => exact gcPoint_each hφ rounds none

end AllCalls

/-- Every handle has a property. -/
def AllHandles (ok : Handle → Prop) (w : World) : Prop := ∀ s h, w.handles s = some h → ok h

/-- A property that a new handle has, and that every change of a handle keeps. -/
structure HandleRule (ok : Handle → Prop) : Prop where
  new : ∀ cleanup cleanupGrace, ok (newHandle cleanup cleanupGrace)
  collect : ∀ h wp, ok h → ok (h.collect wp)
  makePipe : ∀ h r wr, ok h → ok { h with waitpipe0 := some r, waitpipe1 := some wr }
  clearPipe : ∀ h, ok h → ok { h with waitpipe0 := none, waitpipe1 := none }
  closeWrite : ∀ h, ok h → ok { h with waitpipe1 := none }
  setPty : ∀ h fd, ok h → ok { h with ptyChildFd := fd }
  setPid : ∀ h pid, ok h → ok { h with pid := pid }

section AllHandles

variable {ok : Handle → Prop} {w : World}

/-- A handle that is set. -/
theorem AllHandles.setHandle (hw : AllHandles ok w) {s : Sexp} {handle : Option Handle}
    (hhandle : ∀ h, handle = some h → ok h) : AllHandles ok (w.setHandle s handle) := by
  intro s' h hh
  by_cases hs : s' = s
  · exact hhandle h (by simpa [World.setHandle, hs] using hh)
  · exact hw s' h (by simpa [World.setHandle, hs] using hh)

/-- A handle that is changed, if it is there. -/
theorem AllHandles.mapHandle (hw : AllHandles ok w) (s : Sexp) {f : Handle → Handle}
    (hf : ∀ h, ok h → ok (f h)) : AllHandles ok (w.setHandle s ((w.handles s).map f)) := by
  apply hw.setHandle
  intro h' hh'
  obtain ⟨h, hh, rfl⟩ := Option.map_eq_some_iff.mp hh'
  exact hf h (hw s h hh)

/-- A `waitpid()` leaves the handles as they are. -/
theorem AllHandles.waitNohang (hw : AllHandles ok w) {w₁ : World} {pid : ℕ} {wp : WaitResult}
    (hwait : w.waitNohang pid = (wp, w₁)) : AllHandles ok w₁ := by
  obtain rfl | ⟨p, rfl⟩ := waitNohang_eq_setProc hwait
  · exact hw
  · exact hw

variable (hrule : HandleRule ok)

include hrule

/-- Storing a status. -/
theorem AllHandles.collectExitStatus (hw : AllHandles ok w) (s : Sexp) (wp : WaitResult) :
    AllHandles ok (w.collectExitStatus s wp) := by
  have hset := hw.mapHandle s fun h hh => hrule.collect h wp hh
  obtain ⟨_, heq⟩ | ⟨fd, _, heq⟩ := collectExitStatus_cases w s wp
  · rw [heq]
    exact hset
  · rw [heq]
    exact hset

/-- The work of the handler on one child. -/
theorem AllHandles.childExited (hw : AllHandles ok w) (node : Node) (wp : WaitResult) :
    AllHandles ok (w.childExited node wp) := by
  have hcollect := hw.collectExitStatus hrule node.status wp
  obtain ⟨_, heq⟩ | ⟨h, _, _, heq⟩ | ⟨h, fd, hnode, _, heq⟩ := childExited_cases w node wp
  · rw [heq]
    exact hw
  · rw [heq]
    exact hcollect
  · have hok := hrule.collect h wp (hw node.status h (handles_of_nodeHandle hnode))
    rw [heq]
    apply AllHandles.setHandle
    · exact hcollect
    · rintro _ ⟨⟩
      exact hrule.closeWrite _ hok

/-- What happens outside of the main program keeps the property. -/
theorem HandleRule.kept : Kept World.move (AllHandles ok) (AllHandles ok) where
  move := by
    apply move_keeps
    · exact fun w pid stat hw _ => hw
    · exact fun w hw _ _ => hw
    · exact fun w node wp w₁ hw _ hwait _ => (hw.waitNohang hwait).childExited hrule node wp
    · exact fun w kept hw _ => hw
  safe _ hw := hw

/-- All that the package does keeps it. -/
theorem HandleRule.allowsAll : AllowsAll fun a =>
    ∀ w c r w', AllHandles ok w → a w c = some (r, w') → AllHandles ok w' where
  note a ha w c r w' hw h := by
    intro s handle hh
    rw [(ha w c r w' h).handles] at hh
    exact hw s handle hh
  kill site s target sig w c r w' hw h := by
    obtain rfl := kill_eq_record h
    exact hw
  waitpid site s pid w c wp w' hw h := by
    obtain ⟨_, rfl⟩ | ⟨w₁, hwait, rfl⟩ := waitpid_cases h
    · exact hw
    · have hwaited := AllHandles.waitNohang hw hwait
      exact hwaited
  waitpidBlocking site s pid w c wp w' hw h := by
    obtain ⟨_, w₁, hwait, rfl⟩ := waitpidBlocking_cases h
    have hwaited := AllHandles.waitNohang hw hwait
    exact hwaited
  collectExitStatus s wp := by
    rintro w c r w' hw ⟨⟩
    exact hw.collectExitStatus hrule s wp
  callOnExit w c registered w' hw h := by
    obtain ⟨_, rfl⟩ | ⟨frame, frames, _, _, rfl⟩ := callOnExit_cases h
    · exact hw
    · exact hw
  makeWaitpipe s w c made w' hw h := by
    obtain ⟨_, rfl⟩ | ⟨r, wr, handle, _, hh, _, _, _, rfl⟩ := makeWaitpipe_cases h
    · exact hw
    · apply AllHandles.setHandle hw
      rintro _ ⟨⟩
      exact hrule.makePipe handle r wr (hw s handle hh)
  saveWaitpipe r wr w c u w' hw h := by
    unfold saveWaitpipe at h
    split at h
    · cases h
      exact hw
    · cases h
      exact hw
  clearWaitpipe s := by
    rintro w c r w' hw ⟨⟩
    exact hw.mapHandle s fun h hh => hrule.clearPipe h hh
  closeFd fd := by
    rintro w c r w' hw ⟨⟩
    exact hw
  pushContext := by
    rintro w c r w' hw ⟨⟩
    exact hw
  popContext := by
    rintro w c r w' hw ⟨⟩
    exact hw
  handleDestroy s w c r w' hw h := by
    have hgone : AllHandles ok (w.setHandle s none) := hw.setHandle fun h' hh' => by cases hh'
    unfold handleDestroy at h
    dsimp only at h
    split at h
    · cases h
      exact hgone
    · cases h
      exact hgone
  makeHandle cleanup cleanupGrace w c made w' hw h := by
    cases c with
    | ok =>
      cases h
      apply AllHandles.setHandle hw
      rintro _ ⟨⟩
      exact hrule.new cleanup cleanupGrace
    | _ =>
      cases h
      exact hw
  collectGarbage inUse w c dead w' hw h := by
    unfold collectGarbage at h
    split at h
    · split at h
      · cases h
      · cases h
        exact hw
    · cases h
  blockForFork := by
    rintro w c r w' hw ⟨⟩
    exact hw
  unblockAfterFailure := by
    rintro w c r w' hw ⟨⟩
    exact hw
  leaves w c left w' hw h := by
    unfold Processx.leaves at h
    cases c <;> cases h <;> exact hw
  fork s w c child w' hw h := by
    unfold fork at h
    split at h
    · split at h
      · cases h
        exact hw
      · cases h
    · cases h
      exact hw
    · cases h
  openPtyChild s pty w c r w' hw h := by
    unfold openPtyChild at h
    split at h
    next fd handle hh =>
      split at h
      · cases h
        apply AllHandles.setHandle hw
        rintro _ ⟨⟩
        exact hrule.setPty handle (some fd) (hw s handle hh)
      · cases h
    next =>
      cases h
      exact hw.mapHandle s fun h hh => hrule.setPty h none hh
  linkChild s pid := by
    rintro w c r w' hw ⟨⟩
    exact hw
  storePid s pid := by
    rintro w c r w' hw ⟨⟩
    exact hw.mapHandle s fun h hh => hrule.setPid h pid hh
  clearNodeStatus node := by
    rintro w c r w' hw ⟨⟩
    split
    · exact hw.setHandle fun h' hh' => by cases hh'
    · exact hw
  clearChildList := by
    rintro w c r w' hw ⟨⟩
    exact hw

end AllHandles

end Processx
