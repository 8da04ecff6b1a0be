import Processx.Unix.Handler

/-!
# What the actions change

Most actions only look, change the mask or note something down. For the others there is
one statement each that says what they do.
-/

namespace Processx

open Interruptible

/-- Events that change neither a process nor a descriptor. -/
def Event.isNote : Event → Bool
  | .poll .. => true
  | .unblocked => true
  | .freelistFreed => true
  | .startFailed => true
  | .waitSetupFailed _ => true
  | .waitEnded .. => true
  | .unloading _ => true
  | _ => false

/-- A step in which the processes, the handles, the child list, the descriptors and the
callbacks stay the same, and at most notes are recorded. -/
structure Notes (w w' : World) : Prop where
  procs : w'.procs = w.procs
  handles : w'.handles = w.handles
  sexps : w'.sexps = w.sexps
  childList : w'.childList = w.childList
  freeList : w'.freeList ⊆ w.freeList
  fds : w'.fds = w.fds
  waitPipes : w'.waitPipes = w.waitPipes
  callbacks : w'.callbacks = w.callbacks
  critical : w'.critical = w.critical
  log : ∃ notes, w'.log = notes ++ w.log ∧ ∀ e ∈ notes, e.isNote = true

/-- A step that records nothing. -/
theorem Notes.of_log {w w' : World} (hprocs : w'.procs = w.procs)
    (hhandles : w'.handles = w.handles)
    (hsexps : w'.sexps = w.sexps) (hlist : w'.childList = w.childList)
    (hfree : w'.freeList ⊆ w.freeList) (hfds : w'.fds = w.fds)
    (hpipes : w'.waitPipes = w.waitPipes) (hcallbacks : w'.callbacks = w.callbacks)
    (hcritical : w'.critical = w.critical) (hlog : w'.log = w.log) : Notes w w' :=
  ⟨hprocs, hhandles, hsexps, hlist, hfree, hfds, hpipes, hcallbacks, hcritical, [], hlog, nofun⟩

/-- No step at all. -/
theorem Notes.refl (w : World) : Notes w w := .of_log rfl rfl rfl rfl
    (List.Subset.refl _) rfl rfl rfl rfl rfl

/-- One such step after another. -/
theorem Notes.trans {w₁ w₂ w₃ : World} (h₁ : Notes w₁ w₂) (h₂ : Notes w₂ w₃) : Notes w₁ w₃ where
  procs := h₂.procs.trans h₁.procs
  handles := h₂.handles.trans h₁.handles
  sexps := h₂.sexps.trans h₁.sexps
  childList := h₂.childList.trans h₁.childList
  freeList := List.Subset.trans h₂.freeList h₁.freeList
  fds := h₂.fds.trans h₁.fds
  waitPipes := h₂.waitPipes.trans h₁.waitPipes
  callbacks := h₂.callbacks.trans h₁.callbacks
  critical := h₂.critical.trans h₁.critical
  log := by
    obtain ⟨notes₁, hlog₁, hnotes₁⟩ := h₁.log
    obtain ⟨notes₂, hlog₂, hnotes₂⟩ := h₂.log
    refine ⟨notes₂ ++ notes₁, by rw [hlog₂, hlog₁, List.append_assoc], fun e he => ?_⟩
    rcases List.mem_append.mp he with he | he
    · exact hnotes₂ e he
    · exact hnotes₁ e he

/-- Recording one note. -/
theorem Notes.record (w : World) {e : Event} (he : e.isNote = true) : Notes w (w.record e) where
  procs := rfl
  handles := rfl
  sexps := rfl
  childList := rfl
  freeList := List.Subset.refl _
  fds := rfl
  waitPipes := rfl
  callbacks := rfl
  critical := rfl
  log := ⟨[e], rfl, fun _ hmem => List.mem_singleton.mp hmem ▸ he⟩

/-- Setting the mask. -/
theorem notes_procmaskSet (w : World) (old : Bool) : Notes w (w.procmaskSet old) := by
  cases old with
  | true => exact .of_log rfl rfl rfl rfl (List.Subset.refl _) rfl rfl rfl rfl rfl
  | false =>
    have hmask : Notes w { w with blocked := false } := .of_log rfl rfl rfl rfl
      (List.Subset.refl _) rfl rfl rfl rfl rfl
    exact hmask.trans (.record { w with blocked := false } (e := .unblocked) rfl)

/-- An action whose steps are such. -/
def NoteAct {ρ : Type} (a : Act ρ) : Prop := ∀ w c r w', a w c = some (r, w') → Notes w w'

/-- Blocking the signal only notes that down. -/
theorem noteAct_blockSigchld : NoteAct blockSigchld := by
  rintro w c r w' ⟨⟩
  exact .of_log rfl rfl rfl rfl (List.Subset.refl _) rfl rfl rfl rfl rfl

/-- So does unblocking it. -/
theorem noteAct_unblockSigchld : NoteAct unblockSigchld := by
  rintro w c r w' ⟨⟩
  exact notes_procmaskSet w false

/-- So does a call that brings an old mask back. -/
theorem noteAct_procmaskSet (old : Bool) : NoteAct (procmaskSet old) := by
  rintro w c r w' ⟨⟩
  exact notes_procmaskSet w old

/-- So does installing the handler. -/
theorem noteAct_setupSigchld : NoteAct setupSigchld := by
  rintro w c r w' ⟨⟩
  exact .of_log rfl rfl rfl rfl (List.Subset.refl _) rfl rfl rfl rfl rfl

/-- So does taking it off. -/
theorem noteAct_removeSigchld : NoteAct removeSigchld := by
  rintro w c r w' ⟨⟩
  exact .of_log rfl rfl rfl rfl (List.Subset.refl _) rfl rfl rfl rfl rfl

/-- Reading a handle changes nothing. -/
theorem noteAct_readHandle (status : Sexp) : NoteAct (readHandle status) := by
  rintro w c r w' ⟨⟩
  exact .refl w

/-- Nor does reading its exit status. -/
theorem noteAct_readExitcode (status : Sexp) : NoteAct (readExitcode status) := by
  rintro w c r w' ⟨⟩
  exact .refl w

/-- A `poll()` notes its answer down. -/
theorem noteAct_poll (status : Sexp) (r wr pipe : ℕ) : NoteAct (poll status r wr pipe) := by
  intro w c r w' h
  cases c <;> cases h <;> exact .record w rfl

/-- A look for an interrupt changes nothing. -/
theorem noteAct_checkUserInterrupt : NoteAct checkUserInterrupt := by
  rintro w c r w' ⟨⟩
  exact .refl w

/-- The mask is brought back at the end of a wait. -/
theorem noteAct_restoreMask (old : Bool) (answer : PollAnswer) (pid : ℕ) :
    NoteAct (restoreMask old answer pid) := by
  rintro w c r w' ⟨⟩
  exact (notes_procmaskSet w old).trans (.record _ rfl)

/-- So it is when the wait pipe could not be made. -/
theorem noteAct_restoreAfterFailure (old : Bool) : NoteAct (restoreAfterFailure old) := by
  rintro w c r w' ⟨⟩
  exact (notes_procmaskSet w old).trans (.record _ rfl)

/-- The old nodes are freed, which is noted down. -/
theorem noteAct_freelistFree : NoteAct freelistFree := by
  rintro w c r w' ⟨⟩
  have hfreed : Notes w { w with freeList := [] } := .of_log rfl rfl rfl rfl
    (List.nil_subset _) rfl rfl rfl rfl rfl
  exact hfreed.trans (.record { w with freeList := [] } (e := .freelistFreed) rfl)

/-- A system call that succeeds or fails changes nothing here. -/
theorem noteAct_sysCall : NoteAct sysCall := by
  rintro w c r w' ⟨⟩
  exact .refl w

/-- Nor does a pseudo terminal. -/
theorem noteAct_openPty (pty : Bool) : NoteAct (openPty pty) := by
  rintro w c r w' ⟨⟩
  exact .refl w

/-- Nor does the message of the child. -/
theorem noteAct_readSignalPipe : NoteAct readSignalPipe := by
  intro w c r w' h
  cases c <;> cases h <;> exact .refl w

/-- Nor does the head of the child list. -/
theorem noteAct_readFirstChild : NoteAct readFirstChild := by
  rintro w c r w' ⟨⟩
  exact .refl w

/-- Nor does following it. -/
theorem noteAct_followNodes (first : Node) : NoteAct (followNodes first) := by
  rintro w c r w' ⟨⟩
  exact .record w rfl

/-- Nor does the handle of a node. -/
theorem noteAct_readNodeHandle (node : Node) : NoteAct (readNodeHandle node) := by
  rintro w c r w' ⟨⟩
  exact .refl w

/-- A waitpid asks once, or fails and changes nothing. -/
theorem waitpid_cases {site : WaitSite} {status : Sexp} {pid : ℕ} {w w' : World} {c : Choice}
    {wp : WaitResult} (h : waitpid site status pid w c = some (wp, w')) :
    (wp = .error ∧ w' = w) ∨ ∃ w₁, w.waitNohang pid = (wp, w₁) ∧
      w' = w₁.record (.waitpid site status pid (w.procs pid)) := by
  unfold waitpid at h
  cases c <;> cases h
  · exact Or.inr ⟨_, rfl, rfl⟩
  · exact Or.inl ⟨rfl, rfl⟩

/-- A blocking waitpid asks when the child has exited. -/
theorem waitpidBlocking_cases {site : WaitSite} {status : Sexp} {pid : ℕ} {w w' : World}
    {c : Choice} {wp : WaitResult} (h : waitpidBlocking site status pid w c = some (wp, w')) :
    w.procs pid ≠ .running ∧ ∃ w₁, w.waitNohang pid = (wp, w₁) ∧
      w' = w₁.record (.waitpid site status pid (w.procs pid)) := by
  unfold waitpidBlocking at h
  cases c with
  | ok =>
    dsimp only at h
    split at h
    · cases h
    next hrunning =>
      cases h
      exact ⟨hrunning, _, rfl, rfl⟩
  | _ => cases h

/-- A kill is recorded. -/
theorem kill_eq_record {site : KillSite} {status : Sexp} {target : ℤ} {sig : ℕ} {w w' : World}
    {c : Choice} {r : KillResult} (h : kill site status target sig w c = some (r, w')) :
    w' = w.record (.kill site status target sig (w.procs target.natAbs)) := by
  cases c <;> cases h <;> rfl

/-- A callback is registered in the current context, or the wait cannot be set up. -/
theorem callOnExit_cases {w w' : World} {c : Choice} {registered : Bool}
    (h : callOnExit w c = some (registered, w')) :
    (registered = false ∧ w' = w.record (.waitSetupFailed w.blocked)) ∨
    ∃ frame frames, registered = true ∧ w.callbacks = frame :: frames ∧
      w' = { w with callbacks := (none :: frame) :: frames } := by
  unfold callOnExit at h
  split at h
  next frame frames hcallbacks =>
    cases h
    exact Or.inr ⟨frame, frames, rfl, hcallbacks, rfl⟩
  next =>
    cases h
    exact Or.inl ⟨rfl, rfl⟩

/-- The world after `pipe()` has given a wait the descriptors `r` and `wr`. -/
def World.withWaitpipe (w : World) (status : Sexp) (h : Handle) (r wr : ℕ) : World :=
  { w.setHandle status (some { h with waitpipe0 := some r, waitpipe1 := some wr }) with
    fds := fun n =>
      if n = r then some (.waitRead w.waitPipes)
      else if n = wr then some (.waitWrite w.waitPipes)
      else w.fds n
    waitPipes := w.waitPipes + 1 }

/-- A pipe is made from two free descriptors, or not at all. -/
theorem makeWaitpipe_cases {status : Sexp} {w w' : World} {c : Choice}
    {made : Option (ℕ × ℕ × ℕ)} (h : makeWaitpipe status w c = some (made, w')) :
    (made = none ∧ w' = w) ∨ ∃ r wr handle, made = some (r, wr, w.waitPipes) ∧
      w.handles status = some handle ∧ w.fds r = none ∧ w.fds wr = none ∧ r ≠ wr ∧
      w' = w.withWaitpipe status handle r wr := by
  unfold makeWaitpipe at h
  split at h
  next r wr handle hh =>
    split at h
    next hfree =>
      obtain ⟨hmade, hw'⟩ := Prod.mk.inj (Option.some.inj h)
      exact Or.inr ⟨r, wr, handle, hmade.symm, hh, hfree.1, hfree.2.1, hfree.2.2, hw'.symm⟩
    next => cases h
  next =>
    obtain ⟨hmade, hw'⟩ := Prod.mk.inj (Option.some.inj h)
    exact Or.inl ⟨hmade.symm, hw'.symm⟩
  next => cases h

/-- The callback registered last gets its numbers. -/
theorem saveWaitpipe_eq {r wr : ℕ} {w w' : World} {c : Choice} {u : Unit}
    {exit : Option (ℕ × ℕ)} {frame : List (Option (ℕ × ℕ))} {frames : List (List (Option (ℕ × ℕ)))}
    (hcallbacks : w.callbacks = (exit :: frame) :: frames)
    (h : saveWaitpipe r wr w c = some (u, w')) :
    w' = { w with callbacks := (some (r, wr) :: frame) :: frames } := by
  unfold saveWaitpipe at h
  rw [hcallbacks] at h
  cases h
  rfl

/-- The polling of a wait. -/
theorem pollLoop_each {φ : ∀ {ρ : Type}, Act ρ → Prop} {status : Sexp} {pid : ℕ}
    (hnote : ∀ {ρ : Type} (a : Act ρ), NoteAct a → φ a) (hkill : φ (kill .waitCheck status pid 0))
    (r wr pipe : ℕ) (timeout : ℤ) (rounds : ℕ) (timeleft : ℤ) :
    (pollLoop status pid r wr pipe timeout rounds timeleft).Each φ := by
  have hpoll := hnote _ (noteAct_poll status r wr pipe)
  induction rounds generalizing timeleft with
  | zero => trivial
  | succ rounds ih =>
    rw [pollLoop]
    split
    · refine Prog.Each.step hpoll fun answer => ?_
      split
      · trivial
      · refine Prog.Each.step (hnote _ noteAct_checkUserInterrupt) fun interrupted => ?_
        cases interrupted with
        | true => trivial
        | false =>
          refine Prog.Each.step hkill fun alive => ?_
          dsimp only
          split
          · trivial
          · exact ih _
    · split
      · exact Prog.Each.lift hpoll
      · trivial

/-- The end of a wait. -/
theorem endWait_each {φ : ∀ {ρ : Type}, Act ρ → Prop} {status : Sexp}
    (hnote : ∀ {ρ : Type} (a : Act ρ), NoteAct a → φ a) (hclear : φ (clearWaitpipe status))
    (pid : ℕ) (old : Bool) (answer : PollAnswer) : (endWait status pid old answer).Each φ := by
  rw [endWait]
  split
  · trivial
  · refine .step hclear fun _ => ?_
    exact .step (hnote _ (noteAct_restoreMask old answer pid)) fun _ => trivial

/-- The end of the functions that block the signal. -/
theorem unblockAndReturn_each {φ : ∀ {ρ : Type}, Act ρ → Prop} {α : Type}
    (hnote : ∀ {ρ : Type} (a : Act ρ), NoteAct a → φ a) (result : α) :
    (unblockAndReturn result).Each φ := .step (hnote _ noteAct_unblockSigchld) fun _ => trivial

/-- Their error exit. -/
theorem unblockAndThrow_each {φ : ∀ {ρ : Type}, Act ρ → Prop} {α : Type}
    (hnote : ∀ {ρ : Type} (a : Act ρ), NoteAct a → φ a) (msg : String) :
    (unblockAndThrow msg : Call α).Each φ := .step (hnote _ noteAct_unblockSigchld) fun _ => trivial

section Each

variable {φ : ∀ {ρ : Type}, Act ρ → Prop} (hnote : ∀ {ρ : Type} (a : Act ρ), NoteAct a → φ a)

include hnote

/-- Asking whether a child is alive. -/
theorem processxIsAlive_each {s : Sexp} (hwait : ∀ pid, φ (waitpid .alive s pid))
    (hcollect : ∀ wp, φ (collectExitStatus s wp)) : (processxIsAlive s).Each φ := by
  have hreturn := fun result : Bool => unblockAndReturn_each hnote result
  refine .step (hnote _ noteAct_blockSigchld) fun _ => ?_
  refine .step (hnote _ (noteAct_readHandle s)) fun handle => ?_
  cases handle with
  | none => exact hreturn false
  | some h =>
    dsimp only
    split
    · exact hreturn false
    · refine .step (hwait h.pid) fun wp => ?_
      cases wp with
      | error => exact unblockAndThrow_each hnote _
      | none => exact hreturn true
      | exited stat => exact .step (hcollect _) fun _ => hreturn false
      | echild => exact .step (hcollect _) fun _ => hreturn false

/-- Asking for the exit status. -/
theorem processxGetExitStatus_each {s : Sexp} (hwait : ∀ pid, φ (waitpid .exitStatus s pid))
    (hcollect : ∀ wp, φ (collectExitStatus s wp)) : (processxGetExitStatus s).Each φ := by
  have hreturn := fun result : Option ℤ => unblockAndReturn_each hnote result
  have hstore : ∀ wp, (Prog.lift (collectExitStatus s wp) >>= fun _ =>
      Prog.lift (readExitcode s) >>= fun exitcode => unblockAndReturn (some exitcode) :
        Call (Option ℤ)).Each φ :=
    fun wp => .step (hcollect wp) fun _ =>
      .step (hnote _ (noteAct_readExitcode s)) fun exitcode => hreturn _
  refine .step (hnote _ noteAct_blockSigchld) fun _ => ?_
  refine .step (hnote _ (noteAct_readHandle s)) fun handle => ?_
  cases handle with
  | none => exact hreturn _
  | some h =>
    dsimp only
    split
    · exact hreturn _
    · refine .step (hwait h.pid) fun wp => ?_
      cases wp with
      | error => exact unblockAndThrow_each hnote _
      | none => exact hreturn none
      | exited stat => exact hstore _
      | echild => exact hstore _

/-- Sending a signal. -/
theorem processxSignal_each {s : Sexp} {sig : ℕ} (hkill : ∀ target, φ (kill .signal s target sig))
    (hwait : ∀ pid, φ (waitpid .signal s pid)) (hcollect : ∀ wp, φ (collectExitStatus s wp))
    (group : Bool) : (processxSignal s sig group).Each φ := by
  have hreturn := fun result : Bool => unblockAndReturn_each hnote result
  refine .step (hnote _ noteAct_blockSigchld) fun _ => ?_
  refine .step (hnote _ (noteAct_readHandle s)) fun handle => ?_
  cases handle with
  | none => exact hreturn false
  | some h =>
    dsimp only
    split
    · exact hreturn false
    · refine .step (hkill _) fun ret => ?_
      split
      · exact unblockAndThrow_each hnote _
      · refine .step (hwait h.pid) fun wp => ?_
        cases wp with
        | error => exact unblockAndThrow_each hnote _
        | echild => exact .step (hcollect _) fun _ => hreturn _
        | none => exact hreturn _
        | exited stat => exact hreturn _

/-- Unloading the package. -/
theorem unloadCleanup_each (hkill : ∀ s target, φ (kill .unload s target 9))
    (hwait : ∀ s pid, φ (waitpidBlocking .unload s pid)) (hclear : ∀ node, φ (clearNodeStatus node))
    (hlist : φ clearChildList) : unloadCleanup.Each φ := by
  have hnodes : ∀ nodes, (unloadNodes nodes).Each φ := by
    intro nodes
    induction nodes with
    | nil => trivial
    | cons node nodes ih =>
      have hrest : (Prog.lift (clearNodeStatus node) >>= fun _ => unloadNodes nodes :
          Call Unit).Each φ := .step (hclear node) fun _ => ih
      refine .step (hnote _ (noteAct_readNodeHandle node)) fun handle => ?_
      cases handle with
      | none => exact hrest
      | some h =>
        dsimp only
        split
        · exact .step (hkill _ _) fun _ => .step (hwait _ _) fun _ => hrest
        · exact hrest
  refine .step (hnote _ noteAct_readFirstChild) fun first => ?_
  refine .step (hnote _ noteAct_removeSigchld) fun _ => .bind ?_ fun _ => ?_
  · cases first with
    | none => trivial
    | some first =>
      exact .step (hnote _ (noteAct_followNodes first)) fun nodes => hnodes nodes
  · exact .step hlist fun _ => .lift (hnote _ noteAct_freelistFree)

end Each

/-- A property of all the actions that a finalizer consists of. -/
structure Allows (φ : ∀ {ρ : Type}, Act ρ → Prop) : Prop where
  note : ∀ {ρ : Type} (a : Act ρ), NoteAct a → φ a
  kill : ∀ site s target sig, φ (kill site s target sig)
  waitpid : ∀ site s pid, φ (waitpid site s pid)
  waitpidBlocking : ∀ site s pid, φ (waitpidBlocking site s pid)
  collectExitStatus : ∀ s wp, φ (collectExitStatus s wp)
  callOnExit : φ callOnExit
  makeWaitpipe : ∀ s, φ (makeWaitpipe s)
  saveWaitpipe : ∀ r wr, φ (saveWaitpipe r wr)
  clearWaitpipe : ∀ s, φ (clearWaitpipe s)
  closeFd : ∀ fd, φ (closeFd fd)
  pushContext : φ pushContext
  popContext : φ popContext
  handleDestroy : ∀ s, φ (handleDestroy s)

section Finalizers

variable {φ : ∀ {ρ : Type}, Act ρ → Prop} {α : Type} (hφ : Allows φ)

include hφ

/-- A property of the actions of a wait is one of the wait. -/
theorem cProcessxWait_each (rounds : ℕ) (s : Sexp) (timeout : ℤ) :
    (cProcessxWait rounds s timeout).Each φ := by
  have hstop : ∀ {a : Act Unit} {p : Call Bool}, NoteAct a → p.Each φ →
      (Prog.lift a >>= fun _ => p).Each φ := fun ha hp => .step (hφ.note _ ha) fun _ => hp
  refine .step hφ.callOnExit fun registered => ?_
  cases registered with
  | false => trivial
  | true =>
    refine .step (hφ.note _ noteAct_blockSigchld) fun old => ?_
    refine .step (hφ.note _ (noteAct_readHandle s)) fun handle => ?_
    cases handle with
    | none => exact hstop (noteAct_procmaskSet old) trivial
    | some h =>
      dsimp only
      split
      · exact hstop (noteAct_procmaskSet old) trivial
      · refine .step (hφ.note _ noteAct_setupSigchld) fun _ => ?_
        refine .step (hφ.note _ noteAct_blockSigchld) fun _ => ?_
        refine .step (hφ.makeWaitpipe s) fun made => ?_
        cases made with
        | none => exact hstop (noteAct_restoreAfterFailure old) trivial
        | some ends =>
          obtain ⟨r, wr, pipe⟩ := ends
          refine .step (hφ.saveWaitpipe r wr) fun _ => ?_
          refine .step (hφ.note _ noteAct_unblockSigchld) fun _ => .bind ?_ fun answer => ?_
          · exact pollLoop_each hφ.note (hφ.kill _ _ _ _) r wr pipe timeout rounds timeout
          · exact endWait_each hφ.note (hφ.clearWaitpipe s) h.pid old answer

/-- The same for `c_processx_kill()`. -/
theorem cProcessxKill_each (rounds : ℕ) (s : Sexp) (graceMs : ℤ) :
    (cProcessxKill rounds s graceMs).Each φ := by
  have hreturn := fun result : Bool => unblockAndReturn_each hφ.note result
  have hwith : ∀ {pid sig : ℕ} {next : Call Bool}, next.Each φ →
      (killWith s pid sig next).Each φ := by
    intro pid sig next hnext
    refine .step (hφ.kill _ _ _ _) fun ret => ?_
    cases ret with
    | gone => exact hreturn false
    | error => exact unblockAndThrow_each hφ.note _
    | ok => exact hnext
  have hread : ∀ f : ℤ → Bool, (Prog.lift (readExitcode s) >>= fun exitcode =>
      unblockAndReturn (f exitcode) : Call Bool).Each φ :=
    fun f => .step (hφ.note _ (noteAct_readExitcode s)) fun exitcode => hreturn _
  have hhard : ∀ pid, (killHard s pid).Each φ :=
    fun pid => hwith (.step (hφ.waitpidBlocking _ _ _) fun wp =>
      .step (hφ.collectExitStatus s wp) fun _ => hread _)
  refine .step (hφ.note _ noteAct_blockSigchld) fun _ => ?_
  refine .step (hφ.note _ (noteAct_readHandle s)) fun handle => ?_
  cases handle with
  | none => exact hreturn false
  | some h =>
    dsimp only
    split
    · exact hreturn false
    · refine .step (hφ.waitpid _ _ _) fun wp => ?_
      cases wp with
      | echild => exact .step (hφ.collectExitStatus _ _) fun _ => hreturn false
      | error => exact unblockAndThrow_each hφ.note _
      | exited stat => exact hreturn false
      | none =>
        dsimp only
        split
        · refine hwith (.bind (cProcessxWait_each hφ rounds s graceMs) fun finished => ?_)
          cases finished with
          | true => exact hread _
          | false => exact hhard h.pid
        · exact hhard h.pid

/-- The same for the exits of a context. -/
theorem callExits_each (exits : List (Option (ℕ × ℕ))) : (callExits exits).Each φ := by
  induction exits with
  | nil => trivial
  | cons exit exits ih =>
    cases exit with
    | none => exact ih
    | some ends =>
      obtain ⟨r, wr⟩ := ends
      exact .step (hφ.closeFd r) fun _ => .step (hφ.closeFd wr) fun _ => ih

/-- The same for a context, if the body has the property. -/
theorem withCleanupContext_each {body : Call α} (hbody : body.Each φ) :
    (withCleanupContext body).Each φ := by
  refine .step hφ.pushContext fun _ => ?_
  refine .bind hbody.attempt fun result => ?_
  refine .step hφ.popContext fun exits => ?_
  refine .bind (callExits_each hφ exits) fun _ => ?_
  cases result <;> trivial

/-- The same for the finalizer of a handle. -/
theorem finalizer_each (rounds : ℕ) (s : Sexp) : (finalizer rounds s).Each φ := by
  refine .step (hφ.note _ (noteAct_readHandle s)) fun handle => ?_
  refine .step (hφ.note _ noteAct_blockSigchld) fun _ => ?_
  refine .step (hφ.note _ noteAct_freelistFree) fun _ => ?_
  refine .step (hφ.note _ noteAct_unblockSigchld) fun _ => ?_
  cases handle with
  | none => trivial
  | some h =>
    dsimp only
    split
    · exact .bind (withCleanupContext_each hφ (cProcessxKill_each hφ rounds s _))
        fun _ => .lift (hφ.handleDestroy s)
    · exact .lift (hφ.handleDestroy s)

/-- The same for some finalizers. -/
theorem runFinalizers_each (rounds : ℕ) (statuses : List Sexp) :
    (runFinalizers rounds statuses).Each φ := by
  induction statuses with
  | nil => trivial
  | cons s statuses ih => exact .bind (finalizer_each hφ rounds s).attempt fun _ => ih

end Finalizers

end Processx
