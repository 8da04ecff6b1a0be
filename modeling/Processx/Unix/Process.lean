import Processx.Unix.ChildInit
import Processx.Unix.World

/-!
# Starting, watching and ending a process

`processx.c`, `childlist.c` and the mask functions of `sigchld.c`. Every function is a
program of atomic actions, with the system calls and the reads of shared state in the
order of the source. A system call that is restarted after `EINTR` is one action, and so
is everything between two actions that does not look at shared state.
-/

namespace Processx

open Interruptible

/-- How an action comes out: as it should, with an error (`ESRCH` and `EPERM` are the two
that `kill()` callers look at), or with the numbers the system hands out. -/
inductive Choice
  | ok
  | fail
  | esrch
  | eperm
  | errno
  | epipe
  | fds (r w : ℕ)
  | pid (n : ℕ)
  | pty (fd : ℕ)
  | dead (statuses : List Sexp)
  deriving DecidableEq

/-- Programs of the package. What they throw is a message. -/
abbrev Call (α : Type) := Prog World Choice String α

/-- Actions on the world. -/
abbrev Act (ρ : Type) := Action World Choice ρ

/-- `PROCESSX_INTERRUPT_INTERVAL` -/
def interruptInterval : ℤ := 200

/-- `processx__block_sigchld_save()`. The answer is the old mask. -/
def blockSigchld : Act Bool := fun w _ => some (w.blocked, { w with blocked := true })

/-- `processx__unblock_sigchld()`. -/
def unblockSigchld : Act Unit := fun w _ =>
  some ((), { w with blocked := false, log := .unblocked :: w.log })

/-- The mask that `processx__procmask_set()` leaves. -/
def World.procmaskSet (w : World) (old : Bool) : World :=
  if old then { w with blocked := true }
  else { w with blocked := false, log := .unblocked :: w.log }

/-- `processx__procmask_set()`. -/
def procmaskSet (old : Bool) : Act Unit := fun w _ => some ((), w.procmaskSet old)

/-- `processx__setup_sigchld()`. -/
def setupSigchld : Act Unit := fun w _ => some ((), { w with installed := true })

/-- `processx__remove_sigchld()`. -/
def removeSigchld : Act Unit := fun w _ => some ((), { w with installed := false })

/-- `R_ExternalPtrAddr()` and the fields of the handle. -/
def readHandle (status : Sexp) : Act (Option Handle) := fun w _ => some (w.handles status, w)

/-- `waitpid(pid, &wstat, WNOHANG)`. -/
def waitpid (site : WaitSite) (status : Sexp) (pid : ℕ) : Act WaitResult := fun w c =>
  let (result, w') := w.waitNohang pid
  match c with
  | .ok => some (result, w'.record (.waitpid site status pid (w.procs pid)))
  | .fail => some (.error, w)
  | _ => none

/-- `waitpid(pid, &wstat, 0)`, which returns once the child has exited. -/
def waitpidBlocking (site : WaitSite) (status : Sexp) (pid : ℕ) : Act WaitResult := fun w c =>
  let (result, w') := w.waitNohang pid
  match c with
  | .ok =>
    if w.procs pid = .running then none
    else some (result, w'.record (.waitpid site status pid (w.procs pid)))
  | _ => none

/-- `processx__collect_exit_status()`. -/
def collectExitStatus (status : Sexp) (wp : WaitResult) : Act Unit := fun w _ =>
  some ((), w.collectExitStatus status wp)

/-- What `kill()` answers. -/
inductive KillResult
  | ok
  | gone
  | error
  deriving DecidableEq

/-- `kill()`. A negative target is a process group. -/
def kill (site : KillSite) (status : Sexp) (target : ℤ) (sig : ℕ) : Act KillResult := fun w c =>
  let w' := w.record (.kill site status target sig (w.procs target.natAbs))
  match c with
  | .ok => some (.ok, w')
  | .esrch | .eperm => some (.gone, w')
  | .fail => some (.error, w')
  | _ => none

/-- `malloc()` for the two descriptors and `r_call_on_exit()`. -/
def callOnExit : Act Bool := fun w c =>
  match c, w.callbacks with
  | .ok, frame :: frames => some (true, { w with callbacks := (none :: frame) :: frames })
  | _, _ => some (false, w.record (.waitSetupFailed w.blocked))

/-- `pipe(handle->waitpipe)`. The third number identifies the pipe. -/
def makeWaitpipe (status : Sexp) : Act (Option (ℕ × ℕ × ℕ)) := fun w c =>
  match c, w.handles status with
  | .fds r wr, some h =>
    if w.fds r = none ∧ w.fds wr = none ∧ r ≠ wr then
      some (some (r, wr, w.waitPipes),
        { w.setHandle status (some { h with waitpipe0 := some r, waitpipe1 := some wr }) with
          fds := fun n =>
            if n = r then some (.waitRead w.waitPipes)
            else if n = wr then some (.waitWrite w.waitPipes)
            else w.fds n
          waitPipes := w.waitPipes + 1 })
    else none
  | .fail, _ => some (none, w)
  | _, _ => none

/-- The mask is restored because the pipe could not be made. -/
def restoreAfterFailure (old : Bool) : Act Unit := fun w _ =>
  some ((), (w.procmaskSet old).record (.waitSetupFailed old))

/-- `fds[0] = handle->waitpipe[0]; fds[1] = handle->waitpipe[1]`. -/
def saveWaitpipe (r wr : ℕ) : Act Unit := fun w _ =>
  match w.callbacks with
  | (_ :: frame) :: frames =>
    some ((), { w with callbacks := (some (r, wr) :: frame) :: frames })
  | _ => some ((), w)

/-- `poll()` on the read end `r` of the pipe. It answers at once if the write end `wr` is
closed, and else when the time is up. -/
def poll (status : Sexp) (r wr pipe : ℕ) : Act PollAnswer := fun w c =>
  let hungup := w.fds wr ≠ some (.waitWrite pipe)
  let collected := ((w.handles status).map Handle.collected).getD false
  let answer := if hungup ∨ w.fds r ≠ some (.waitRead pipe) then .ready else .timeout
  match c with
  | .ok => some (answer, w.record (.poll status collected hungup answer))
  | .fail => some (.error, w.record (.poll status collected hungup .error))
  | _ => none

/-- `R_CheckUserInterrupt()`: has the user interrupted? -/
def checkUserInterrupt : Act Bool := fun w c => some (decide (c = .fail), w)

/-- `handle->waitpipe[0] = -1; handle->waitpipe[1] = -1`. -/
def clearWaitpipe (status : Sexp) : Act Unit := fun w _ =>
  some ((), w.setHandle status
    ((w.handles status).map fun h => { h with waitpipe0 := none, waitpipe1 := none }))

/-- The mask is restored at the end of a wait. -/
def restoreMask (old : Bool) (answer : PollAnswer) (pid : ℕ) : Act Unit := fun w _ =>
  some ((), (w.procmaskSet old).record (.waitEnded old answer pid (w.procs pid)))

/-- The loop of `c_processx_wait()` and the poll behind it. The bound counts rounds;
a wait that has used them up is still running. -/
def pollLoop (status : Sexp) (pid r wr pipe : ℕ) (timeout : ℤ) : ℕ → ℤ → Call PollAnswer
  | 0, _ => .spin
  | rounds + 1, timeleft =>
    if timeout < 0 ∨ timeleft > interruptInterval then do
      let answer ← Prog.lift (poll status r wr pipe)
      if answer ≠ .timeout then .ret answer
      else
        let interrupted ← Prog.lift checkUserInterrupt
        if interrupted then .throw "interrupt"
        else
          let alive ← Prog.lift (kill .waitCheck status pid 0)
          let timeleft := if timeout ≥ 0 then timeleft - interruptInterval else timeleft
          if alive ≠ .ok then .ret .ready
          else pollLoop status pid r wr pipe timeout rounds timeleft
    else if timeleft ≥ 0 then Prog.lift (poll status r wr pipe)
    else .ret .timeout

/-- The part of `c_processx_wait()` behind the polling. -/
def endWait (status : Sexp) (pid : ℕ) (old : Bool) (answer : PollAnswer) : Call Bool :=
  if answer = .error then .throw "processx wait with timeout error while waiting"
  else do
    Prog.lift (clearWaitpipe status)
    Prog.lift (restoreMask old answer pid)
    .ret (decide (answer ≠ .timeout))

/-- `c_processx_wait()`. -/
def cProcessxWait (rounds : ℕ) (status : Sexp) (timeout : ℤ) : Call Bool := do
  let registered ← Prog.lift callOnExit
  if !registered then .throw "Allocating memory when waiting"
  else
    let old ← Prog.lift blockSigchld
    let handle ← Prog.lift (readHandle status)
    match handle with
    | none => do
      Prog.lift (procmaskSet old)
      .ret true
    | some h =>
      if h.collected then do
        Prog.lift (procmaskSet old)
        .ret true
      else do
        Prog.lift setupSigchld
        let _ ← Prog.lift blockSigchld
        let made ← Prog.lift (makeWaitpipe status)
        match made with
        | none => do
          Prog.lift (restoreAfterFailure old)
          .throw "processx error when waiting"
        | some (r, wr, pipe) => do
          Prog.lift (saveWaitpipe r wr)
          Prog.lift unblockSigchld
          let answer ← pollLoop status h.pid r wr pipe timeout rounds timeout
          endWait status h.pid old answer

/-- `close()` on a descriptor of a wait. -/
def closeFd (fd : ℕ) : Act Unit := fun w _ => some ((), w.close .waitCleanup fd)

/-- `processx__wait_cleanup()`. -/
def waitCleanup : Option (ℕ × ℕ) → Call Unit
  | none => .ret ()
  | some (r, wr) => do
    Prog.lift (closeFd r)
    Prog.lift (closeFd wr)

/-- The callbacks of one context. -/
def callExits : List (Option (ℕ × ℕ)) → Call Unit
  | [] => .ret ()
  | fds :: rest => do
    waitCleanup fds
    callExits rest

/-- Begin a context. -/
def pushContext : Act Unit := fun w _ => some ((), { w with callbacks := [] :: w.callbacks })

/-- End a context: the answer is its callbacks. -/
def popContext : Act (List (Option (ℕ × ℕ))) := fun w _ =>
  some (w.callbacks.headD [], { w with callbacks := w.callbacks.tail })

/-- `r_with_cleanup_context()`. -/
def withCleanupContext {α : Type} (body : Call α) : Call α := do
  Prog.lift pushContext
  let result ← body.attempt
  let exits ← Prog.lift popContext
  callExits exits
  Prog.ofExcept result

/-- `processx_wait()`. -/
def processxWait (rounds : ℕ) (status : Sexp) (timeout : ℤ) : Call Bool :=
  withCleanupContext (cProcessxWait rounds status timeout)

/-- The end of the functions that block the signal: unblock it and return. -/
def unblockAndReturn {α : Type} (result : α) : Call α := do
  Prog.lift unblockSigchld
  .ret result

/-- The error exit of these functions. -/
def unblockAndThrow {α : Type} (msg : String) : Call α := do
  Prog.lift unblockSigchld
  .throw msg

/-- `processx_is_alive()`. -/
def processxIsAlive (status : Sexp) : Call Bool := do
  let _ ← Prog.lift blockSigchld
  let handle ← Prog.lift (readHandle status)
  match handle with
  | none => unblockAndReturn false
  | some h =>
    if h.collected then unblockAndReturn false
    else do
      let wp ← Prog.lift (waitpid .alive status h.pid)
      match wp with
      | .error => unblockAndThrow "processx_is_alive"
      | .none => unblockAndReturn true
      | wp => do
        Prog.lift (collectExitStatus status wp)
        unblockAndReturn false

/-- `handle->exitcode` -/
def readExitcode (status : Sexp) : Act ℤ := fun w _ =>
  some (((w.handles status).map Handle.exitcode).getD naInteger, w)

/-- `processx_get_exit_status()`. The answer is `none` for `NULL`. -/
def processxGetExitStatus (status : Sexp) : Call (Option ℤ) := do
  let _ ← Prog.lift blockSigchld
  let handle ← Prog.lift (readHandle status)
  match handle with
  | none => unblockAndReturn (some naInteger)
  | some h =>
    if h.collected then unblockAndReturn (some h.exitcode)
    else do
      let wp ← Prog.lift (waitpid .exitStatus status h.pid)
      match wp with
      | .error => unblockAndThrow "processx_get_exit_status error"
      | .none => unblockAndReturn none
      | wp => do
        Prog.lift (collectExitStatus status wp)
        let exitcode ← Prog.lift (readExitcode status)
        unblockAndReturn (some exitcode)

/-- `processx_signal()`. -/
def processxSignal (status : Sexp) (sig : ℕ) (group : Bool) : Call Bool := do
  let _ ← Prog.lift blockSigchld
  let handle ← Prog.lift (readHandle status)
  match handle with
  | none => unblockAndReturn false
  | some h =>
    if h.collected then unblockAndReturn false
    else do
      let ret ← Prog.lift (kill .signal status (if group then -h.pid else h.pid) sig)
      if ret = .error then unblockAndThrow "processx_signal"
      else do
        let wp ← Prog.lift (waitpid .signal status h.pid)
        match wp with
        | .echild => do
          Prog.lift (collectExitStatus status wp)
          unblockAndReturn (decide (ret = .ok))
        | .error => unblockAndThrow "processx_signal"
        -- a status that `waitpid()` returned is not stored
        | .none | .exited _ => unblockAndReturn (decide (ret = .ok))

/-- `KILL_WITH(SIG)`: go on after the signal was sent. -/
def killWith (status : Sexp) (pid sig : ℕ) (next : Call Bool) : Call Bool := do
  let ret ← Prog.lift (kill .kill status (-pid) sig)
  match ret with
  | .gone => unblockAndReturn false
  | .error => unblockAndThrow "process_kill"
  | .ok => next

/-- The part of `c_processx_kill()` that makes an end of the child. -/
def killHard (status : Sexp) (pid : ℕ) : Call Bool :=
  killWith status pid 9 do
    let wp ← Prog.lift (waitpidBlocking .killReap status pid)
    Prog.lift (collectExitStatus status wp)
    let exitcode ← Prog.lift (readExitcode status)
    unblockAndReturn (decide (exitcode = -9))

/-- The part of `c_processx_kill()` that asks the child to end. -/
def killGracefully (rounds : ℕ) (status : Sexp) (pid : ℕ) (graceMs : ℤ) : Call Bool :=
  killWith status pid 15 do
    let finished ← cProcessxWait rounds status graceMs
    if finished then do
      let exitcode ← Prog.lift (readExitcode status)
      unblockAndReturn (decide (exitcode = -15))
    else killHard status pid

/-- `c_processx_kill()`, with the grace period in milliseconds. -/
def cProcessxKill (rounds : ℕ) (status : Sexp) (graceMs : ℤ) : Call Bool := do
  let _ ← Prog.lift blockSigchld
  let handle ← Prog.lift (readHandle status)
  match handle with
  | none => unblockAndReturn false
  | some h =>
    if h.collected then unblockAndReturn false
    else do
      let wp ← Prog.lift (waitpid .killCheck status h.pid)
      match wp with
      | .echild => do
        Prog.lift (collectExitStatus status wp)
        unblockAndReturn false
      | .error => unblockAndThrow "processx_kill"
      -- the child is not running, but its status is not stored
      | .exited _ => unblockAndReturn false
      | .none =>
        if graceMs ≠ 0 then killGracefully rounds status h.pid graceMs
        else killHard status h.pid

/-- `processx_kill()`. -/
def processxKill (rounds : ℕ) (status : Sexp) (graceMs : ℤ) : Call Bool :=
  withCleanupContext (cProcessxKill rounds status graceMs)

/-- `processx__freelist_free()`. -/
def freelistFree : Act Unit := fun w _ =>
  some ((), { w with freeList := [], log := .freelistFreed :: w.log })

/-- `R_ClearExternalPtr()` and `processx__handle_destroy()`. -/
def handleDestroy (status : Sexp) : Act Unit := fun w _ =>
  let ptyChildFd := (w.handles status).bind Handle.ptyChildFd
  let w := w.setHandle status none
  match ptyChildFd with
  | none => some ((), w)
  | some fd => some ((), w.close .pty fd)

/-- `processx__finalizer()`. -/
def finalizer (rounds : ℕ) (status : Sexp) : Call Unit := do
  let handle ← Prog.lift (readHandle status)
  let _ ← Prog.lift blockSigchld
  Prog.lift freelistFree
  Prog.lift unblockSigchld
  match handle with
  | none => .ret ()
  | some h =>
    if h.cleanup then do
      let _ ← withCleanupContext (cProcessxKill rounds status h.cleanupGrace)
      Prog.lift (handleDestroy status)
    else Prog.lift (handleDestroy status)

/-- A garbage collection clears the weak references to objects that are not in use any
more, other than `inUse`. -/
def collectGarbage (inUse : Option Sexp) : Act (List Sexp) := fun w c =>
  match c with
  | .dead statuses =>
    if inUse.any (statuses.contains ·) then none
    else some (statuses, { w with
      childList := w.childList.map fun node =>
        { node with keyAlive := node.keyAlive && !statuses.contains node.status }
      log := .finalizers w.critical statuses :: w.log })
  | _ => none

/-- R runs the finalizers one by one, and catches what they throw. -/
def runFinalizers (rounds : ℕ) : List Sexp → Call Unit
  | [] => .ret ()
  | status :: statuses => do
    let _ ← (finalizer rounds status).attempt
    runFinalizers rounds statuses

/-- A point where R may collect garbage. -/
def gcPoint (rounds : ℕ) (inUse : Option Sexp) : Call Unit := do
  let dead ← Prog.lift (collectGarbage inUse)
  runFinalizers rounds dead

/-- A step that either works or makes the caller throw. -/
def sysCall : Act Bool := fun w c => some (decide (c = .ok), w)

/-- `processx__pty_main_open()`, if a pty is asked for. -/
def openPty (pty : Bool) : Act Bool := fun w c => some (!pty || decide (c = .ok), w)

/-- The handle that `processx__make_handle()` fills with zeros: `pty_child_fd` is 0 until the child
is forked. -/
def newHandle (cleanup : Bool) (cleanupGrace : ℤ) : Handle :=
  { cleanup := cleanup, cleanupGrace := cleanupGrace, ptyChildFd := some 0 }

/-- `processx__make_handle()`. The new object is the next number. -/
def makeHandle (cleanup : Bool) (cleanupGrace : ℤ) : Act (Option Sexp) := fun w c =>
  match c with
  | .ok => some (some w.sexps, { w.setHandle w.sexps
      (some (newHandle cleanup cleanupGrace)) with sexps := w.sexps + 1 })
  | _ => some (none, w)

/-- `processx__block_sigchld()` before the fork. -/
def blockForFork : Act Unit := fun w _ => some ((), { w with blocked := true, critical := true })

/-- `processx__unblock_sigchld()` when the child could not be started. -/
def unblockAfterFailure : Act Unit := fun w _ =>
  some ((), { w with
    blocked := false
    critical := false
    log := .startFailed :: .unblocked :: w.log })

/-- Does R throw in the critical section: for a warning, with `options(warn = 2)`, or for memory that
it cannot allocate? The section is left as it is. -/
def leaves : Act Bool := fun w c =>
  match c with
  | .ok => some (false, w)
  | _ => some (true, { w with critical := false })

/-- `fork()`, in the parent. -/
def fork (status : Sexp) : Act (Option ℕ) := fun w c =>
  match c with
  | .pid n =>
    if 1 < n ∧ w.procs n = .absent then
      some (some n, (w.setProc n .running).record (.forked status n))
    else none
  | .fail => some (none, w)
  | _ => none

/-- `handle->pty_child_fd = -1`, and `open(pty_name, O_RDWR | O_NOCTTY)` if there is a pty. -/
def openPtyChild (status : Sexp) (pty : Bool) : Act Unit := fun w c =>
  match c, w.handles status with
  | .pty fd, some h =>
    if pty = true ∧ w.fds fd = none then
      some ((), { w.setHandle status (some { h with ptyChildFd := some fd }) with
        fds := fun n => if n = fd then some .other else w.fds n })
    else none
  | _, h => some ((), w.setHandle status (h.map fun h => { h with ptyChildFd := none }))

/-- The end of `processx__child_add()`: the child is in the list. -/
def linkChild (status : Sexp) (pid : ℕ) : Act Unit := fun w _ =>
  some ((), { w with
    childList := { pid := pid, status := status } :: w.childList
    critical := false
    log := .linked status pid :: w.log })

/-- What reading the signal pipe gives: the end of the file, an error number from the
child, `EPIPE`, or anything else. -/
inductive SignalPipe
  | eof
  | errno
  | epipe
  | other
  deriving DecidableEq

/-- `read(signal_pipe[0], …)`. -/
def readSignalPipe : Act SignalPipe := fun w c =>
  match c with
  | .ok => some (.eof, w)
  | .errno => some (.errno, w)
  | .epipe => some (.epipe, w)
  | .fail => some (.other, w)
  | _ => none

/-- `handle->pid = pid`. -/
def storePid (status : Sexp) (pid : ℕ) : Act Unit := fun w _ =>
  some ((), (w.setHandle status ((w.handles status).map fun h => { h with pid := pid })).record
    (.stored status pid))

/-- `processx__make_socketpair()` for every `"|"` of the connections. -/
def makeSocketpairs : List Output → Call Unit
  | [] => .ret ()
  | output :: outputs =>
    if output = .str "|" then do
      let ok ← Prog.lift sysCall
      if !ok then .throw "processx socketpair" else makeSocketpairs outputs
    else makeSocketpairs outputs

/-- The part of `processx_exec()` behind the start of the child. -/
def finishExec (rounds : ℕ) (status : Sexp) (pid : ℕ) (started : Bool) : Call Sexp := do
  gcPoint rounds (some status)
  let ok ← Prog.lift sysCall
  if !ok then .throw "cannot create connection, out of memory"
  else if started then do
    Prog.lift (storePid status pid)
    .ret status
  else .throw "cannot start processx process"

/-- The part of `processx_exec()` behind the critical section. -/
def awaitExec (rounds : ℕ) (status : Sexp) (pid : ℕ) : Call Sexp := do
  let r ← Prog.lift readSignalPipe
  match r with
  | .eof => finishExec rounds status pid true
  | .errno => do
    let _ ← Prog.lift (waitpidBlocking .exec status pid)
    finishExec rounds status pid false
  | .epipe => do
    let _ ← Prog.lift (waitpidBlocking .exec status pid)
    finishExec rounds status pid true
  | .other => .throw "Child process failed to start"

/-- The end of the critical section, with `processx__child_add()`. -/
def linkAndAwait (rounds : ℕ) (status : Sexp) (pid : ℕ) : Call Sexp := do
  -- R_MakeWeakRefC() and R_PreserveObject()
  gcPoint rounds (some status)
  let left ← Prog.lift leaves
  if left then .throw "cannot allocate memory"
  else do
    Prog.lift (linkChild status pid)
    Prog.lift unblockSigchld
    awaitExec rounds status pid

/-- The critical section of `processx_exec()` after the fork. -/
def addChild (rounds : ℕ) (status : Sexp) (pid : ℕ) (pty : Bool) : Call Sexp := do
  -- processx__create_time(): R_alloc(), and a warning if the file cannot be read
  gcPoint rounds (some status)
  let left ← Prog.lift leaves
  if left then .throw "Cannot parse stat file, cannot read file"
  else do
    Prog.lift (openPtyChild status pty)
    let ok ← Prog.lift sysCall
    if !ok then do
      Prog.lift unblockAfterFailure
      .throw "Cannot create child process, out of memory"
    else linkAndAwait rounds status pid

/-- `processx_exec()` from the handle on. -/
def startChild (rounds : ℕ) (status : Sexp) (connections : List Output) (pty : Bool) :
    Call Sexp := do
  gcPoint rounds (some status)
  let ok ← Prog.lift (openPty pty)
  if !ok then .throw "Cannot open pty when running"
  else do
    makeSocketpairs connections
    Prog.lift blockForFork
    let child ← Prog.lift (fork status)
    match child with
    | none => do
      Prog.lift unblockAfterFailure
      .throw "Cannot fork when running"
    | some pid => addChild rounds status pid pty

/-- `processx_exec()`. -/
def processxExec (rounds : ℕ) (connections : List Output) (pty cleanup : Bool)
    (cleanupGrace : ℤ) : Call Sexp := do
  gcPoint rounds none
  let ok ← Prog.lift sysCall
  if !ok then .throw "Cannot create pipe when running"
  else do
    Prog.lift setupSigchld
    let handle ← Prog.lift (makeHandle cleanup cleanupGrace)
    match handle with
    | none => .throw "Cannot make processx handle, out of memory"
    | some status => startChild rounds status connections pty

/-- `ptr = child_list->next` -/
def readFirstChild : Act (Option Node) := fun w _ => some (w.childList.head?, w)

/-- Is a node one that the loop below kills for, although its child has been reaped? -/
def World.isStale (w : World) (node : Node) : Bool :=
  (w.nodeHandle node).any Handle.cleanup && (w.procs node.pid).isReaped

/-- The nodes from `first` on, which the handler may have moved to the free list. -/
def followNodes (first : Node) : Act (List Node) := fun w _ =>
  let nodes := if first ∈ w.childList then w.childList.dropWhile (· ≠ first)
    else w.freeList.dropWhile (· ≠ first)
  some (nodes, w.record (.unloading ((nodes.filter w.isStale).map Node.pid)))

/-- `R_ExternalPtrAddr(R_WeakRefKey(ptr->weak_status))` -/
def readNodeHandle (node : Node) : Act (Option Handle) := fun w _ => some (w.nodeHandle node, w)

/-- `R_ClearExternalPtr(status)` for a node whose weak reference is intact. -/
def clearNodeStatus (node : Node) : Act Unit := fun w _ =>
  some ((), if node.keyAlive then w.setHandle node.status none else w)

/-- The loop of `processx__unload_cleanup()`. -/
def unloadNodes : List Node → Call Unit
  | [] => .ret ()
  | node :: nodes => do
    let handle ← Prog.lift (readNodeHandle node)
    match handle with
    | some h =>
      if h.cleanup then do
        let _ ← Prog.lift (kill .unload node.status node.pid 9)
        let _ ← Prog.lift (waitpidBlocking .unload node.status node.pid)
        Prog.lift (clearNodeStatus node)
        unloadNodes nodes
      else do
        Prog.lift (clearNodeStatus node)
        unloadNodes nodes
    | none => do
      Prog.lift (clearNodeStatus node)
      unloadNodes nodes

/-- `child_list->next = 0` -/
def clearChildList : Act Unit := fun w _ => some ((), { w with childList := [] })

/-- The loop, from the node that was read first. -/
def unloadFrom : Option Node → Call Unit
  | none => .ret ()
  | some first => do
    let nodes ← Prog.lift (followNodes first)
    unloadNodes nodes

/-- `processx__unload_cleanup()`. -/
def unloadCleanup : Call Unit := do
  let first ← Prog.lift readFirstChild
  Prog.lift removeSigchld
  unloadFrom first
  Prog.lift clearChildList
  Prog.lift freelistFree

/-- A script of actions only. -/
def acts (choices : List Choice) : List (Cue Move Choice) := choices.map .act

/-- A session with one running child. -/
def oneChild : World where
  installed := true
  procs n := if n = 100 then .running else .absent
  handles s := if s = 0 then some { pid := 100, cleanup := true } else none
  sexps := 1
  childList := [{ pid := 100, status := 0 }]

end Processx
