import Processx.Library.Programs
import Mathlib.Data.BitVec

/-!
# The end of a process on Windows

The functions of `win/processx.c` that ask for the exit status of a process, wait for it, end it
and finalize it. A process may end on its own between any two system calls. The table has the
handles of the R process that refer to processes; a number that is closed may be handed out again.
-/

namespace Processx.Win.Process

open Interruptible

/-- A `DWORD`. -/
abbrev Dword := BitVec 32

/-- `STILL_ACTIVE` -/
def stillActive : Dword := 259

/-- `PROCESSX_INTERRUPT_INTERVAL` -/
def interruptInterval : ℤ := 200

/-- A process: it runs, it was told to end with this code, or it has ended with a code at a time.
Times are those of `FILETIME`, in units of 100 ns since the year 1601. -/
inductive Proc
  | running
  | terminating (code : Dword)
  | exited (code : Dword) (time : ℤ)
  deriving DecidableEq

/-- The external pointer to a handle, as an R object. -/
abbrev Sexp := ℕ

/-- `processx_handle_t`: the fields that the functions below use. The end time is in units of
100 ns since the year 1970. -/
structure Handle where
  exitcode : ℤ := 0
  collected : Bool := false
  hProcess : Option ℕ := none
  dwProcessId : ℕ := 0
  cleanup : Bool := false
  endTime : ℤ := 0
  deriving DecidableEq

/-- What has happened, with the part of the state it happened in. -/
inductive Event
  | started (status : Sexp) (pid : ℕ)
  | terminate (status : Sexp) (before : Option Proc) (ok : Bool)
  | closed (status : Sexp) (number : Option ℕ) (before : Option ℕ)
  deriving DecidableEq

/-- The state. The log has the newest event first. -/
structure World where
  procs : ℕ → Option Proc := fun _ => none
  table : ℕ → Option ℕ := fun _ => none
  handles : Sexp → Option Handle := fun _ => none
  sexps : ℕ := 0
  log : List Event := []

namespace World

/-- Record an event. -/
def record (w : World) (e : Event) : World := { w with log := e :: w.log }

/-- Change the state of a process. -/
def setProc (w : World) (pid : ℕ) (p : Proc) : World :=
  { w with procs := fun n => if n = pid then some p else w.procs n }

/-- Change a handle. -/
def setHandle (w : World) (status : Sexp) (h : Option Handle) : World :=
  { w with handles := fun s => if s = status then h else w.handles s }

/-- Change an entry of the table. -/
def setEntry (w : World) (number : ℕ) (pid : Option ℕ) : World :=
  { w with table := fun n => if n = number then pid else w.table n }

/-- The process that a handle refers to. -/
def process (w : World) (number : Option ℕ) : Option ℕ := number.bind w.table

/-- The state of that process. -/
def proc (w : World) (number : Option ℕ) : Option Proc := (w.process number).bind w.procs

end World

/-- A process ends, on its own or because it was told to. -/
inductive Move
  | exit (pid : ℕ) (code : Dword) (time : ℤ)
  deriving DecidableEq

/-- Such a move, where it is possible. -/
def World.move (w : World) : Move → Option World
  | .exit pid code time =>
    match w.procs pid with
    | some .running => some (w.setProc pid (.exited code time))
    | some (.terminating c) => if c = code then some (w.setProc pid (.exited code time)) else none
    | _ => none

/-- How an action comes out: as it should, with an error, with the numbers that the system hands
out, or with a time that it makes up. -/
inductive Choice
  | ok
  | fail
  | process (number pid : ℕ)
  | time (t : ℤ)
  | dead (statuses : List Sexp)
  deriving DecidableEq

/-- Programs of the package. What they throw is a message. -/
abbrev Call (α : Type) := Prog World Choice String α

/-- Actions on the world. -/
abbrev Act (ρ : Type) := Interruptible.Action World Choice ρ

/-- A call that changes nothing here, and succeeds or does not. -/
def sysCall : Act Bool := fun w c =>
  match c with
  | .ok => some (true, w)
  | .fail => some (false, w)
  | _ => none

/-- `GetExitCodeProcess()` -/
def getExitCodeProcess (number : Option ℕ) : Act (Option Dword) := fun w c =>
  match c, w.proc number with
  | .ok, some (.exited code _) => some (some code, w)
  | .ok, some _ => some (some stillActive, w)
  | .ok, none | .fail, _ => some (none, w)
  | _, _ => none

/-- What `WaitForSingleObject()` answers. -/
inductive WaitAnswer
  | object
  | timeout
  | failed
  deriving DecidableEq

/-- `WaitForSingleObject()`, for some time or `INFINITE`. -/
def waitForSingleObject (number : Option ℕ) (milliseconds : Option ℤ) : Act WaitAnswer := fun w c =>
  match c, w.proc number with
  | .ok, some (.exited _ _) => some (.object, w)
  | .ok, some _ => if milliseconds.isSome then some (.timeout, w) else none
  | .ok, none | .fail, _ => some (.failed, w)
  | _, _ => none

/-- `TerminateProcess()`, which succeeds for a process that runs only. -/
def terminateProcess (status : Sexp) (number : Option ℕ) (code : Dword) : Act Bool := fun w c =>
  match c, w.process number, w.proc number with
  | .ok, some pid, some .running =>
    some (true, (w.setProc pid (.terminating code)).record (.terminate status (some .running) true))
  | .ok, _, before | .fail, _, before =>
    some (false, w.record (.terminate status before false))
  | _, _, _ => none

/-- The numbers of 100 ns from 1601 to 1970. -/
def epochStart : ℤ := 116444736000000000

/-- `processx__collect_exit_status()`. The time is made up for a process that has not ended. -/
def collectExitStatus (status : Sexp) (exitcode : Dword) : Act Unit := fun w c =>
  match w.handles status with
  | none => none
  | some h =>
    let collect (endTime : ℤ) := some ((), w.setHandle status
      (some { h with exitcode := exitcode.toInt, collected := true, endTime := endTime }))
    match c, w.proc h.hProcess with
    | .ok, some (.exited _ time) => collect (time - epochStart)
    | .time t, some .running | .time t, some (.terminating _) => collect (t - epochStart)
    | .ok, none | .fail, _ => collect 0
    | _, _ => none

/-- `CloseHandle()` on the process of a handle, which is set to zero. -/
def closeProcess (status : Sexp) : Act Unit := fun w _ =>
  match w.handles status with
  | none => none
  | some h =>
    let w' := w.record (.closed status h.hProcess (w.process h.hProcess))
    let w' := match h.hProcess with
      | none => w'
      | some number => w'.setEntry number none
    some ((), w'.setHandle status (some { h with hProcess := none }))

/-- `R_CheckUserInterrupt()`: has the user interrupted? -/
def checkUserInterrupt : Act Bool := fun w c => some (decide (c = .fail), w)

/-- `R_ExternalPtrAddr()` and the fields of the handle. R passes objects that it has only. -/
def readHandle (status : Sexp) : Act (Option Handle) := fun w _ =>
  if status < w.sexps then some (w.handles status, w) else none

/-- `handle->exitcode` -/
def readExitcode (status : Sexp) : Act ℤ := fun w _ =>
  match w.handles status with
  | none => none
  | some h => some (h.exitcode, w)

/-- `processx_is_alive()` -/
def processxIsAlive (status : Sexp) : Call Bool := do
  let handle ← Prog.lift (readHandle status)
  match handle with
  | none => .ret false
  | some h =>
    if h.collected then .ret false
    else do
      let code ← Prog.lift (getExitCodeProcess h.hProcess)
      match code with
      | none => .throw "failed to get exit code to check if "
      | some code =>
        if code = stillActive then .ret true
        else do
          Prog.lift (collectExitStatus status code)
          .ret false

/-- `processx_get_exit_status()`. The answer is `none` for `NULL`. -/
def processxGetExitStatus (status : Sexp) : Call (Option ℤ) := do
  let handle ← Prog.lift (readHandle status)
  match handle with
  | none => .ret none
  | some h =>
    if h.collected then .ret (some h.exitcode)
    else do
      let code ← Prog.lift (getExitCodeProcess h.hProcess)
      match code with
      | none => .throw "get exit status failed"
      | some code =>
        if code = stillActive then .ret none
        else do
          Prog.lift (collectExitStatus status code)
          let exitcode ← Prog.lift (readExitcode status)
          .ret (some exitcode)

/-- `processx__proc_end_time()` -/
def procEndTime (status : Sexp) : Call (Option ℤ) := do
  let handle ← Prog.lift (readHandle status)
  match handle with
  | none => .throw "Internal processx error, handle already removed"
  | some h => if h.endTime = 0 then .ret none else .ret (some h.endTime)

/-- The loop of `processx_wait()`: the last answer and the time that is left. The bound counts
rounds; a wait that has used them up is still running. -/
def waitLoop (number : Option ℕ) (ctimeout : ℤ) : ℕ → ℤ → Call (WaitAnswer × ℤ)
  | 0, _ => .spin
  | rounds + 1, timeleft =>
    if ctimeout < 0 ∨ timeleft > interruptInterval then do
      let err ← Prog.lift (waitForSingleObject number (some interruptInterval))
      if err ≠ .timeout then .ret (err, timeleft)
      else
        let interrupted ← Prog.lift checkUserInterrupt
        if interrupted then .throw "interrupt"
        else waitLoop number ctimeout rounds (timeleft - interruptInterval)
    else .ret (.timeout, timeleft)

/-- Behind the loop: maybe there is some time left. -/
def waitRest (number : Option ℕ) (err : WaitAnswer) (timeleft : ℤ) : Call WaitAnswer :=
  if err = .timeout ∧ timeleft ≥ 0 then Prog.lift (waitForSingleObject number (some timeleft))
  else .ret err

/-- The end of `processx_wait()`. -/
def waitCollect (status : Sexp) (number : Option ℕ) : WaitAnswer → Call Bool
  | .failed => .throw "failed to wait on process"
  | .timeout => .ret false
  | .object => do
    let code ← Prog.lift (getExitCodeProcess number)
    match code with
    | none => .throw "cannot get exit code after wait"
    | some code => do
      Prog.lift (collectExitStatus status code)
      .ret true

/-- `processx_wait()` -/
def processxWait (rounds : ℕ) (status : Sexp) (timeout : ℤ) : Call Bool := do
  let handle ← Prog.lift (readHandle status)
  match handle with
  | none => .ret true
  | some h =>
    if h.collected then .ret true
    else do
      let (err, timeleft) ← waitLoop h.hProcess timeout rounds timeout
      let err ← waitRest h.hProcess err timeleft
      waitCollect status h.hProcess err

/-- `if (err) processx__collect_exit_status(status, 2)` -/
def collectTerminated (status : Sexp) (err : Bool) : Call Unit :=
  if err then Prog.lift (collectExitStatus status 2) else .ret ()

/-- `processx__terminate()` -/
def terminate (status : Sexp) : Call Bool := do
  let handle ← Prog.lift (readHandle status)
  match handle with
  | none => .ret false
  | some h => do
    let err ← Prog.lift (terminateProcess status h.hProcess 2)
    collectTerminated status err
    let _ ← Prog.lift (waitForSingleObject h.hProcess none)
    Prog.lift (closeProcess status)
    .ret err

/-- `processx_signal()` -/
def processxSignal (status : Sexp) (sig : ℤ) : Call Bool := do
  let handle ← Prog.lift (readHandle status)
  match handle with
  | none => .ret false
  | some h =>
    if h.collected then .ret false
    else if sig = 15 ∨ sig = 9 ∨ sig = 2 then do
      let code ← Prog.lift (getExitCodeProcess h.hProcess)
      match code with
      | none => .throw "get exit code after signal"
      | some code =>
        if code = stillActive then terminate status
        else do
          Prog.lift (collectExitStatus status code)
          .ret false
    else if sig = 0 then do
      let code ← Prog.lift (getExitCodeProcess h.hProcess)
      match code with
      | none => .throw "get exit code for signal 0"
      | some code => .ret (decide (code = stillActive))
    else .throw "Unsupported signal on this platform"

/-- `processx_kill()` -/
def processxKill (status : Sexp) : Call Bool := processxSignal status 9

/-- `R_ClearExternalPtr()`, and the handle is freed. -/
def clearPointer (status : Sexp) : Act Unit := fun w _ => some ((), w.setHandle status none)

/-- The part of `processx__finalizer()` that ends a process, just in case it is running. -/
def terminateIfNeeded (status : Sexp) (h : Handle) : Call Unit :=
  if h.cleanup ∧ h.collected = false then do
    let _ ← terminate status
    .ret ()
  else .ret ()

/-- The part that closes the process if it is not closed yet. -/
def closeIfOpen (status : Sexp) : Call Unit := do
  let handle ← Prog.lift (readHandle status)
  match handle with
  | none => .ret ()
  | some h => if h.hProcess.isSome then Prog.lift (closeProcess status) else .ret ()

/-- `processx__finalizer()` -/
def finalizer (status : Sexp) : Call Unit := do
  let handle ← Prog.lift (readHandle status)
  match handle with
  | none => .ret ()
  | some h => do
    terminateIfNeeded status h
    closeIfOpen status
    Prog.lift (clearPointer status)

/-- `processx__make_handle()`. The answer is `none` if there is no memory. -/
def makeHandle (cleanup : Bool) : Act (Option Sexp) := fun w c =>
  match c with
  | .ok => some (some w.sexps,
      { w.setHandle w.sexps (some { cleanup := cleanup }) with sexps := w.sexps + 1 })
  | .fail => some (none, w)
  | _ => none

/-- `CreateProcessW()`, and its results are stored in the handle. -/
def createProcess (status : Sexp) : Act Bool := fun w c =>
  match c, w.handles status with
  | .process number pid, some h =>
    if w.table number = none ∧ w.procs pid = none then
      some (true, (((w.setProc pid .running).setEntry number (some pid)).setHandle status
        (some { h with hProcess := some number, dwProcessId := pid })).record (.started status pid))
    else none
  | .fail, _ => some (false, w)
  | _, _ => none

/-- `AssignProcessToJobObject()`, if the process is to be cleaned up. -/
def assignJob (cleanup : Bool) : Call Bool := if cleanup then Prog.lift sysCall else .ret true

/-- `processx_exec()` behind `CreateProcessW()`. -/
def resume (status : Sexp) (cleanup : Bool) : Call Sexp := do
  let assigned ← assignJob cleanup
  if !assigned then .throw "Assign to job object"
  else do
    let resumed ← Prog.lift sysCall
    if !resumed then .throw "resume thread" else .ret status

/-- `processx_exec()`, as far as it is about the handle and the process. -/
def processxExec (cleanup : Bool) : Call Sexp := do
  let prepared ← Prog.lift sysCall
  if !prepared then .throw "making program args"
  else do
    let result ← Prog.lift (makeHandle cleanup)
    match result with
    | none => .throw "Out of memory when creating subprocess"
    | some status => do
      let found ← Prog.lift sysCall
      if !found then do
        Prog.lift (clearPointer status)
        .throw "Command not found"
      else do
        let streams ← Prog.lift sysCall
        if !streams then .throw "setup stdio"
        else do
          let created ← Prog.lift (createProcess status)
          if !created then .throw "create process" else resume status cleanup

/-- The calls of R, and the garbage collection. -/
inductive SystemCall
  | exec (cleanup : Bool)
  | isAlive (status : Sexp)
  | getExitStatus (status : Sexp)
  | endTime (status : Sexp)
  | wait (status : Sexp) (timeout : ℤ)
  | signal (status : Sexp) (sig : ℤ)
  | kill (status : Sexp)
  | gc
  deriving DecidableEq

/-- What they answer. -/
inductive Answer
  | object (status : Sexp)
  | flag (b : Bool)
  | code (exitcode : Option ℤ)
  | time (t : Option ℤ)
  | null
  deriving DecidableEq

/-- The objects that are not in use any more. -/
def collectGarbage : Act (List Sexp) := fun w c =>
  match c with
  | .dead statuses => some (statuses, w)
  | _ => none

/-- R runs the finalizers one by one. -/
def runFinalizers : List Sexp → Call Unit
  | [] => .ret ()
  | status :: statuses => do
    finalizer status
    runFinalizers statuses

/-- One call. -/
def SystemCall.run (rounds : ℕ) : SystemCall → Call Answer
  | .exec cleanup => do .ret (.object (← processxExec cleanup))
  | .isAlive status => do .ret (.flag (← processxIsAlive status))
  | .getExitStatus status => do .ret (.code (← processxGetExitStatus status))
  | .endTime status => do .ret (.time (← procEndTime status))
  | .wait status timeout => do .ret (.flag (← processxWait rounds status timeout))
  | .signal status sig => do .ret (.flag (← processxSignal status sig))
  | .kill status => do .ret (.flag (← processxKill status))
  | .gc => do
    runFinalizers (← Prog.lift collectGarbage)
    .ret .null

/-- A call with its answer, or its error. -/
abbrev Reply := SystemCall × Except String Answer

/-- One call after another; the errors are caught. The answers come in the order of the calls. -/
def runSession (rounds : ℕ) : List SystemCall → Call (List Reply)
  | [] => .ret []
  | call :: calls => do
    let answer ← (call.run rounds).attempt
    let replies ← runSession rounds calls
    .ret ((call, answer) :: replies)

end Processx.Win.Process
