import Processx.Library.Simulation
import Mathlib.Tactic.Common

/-!
# The I/O thread of Windows

`win/thread.c`. Overlapped calls are made by a thread of their own. The main thread stores a command
and its arguments in global variables, sets one event and waits for another one; the I/O thread waits
for the first event, does what the command says, stores the result and sets the second one. Here the
I/O thread is a part of the world that moves on its own, one step at a time.
-/

namespace Processx.Win.Thread

open Interruptible

variable {Os D N P α : Type}

/-- The codes of `GetLastError()`. -/
abbrev ErrorCode := ℕ

/-- `processx__thread_readfile_data`, with the addresses of a connection and its buffer. -/
structure ReadfileData where
  ccon : ℕ
  lpBuffer : ℕ := 0
  nNumberOfBytesToRead : ℕ := 0
  deriving DecidableEq

/-- System calls, and what decides how they come out. -/
abbrev SysCall (Os D ρ : Type) := Interruptible.Action Os D ρ

/-- What the I/O thread calls, with packets `P`: `processx_i_thread_readfile()` and
`processx_i_thread_connectpipe()`, and for `processx_i_thread_getstatus()` the completion port,
`GetQueuedCompletionStatus()` and `send()`. An error code is given by those that fail; `send()` may
set it in any case. Some things happen at any time. -/
structure Kernel (Os D N P : Type) where
  readfile : ReadfileData → SysCall Os D (Option ErrorCode)
  connectpipe : ℕ → SysCall Os D (Option ErrorCode)
  getDefaultIocp : SysCall Os D (Option ErrorCode)
  getQueuedCompletionStatus : ℕ → SysCall Os D (Option ErrorCode × Option P)
  send : SysCall Os D (Option ErrorCode)
  move : Os → N → Option Os

/-- `processx__thread_cmd` -/
inductive Command
  | init
  | idle
  | readfile
  | getstatus
  | connectpipe
  deriving DecidableEq

/-- The global variables of both threads, with what `lpOverlapped` points to. -/
structure Cells (P : Type) where
  cmd : Command := .init
  readfileData : ReadfileData := { ccon := 0 }
  dwMilliseconds : ℕ := 0
  overlapped : Option P := none
  success : Bool := true
  lastError : ErrorCode := 0
  select : Bool := false

/-- Where the I/O thread is in its loop. -/
inductive Place
  | waiting
  | beginning
  | switching
  | getting
  | notifying (error : Option ErrorCode)
  | checking
  | idling
  | signalling
  deriving DecidableEq

/-- The two threads: `processx__iocp_thread`, if there is one, the two events, the code that
`GetLastError()` has for the I/O thread, whether the main thread is in
`WaitForSingleObject(processx__thread_done, INFINITE)`, whether it has come back from `select()` and
does nothing but wait for the I/O thread, and whether it has used a global variable at a time when the
I/O thread might use it. -/
structure World (Os P : Type) where
  cells : Cells P := {}
  iocpThread : Option Place := none
  start : Bool := false
  done : Bool := false
  threadError : ErrorCode := 0
  waiting : Bool := false
  joining : Bool := false
  race : Bool := false
  os : Os

/-- What decides how a step comes out. -/
inductive Choice (D : Type)
  | ok
  | fail
  | os (d : D)

/-- The I/O thread is not at the head of its loop, or may leave it. -/
def World.busy (w : World Os P) : Bool :=
  w.start || (w.iocpThread.isSome && decide (w.iocpThread ≠ some .waiting))

/-- An error code is kept for the thread, if there is one. -/
def World.fail (w : World Os P) (error : Option ErrorCode) : World Os P :=
  { w with threadError := error.getD w.threadError }

/-- The result of a command. -/
def World.finish (w : World Os P) (error : Option ErrorCode) : World Os P :=
  { w with cells := { w.cells with success := error.isNone }, iocpThread := some .checking }

/-- One step of `processx__thread_callback()`. -/
def callbackStep (k : Kernel Os D N P) (w : World Os P) (d : D) : Option (World Os P) :=
  match w.iocpThread with
  | none => none
  | some .waiting =>
    if w.start then some { w with start := false, iocpThread := some .beginning } else none
  | some .beginning => some { w with
      cells := { w.cells with success := true, lastError := 0 }, iocpThread := some .switching }
  | some .switching =>
    match w.cells.cmd with
    | .init | .idle => some { w with iocpThread := some .checking }
    | .readfile => (k.readfile w.cells.readfileData w.os d).map fun (error, os) =>
        ({ w with os := os }.fail error).finish error
    | .getstatus => (k.getDefaultIocp w.os d).map fun (error, os) =>
        if error.isSome then ({ w with os := os }.fail error).finish error
        else { w with os := os, iocpThread := some .getting }
    | .connectpipe => (k.connectpipe w.cells.readfileData.ccon w.os d).map fun (error, os) =>
        ({ w with os := os }.fail error).finish error
  | some .getting =>
    (k.getQueuedCompletionStatus w.cells.dwMilliseconds w.os d).map fun ((error, packet), os) =>
      { w with
        os := os, cells := { w.cells with overlapped := packet },
        iocpThread := some (.notifying error) }.fail error
  | some (.notifying error) =>
    if w.cells.select then
      (k.send w.os d).map fun (error', os) => ({ w with os := os }.fail error').finish error
    else some (w.finish error)
  | some .checking => some { w with
      cells := if w.cells.success then w.cells else { w.cells with lastError := w.threadError }
      iocpThread := some .idling }
  | some .idling => some { w with
      cells := { w.cells with cmd := .idle }, iocpThread := some .signalling }
  | some .signalling => some { w with done := true, iocpThread := some .waiting }

/-- The I/O thread takes a step, or something else happens. -/
inductive Move (D N : Type)
  | callback (d : D)
  | os (n : N)

/-- Such a move, where it is possible. -/
def World.move (k : Kernel Os D N P) (w : World Os P) : Move D N → Option (World Os P)
  | .callback d => callbackStep k w d
  | .os n => (k.move w.os n).map fun os => { w with os := os }

/-- Programs of the main thread. -/
abbrev Call (Os D P α : Type) := Prog (World Os P) (Choice D) String α

/-- Actions of the main thread. -/
abbrev Act (Os D P ρ : Type) := Interruptible.Action (World Os P) (Choice D) ρ

/-- Use of the global variables. -/
def access {ρ : Type} (f : Cells P → ρ × Cells P) : Act Os D P ρ := fun w _ =>
  some ((f w.cells).1, { w with cells := (f w.cells).2, race := w.race || w.busy })

/-- Global variables are stored. -/
def store (f : Cells P → Cells P) : Act Os D P Unit := access fun cells => ((), f cells)

/-- `SetEvent(processx__thread_start)` -/
def setStart : Act Os D P Unit := fun w _ => some ((), { w with start := true })

/-- The main thread starts to wait. -/
def enterWait : Act Os D P Unit := fun w _ => some ((), { w with waiting := true })

/-- The event is there. It is reset, and the main thread goes on. -/
def leaveWait : Act Os D P Unit := fun w _ =>
  if w.done then some ((), { w with done := false, waiting := false, joining := false }) else none

/-- `WaitForSingleObject(processx__thread_done, INFINITE)` -/
def waitDone : Call Os D P Unit := do
  Prog.lift enterWait
  Prog.lift leaveWait

/-- Is there an I/O thread? -/
def hasThread : Act Os D P Bool := fun w _ => some (w.iocpThread.isSome, w)

/-- `CreateEventA()` for both events. If one of them fails, the other one is closed. -/
def createEvents : Act Os D P Bool := fun w c =>
  match c with
  | .ok => some (true, { w with start := false, done := false })
  | .fail => some (false, w)
  | .os _ => none

/-- `CreateThread()` -/
def createThread : Act Os D P Bool := fun w c =>
  match c with
  | .ok => some (true, { w with iocpThread := some .waiting })
  | .fail => some (false, w)
  | .os _ => none

/-- The main thread lets the I/O thread go on, and waits for it. -/
def signalAndWait : Call Os D P Unit := do
  Prog.lift setStart
  waitDone

/-- The part of `processx__start_thread()` behind the events. -/
def startWithEvents : Call Os D P Unit := do
  Prog.lift (store fun cells => { cells with cmd := .init })
  let ok ← Prog.lift createThread
  if ok then signalAndWait else .throw "Cannot start I/O thread"

/-- `processx__start_thread()` -/
def startThread : Call Os D P Unit := do
  let exists_ ← Prog.lift hasThread
  if exists_ then .ret ()
  else do
    let ok ← Prog.lift createEvents
    if ok then startWithEvents else .throw "Cannot create I/O events"

/-- `return processx__thread_success` -/
def readSuccess : Act Os D P Bool := access fun cells => (cells.success, cells)

/-- A call of the I/O thread with its arguments. -/
inductive Request
  | readfile (data : ReadfileData)
  | connectpipe (ccon : ℕ)
  | getstatus (dwMilliseconds : ℕ)
  deriving DecidableEq

/-- `processx__thread_readfile()` -/
def threadReadfile (data : ReadfileData) : Call Os D P Bool := do
  startThread
  Prog.lift (store fun cells => { cells with cmd := .readfile })
  Prog.lift (store fun cells => { cells with readfileData := data })
  signalAndWait
  Prog.lift readSuccess

/-- `processx__thread_connectpipe()` -/
def threadConnectpipe (ccon : ℕ) : Call Os D P Bool := do
  startThread
  Prog.lift (store fun cells => { cells with cmd := .connectpipe })
  Prog.lift (store fun cells =>
    { cells with readfileData := { cells.readfileData with ccon := ccon } })
  signalAndWait
  Prog.lift readSuccess

/-- `processx__thread_getstatus()` -/
def threadGetstatus (dwMilliseconds : ℕ) : Call Os D P Bool := do
  startThread
  Prog.lift (store fun cells => { cells with cmd := .getstatus })
  Prog.lift (store fun cells => { cells with dwMilliseconds := dwMilliseconds })
  signalAndWait
  Prog.lift readSuccess

/-- The three of them. -/
def threadCall : Request → Call Os D P Bool
  | .readfile data => threadReadfile data
  | .connectpipe ccon => threadConnectpipe ccon
  | .getstatus dwMilliseconds => threadGetstatus dwMilliseconds

/-- `processx__thread_get_last_error()` -/
def threadGetLastError : Act Os D P ErrorCode := access fun cells => (cells.lastError, cells)

/-- `sres ? ERROR_SUCCESS : processx__thread_get_last_error()` -/
def errorOf (success : Bool) : Call Os D P ErrorCode :=
  if success then .ret 0 else Prog.lift threadGetLastError

/-- What `lpOverlapped` points to. -/
def readOverlapped : Act Os D P (Option P) := access fun cells => (cells.overlapped, cells)

/-- What the main thread gets to know by a call. -/
structure Answer (P : Type) where
  success : Bool
  error : ErrorCode
  overlapped : Option P

/-- A program of the main thread: actions of its own, changes of `processx__select`, a new variable
`overlapped` for what is found, and calls. -/
inductive Client (Os D P α : Type) : Type 1
  | ret (a : α)
  | throw (e : String)
  | spin
  | main {ρ : Type} (a : SysCall Os D ρ) (next : ρ → Client Os D P α)
  | setSelect (b : Bool) (next : Client Os D P α)
  | clearOverlapped (next : Client Os D P α)
  | call (request : Request) (next : Answer P → Client Os D P α)

/-- An action of the main thread alone. -/
def mainAction {ρ : Type} (a : SysCall Os D ρ) : Act Os D P ρ := fun w c =>
  match c with
  | .os d => (a w.os d).map fun (r, os) => (r, { w with os := os })
  | _ => none

/-- The program with the two threads. -/
def Client.threaded : Client Os D P α → Call Os D P α
  | .ret a => .ret a
  | .throw e => .throw e
  | .spin => .spin
  | .main a next => do (next (← Prog.lift (mainAction a))).threaded
  | .setSelect b next => do
    Prog.lift (store fun cells => { cells with select := b })
    next.threaded
  | .clearOverlapped next => do
    Prog.lift (store fun cells => { cells with overlapped := none })
    next.threaded
  | .call request next => do
    let success ← threadCall request
    let error ← errorOf success
    let overlapped ← Prog.lift readOverlapped
    (next ⟨success, error, overlapped⟩).threaded

/-- What is left of the state if the main thread makes the calls itself. -/
structure Direct (Os P : Type) where
  started : Bool
  select : Bool
  overlapped : Option P
  os : Os

/-- The part of the state with two threads. -/
def World.direct (w : World Os P) : Direct Os P where
  started := w.iocpThread.isSome
  select := w.cells.select
  overlapped := w.cells.overlapped
  os := w.os

/-- Actions with direct calls. -/
abbrev DirectAct (Os D P ρ : Type) := Interruptible.Action (Direct Os P) (Choice D) ρ

/-- Programs with direct calls. -/
abbrev DirectCall (Os D P α : Type) := Prog (Direct Os P) (Choice D) String α

/-- Moves without the I/O thread. -/
def Direct.move (k : Kernel Os D N P) (v : Direct Os P) (n : N) : Option (Direct Os P) :=
  (k.move v.os n).map fun os => { v with os := os }

/-- An action on the operating system. -/
def onOs {ρ : Type} (a : SysCall Os D ρ) : DirectAct Os D P ρ := fun v c =>
  match c with
  | .os d => (a v.os d).map fun (r, os) => (r, { v with os := os })
  | _ => none

/-- `GetQueuedCompletionStatus()`, which stores what it finds. -/
def getQueued (k : Kernel Os D N P) (dwMilliseconds : ℕ) :
    DirectAct Os D P (Option ErrorCode) := fun v c =>
  match c with
  | .os d => (k.getQueuedCompletionStatus dwMilliseconds v.os d).map
      fun ((error, packet), os) => (error, { v with overlapped := packet, os := os })
  | _ => none

/-- The notification that follows, and the error code there is after it. -/
def notify (k : Kernel Os D N P) (error : Option ErrorCode) :
    DirectAct Os D P (Option ErrorCode) := fun v c =>
  match c with
  | .os d =>
    if v.select then (k.send v.os d).map fun (error', os) =>
      (error.map fun e => error'.getD e, { v with os := os })
    else some (error, v)
  | _ => none

/-- What the main thread would do itself, and the error code, if it fails. -/
def serve (k : Kernel Os D N P) : Request → DirectCall Os D P (Option ErrorCode)
  | .readfile data => Prog.lift (onOs (k.readfile data))
  | .connectpipe ccon => Prog.lift (onOs (k.connectpipe ccon))
  | .getstatus dwMilliseconds => do
    let failed ← Prog.lift (onOs k.getDefaultIocp)
    if failed.isSome then .ret failed
    else do
      let error ← Prog.lift (getQueued k dwMilliseconds)
      Prog.lift (notify k error)

/-- Something that succeeds or fails. -/
def attemptIt : DirectAct Os D P Bool := fun v c =>
  match c with
  | .ok => some (true, v)
  | .fail => some (false, v)
  | .os _ => none

/-- Is the I/O thread there? -/
def isStarted : DirectAct Os D P Bool := fun v _ => some (v.started, v)

/-- The I/O thread is there from now on, unless it fails. -/
def setStarted : DirectAct Os D P Bool := fun v c =>
  match c with
  | .ok => some (true, { v with started := true })
  | .fail => some (false, v)
  | .os _ => none

/-- The thread of a first call is created. -/
def startSecond : DirectCall Os D P Unit := do
  let ok ← Prog.lift setStarted
  if ok then .ret () else .throw "Cannot start I/O thread"

/-- The events of a first call are created. -/
def startFirst : DirectCall Os D P Unit := do
  let ok ← Prog.lift attemptIt
  if ok then startSecond else .throw "Cannot create I/O events"

/-- The errors of a first call. -/
def startDirect : DirectCall Os D P Unit := do
  let started ← Prog.lift isStarted
  if started then .ret () else startFirst

/-- What `lpOverlapped` points to. -/
def getOverlapped : DirectAct Os D P (Option P) := fun v _ => some (v.overlapped, v)

/-- `processx__select` is set. -/
def writeSelect (b : Bool) : DirectAct Os D P Unit := fun v _ =>
  some ((), { v with select := b })

/-- `OVERLAPPED *overlapped = 0` -/
def writeOverlapped : DirectAct Os D P Unit := fun v _ =>
  some ((), { v with overlapped := none })

/-- The program with direct calls. -/
def Client.direct (k : Kernel Os D N P) : Client Os D P α → DirectCall Os D P α
  | .ret a => .ret a
  | .throw e => .throw e
  | .spin => .spin
  | .main a next => do (next (← Prog.lift (onOs a))).direct k
  | .setSelect b next => do
    Prog.lift (writeSelect b)
    next.direct k
  | .clearOverlapped next => do
    Prog.lift writeOverlapped
    next.direct k
  | .call request next => do
    startDirect
    let error ← serve k request
    let overlapped ← Prog.lift getOverlapped
    (next ⟨error.isNone, error.getD 0, overlapped⟩).direct k

end Processx.Win.Thread
