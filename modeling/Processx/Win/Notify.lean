import Processx.Win.Transparency
import Processx.Connection.Poll

/-!
# Waiting for packets and sockets on Windows

`processx__thread_getstatus_select()` waits for a packet in the I/O thread and for the sockets of curl
in the main thread. The I/O thread writes to a socket when it is done, and the main thread posts a
packet when one of its own sockets is ready. Here are the sockets and the queue, and the loops that use
them: those of `processx_c_connection_poll()` and `processx__connection_read()`.
-/

namespace Processx.Win.Thread

open Interruptible

/-- `WAIT_TIMEOUT` -/
def waitTimeout : ErrorCode := 258

/-- `WSAENOTSOCK` -/
def wsaENotSock : ErrorCode := 10038

/-- `ERROR_HANDLE_EOF` -/
def errorHandleEof : ErrorCode := 38

/-- `ERROR_BROKEN_PIPE` -/
def errorBrokenPipe : ErrorCode := 109

/-- `ERROR_PIPE_CONNECTED` -/
def errorPipeConnected : ErrorCode := 535

/-- `ERROR_PIPE_LISTENING` -/
def errorPipeListening : ErrorCode := 536

/-- `ERROR_IO_PENDING` -/
def errorIoPending : ErrorCode := 997

/-- Whose socket it is. -/
inductive Owner
  | package
  | other
  deriving DecidableEq

/-- A packet in the queue: a wake-up, or one for a connection, which may have failed. -/
inductive Queued
  | wakeUp
  | packet (con : ℕ) (error : Option ErrorCode)
  deriving DecidableEq

/-- The queue of the completion port, the open sockets, `processx__notify_socket`, whether its first
one is in `processx__readfds`, the bytes that wait there, and how many of them have room. No socket
has number 0, which is also `INVALID_SOCKET`. The other two numbers count the messages sent to sockets
of others, and the sockets of others that were closed. -/
structure Net where
  queue : List Queued := []
  sockets : ℕ → Option Owner := fun _ => none
  notifySocket : ℕ × ℕ := (0, 0)
  inReadfds : Bool := false
  inbox : ℕ := 0
  room : ℕ := 65536
  misdirected : ℕ := 0
  misclosed : ℕ := 0

/-- What decides how a system call comes out. -/
inductive Outcome
  | ok
  | fail (error : ErrorCode)
  | sockets (first second : ℕ)
  deriving DecidableEq

/-- What happens at any time: a packet arrives, or somebody else opens or closes a socket. -/
inductive Happening
  | arrive (con : ℕ) (error : Option ErrorCode)
  | open_ (socket : ℕ)
  | close (socket : ℕ)

namespace Net

/-- Change an entry of the sockets. -/
def setSocket (net : Net) (socket : ℕ) (owner : Option Owner) : Net :=
  { net with sockets := fun n => if n = socket then owner else net.sockets n }

/-- Whose socket has this number. -/
def owner (net : Net) (socket : ℕ) : Option Owner := if socket = 0 then none else net.sockets socket

/-- Something that happens, where it is possible. -/
def move (net : Net) : Happening → Option Net
  | .arrive con error => some { net with queue := net.queue ++ [.packet con error] }
  | .open_ socket =>
    if socket ≠ 0 ∧ net.sockets socket = none then some (net.setSocket socket (some .other)) else none
  | .close socket =>
    if net.sockets socket = some .other then some (net.setSocket socket none) else none

/-- A call that fails, but not with a timeout. -/
def failure (net : Net) (error : ErrorCode) : Option (Option ErrorCode × Net) :=
  if error = waitTimeout then none else some (some error, net)

/-- A call that does nothing here, and succeeds or fails. -/
def quietCall : SysCall Net Outcome (Option ErrorCode) := fun net d =>
  match d with
  | .ok => some (none, net)
  | .fail error => net.failure error
  | .sockets _ _ => none

/-- `GetQueuedCompletionStatus()`. The time is up if the queue is empty. -/
def getQueuedCompletionStatus : SysCall Net Outcome (Option ErrorCode × Option ℕ) := fun net d =>
  match d, net.queue with
  | .ok, .wakeUp :: queue => some ((none, none), { net with queue := queue })
  | .ok, .packet con error :: queue => some ((error, some con), { net with queue := queue })
  | .fail error, queue =>
    if error = waitTimeout ∧ queue ≠ [] then none else some ((some error, none), net)
  | _, _ => none

/-- `send(processx__notify_socket[1], "OK", 2, 0)`, which waits while there is no room. -/
def send : SysCall Net Outcome (Option ErrorCode) := fun net _ =>
  match net.owner net.notifySocket.2 with
  | some .package =>
    if net.inbox + 2 ≤ net.room then some (none, { net with inbox := net.inbox + 2 }) else none
  | some .other => some (none, { net with misdirected := net.misdirected + 1 })
  | none => some (some wsaENotSock, net)

end Net

/-- The system calls of the I/O thread. -/
def netKernel : Kernel Net Outcome Happening ℕ where
  readfile _ := Net.quietCall
  connectpipe _ := Net.quietCall
  getDefaultIocp := Net.quietCall
  getQueuedCompletionStatus _ := Net.getQueuedCompletionStatus
  send := Net.send
  move := Net.move

/-- `processx__socket_pair(processx__notify_socket)` and `FD_SET()` for the first one. Errors are not
looked at: without a listening socket `accept()` gives no second one, and there may be no first one
either. -/
def socketPair : SysCall Net Outcome Unit := fun net d =>
  match d with
  | .sockets first second =>
    if net.owner first = none ∧ net.owner second = none ∧
        (second ≠ 0 → first ≠ 0 ∧ first ≠ second) then
      some ((), { (net.setSocket first (some .package)).setSocket second (some .package) with
        notifySocket := (first, second), inReadfds := true, inbox := 0 })
    else none
  | _ => none

/-- `FD_ZERO(&processx__readfds)` -/
def fdZero : SysCall Net Outcome Unit := fun net _ => some ((), { net with inReadfds := false })

/-- `closesocket()` -/
def Net.closeSocket (net : Net) (socket : ℕ) : Net :=
  match net.owner socket with
  | none => net
  | some .package => net.setSocket socket none
  | some .other => { net.setSocket socket none with misclosed := net.misclosed + 1 }

/-- `closesocket()` for both sockets of `processx__notify_socket`. -/
def closeSockets : SysCall Net Outcome Unit := fun net _ =>
  some ((), (net.closeSocket net.notifySocket.1).closeSocket net.notifySocket.2)

/-- `select()`, and is the notify socket in the set? If it is not ready, then it is not in the set any
more. The call returns when a socket is ready, or after some time. It may fail, which is not looked
at: then the set stays as it is. -/
def selectCall : SysCall Net Outcome Bool := fun net d =>
  match d with
  | .ok =>
    let notified := net.inReadfds && decide (0 < net.inbox)
    some (notified, { net with inReadfds := notified })
  | .fail _ => some (net.inReadfds, net)
  | .sockets _ _ => none

/-- `recv(processx__notify_socket[0], buf, 10, 0)`. It waits for bytes if both sockets are there, and
fails otherwise. -/
def Net.recv (net : Net) : Option Net :=
  if net.owner net.notifySocket.1 = some .package ∧ net.owner net.notifySocket.2 = some .package then
    if net.inbox = 0 then none else some { net with inbox := net.inbox - 10 }
  else some net

/-- `PostQueuedCompletionStatus()` -/
def Net.post (net : Net) : Net := { net with queue := net.queue ++ [.wakeUp] }

/-- What the main thread does after `select()`. Then it does nothing but wait for the I/O thread. -/
def wake (notified : Bool) : Act Net Outcome ℕ Unit := fun w _ =>
  (if notified then w.os.recv else some w.os.post).map fun net =>
    ((), { w with joining := true, os := net })

/-- `processx__thread_getstatus_select()` -/
def threadGetstatusSelect (dwMilliseconds : ℕ) : Call Net Outcome ℕ Bool := do
  startThread
  Prog.lift (store fun cells => { cells with cmd := .getstatus })
  Prog.lift (store fun cells => { cells with select := true })
  Prog.lift (store fun cells => { cells with dwMilliseconds := dwMilliseconds })
  Prog.lift setStart
  let notified ← Prog.lift (mainAction selectCall)
  Prog.lift (wake notified)
  waitDone
  Prog.lift readSuccess

/-- `PROCESSX_INTERRUPT_INTERVAL` -/
def pollInterval : ℤ := 200

/-- Something that may be so or not: a socket of curl is ready, a connection is polled, the user
interrupts. -/
def perhaps : SysCall Net Outcome Bool := fun net d =>
  match d with
  | .ok => some (true, net)
  | .fail _ => some (false, net)
  | .sockets _ _ => none

/-- `processx__thread_getstatus()` or `processx__thread_getstatus_select()` -/
def getstatusRound (curl : Bool) (dwMilliseconds : ℕ) : Call Net Outcome ℕ Bool :=
  if curl then threadGetstatusSelect dwMilliseconds else threadGetstatus dwMilliseconds

/-- "See if there was any data from the curl sockets" -/
def curlData (curl : Bool) : Call Net Outcome ℕ Bool :=
  if curl then Prog.lift (mainAction perhaps) else .ret false

/-- "See if there was any data from the IOCP" -/
def packetData (error : ErrorCode) : Option ℕ → Call Net Outcome ℕ Bool
  | some _ => Prog.lift (mainAction perhaps)
  | none =>
    if error ≠ waitTimeout ∧ error ≠ 0 then .throw "Cannot poll" else .ret false

/-- The loop of `processx_c_connection_poll()`. The bound counts rounds; a poll that has used them up
is still running. -/
def pollLoop (curl : Bool) (timeout : ℤ) : ℕ → ℤ → Call Net Outcome ℕ Bool
  | 0, _ => .spin
  | rounds + 1, timeleft =>
    if timeout < 0 ∨ timeleft ≥ 0 then do
      let success ← getstatusRound curl
        (if timeout < 0 ∨ timeleft > pollInterval then pollInterval else timeleft).toNat
      let error ← errorOf success
      let overlapped ← Prog.lift readOverlapped
      let fromCurl ← curlData curl
      let fromPacket ← packetData error overlapped
      if fromCurl || fromPacket then .ret true
      else do
        let interrupted ← Prog.lift (mainAction perhaps)
        if interrupted then .throw "interrupt"
        else pollLoop curl timeout rounds (timeleft - pollInterval)
    else .ret false

/-- `processx_c_connection_poll()` behind its first loops, with the sockets of curl or without. If
something is ready already, then the timeout is zero. The answer is whether the loop has found
something. -/
def pollBody (curl : Bool) (rounds : ℕ) (timeout : ℤ) : Call Net Outcome ℕ Bool := do
  Prog.lift (store fun cells => { cells with overlapped := none })
  Prog.lift (mainAction fdZero)
  if curl then do
    Prog.lift (mainAction socketPair)
    Prog.lift (store fun cells => { cells with select := true })
    let found ← pollLoop curl timeout rounds timeout
    Prog.lift (mainAction closeSockets)
    .ret found
  else do
    Prog.lift (store fun cells => { cells with select := false })
    let found ← pollLoop curl timeout rounds timeout
    Prog.lift (mainAction closeSockets)
    .ret found

/-- The fields of a connection that decide what a read of it does. -/
structure ReadTarget where
  ccon : ℕ
  type : FileType := .asyncPipe
  state : SocketState := .unset
  handle : Bool := true
  readPending : Bool := false
  isEofRaw : Bool := false
  bufferDataSize : ℕ := 0
  bufferAllocatedSize : ℕ := 65536
  deriving DecidableEq

/-- The calls of `processx__connection_start_read()`, and is a read pending then? -/
def connectionStartRead (con : ReadTarget) : Client Net Outcome ℕ Bool :=
  if con.handle = false then .ret con.readPending
  else if con.readPending then .ret true
  else
    .call (if con.type = .socket ∧ con.state = .listen then .connectpipe con.ccon
        else .readfile {
          ccon := con.ccon, lpBuffer := con.bufferDataSize
          nNumberOfBytesToRead := con.bufferAllocatedSize - con.bufferDataSize }) fun answer =>
      if answer.success then .ret true
      else if answer.error = errorBrokenPipe ∨ answer.error = errorHandleEof then .ret false
      else if answer.error = errorIoPending then .ret true
      else if answer.error = errorPipeListening ∧ (con.type = .asyncPipe ∨ con.type = .socket) then
        .call (.connectpipe con.ccon) fun _ => .ret true
      else if answer.error = errorPipeConnected ∧ con.type = .socket then .ret false
      else .throw "reading from connection"

/-- How `processx__connection_read()` returns: at the end of the file, with a full buffer, without a
pending read, or from its loop, with the packet of the connection or because the queue is empty. -/
inductive ReadEnd
  | endOfFile
  | full
  | notPending
  | packet
  | nothing
  deriving DecidableEq

/-- The loop of `processx__connection_read()`. -/
def readLoop (ccon : ℕ) : ℕ → Client Net Outcome ℕ ReadEnd
  | 0 => .spin
  | rounds + 1 => .call (.getstatus 0) fun answer =>
    match answer.overlapped with
    | some con => if con = ccon then .ret .packet else readLoop ccon rounds
    | none => if answer.error ≠ waitTimeout then .throw "Read error" else .ret .nothing

/-- A program behind a program with calls. -/
def Client.bind {Os D P α β : Type} : Client Os D P α → (α → Client Os D P β) → Client Os D P β
  | .ret a, f => f a
  | .throw e, _ => .throw e
  | .spin, _ => .spin
  | .main a next, f => .main a fun r => (next r).bind f
  | .setSelect b next, f => .setSelect b (next.bind f)
  | .clearOverlapped next, f => .clearOverlapped (next.bind f)
  | .call request next, f => .call request fun answer => (next answer).bind f

/-- `processx__connection_read()` -/
def connectionRead (rounds : ℕ) (con : ReadTarget) : Client Net Outcome ℕ ReadEnd :=
  if con.type = .socket ∧ (con.state = .listen ∨ con.state = .listenPipeReady) then
    .throw "Cannot read from an un-accepted socket connection"
  else if con.isEofRaw ∧ con.bufferDataSize = 0 then .ret .endOfFile
  else if con.bufferAllocatedSize - con.bufferDataSize = 0 then .ret .full
  else (connectionStartRead con).bind fun pending =>
    if pending then .clearOverlapped (readLoop con.ccon rounds) else .ret .notPending

/-- What uses the I/O thread. -/
inductive Use
  | poll (curl : Bool) (timeout : ℤ)
  | startRead (con : ReadTarget)
  | read (con : ReadTarget)
  deriving DecidableEq

/-- What comes of it. -/
inductive UseEnd
  | polled (found : Bool)
  | started (pending : Bool)
  | read (result : ReadEnd)
  deriving DecidableEq

/-- One of them. -/
def Use.run (rounds : ℕ) : Use → Call Net Outcome ℕ UseEnd
  | .poll curl timeout => do .ret (.polled (← pollBody curl rounds timeout))
  | .startRead con => do .ret (.started (← (connectionStartRead con).threaded))
  | .read con => do .ret (.read (← (connectionRead rounds con).threaded))

/-- One after another; the errors are caught. -/
def runUses (rounds : ℕ) : List Use → Call Net Outcome ℕ (List (Except String UseEnd))
  | [] => .ret []
  | use :: uses => do
    let result ← (use.run rounds).attempt
    let results ← runUses rounds uses
    .ret (result :: results)

end Processx.Win.Thread
