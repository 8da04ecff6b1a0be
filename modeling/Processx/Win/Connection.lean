import Processx.Connection.Poll
import Processx.Library.SharedQueue

/-!
# Connections on Windows

The Windows half of `processx-connection.c`, and the functions of `win/thread.c` that call the
operating system for it. A read is started with a pointer into the raw buffer and goes on in
the background; when it is over, a completion packet is queued for the handle. The packets of
all connections wait in one queue, and a call for any connection may take and handle them. What
the operating system does is given by answers to the calls and by completions at any moment.
-/

namespace Processx.Win

variable {σ : Type}

/-- What `overlapped` was used for: a read of `todo` bytes to a place in the raw buffer, or a
wait for a client. -/
inductive Overlapped
  | read (offset todo : ℕ)
  | connect
  deriving DecidableEq

/-- A completion packet, with what it is about and the bytes that came. A read that failed has
none. -/
structure Completion where
  op : Overlapped
  bytes : Bytes
  deriving DecidableEq

/-- The error codes that the code tells apart. -/
inductive ErrorCode
  | brokenPipe
  | handleEof
  | ioPending
  | pipeListening
  | pipeConnected
  | other
  deriving DecidableEq

/-- `CreateEvent()` and `CreateIoCompletionPort()`: both succeed, or the first or the second
fails. -/
inductive Setup
  | ready
  | noEvent
  | noPort
  deriving DecidableEq

/-- The answer of `ReadFile()`. One that is pending and over before anybody looks is the same
as a success. -/
inductive ReadFileAnswer
  | success (bytes : Bytes)
  | ioPending
  | brokenPipe
  | handleEof
  | pipeListening
  | other
  deriving DecidableEq

/-- The answer of `ConnectNamedPipe()`, which never succeeds for overlapped handles. -/
inductive ConnectAnswer
  | ioPending
  | pipeConnected
  | other
  deriving DecidableEq

/-- The answers to the calls that start a read. -/
structure Start where
  setup : Setup := .ready
  readFile : ReadFileAnswer := .ioPending
  connectNamedPipe : ConnectAnswer := .ioPending
  deriving DecidableEq

/-- `processx_connection_t`. The raw buffer is memory, as the operating system writes to it.
What only the operating system knows of a handle are `associated`, if it belongs to the
completion port, and `outstanding`. -/
structure Connection (σ : Type) where
  handle : ℕ
  type : FileType := .asyncPipe
  state : SocketState := .unset
  isClosed : Bool := false
  isEof : Bool := false
  isEofRaw : Bool := false
  rawMode : Bool := false
  iconvCtx : Option σ := none
  memory : ℕ → UInt8 := fun _ => 0
  bufferAllocatedSize : ℕ := 0
  bufferDataSize : ℕ := 0
  utf8 : Bytes := []
  utf8AllocatedSize : ℕ := 0
  hEvent : Bool := false
  overlappedOffset : ℕ := 0
  readPending : Bool := false
  connecting : Bool := false
  associated : Bool := false
  outstanding : Option Overlapped := none

/-- The bytes of the raw buffer. -/
def Connection.buffer (ccon : Connection σ) : Bytes :=
  (List.range ccon.bufferDataSize).map ccon.memory

/-- The bytes that come are written behind `offset`. -/
def Connection.fill (ccon : Connection σ) (offset : ℕ) (bytes : Bytes) : Connection σ :=
  { ccon with
    memory := fun i => if offset ≤ i ∧ i < offset + bytes.length then bytes.getD (i - offset) 0
      else ccon.memory i }

/-- The first bytes of the raw buffer are removed, with `memmove()`. -/
def Connection.shift (ccon : Connection σ) (n : ℕ) : Connection σ :=
  { ccon with
    bufferDataSize := ccon.bufferDataSize - n
    memory := fun i => if i < ccon.bufferDataSize - n then ccon.memory (i + n) else ccon.memory i }

/-- `processx__connection_alloc()`. -/
def connectionAlloc (ccon : Connection σ) : Connection σ :=
  { ccon with
    bufferAllocatedSize := 64 * 1024, bufferDataSize := 0
    utf8AllocatedSize := 64 * 1024, utf8 := [] }

/-- `processx__connection_realloc()`. -/
def connectionRealloc (ccon : Connection σ) : Connection σ :=
  let newSize := ccon.utf8AllocatedSize * 6 / 5
  let newSize := if newSize = ccon.utf8AllocatedSize then 2 * newSize else newSize
  { ccon with utf8AllocatedSize := newSize }

/-- `processx__connection_to_utf8()`. -/
def connectionToUtf8 (ic : Riconv σ) (ccon : Connection σ) : ℕ × Connection σ :=
  let inbytesleft := ccon.bufferDataSize
  let outbytesleft := ccon.utf8AllocatedSize - ccon.utf8.length
  let ctx := ccon.iconvCtx.getD ic.open_
  if inbytesleft = 0 ∨ outbytesleft = 0 then (0, { ccon with iconvCtx := some ctx })
  else
    let (inbuf, out, ctx) := toUtf8Loop ic ccon.isEofRaw inbytesleft ctx ccon.buffer outbytesleft []
    let indone := inbytesleft - inbuf.length
    (out.length, { ccon.shift indone with iconvCtx := some ctx, utf8 := ccon.utf8 ++ out })

/-- `is_eof_raw_` is set, and `is_eof_` as well if both buffers are empty. -/
def markEofRaw (ccon : Connection σ) : Connection σ :=
  { ccon with
    isEofRaw := true
    isEof := ccon.isEof || (ccon.utf8.isEmpty && decide (ccon.bufferDataSize = 0)) }

/-- The common first part of `processx_i_thread_readfile()` and `processx_i_thread_connectpipe()`,
and whether it succeeds. -/
def threadSetup (answer : Setup) (ccon : Connection σ) : Bool × Connection σ :=
  let asynchronous := ccon.type = .asyncFile ∨ ccon.type = .asyncPipe ∨ ccon.type = .socket
  let (ok, ccon) :=
    if !ccon.hEvent ∧ asynchronous then
      match answer with
      | .noEvent => (false, ccon)
      | .noPort => (false, { ccon with hEvent := true })
      | .ready => (true, { ccon with hEvent := true, associated := true })
    else (true, ccon)
  if ok ∧ ccon.type ≠ .asyncFile then (ok, { ccon with overlappedOffset := 0 }) else (ok, ccon)

/-- `processx__thread_readfile()`: the error code, if it fails, and the packets queued. There is
a packet for a read that succeeds at once, too. -/
def threadReadFile (start : Start) (offset todo : ℕ) (ccon : Connection σ) :
    Option ErrorCode × Connection σ × List Completion :=
  match threadSetup start.setup ccon with
  | (false, ccon) => (some .other, ccon, [])
  | (true, ccon) =>
    match start.readFile with
    | .success bytes =>
      let bytes := bytes.take todo
      (none, ccon.fill offset bytes, if ccon.associated then [⟨.read offset todo, bytes⟩] else [])
    | .ioPending =>
      (some .ioPending, { ccon with outstanding := some (.read offset todo) }, [])
    | .brokenPipe => (some .brokenPipe, ccon, [])
    | .handleEof => (some .handleEof, ccon, [])
    | .pipeListening => (some .pipeListening, ccon, [])
    | .other => (some .other, ccon, [])

/-- `processx__thread_connectpipe()`. -/
def threadConnectPipe (start : Start) (ccon : Connection σ) : Option ErrorCode × Connection σ :=
  match threadSetup start.setup ccon with
  | (false, ccon) => (some .other, ccon)
  | (true, ccon) =>
    match start.connectNamedPipe with
    | .ioPending => (some .ioPending, { ccon with outstanding := some .connect })
    | .pipeConnected => (some .pipeConnected, ccon)
    | .other => (some .other, ccon)

/-- `processx__connection_start_read()`: the message, if it throws, and the packets queued. -/
def connectionStartRead (ic : Riconv σ) (start : Start) (ccon : Connection σ) :
    Option String × Connection σ × List Completion :=
  if ccon.handle = 0 then (none, ccon, [])
  else if ccon.readPending then (none, ccon, [])
  else
    let ccon := if ccon.bufferAllocatedSize = 0 then connectionAlloc ccon else ccon
    let todo := ccon.bufferAllocatedSize - ccon.bufferDataSize
    let (err, ccon, queued) :=
      if ccon.type = .socket ∧ ccon.state = .listen then
        let (err, ccon) := threadConnectPipe start { ccon with connecting := true }
        (err, ccon, [])
      else threadReadFile start ccon.bufferDataSize todo ccon
    match err with
    | none =>
      -- returned synchronously, but the event will be still signalled
      (none, { ccon with readPending := true }, queued)
    | some err =>
      if err = .brokenPipe ∨ err = .handleEof then
        let ccon := markEofRaw ccon
        (none, if ccon.bufferDataSize ≠ 0 then (connectionToUtf8 ic ccon).2 else ccon, queued)
      else if err = .ioPending then (none, { ccon with readPending := true }, queued)
      else if err = .pipeListening ∧ (ccon.type = .asyncPipe ∨ ccon.type = .socket) then
        -- the result of this call is ignored
        let (_, ccon) :=
          threadConnectPipe start { ccon with readPending := true, connecting := true }
        (none, ccon, queued)
      else if err = .pipeConnected ∧ ccon.type = .socket then
        (none, { ccon with readPending := false, connecting := false, state := .listenPipeReady },
          queued)
      else (some "reading from connection", { ccon with readPending := false }, queued)

/-- `PROCESSX__I_PRE_POLL_FUNC_CONNECTION_READY`: what it returns, if it does. -/
def preReady (ic : Riconv σ) (ccon : Connection σ) : Option PollEvent × Connection σ :=
  if ccon.isClosed then (some .closed, ccon)
  else if ccon.isEof then (some .ready, ccon)
  else if ccon.rawMode then (if ccon.bufferDataSize > 0 then some .ready else none, ccon)
  else if ccon.utf8.length > 0 then (some .ready, ccon)
  else if ccon.bufferDataSize > 0 ∧ ccon.isEofRaw then (some .ready, ccon)
  else if ccon.bufferDataSize > 0 then
    let (_, ccon) := connectionToUtf8 ic ccon
    (if ccon.utf8.length > 0 then some .ready else none, ccon)
  else (none, ccon)

/-- Is the connection a socket that has a client, but is not accepted? -/
def Connection.pipeReady (ccon : Connection σ) : Bool :=
  ccon.type = .socket ∧ ccon.state = .listenPipeReady

/-- `processx_i_pre_poll_func_connection()` -/
def prePollFuncConnection (ic : Riconv σ) (start : Start) (ccon : Connection σ) :
    Except String PollEvent × Connection σ × List Completion :=
  match preReady ic ccon with
  | (some found, ccon) => (.ok found, ccon, [])
  | (none, ccon) =>
    if ccon.pipeReady then (.ok .connect, ccon, [])
    else
      match connectionStartRead ic start ccon with
      | (some msg, ccon, queued) => (.error msg, ccon, queued)
      | (none, ccon, queued) =>
        -- starting to read may actually get some data, or an EOF, so check again
        match preReady ic ccon with
        | (some found, ccon) => (.ok found, ccon, queued)
        | (none, ccon) => (.ok (if ccon.pipeReady then .connect else .handle), ccon, queued)

/-- Bytes have arrived behind those in the raw buffer. -/
def Connection.arrive (ccon : Connection σ) (bytes : ℕ) : Connection σ :=
  { ccon with readPending := false, bufferDataSize := ccon.bufferDataSize + bytes }

/-- What `processx_c_connection_poll()` does with a packet, and the event of the connection if it
is `polled`. -/
def pollPacket (ic : Riconv σ) (polled : Bool) (bytes : ℕ) (con : Connection σ) :
    Option PollEvent × Connection σ :=
  let con := con.arrive bytes
  let con := if con.bufferDataSize > 0 ∧ !con.rawMode then (connectionToUtf8 ic con).2 else con
  let con := if con.type = .asyncFile then
      { con with overlappedOffset := con.overlappedOffset + bytes } else con
  let con := if bytes = 0 ∧ !con.connecting then markEofRaw con else con
  let (found, con) :=
    if polled then
      if con.connecting ∧ con.type = .socket then
        (some .connect, { con with state := .listenPipeReady })
      else (some .ready, con)
    else (none, con)
  (found, { con with connecting := false })

/-- `processx__connection_read()` up to its loop: the result, if it returns at once. -/
def connectionReadStart (ic : Riconv σ) (start : Start) (ccon : Connection σ) :
    Except String (Option ℕ) × Connection σ × List Completion :=
  if ccon.type = .socket ∧ (ccon.state = .listen ∨ ccon.state = .listenPipeReady) then
    (.error "Cannot read from an un-accepted socket connection", ccon, [])
  else if ccon.isEofRaw ∧ ccon.bufferDataSize = 0 then
    (.ok (some 0), if ccon.utf8.length = 0 then { ccon with isEof := true } else ccon, [])
  else
    let ccon := if ccon.bufferAllocatedSize = 0 then connectionAlloc ccon else ccon
    if ccon.bufferAllocatedSize - ccon.bufferDataSize = 0 then
      if ccon.rawMode then (.ok (some ccon.bufferDataSize), ccon, [])
      else
        let (newBytes, ccon) := connectionToUtf8 ic ccon
        (.ok (some newBytes), ccon, [])
    else
      match connectionStartRead ic start ccon with
      | (some msg, ccon, queued) => (.error msg, ccon, queued)
      | (none, ccon, queued) => (.ok (if ccon.readPending then none else some 0), ccon, queued)

/-- What the loop of `processx__connection_read()` does with a packet, and the number that stands
in `bytes` after it. -/
def readPacket (ic : Riconv σ) (bytes : ℕ) (con : Connection σ) : ℕ × Connection σ :=
  let con := con.arrive bytes
  let (bytes, con) :=
    if con.bufferAllocatedSize ≠ 0 ∧ con.bufferDataSize > 0 ∧ !con.rawMode then
      connectionToUtf8 ic con
    else if con.bufferDataSize > 0 then (con.bufferDataSize, con)
    else (bytes, con)
  let con := if con.type = .asyncFile then
      { con with overlappedOffset := con.overlappedOffset + bytes } else con
  (bytes, if bytes = 0 then markEofRaw con else con)

/-- The calls that concern one connection only, and the completion of what is outstanding. -/
inductive Action
  | prePoll (start : Start)
  | readStart (start : Start)
  | takeUtf8 (bytes : ℕ)
  | growUtf8
  | setRaw
  | takeRaw (bytes : ℕ)
  | accept
  | complete (bytes : Bytes)
  deriving DecidableEq

/-- Who takes a packet: a poll, which may be about its connection, or a read. -/
inductive Handler
  | poll (polled : Bool)
  | read
  deriving DecidableEq

/-- The end of `processx_connection_read_bytes()`. -/
def takeRaw (bytes : ℕ) (ccon : Connection σ) : Connection σ :=
  if ccon.rawMode then
    let ccon :=
      if ccon.isEofRaw ∧ ccon.bufferDataSize = 0 then { ccon with isEof := true } else ccon
    ccon.shift (min bytes ccon.bufferDataSize)
  else ccon

/-- `processx_connection_accept_socket()`, when the pipe is connected. -/
def connectionAcceptSocket (ccon : Connection σ) : Connection σ :=
  if ccon.type = .socket ∧ (ccon.state = .listen ∨ ccon.state = .listenPipeReady) then
    { ccon with state := .connectedServer }
  else ccon

/-- The operation is over. A packet is queued if the handle belongs to the completion port. -/
def complete (bytes : Bytes) (ccon : Connection σ) : Connection σ × List Completion :=
  match ccon.outstanding with
  | none => (ccon, [])
  | some (.read offset todo) =>
    let bytes := bytes.take todo
    ({ ccon.fill offset bytes with outstanding := none },
      if ccon.associated then [⟨.read offset todo, bytes⟩] else [])
  | some .connect =>
    ({ ccon with outstanding := none }, if ccon.associated then [⟨.connect, []⟩] else [])

/-- One action. -/
def act (ic : Riconv σ) (a : Action) (ccon : Connection σ) : Connection σ × List Completion :=
  match a with
  | .prePoll start => (prePollFuncConnection ic start ccon).2
  | .readStart start => (connectionReadStart ic start ccon).2
  | .takeUtf8 bytes => ({ ccon with utf8 := ccon.utf8.drop bytes }, [])
  | .growUtf8 => (connectionRealloc ccon, [])
  | .setRaw => ({ ccon with rawMode := true }, [])
  | .takeRaw bytes => (takeRaw bytes ccon, [])
  | .accept => (connectionAcceptSocket ccon, [])
  | .complete bytes => complete bytes ccon

/-- A packet is handled. -/
def handlePacket (ic : Riconv σ) (h : Handler) (p : Completion) (con : Connection σ) :
    Connection σ :=
  match h with
  | .poll polled => (pollPacket ic polled p.bytes.length con).2
  | .read => (readPacket ic p.bytes.length con).2

/-- Connections share the completion port. -/
def machine (ic : Riconv σ) : SharedQueue.Machine (Connection σ) Action Handler Completion where
  act := act ic
  handle := handlePacket ic

/-- A connection with the packets that are queued for it. -/
abbrev Box (σ : Type) := SharedQueue.Box (Connection σ) Completion

/-- What can happen to a connection. -/
abbrev Move := SharedQueue.Move Action Handler

/-- All connections and the completion port. -/
abbrev World (σ : Type) := SharedQueue.System ℕ (Connection σ) Completion

/-- What can happen. -/
abbrev Event := SharedQueue.Event ℕ Action Handler

/-- What a connection is created from. Its handle is valid. -/
structure Opened where
  handle : ℕ
  handle_ne : handle ≠ 0
  type : FileType := .asyncPipe
  state : SocketState := .unset
  encoding : String := ""

/-- `processx_c_connection_create()`, with the state that its caller sets. -/
def cConnectionCreate (o : Opened) : Connection σ :=
  { handle := o.handle, type := o.type, state := o.state
    rawMode := decide (o.encoding = "binary") }

/-- Fresh connections, and no packets. -/
def World.create (opened : ℕ → Opened) : World σ := ⟨fun i => cConnectionCreate (opened i), []⟩

end Processx.Win
