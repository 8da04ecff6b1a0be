import Processx.Win.Connection
import Mathlib.Tactic.Common

/-!
# Pending reads

What starting a read comes to, and what the flags of a connection say of the operation that is
going on: there is at most one, and while there is one the connection has a read pending.
-/

namespace Processx.Win

open SharedQueue

variable {σ : Type} {ic : Riconv σ}

/-- A conversion moves bytes from the raw buffer to the UTF-8 buffer, and touches nothing else. -/
def Converted (ccon ccon' : Connection σ) : Prop :=
  ∃ ctx memory size text, size ≤ ccon.bufferDataSize ∧ (ccon.bufferDataSize = 0 → text = []) ∧
    ccon' = { ccon with
      iconvCtx := ctx, memory := memory, bufferDataSize := size, utf8 := ccon.utf8 ++ text }

/-- Nothing is converted. -/
theorem Converted.refl (ccon : Connection σ) : Converted ccon ccon :=
  ⟨_, _, _, [], Nat.le_refl _, fun _ => rfl, by rw [List.append_nil]⟩

/-- `processx__connection_to_utf8()` changes nothing but the buffers. -/
theorem connectionToUtf8_converted (ic : Riconv σ) (ccon : Connection σ) :
    Converted ccon (connectionToUtf8 ic ccon).2 := by
  unfold connectionToUtf8
  dsimp only
  split
  · exact ⟨_, _, _, [], Nat.le_refl _, fun _ => rfl, by rw [List.append_nil]⟩
  · rename_i hready
    exact ⟨_, _, _, _, Nat.sub_le _ _, fun hnone => absurd (Or.inl hnone) hready, rfl⟩

section Converted

variable {c c' : Connection σ} (h : Converted c c')
include h

/-- A conversion does not touch `read_pending`. -/
theorem Converted.readPending : c'.readPending = c.readPending := by
  obtain ⟨_, _, _, _, _, _, rfl⟩ := h
  rfl

/-- Nor the read that is going on. -/
theorem Converted.outstanding : c'.outstanding = c.outstanding := by
  obtain ⟨_, _, _, _, _, _, rfl⟩ := h
  rfl

/-- Nor the mode. -/
theorem Converted.rawMode : c'.rawMode = c.rawMode := by
  obtain ⟨_, _, _, _, _, _, rfl⟩ := h
  rfl

/-- Nor the end of the file. -/
theorem Converted.isEofRaw : c'.isEofRaw = c.isEofRaw := by
  obtain ⟨_, _, _, _, _, _, rfl⟩ := h
  rfl

/-- Nor the state of a socket. -/
theorem Converted.pipeReady : c'.pipeReady = c.pipeReady := by
  obtain ⟨_, _, _, _, _, _, rfl⟩ := h
  rfl

end Converted

/-- A conversion into an empty UTF-8 buffer. -/
theorem connectionToUtf8_of_loop {c : Connection σ} (hsome : c.bufferDataSize ≠ 0)
    (hempty : c.utf8 = []) (hroom : c.utf8AllocatedSize ≠ 0) {inbuf out : Bytes} {ctx : σ}
    (hloop : toUtf8Loop ic c.isEofRaw c.bufferDataSize (c.iconvCtx.getD ic.open_) c.buffer
      c.utf8AllocatedSize [] = (inbuf, out, ctx)) :
    connectionToUtf8 ic c = (out.length, { c.shift (c.bufferDataSize - inbuf.length) with
      iconvCtx := some ctx, utf8 := out }) := by
  unfold connectionToUtf8
  dsimp only
  rw [hempty, List.length_nil, Nat.sub_zero, if_neg (not_or.mpr ⟨hsome, hroom⟩), hloop]
  rfl

/-- The look for what is ready already does nothing but convert. -/
theorem preReady_converted (ic : Riconv σ) (ccon : Connection σ) :
    Converted ccon (preReady ic ccon).2 := by
  unfold preReady
  split_ifs with h₁ h₂ h₃ h₄ h₅ h₆
  all_goals first | exact Converted.refl ccon | exact connectionToUtf8_converted ic ccon

/-- The connection with its buffers. -/
def Connection.allocated (ccon : Connection σ) : Connection σ :=
  if ccon.bufferAllocatedSize = 0 then connectionAlloc ccon else ccon

/-- Is the connection a socket that waits for its client? -/
def Connection.listening (ccon : Connection σ) : Prop := ccon.type = .socket ∧ ccon.state = .listen

instance (ccon : Connection σ) : Decidable ccon.listening :=
  inferInstanceAs (Decidable (ccon.type = .socket ∧ ccon.state = .listen))

/-- Allocating the buffers starts no read. -/
@[simp] theorem Connection.allocated_outstanding (c : Connection σ) :
    c.allocated.outstanding = c.outstanding := by
  unfold Connection.allocated
  split_ifs <;> rfl

/-- It does not touch `read_pending`. -/
@[simp] theorem Connection.allocated_readPending (c : Connection σ) :
    c.allocated.readPending = c.readPending := by
  unfold Connection.allocated
  split_ifs <;> rfl

/-- Nor the end of the file. -/
@[simp] theorem Connection.allocated_isEofRaw (c : Connection σ) :
    c.allocated.isEofRaw = c.isEofRaw := by
  unfold Connection.allocated
  split_ifs <;> rfl

/-- Nor the completion port. -/
@[simp] theorem Connection.allocated_associated (c : Connection σ) :
    c.allocated.associated = c.associated := by
  unfold Connection.allocated
  split_ifs <;> rfl

/-- Nor the type. -/
@[simp] theorem Connection.allocated_type (c : Connection σ) : c.allocated.type = c.type := by
  unfold Connection.allocated
  split_ifs <;> rfl

/-- Nor the state of a socket. -/
@[simp] theorem Connection.allocated_listening (c : Connection σ) :
    c.allocated.listening ↔ c.listening := by
  unfold Connection.allocated
  split_ifs <;> exact Iff.rfl

/-- The setup touches nothing but the event and the completion port. -/
theorem threadSetup_eq (answer : Setup) (ccon : Connection σ) :
    ∃ ok e a o, threadSetup answer ccon =
      (ok, { ccon with hEvent := e, associated := a, overlappedOffset := o }) := by
  unfold threadSetup
  cases answer <;> dsimp only <;> split_ifs <;> exact ⟨_, _, _, _, rfl⟩

/-- It does not look at the flags. -/
theorem threadSetup_connecting (answer : Setup) (ccon : Connection σ) (c : Bool) :
    threadSetup answer { ccon with connecting := c } =
      ((threadSetup answer ccon).1, { (threadSetup answer ccon).2 with connecting := c }) := by
  unfold threadSetup
  cases answer <;> dsimp only <;> split_ifs <;> rfl

/-- A second setup changes nothing. -/
theorem threadSetup_again {answer : Setup} {ccon ccon' : Connection σ}
    (h : threadSetup answer ccon = (true, ccon'))
    (htype : ccon.type = .asyncPipe ∨ ccon.type = .socket) (r c : Bool) :
    threadSetup answer { ccon' with readPending := r, connecting := c } =
      (true, { ccon' with readPending := r, connecting := c }) := by
  obtain ⟨hevent, hoffset, hfile⟩ :
      ccon'.hEvent = true ∧ ccon'.overlappedOffset = 0 ∧ ccon'.type ≠ .asyncFile := by
    unfold threadSetup at h
    cases hset : ccon.hEvent with
    | true =>
      rcases htype with htype | htype <;> simp [hset, htype] at h <;> subst h <;> simp
    | false =>
      cases answer <;> rcases htype with htype | htype <;> simp [hset, htype] at h <;> subst h <;>
        simp
  unfold threadSetup
  simp [hevent, hfile, ← hoffset]

/-- What starting a read comes to, with the buffers allocated and nothing pending before. -/
inductive Started (ic : Riconv σ) (start : Start) (c : Connection σ) :
    Option String × Connection σ × List Completion → Prop
  | connectPending {e a o} (listening : c.listening)
      (setup : threadSetup start.setup c =
        (true, { c with hEvent := e, associated := a, overlappedOffset := o }))
      (answer : start.connectNamedPipe = .ioPending) :
      Started ic start c (none, { c with
        hEvent := e, associated := a, overlappedOffset := o
        connecting := true, readPending := true, outstanding := some .connect }, [])
  | connected {e a o} (listening : c.listening)
      (setup : threadSetup start.setup c =
        (true, { c with hEvent := e, associated := a, overlappedOffset := o }))
      (answer : start.connectNamedPipe = .pipeConnected) :
      Started ic start c (none, { c with
        hEvent := e, associated := a, overlappedOffset := o
        connecting := false, readPending := false, state := .listenPipeReady }, [])
  | read {e a o bytes} (reading : ¬ c.listening)
      (setup : threadSetup start.setup c =
        (true, { c with hEvent := e, associated := a, overlappedOffset := o }))
      (answer : start.readFile = .success bytes) :
      Started ic start c (none, { c.fill c.bufferDataSize
          (bytes.take (c.bufferAllocatedSize - c.bufferDataSize)) with
        hEvent := e, associated := a, overlappedOffset := o, readPending := true },
        if a then [⟨.read c.bufferDataSize (c.bufferAllocatedSize - c.bufferDataSize),
          bytes.take (c.bufferAllocatedSize - c.bufferDataSize)⟩] else [])
  | readPending {e a o} (reading : ¬ c.listening)
      (setup : threadSetup start.setup c =
        (true, { c with hEvent := e, associated := a, overlappedOffset := o }))
      (answer : start.readFile = .ioPending) :
      Started ic start c (none, { c with
        hEvent := e, associated := a, overlappedOffset := o, readPending := true
        outstanding := some (.read c.bufferDataSize (c.bufferAllocatedSize - c.bufferDataSize)) },
      [])
  | ended {e a o c'} (reading : ¬ c.listening)
      (setup : threadSetup start.setup c =
        (true, { c with hEvent := e, associated := a, overlappedOffset := o }))
      (answer : start.readFile = .brokenPipe ∨ start.readFile = .handleEof)
      (marked : c' = markEofRaw { c with
        hEvent := e, associated := a, overlappedOffset := o }) :
      Started ic start c
        (none, if c.bufferDataSize ≠ 0 then (connectionToUtf8 ic c').2 else c', [])
  | pipeListening {e a o} (reading : ¬ c.listening)
      (setup : threadSetup start.setup c =
        (true, { c with hEvent := e, associated := a, overlappedOffset := o }))
      (answer : start.readFile = .pipeListening) (type : c.type = .asyncPipe ∨ c.type = .socket) :
      Started ic start c (none, { c with
        hEvent := e, associated := a, overlappedOffset := o
        readPending := true, connecting := true
        outstanding := if start.connectNamedPipe = .ioPending then some .connect
          else c.outstanding }, [])
  | thrown {msg e a o conn}
      (failed : (threadSetup start.setup c).1 = true →
        c.listening ∧ start.connectNamedPipe = .other ∨
        ¬ c.listening ∧ (start.readFile = .other ∨
          start.readFile = .pipeListening ∧ ¬ (c.type = .asyncPipe ∨ c.type = .socket))) :
      Started ic start c (some msg, { c with
        hEvent := e, associated := a, overlappedOffset := o
        readPending := false, connecting := conn }, [])

/-- Starting a read comes to one of these. -/
theorem connectionStartRead_started (ic : Riconv σ) (start : Start) {ccon : Connection σ}
    (hhandle : ccon.handle ≠ 0) (hpending : ccon.readPending = false) :
    Started ic start ccon.allocated (connectionStartRead ic start ccon) := by
  unfold connectionStartRead
  rw [if_neg hhandle, if_neg (by simp [hpending])]
  dsimp only
  rw [show (if ccon.bufferAllocatedSize = 0 then connectionAlloc ccon else ccon) =
    ccon.allocated from rfl]
  generalize ccon.allocated = c
  obtain ⟨ok, e, a, o, hset⟩ := threadSetup_eq start.setup c
  by_cases hlisten : c.type = .socket ∧ c.state = .listen
  · rw [if_pos hlisten]
    unfold threadConnectPipe
    rw [threadSetup_connecting, hset]
    cases ok with
    | false => exact .thrown (by rw [hset]; nofun)
    | true =>
      cases hanswer : start.connectNamedPipe with
      | ioPending => exact .connectPending hlisten hset hanswer
      | pipeConnected => simpa [hlisten.1] using Started.connected hlisten hset hanswer
      | other => exact .thrown fun _ => Or.inl ⟨hlisten, hanswer⟩
  · rw [if_neg hlisten]
    unfold threadReadFile
    rw [hset]
    cases ok with
    | false => exact .thrown (by rw [hset]; nofun)
    | true =>
      cases hanswer : start.readFile with
      | success bytes => exact .read hlisten hset hanswer
      | ioPending => exact .readPending hlisten hset hanswer
      | brokenPipe => exact .ended hlisten hset (Or.inl hanswer) rfl
      | handleEof => exact .ended hlisten hset (Or.inr hanswer) rfl
      | pipeListening =>
        by_cases htype : c.type = .asyncPipe ∨ c.type = .socket
        · have hagain := threadSetup_again hset htype true true
          have hstarted : Started ic start c _ := .pipeListening hlisten hset hanswer htype
          unfold threadConnectPipe
          simp only [htype, hagain]
          cases hconnect : start.connectNamedPipe <;> simpa [hconnect] using hstarted
        · simpa [htype] using Started.thrown fun _ => Or.inr ⟨hlisten, Or.inr ⟨hanswer, htype⟩⟩
      | other => exact .thrown fun _ => Or.inr ⟨hlisten, Or.inl hanswer⟩

/-- What asking for the event of a connection comes to. -/
inductive PrePolled (ic : Riconv σ) (start : Start) (c : Connection σ) :
    Except String PollEvent × Connection σ × List Completion → Prop
  | found {found} (ready : (preReady ic c).1 ≠ none ∨ (preReady ic c).2.pipeReady = true)
      (found_ne : found ≠ .handle) : PrePolled ic start c (.ok found, (preReady ic c).2, [])
  | thrown {msg c' queued} (unready : (preReady ic c).1 = none)
      (unconnected : (preReady ic c).2.pipeReady = false)
      (started : connectionStartRead ic start (preReady ic c).2 = (some msg, c', queued)) :
      PrePolled ic start c (.error msg, c', queued)
  | started {found c' queued} (unready : (preReady ic c).1 = none)
      (unconnected : (preReady ic c).2.pipeReady = false)
      (started : connectionStartRead ic start (preReady ic c).2 = (none, c', queued))
      (handle_iff : found = .handle ↔ (preReady ic c').1 = none ∧ c'.pipeReady = false) :
      PrePolled ic start c (.ok found, (preReady ic c').2, queued)

/-- The macro never returns `PXHANDLE`. -/
theorem preReady_ne_handle (ic : Riconv σ) (ccon : Connection σ) :
    (preReady ic ccon).1 ≠ some .handle := by
  unfold preReady
  split_ifs <;> simp

/-- What the start of a poll can do to a connection. -/
theorem prePollFuncConnection_prePolled (ic : Riconv σ) (start : Start) (ccon : Connection σ) :
    PrePolled ic start ccon (prePollFuncConnection ic start ccon) := by
  unfold prePollFuncConnection
  rcases hfirst : preReady ic ccon with ⟨_ | found, c₁⟩
  · dsimp only
    cases hconnect : c₁.pipeReady with
    | true =>
      have hfound : PrePolled ic start ccon (.ok .connect, (preReady ic ccon).2, []) :=
        .found (Or.inr (by rw [hfirst]; exact hconnect)) nofun
      simpa [hfirst] using hfound
    | false =>
      simp only [Bool.false_eq_true, if_false]
      have hunready : (preReady ic ccon).1 = none := by rw [hfirst]
      have hunconnected : (preReady ic ccon).2.pipeReady = false := by rw [hfirst]; exact hconnect
      rcases hstart : connectionStartRead ic start c₁ with ⟨_ | msg, c', queued⟩
      · have hstarted : connectionStartRead ic start (preReady ic ccon).2 = (none, c', queued) := by
          rw [hfirst]
          exact hstart
        rcases hsecond : preReady ic c' with ⟨_ | found, c₂⟩
        · have hsame : c₂.pipeReady = c'.pipeReady := by
            have hconv := (preReady_converted ic c').pipeReady
            rwa [hsecond] at hconv
          have hresult : PrePolled ic start ccon
              (.ok (if c₂.pipeReady then .connect else .handle), (preReady ic c').2, queued) :=
            .started hunready hunconnected hstarted
              (by rw [hsecond, hsame]; cases c'.pipeReady <;> simp)
          simpa [hsecond] using hresult
        · have hne := preReady_ne_handle ic c'
          rw [hsecond] at hne
          have hresult : PrePolled ic start ccon (.ok found, (preReady ic c').2, queued) :=
            .started hunready hunconnected hstarted (by rw [hsecond]; simpa using hne)
          simpa [hsecond] using hresult
      · exact .thrown hunready hunconnected (by rw [hfirst]; exact hstart)
  · have hne := preReady_ne_handle ic ccon
    rw [hfirst] at hne
    have hfound : PrePolled ic start ccon (.ok found, (preReady ic ccon).2, []) :=
      .found (Or.inl (by rw [hfirst]; nofun)) (by simpa using hne)
    simpa [hfirst] using hfound

/-- Is the connection a socket that is not accepted? -/
def Connection.unaccepted (ccon : Connection σ) : Prop :=
  ccon.type = .socket ∧ (ccon.state = .listen ∨ ccon.state = .listenPipeReady)

/-- Is there no room in the raw buffer? -/
def Connection.full (ccon : Connection σ) : Prop :=
  ccon.bufferAllocatedSize ≠ 0 ∧ ccon.bufferAllocatedSize ≤ ccon.bufferDataSize

instance (ccon : Connection σ) : Decidable ccon.unaccepted :=
  inferInstanceAs (Decidable (_ ∧ _))

instance (ccon : Connection σ) : Decidable ccon.full :=
  inferInstanceAs (Decidable (_ ∧ _))

/-- What a read before its loop comes to. -/
inductive ReadStarted (ic : Riconv σ) (start : Start) (c : Connection σ) :
    Except String (Option ℕ) × Connection σ × List Completion → Prop
  | unaccepted {msg} (unaccepted : c.unaccepted) : ReadStarted ic start c (.error msg, c, [])
  | ended {eof} (ended : c.isEofRaw = true ∧ c.bufferDataSize = 0) :
      ReadStarted ic start c (.ok (some 0), { c with isEof := eof }, [])
  | full {n} (full : c.full) (raw : c.rawMode = true) :
      ReadStarted ic start c (.ok (some n), c, [])
  | converted {n} (full : c.full) (text : c.rawMode = false) (accepted : ¬ c.unaccepted) :
      ReadStarted ic start c (.ok (some n), (connectionToUtf8 ic c).2, [])
  | started {result msg c' queued} (accepted : ¬ c.unaccepted)
      (unended : ¬ (c.isEofRaw = true ∧ c.bufferDataSize = 0)) (room : ¬ c.full)
      (started : connectionStartRead ic start c.allocated = (msg, c', queued)) :
      ReadStarted ic start c (result, c', queued)

/-- What the start of a read can do to a connection. -/
theorem connectionReadStart_readStarted (ic : Riconv σ) (start : Start) (c : Connection σ) :
    ReadStarted ic start c (connectionReadStart ic start c) := by
  unfold connectionReadStart
  by_cases haccepted : c.type = .socket ∧ (c.state = .listen ∨ c.state = .listenPipeReady)
  · rw [if_pos haccepted]
    exact .unaccepted haccepted
  rw [if_neg haccepted]
  by_cases hended : c.isEofRaw = true ∧ c.bufferDataSize = 0
  · rw [if_pos hended]
    split_ifs
    · exact .ended hended
    · exact .ended hended
  rw [if_neg hended]
  dsimp only
  rw [show (if c.bufferAllocatedSize = 0 then connectionAlloc c else c) = c.allocated from rfl]
  by_cases hfull : c.full
  · obtain ⟨hsome, hsize⟩ := hfull
    have hallocated : c.allocated = c := if_neg hsome
    rw [hallocated, if_pos (Nat.sub_eq_zero_of_le hsize)]
    cases hraw : c.rawMode with
    | true => exact .full ⟨hsome, hsize⟩ hraw
    | false => exact .converted ⟨hsome, hsize⟩ hraw haccepted
  · have hroom : c.allocated.bufferAllocatedSize - c.allocated.bufferDataSize ≠ 0 := by
      unfold Connection.allocated
      split_ifs with hnone
      · simp [connectionAlloc]
      · have hlt : c.bufferDataSize < c.bufferAllocatedSize :=
          Nat.lt_of_not_le fun hle => hfull ⟨hnone, hle⟩
        omega
    rw [if_neg hroom]
    rcases hstart : connectionStartRead ic start c.allocated with ⟨_ | msg, c', queued⟩
    · exact .started haccepted hended hfull hstart
    · exact .started haccepted hended hfull hstart

/-- The operations of a connection that are going on, or over with their packets queued. -/
def ops (b : Box σ) : List Overlapped := b.state.outstanding.toList ++ b.waiting.map Completion.op

/-- There is at most one operation, and a read is pending while there is one. This holds with a
closed handle, too. -/
structure Matched (b : Box σ) : Prop where
  one : (ops b).length ≤ 1
  pending : ops b ≠ [] → b.state.readPending = true

/-- Nothing is going on. -/
theorem Matched.of_idle {c : Connection σ} (hidle : c.outstanding = none) :
    Matched (⟨c, []⟩ : Box σ) := by
  have hnil : ops ⟨c, []⟩ = [] := by simp [ops, hidle]
  exact ⟨by simp [hnil], fun hne => absurd hnil hne⟩

/-- A connection with one operation. -/
theorem Matched.of_one {c : Connection σ} {waiting : List Completion} (op : Overlapped)
    (hpending : c.readPending = true) (hops : ops ⟨c, waiting⟩ = [op]) : Matched ⟨c, waiting⟩ :=
  ⟨by simp [hops], fun _ => hpending⟩

/-- Nothing is going on while no read is pending. -/
theorem Matched.idle {c : Connection σ} {waiting : List Completion} (h : Matched ⟨c, waiting⟩)
    (hpending : c.readPending = false) : ops ⟨c, waiting⟩ = [] := by
  by_contra hne
  have hset := h.pending hne
  rw [hpending] at hset
  cases hset

/-- A change of other fields. -/
theorem Matched.same {c c' : Connection σ} {waiting : List Completion} (h : Matched ⟨c, waiting⟩)
    (hpending : c'.readPending = c.readPending) (hout : c'.outstanding = c.outstanding) :
    Matched ⟨c', waiting⟩ := by
  have hops : ops ⟨c', waiting⟩ = ops ⟨c, waiting⟩ := by simp only [ops, hout]
  refine ⟨hops ▸ h.one, fun hne => ?_⟩
  rw [hops] at hne
  exact hpending.trans (h.pending hne)

/-- After a conversion the packets still match the reads. -/
theorem Matched.converted {c c' : Connection σ} {waiting : List Completion}
    (h : Matched ⟨c, waiting⟩) (hconv : Converted c c') : Matched ⟨c', waiting⟩ :=
  h.same hconv.readPending hconv.outstanding

/-- When a packet is taken, nothing else is going on for its connection. -/
theorem Matched.last {c : Connection σ} {p : Completion} {rest : List Completion}
    (h : Matched ⟨c, p :: rest⟩) : c.outstanding = none ∧ rest = [] := by
  have hone := h.one
  simp only [ops, List.length_append, List.map_cons, List.length_cons, List.length_map] at hone
  constructor
  · exact Option.toList_eq_nil_iff.mp (List.length_eq_zero_iff.mp (by omega))
  · exact List.length_eq_zero_iff.mp (by omega)

/-- While an operation is going on, no packet is queued. -/
theorem Matched.unqueued {c : Connection σ} {waiting : List Completion} {op : Overlapped}
    (h : Matched ⟨c, waiting⟩) (hout : c.outstanding = some op) : waiting = [] := by
  have hone := h.one
  simp only [ops, hout, Option.toList_some, List.length_append, List.length_map,
    List.length_singleton] at hone
  exact List.length_eq_zero_iff.mp (by omega)

/-- What the flags of a connection say of its operations. -/
structure Paired (b : Box σ) : Prop where
  handle_ne : b.state.handle ≠ 0
  unallocated : b.state.bufferAllocatedSize = 0 → b.state.bufferDataSize = 0 ∧ b.state.utf8 = []
  one : (ops b).length ≤ 1
  pending : ops b ≠ [] → b.state.readPending = true ∧ b.state.bufferAllocatedSize ≠ 0
  connecting : Overlapped.connect ∈ ops b → b.state.connecting = true
  empty : ∀ p ∈ b.waiting, p.op = .connect → p.bytes = []

/-- If each read has its packet, then each packet has its read. -/
theorem Paired.matched {b : Box σ} (h : Paired b) : Matched b :=
  ⟨h.one, fun hne => (h.pending hne).1⟩

/-- Nothing is going on while no read is pending. -/
theorem Paired.idle {b : Box σ} (h : Paired b) (hpending : b.state.readPending = false) :
    b.state.outstanding = none ∧ b.waiting = [] := by
  simpa [ops] using h.matched.idle hpending

/-- A change of other fields. -/
theorem Paired.same {c c' : Connection σ} {waiting : List Completion}
    (h : Paired ⟨c, waiting⟩)
    (hsame : (c'.handle, c'.readPending, c'.connecting, c'.bufferAllocatedSize, c'.outstanding) =
      (c.handle, c.readPending, c.connecting, c.bufferAllocatedSize, c.outstanding))
    (hbuffers : c.bufferDataSize = 0 ∧ c.utf8 = [] → c'.bufferDataSize = 0 ∧ c'.utf8 = []) :
    Paired ⟨c', waiting⟩ := by
  obtain ⟨hhandle, hpending, hconnecting, hsize, houtstanding⟩ := by
    simpa only [Prod.mk.injEq] using hsame
  have hops : ops ⟨c', waiting⟩ = ops ⟨c, waiting⟩ := by simp only [ops, houtstanding]
  obtain ⟨hne, hun, hone, hpend, hconn, hempty⟩ := h
  refine ⟨hhandle ▸ hne, fun hnone => hbuffers (hun (hsize ▸ hnone)), hops ▸ hone, ?_, ?_, hempty⟩
  · rw [hops]
    intro hsome
    exact ⟨hpending.trans (hpend hsome).1, fun hnone => (hpend hsome).2 (hsize ▸ hnone)⟩
  · rw [hops]
    exact fun hmem => hconnecting.trans (hconn hmem)

/-- After a conversion each read still has its packet. -/
theorem Paired.converted {c c' : Connection σ} {waiting : List Completion}
    (h : Paired ⟨c, waiting⟩) (hconv : Converted c c') : Paired ⟨c', waiting⟩ := by
  obtain ⟨ctx, memory, size, text, hle, hnone, rfl⟩ := hconv
  refine h.same rfl fun ⟨hsize, htext⟩ => ⟨?_, ?_⟩
  · show size = 0
    omega
  · show c.utf8 ++ text = []
    rw [htext, hnone hsize, List.append_nil]

/-- A connection for which nothing is going on. -/
theorem Paired.of_idle {c : Connection σ} (hhandle : c.handle ≠ 0)
    (hun : c.bufferAllocatedSize = 0 → c.bufferDataSize = 0 ∧ c.utf8 = [])
    (hidle : c.outstanding = none) : Paired ⟨c, []⟩ := by
  have hnil : ops ⟨c, []⟩ = [] := by simp [ops, hidle]
  refine ⟨hhandle, hun, by simp [hnil], fun hne => absurd hnil hne, ?_, nofun⟩
  rw [hnil]
  exact nofun

/-- A connection with one operation. -/
theorem Paired.of_one {c : Connection σ} {waiting : List Completion} (op : Overlapped)
    (hhandle : c.handle ≠ 0) (hsize : c.bufferAllocatedSize ≠ 0) (hpending : c.readPending = true)
    (hops : ops ⟨c, waiting⟩ = [op]) (hconnect : op = .connect → c.connecting = true)
    (hempty : ∀ p ∈ waiting, p.op = .connect → p.bytes = []) : Paired ⟨c, waiting⟩ := by
  refine ⟨hhandle, fun hnone => absurd hnone hsize, by simp [hops], fun _ => ⟨hpending, hsize⟩, ?_,
    hempty⟩
  rw [hops]
  exact fun hmem => hconnect (List.mem_singleton.mp hmem).symm

/-- There is a buffer when it was allocated. -/
theorem Connection.allocated_ne (c : Connection σ) : c.allocated.bufferAllocatedSize ≠ 0 := by
  unfold Connection.allocated
  split_ifs with hnone
  · simp [connectionAlloc]
  · exact hnone

/-- Allocating the buffers leaves each read its packet. -/
theorem Paired.allocated {c : Connection σ} {waiting : List Completion}
    (h : Paired ⟨c, waiting⟩) : Paired ⟨c.allocated, waiting⟩ := by
  by_cases hnone : c.bufferAllocatedSize = 0
  · have hnil : ops ⟨c, waiting⟩ = [] := by
      by_contra hne
      exact (h.pending hne).2 hnone
    obtain ⟨hidle, hwaiting⟩ : c.outstanding = none ∧ waiting = [] := by simpa [ops] using hnil
    subst hwaiting
    rw [Connection.allocated, if_pos hnone]
    exact .of_idle h.handle_ne (fun _ => ⟨rfl, rfl⟩) hidle
  · rwa [Connection.allocated, if_neg hnone]

/-- Starting a read starts at most one operation. -/
theorem Paired.started {c : Connection σ} {start : Start} {msg : Option String}
    {c' : Connection σ} {queued : List Completion} (h : Paired ⟨c, []⟩)
    (hidle : c.outstanding = none) (hsize : c.bufferAllocatedSize ≠ 0)
    (hstarted : Started ic start c (msg, c', queued)) : Paired ⟨c', queued⟩ := by
  have hun : ∀ {P : Prop}, c.bufferAllocatedSize = 0 → P := fun hnone => absurd hnone hsize
  cases hstarted with
  | connectPending => exact .of_one .connect h.handle_ne hsize rfl rfl (fun _ => rfl) nofun
  | connected => exact .of_idle h.handle_ne hun hidle
  | @read e a o bytes =>
    cases a with
    | true =>
      have hops : ops ⟨{ c.fill c.bufferDataSize
        (bytes.take (c.bufferAllocatedSize - c.bufferDataSize)) with
          hEvent := e, associated := true, overlappedOffset := o, readPending := true },
          [⟨.read c.bufferDataSize (c.bufferAllocatedSize - c.bufferDataSize),
            bytes.take (c.bufferAllocatedSize - c.bufferDataSize)⟩]⟩ =
          [.read c.bufferDataSize (c.bufferAllocatedSize - c.bufferDataSize)] := by
        simp [ops, Connection.fill, hidle]
      refine .of_one _ h.handle_ne hsize rfl hops nofun ?_
      simp
    | false => exact .of_idle h.handle_ne hun hidle
  | readPending => exact .of_one _ h.handle_ne hsize rfl rfl nofun nofun
  | @ended e a o c'' _ _ _ hmarked =>
    have hmark : Paired ⟨c'', []⟩ := by
      subst hmarked
      exact .of_idle h.handle_ne hun hidle
    split_ifs
    · exact hmark.converted (connectionToUtf8_converted ic c'')
    · exact hmark
  | pipeListening =>
    by_cases hconnect : start.connectNamedPipe = .ioPending
    · exact .of_one .connect h.handle_ne hsize rfl (by simp [ops, hconnect]) (fun _ => rfl) nofun
    · exact .of_idle h.handle_ne hun (by rw [if_neg hconnect]; exact hidle)
  | thrown => exact .of_idle h.handle_ne hun hidle

/-- While a read is pending, a second one is not started. -/
theorem connectionStartRead_of_pending (ic : Riconv σ) (start : Start) {c : Connection σ}
    (hpending : c.readPending = true) : connectionStartRead ic start c = (none, c, []) := by
  unfold connectionStartRead
  split_ifs <;> rfl

/-- So does the start of a read. -/
theorem Paired.startRead {c : Connection σ} {waiting : List Completion} {start : Start}
    {msg : Option String} {c' : Connection σ} {queued : List Completion}
    (h : Paired ⟨c, waiting⟩) (hstart : connectionStartRead ic start c = (msg, c', queued)) :
    Paired ⟨c', waiting ++ queued⟩ := by
  cases hpending : c.readPending with
  | true =>
    rw [connectionStartRead_of_pending ic start hpending] at hstart
    obtain ⟨_, rfl, rfl⟩ := by simpa only [Prod.mk.injEq] using hstart
    rwa [List.append_nil]
  | false =>
    obtain ⟨hidle, hwaiting⟩ := h.idle hpending
    have hstarted := connectionStartRead_started ic start h.handle_ne hpending
    rw [hstart] at hstarted
    dsimp only at hwaiting
    subst hwaiting
    have hidle' := c.allocated_outstanding.trans hidle
    exact h.allocated.started hidle' c.allocated_ne hstarted

/-- Starting a read starts at most one operation. -/
theorem Matched.started {c : Connection σ} {start : Start} {msg : Option String}
    {c' : Connection σ} {queued : List Completion} (hidle : c.outstanding = none)
    (hstarted : Started ic start c (msg, c', queued)) : Matched ⟨c', queued⟩ := by
  cases hstarted with
  | connectPending => exact .of_one .connect rfl rfl
  | connected => exact .of_idle hidle
  | @read e a o bytes =>
    cases a with
    | true =>
      refine .of_one (.read c.bufferDataSize (c.bufferAllocatedSize - c.bufferDataSize)) rfl ?_
      simp [ops, Connection.fill, hidle]
    | false => exact .of_idle hidle
  | readPending => exact .of_one _ rfl rfl
  | @ended e a o c'' _ _ _ hmarked =>
    have hmark : Matched ⟨c'', []⟩ := by
      subst hmarked
      exact .of_idle hidle
    split_ifs
    · exact hmark.converted (connectionToUtf8_converted ic c'')
    · exact hmark
  | pipeListening =>
    by_cases hconnect : start.connectNamedPipe = .ioPending
    · exact .of_one .connect rfl (by simp [ops, hconnect])
    · exact .of_idle (by rw [if_neg hconnect]; exact hidle)
  | thrown => exact .of_idle hidle

/-- The start of a read adds a packet for its own read only. -/
theorem Matched.startRead {c : Connection σ} {waiting : List Completion} {start : Start}
    {msg : Option String} {c' : Connection σ} {queued : List Completion}
    (h : Matched ⟨c, waiting⟩) (hstart : connectionStartRead ic start c = (msg, c', queued)) :
    Matched ⟨c', waiting ++ queued⟩ := by
  by_cases hclosed : c.handle = 0
  · have hnothing : connectionStartRead ic start c = (none, c, []) := if_pos hclosed
    rw [hnothing] at hstart
    obtain ⟨_, rfl, rfl⟩ := by simpa only [Prod.mk.injEq] using hstart
    rwa [List.append_nil]
  cases hpending : c.readPending with
  | true =>
    rw [connectionStartRead_of_pending ic start hpending] at hstart
    obtain ⟨_, rfl, rfl⟩ := by simpa only [Prod.mk.injEq] using hstart
    rwa [List.append_nil]
  | false =>
    obtain ⟨hidle, hwaiting⟩ : c.outstanding = none ∧ waiting = [] := by
      simpa [ops] using h.idle hpending
    have hstarted := connectionStartRead_started ic start hclosed hpending
    rw [hstart] at hstarted
    subst hwaiting
    exact .started (c.allocated_outstanding.trans hidle) hstarted

/-- What handling a packet does to a connection, and whether that is the end of its file. -/
structure Handled (c c' : Connection σ) (ended : Bool) : Prop where
  handle : c'.handle = c.handle
  size : c'.bufferAllocatedSize = c.bufferAllocatedSize
  outstanding : c'.outstanding = c.outstanding
  readPending : c'.readPending = false
  isEofRaw : c'.isEofRaw = (c.isEofRaw || ended)

/-- A packet that brings bytes is handled by a conversion. -/
theorem Handled.of_converted {c c' : Connection σ} {bytes : ℕ}
    (h : Converted (c.arrive bytes) c') : Handled c c' false := by
  obtain ⟨_, _, _, _, _, _, rfl⟩ := h
  exact ⟨rfl, rfl, rfl, rfl, (Bool.or_false _).symm⟩

/-- A packet without bytes marks the end of the file. -/
theorem Handled.mark {c c' : Connection σ} {ended : Bool} (h : Handled c c' ended) :
    Handled c (markEofRaw c') true :=
  ⟨h.handle, h.size, h.outstanding, h.readPending, (Bool.or_true _).symm⟩

/-- The fields that `Handled` does not mention may change. -/
theorem Handled.update {c c' : Connection σ} {ended : Bool} (h : Handled c c' ended)
    (state : SocketState) (offset : ℕ) (connecting : Bool) :
    Handled c { c' with
      state := state, overlappedOffset := offset, connecting := connecting } ended :=
  ⟨h.handle, h.size, h.outstanding, h.readPending, h.isEofRaw⟩

/-- A poll takes a packet without bytes for the end, unless a client was waited for. -/
theorem pollPacket_handled (ic : Riconv σ) (polled : Bool) (bytes : ℕ) (c : Connection σ) :
    Handled c (pollPacket ic polled bytes c).2 (bytes == 0 && !c.connecting) := by
  unfold pollPacket
  dsimp only
  obtain ⟨c₁, hc₁, hhandled₁, hconnecting₁⟩ : ∃ c₁,
      (if (c.arrive bytes).bufferDataSize > 0 ∧ (!(c.arrive bytes).rawMode) = true then
        (connectionToUtf8 ic (c.arrive bytes)).2 else c.arrive bytes) = c₁ ∧
        Handled c c₁ false ∧ c₁.connecting = c.connecting := by
    have hsame : ∀ c', Converted (c.arrive bytes) c' → c'.connecting = c.connecting := by
      rintro c' ⟨_, _, _, _, _, _, rfl⟩
      rfl
    split_ifs
    · have hconv := connectionToUtf8_converted ic (c.arrive bytes)
      exact ⟨_, rfl, .of_converted hconv, hsame _ hconv⟩
    · exact ⟨_, rfl, .of_converted (.refl _), rfl⟩
  rw [hc₁]
  obtain ⟨c₂, hc₂, hhandled₂, hconnecting₂⟩ : ∃ c₂, (if c₁.type = .asyncFile then
      { c₁ with overlappedOffset := c₁.overlappedOffset + bytes } else c₁) = c₂ ∧
      Handled c c₂ false ∧ c₂.connecting = c.connecting := by
    split_ifs
    · exact ⟨_, rfl, hhandled₁.update _ _ _, hconnecting₁⟩
    · exact ⟨_, rfl, hhandled₁, hconnecting₁⟩
  rw [hc₂, hconnecting₂]
  obtain ⟨c₃, hc₃, hhandled₃⟩ : ∃ c₃,
      (if bytes = 0 ∧ (!c.connecting) = true then markEofRaw c₂ else c₂) = c₃ ∧
        Handled c c₃ (bytes == 0 && !c.connecting) := by
    by_cases hended : bytes = 0 ∧ (!c.connecting) = true
    · rw [if_pos hended, show (bytes == 0 && !c.connecting) = true by simpa using hended]
      exact ⟨_, rfl, hhandled₂.mark⟩
    · rw [if_neg hended, show (bytes == 0 && !c.connecting) = false by simpa using hended]
      exact ⟨_, rfl, hhandled₂⟩
  rw [hc₃]
  split_ifs
  · exact hhandled₃.update _ _ _
  · exact hhandled₃.update _ _ _
  · exact hhandled₃.update _ _ _

/-- A read takes a packet for the end if no bytes came and nothing came out of the conversion. -/
theorem readPacket_handled (ic : Riconv σ) (bytes : ℕ) (c : Connection σ) :
    Handled c (readPacket ic bytes c).2 ((readPacket ic bytes c).1 == 0) := by
  unfold readPacket
  dsimp only
  obtain ⟨n, c₁, hc₁, hhandled₁⟩ : ∃ n c₁,
      (if (c.arrive bytes).bufferAllocatedSize ≠ 0 ∧ (c.arrive bytes).bufferDataSize > 0 ∧
          (!(c.arrive bytes).rawMode) = true then connectionToUtf8 ic (c.arrive bytes)
        else if (c.arrive bytes).bufferDataSize > 0 then
          ((c.arrive bytes).bufferDataSize, c.arrive bytes)
        else (bytes, c.arrive bytes)) = (n, c₁) ∧ Handled c c₁ false := by
    split_ifs
    · exact ⟨_, _, rfl, .of_converted (connectionToUtf8_converted ic _)⟩
    · exact ⟨_, _, rfl, .of_converted (.refl _)⟩
    · exact ⟨_, _, rfl, .of_converted (.refl _)⟩
  rw [hc₁]
  dsimp only
  obtain ⟨c₂, hc₂, hhandled₂⟩ : ∃ c₂, (if c₁.type = .asyncFile then
      { c₁ with overlappedOffset := c₁.overlappedOffset + n } else c₁) = c₂ ∧
        Handled c c₂ false := by
    split_ifs
    · exact ⟨_, rfl, hhandled₁.update _ _ _⟩
    · exact ⟨_, rfl, hhandled₁⟩
  rw [hc₂]
  by_cases hended : n = 0
  · rw [if_pos hended, beq_iff_eq.mpr hended]
    exact hhandled₂.mark
  · rw [if_neg hended, beq_eq_false_iff_ne.mpr hended]
    exact hhandled₂

/-- Each handler of packets does one of them. -/
theorem handlePacket_handled (ic : Riconv σ) (handler : Handler) (p : Completion)
    (c : Connection σ) :
    ∃ ended, Handled c (handlePacket ic handler p c) ended := by
  cases handler with
  | poll polled => exact ⟨_, pollPacket_handled ic polled p.bytes.length c⟩
  | read => exact ⟨_, readPacket_handled ic p.bytes.length c⟩

/-- When a packet is taken, nothing else is going on for its connection. -/
theorem Paired.last {c : Connection σ} {p : Completion} {rest : List Completion}
    (h : Paired ⟨c, p :: rest⟩) : c.outstanding = none ∧ rest = [] := h.matched.last

/-- While an operation is going on, no packet is queued. -/
theorem Paired.unqueued {c : Connection σ} {waiting : List Completion} {op : Overlapped}
    (h : Paired ⟨c, waiting⟩) (hout : c.outstanding = some op) : waiting = [] :=
  h.matched.unqueued hout

/-- The calls that neither start a read nor end one. -/
def Action.IsLocal : Action → Prop
  | .prePoll _ | .readStart _ | .complete _ => False
  | _ => True

/-- What such a call leaves alone: it takes bytes from the raw buffer in raw mode only. -/
structure Local (c c' : Connection σ) : Prop where
  same : (c'.handle, c'.readPending, c'.connecting, c'.bufferAllocatedSize, c'.outstanding) =
    (c.handle, c.readPending, c.connecting, c.bufferAllocatedSize, c.outstanding)
  associated : c'.associated = c.associated
  isEofRaw : c'.isEofRaw = c.isEofRaw
  empty : c.bufferDataSize = 0 ∧ c.utf8 = [] → c'.bufferDataSize = 0 ∧ c'.utf8 = []
  text : c'.rawMode = false →
    c.rawMode = false ∧ c'.memory = c.memory ∧ c'.bufferDataSize = c.bufferDataSize

/-- What is done to a connection without the operating system starts and ends no read. -/
theorem Local.reads {c c' : Connection σ} (h : Local c c') :
    c'.readPending = c.readPending ∧ c'.outstanding = c.outstanding := by
  obtain ⟨_, hpending, _, _, hout⟩ := by simpa only [Prod.mk.injEq] using h.same
  exact ⟨hpending, hout⟩

/-- Nothing is done. -/
theorem Local.refl (c : Connection σ) : Local c c :=
  ⟨rfl, rfl, rfl, id, fun htext => ⟨htext, rfl, rfl⟩⟩

/-- Taking raw bytes asks nothing of the operating system. -/
theorem takeRaw_local (bytes : ℕ) (c : Connection σ) : Local c (takeRaw bytes c) := by
  unfold takeRaw
  split_ifs with hraw hended
  · refine ⟨rfl, rfl, rfl, fun ⟨hsize, htext⟩ => ⟨by simp [Connection.shift, hsize], htext⟩, ?_⟩
    exact fun htext => absurd (hraw.symm.trans htext) Bool.true_eq_false.mp
  · refine ⟨rfl, rfl, rfl, fun ⟨hsize, htext⟩ => ⟨by simp [Connection.shift, hsize], htext⟩, ?_⟩
    exact fun htext => absurd (hraw.symm.trans htext) Bool.true_eq_false.mp
  · exact .refl c

/-- Nor does accepting a socket. -/
theorem connectionAcceptSocket_local (c : Connection σ) : Local c (connectionAcceptSocket c) := by
  unfold connectionAcceptSocket
  split_ifs
  · exact ⟨rfl, rfl, rfl, id, fun htext => ⟨htext, rfl, rfl⟩⟩
  · exact .refl c

/-- A call that neither starts a read nor ends one queues no packet. -/
theorem act_local (ic : Riconv σ) {a : Action} (ha : a.IsLocal) (c : Connection σ) :
    Local c (act ic a c).1 ∧ (act ic a c).2 = [] := by
  cases a with
  | prePoll start => exact ha.elim
  | readStart start => exact ha.elim
  | complete bytes => exact ha.elim
  | takeUtf8 bytes =>
    refine ⟨⟨rfl, rfl, rfl, fun ⟨hsize, htext⟩ => ⟨hsize, ?_⟩, fun htext => ⟨htext, rfl, rfl⟩⟩, rfl⟩
    show c.utf8.drop bytes = []
    rw [htext, List.drop_nil]
  | growUtf8 => exact ⟨⟨rfl, rfl, rfl, id, fun htext => ⟨htext, rfl, rfl⟩⟩, rfl⟩
  | setRaw => exact ⟨⟨rfl, rfl, rfl, id, fun htext => absurd htext Bool.true_eq_false.mp⟩, rfl⟩
  | takeRaw bytes => exact ⟨takeRaw_local bytes c, rfl⟩
  | accept => exact ⟨connectionAcceptSocket_local c, rfl⟩

/-- What a connection keeps in such a call. -/
theorem step_of_local (ic : Riconv σ) {I : Box σ → Prop} {c : Connection σ}
    {waiting : List Completion} {a : Action} (ha : a.IsLocal)
    (h : ∀ c', Local c c' → I ⟨c', waiting⟩) :
    I (SharedQueue.Box.step (machine ic) ⟨c, waiting⟩ (.act a)) := by
  obtain ⟨hlocal, hnone⟩ := act_local ic ha c
  show I ⟨(act ic a c).1, waiting ++ (act ic a c).2⟩
  rw [hnone, List.append_nil]
  exact h _ hlocal

/-- Every move keeps the operations and the flags together. -/
theorem Paired.step (ic : Riconv σ) {b : Box σ} (h : Paired b) (mv : Move) :
    Paired (b.step (machine ic) mv) := by
  obtain ⟨c, waiting⟩ := b
  cases mv with
  | act a =>
    cases a with
    | prePoll start =>
      have hpolled := prePollFuncConnection_prePolled ic start c
      show Paired ⟨(prePollFuncConnection ic start c).2.1,
        waiting ++ (prePollFuncConnection ic start c).2.2⟩
      have hfirst := h.converted (preReady_converted ic c)
      generalize prePollFuncConnection ic start c = result at hpolled
      cases hpolled with
      | found =>
        rw [List.append_nil]
        exact hfirst
      | thrown _ _ hstart => exact hfirst.startRead hstart
      | started _ _ hstart => exact (hfirst.startRead hstart).converted (preReady_converted ic _)
    | readStart start =>
      have hread := connectionReadStart_readStarted ic start c
      show Paired ⟨(connectionReadStart ic start c).2.1,
        waiting ++ (connectionReadStart ic start c).2.2⟩
      generalize connectionReadStart ic start c = result at hread
      cases hread with
      | unaccepted => rwa [List.append_nil]
      | ended =>
        rw [List.append_nil]
        exact h.same rfl id
      | full => rwa [List.append_nil]
      | converted =>
        rw [List.append_nil]
        exact h.converted (connectionToUtf8_converted ic c)
      | started _ _ _ hstart => exact h.allocated.startRead hstart
    | complete bytes =>
      show Paired ⟨(complete bytes c).1, waiting ++ (complete bytes c).2⟩
      unfold complete
      cases hout : c.outstanding with
      | none =>
        rw [List.append_nil]
        exact h
      | some op =>
        have hnil := h.unqueued hout
        subst hnil
        obtain ⟨hpending, hsize⟩ := h.pending (by simp [ops, hout])
        cases op with
        | read offset todo =>
          cases hassociated : c.associated with
          | true => exact .of_one (.read offset todo) h.handle_ne hsize hpending rfl nofun (by simp)
          | false => exact .of_idle h.handle_ne h.unallocated rfl
        | connect =>
          have hconnecting := h.connecting (by simp [ops, hout])
          cases hassociated : c.associated with
          | true =>
            exact .of_one .connect h.handle_ne hsize hpending rfl (fun _ => hconnecting) (by simp)
          | false => exact .of_idle h.handle_ne h.unallocated rfl
    | _ => exact step_of_local ic trivial fun c' hlocal => h.same hlocal.same hlocal.empty
  | take handler =>
    cases waiting with
    | nil => exact h
    | cons p rest =>
      obtain ⟨hidle, hrest⟩ := h.last
      subst hrest
      obtain ⟨ended, hhandle, hsize, hout, _, _⟩ := handlePacket_handled ic handler p c
      refine .of_idle ?_ ?_ (hout.trans hidle)
      · exact hhandle.trans_ne h.handle_ne
      · intro hnone
        exact absurd (hsize.symm.trans hnone) (h.pending (by simp [ops])).2

/-- Every call keeps it, and so does a completion. -/
theorem Matched.act (ic : Riconv σ) {c : Connection σ} {waiting : List Completion}
    (h : Matched ⟨c, waiting⟩) (a : Action) :
    Matched ⟨(act ic a c).1, waiting ++ (act ic a c).2⟩ := by
  cases a with
  | prePoll start =>
    have hpolled := prePollFuncConnection_prePolled ic start c
    show Matched ⟨(prePollFuncConnection ic start c).2.1,
      waiting ++ (prePollFuncConnection ic start c).2.2⟩
    have hfirst := h.converted (preReady_converted ic c)
    generalize prePollFuncConnection ic start c = result at hpolled
    cases hpolled with
    | found => rwa [List.append_nil]
    | thrown _ _ hstart => exact hfirst.startRead hstart
    | started _ _ hstart => exact (hfirst.startRead hstart).converted (preReady_converted ic _)
  | readStart start =>
    have hread := connectionReadStart_readStarted ic start c
    show Matched ⟨(connectionReadStart ic start c).2.1,
      waiting ++ (connectionReadStart ic start c).2.2⟩
    generalize connectionReadStart ic start c = result at hread
    cases hread with
    | unaccepted => rwa [List.append_nil]
    | ended =>
      rw [List.append_nil]
      exact h.same rfl rfl
    | full => rwa [List.append_nil]
    | converted =>
      rw [List.append_nil]
      exact h.converted (connectionToUtf8_converted ic c)
    | started _ _ _ hstart =>
      exact (h.same c.allocated_readPending c.allocated_outstanding).startRead hstart
  | complete bytes =>
    show Matched ⟨(complete bytes c).1, waiting ++ (complete bytes c).2⟩
    unfold complete
    cases hout : c.outstanding with
    | none => rwa [List.append_nil]
    | some op =>
      have hpending : c.readPending = true := h.pending (by simp [ops, hout])
      have hnil := h.unqueued hout
      subst hnil
      cases op with
      | read offset todo =>
        cases c.associated with
        | true => exact .of_one (.read offset todo) hpending rfl
        | false => exact .of_idle rfl
      | connect =>
        cases c.associated with
        | true => exact .of_one .connect hpending rfl
        | false => exact .of_idle rfl
  | _ => exact step_of_local ic trivial fun c' hlocal => h.same hlocal.reads.1 hlocal.reads.2

/-- A fresh connection. -/
theorem paired_create (opened : ℕ → Opened) (i : ℕ) : Paired
    ((World.create opened : World σ).box i) :=
  .of_idle (opened i).handle_ne (fun _ => ⟨rfl, rfl⟩) rfl

end Processx.Win
