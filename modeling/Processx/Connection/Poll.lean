import Processx.Connection.Utf8
import Processx.Library.Scatter

/-!
# Polling

`processx_c_connection_poll()` on Unix, for connections and curl fd sets. The code makes one
array of descriptors of all the pollables, with the way back in `ptr`. What it makes of the
answer is what each pollable would make of its own part of it. The contract that the
documentation of `poll()` states holds for the answers that mention no empty set and no
descriptor with an error only.
-/

namespace Processx

/-- The codes of `processx.h`. -/
inductive PollEvent
  | nopipe
  | ready
  | timeout
  | closed
  | silent
  | event
  | connect
  | handle
  | select
  deriving DecidableEq

/-- The bits of `events` and `revents`. -/
structure PollBits where
  pollin : Bool := false
  pollout : Bool := false
  pollhup : Bool := false
  pollerr : Bool := false
  pollnval : Bool := false
  deriving DecidableEq

/-- `processx_file_type_t` -/
inductive FileType
  | file
  | asyncFile
  | pipe
  | asyncPipe
  | socket
  deriving DecidableEq

/-- `processx_socket_state_t`, or `0` for what is not a socket. -/
inductive SocketState
  | unset
  | listen
  | listenPipeReady
  | connectedServer
  | connectedClient
  deriving DecidableEq

/-- A connection with its type and its state. -/
structure PollConnection (σ : Type) extends Connection σ where
  type : FileType := .asyncPipe
  state : SocketState := .unset
  deriving DecidableEq

/-- What `processx_c_pollable_from_connection()` and `processx_c_pollable_from_curl()` make.
A connection is the number of the object, or `none` for `NULL`; an fd set has the descriptors
to read from, to write to and to watch for both. -/
inductive Pollable
  | connection (object : Option ℕ)
  | curl (reads writes exceptions : List ℤ)
  deriving DecidableEq

/-- The connections that exist. -/
abbrev Heap (σ : Type) := ℕ → PollConnection σ

variable {σ : Type}

/-- A pollable with the event of the first pass, and the descriptor if there is one. -/
structure PolledEntry where
  pollable : Pollable
  event : PollEvent
  handle : ℤ := -1
  deriving DecidableEq

/-- `el->pre_poll_func(el)`. -/
def prePoll (ic : Riconv σ) (heap : Heap σ) (el : Pollable) : PolledEntry × Heap σ :=
  match el with
  | .connection none => ({ pollable := el, event := .nopipe }, heap)
  | .connection (some object) =>
    let (found, ccon) := prePollConnection ic (heap object).toConnection
    let heap := fun n => if n = object then { heap object with toConnection := ccon } else heap n
    match found with
    | .closed => ({ pollable := el, event := .closed }, heap)
    | .ready => ({ pollable := el, event := .ready }, heap)
    | .handle fd => ({ pollable := el, event := .handle, handle := fd }, heap)
  | .curl .. => ({ pollable := el, event := .select }, heap)

/-- The first loop of `processx_c_connection_poll()`. -/
def prePollAll (ic : Riconv σ) : Heap σ → List Pollable → List PolledEntry × Heap σ
  | heap, [] => ([], heap)
  | heap, el :: els =>
    let (entry, heap) := prePoll ic heap el
    let (entries, heap) := prePollAll ic heap els
    (entry :: entries, heap)

/-- `struct pollfd`, and the pollable it belongs to. -/
structure PollFd where
  fd : ℤ
  events : PollBits
  ptr : ℕ
  deriving DecidableEq

/-- One round of the second loop: the event stored, the descriptors, and whether there is data. -/
def PolledEntry.collect (i : ℕ) (el : PolledEntry) : PollEvent × List PollFd × ℕ :=
  match el.event with
  | .ready => (.ready, [], 1)
  | .handle => (.silent, [{ fd := el.handle, events := { pollin := true }, ptr := i }], 0)
  | .select =>
    match el.pollable with
    | .curl reads writes exceptions => (.silent,
        reads.map (fun fd => { fd := fd, events := { pollin := true }, ptr := i }) ++
        writes.map (fun fd => { fd := fd, events := { pollout := true }, ptr := i }) ++
        exceptions.map (fun fd =>
          { fd := fd, events := { pollin := true, pollout := true }, ptr := i }),
        0)
    | .connection _ => (.silent, [], 0)
  | other => (other, [], 0)

/-- The second loop, from pollable `i` on. -/
def collectFds : ℕ → List PolledEntry → List PollEvent × List PollFd × ℕ
  | _, [] => ([], [], 0)
  | i, el :: els =>
    let (stored, fds, data) := el.collect i
    let (results, moreFds, hasdata) := collectFds (i + 1) els
    (stored :: results, fds ++ moreFds, data + hasdata)

/-- One `poll()`: it is interrupted by a signal, it fails, or it answers. After an answer the
user may have interrupted. -/
inductive PollCall
  | eintr
  | error
  | answer (revents : ℕ → PollBits) (interrupted : Bool)

/-- The result of `poll()` for the first `nfds` descriptors. -/
def pollCount (nfds : ℕ) (revents : ℕ → PollBits) : ℕ :=
  (List.range nfds).countP fun k => revents k ≠ {}

/-- `PROCESSX_INTERRUPT_INTERVAL` -/
def pollInterval : ℤ := 200

/-- `processx__interruptible_poll()`, for the system calls to come. The result is `none` while
it is still waiting. -/
def interruptiblePoll (nfds : ℕ) (timeout : ℤ) :
    List PollCall → ℤ → Option (Except String (ℕ → PollBits))
  | [], _ => none
  | call :: calls, timeleft =>
    if timeout < 0 ∨ timeleft > pollInterval then
      match call with
      | .eintr => interruptiblePoll nfds timeout calls timeleft
      | .error => some (.error "Processx poll error")
      | .answer revents interrupted =>
        if pollCount nfds revents ≠ 0 then some (.ok revents)
        else if interrupted then some (.error "interrupt")
        else interruptiblePoll nfds timeout calls (timeleft - pollInterval)
    else if timeleft ≥ 0 then
      match call with
      | .eintr => interruptiblePoll nfds timeout calls timeleft
      | .error => some (.error "Processx poll error")
      | .answer revents _ => some (.ok revents)
    else some (.ok fun _ => {})

/-- `processx__poll_decode()`. -/
def pollDecode (code : PollBits) : PollEvent :=
  if code.pollnval then .closed
  else if code.pollin || code.pollhup || code.pollout then .ready
  else .silent

/-- `ev & (POLLNVAL | POLLIN | POLLHUP | POLLOUT)` -/
def PollBits.forCurl (code : PollBits) : Bool :=
  code.pollnval || code.pollin || code.pollhup || code.pollout

/-- Is a pollable a server socket that is listening? -/
def isListening (heap : Heap σ) (el : Pollable) : Bool :=
  match el with
  | .connection (some object) =>
    decide ((heap object).type = .socket ∧ (heap object).state = .listen)
  | _ => false

/-- One round of the last loop, for the descriptor in place `k`. -/
def decodeFd (heap : Heap σ) (entries : List PolledEntry) (revents : ℕ → PollBits) (k : ℕ)
    (fd : PollFd)
    (results : List PollEvent) (hasdata : ℕ) : List PollEvent × ℕ :=
  match entries[fd.ptr]? with
  | none => (results, hasdata)
  | some el =>
    if el.event = .select then
      if results[fd.ptr]? = some .silent ∧ (revents k).forCurl then
        (results.set fd.ptr .event, hasdata)
      else (results, hasdata)
    else if pollDecode (revents k) = .ready then
      (results.set fd.ptr (if isListening heap el.pollable then .connect else .ready), hasdata + 1)
    else (results.set fd.ptr (pollDecode (revents k)), hasdata)

/-- The last loop, from place `k` on. -/
def decodeFds (heap : Heap σ) (entries : List PolledEntry) (revents : ℕ → PollBits) :
    ℕ → List PollFd → List PollEvent → ℕ → List PollEvent × ℕ
  | _, [], results, hasdata => (results, hasdata)
  | k, fd :: fds, results, hasdata =>
    let (results, hasdata) := decodeFd heap entries revents k fd results hasdata
    decodeFds heap entries revents (k + 1) fds results hasdata

/-- `for (i = 0; i < j; i++) pollables[ptr[i]].event = PXTIMEOUT` -/
def timeOut (fds : List PollFd) (results : List PollEvent) : List PollEvent :=
  fds.foldl (fun results fd => results.set fd.ptr .timeout) results

/-- What the system answers, where it is asked: there may be nothing to poll. -/
def pollAnswer (ic : Riconv σ) (heap : Heap σ) (pollables : List Pollable) (timeout : ℤ)
    (calls : List PollCall) : Option (Except String (ℕ → PollBits)) :=
  let (_, fds, hasdata) := collectFds 0 (prePollAll ic heap pollables).1
  if fds.length = 0 then some (.ok fun _ => {})
  else
    let timeout := if hasdata > 0 then 0 else timeout
    interruptiblePoll fds.length timeout calls timeout

/-- What the code makes of an answer: the events and the number of pollables with data. -/
def pollResult (ic : Riconv σ) (heap : Heap σ) (pollables : List Pollable)
    (revents : ℕ → PollBits) : List PollEvent × ℕ :=
  let (entries, heap) := prePollAll ic heap pollables
  let (results, fds, hasdata) := collectFds 0 entries
  if fds.length = 0 then (results, hasdata)
  else if pollCount fds.length revents = 0 then
    (if hasdata = 0 then timeOut fds results else results, hasdata)
  else decodeFds heap entries revents 0 fds results hasdata

/-- `processx_c_connection_poll()`: the events, the result and the connections. -/
def cConnectionPoll (ic : Riconv σ) (heap : Heap σ) (pollables : List Pollable) (timeout : ℤ)
    (calls : List PollCall) : Option (Except String (List PollEvent × ℕ) × Heap σ) :=
  let after := (prePollAll ic heap pollables).2
  match pollAnswer ic heap pollables timeout calls with
  | none => none
  | some (.error msg) => some (.error msg, after)
  | some (.ok revents) => some (.ok (pollResult ic heap pollables revents), after)

/-- The number of descriptors of a pollable. -/
def PolledEntry.slots (el : PolledEntry) : ℕ := (el.collect 0).2.1.length

/-- The part of the answer that is about each of the pollables, from place `k` on. -/
def parts (revents : ℕ → PollBits) : ℕ → List PolledEntry → List (PolledEntry × List PollBits)
  | _, [] => []
  | k, el :: els =>
    (el, (List.range el.slots).map fun n => revents (k + n)) :: parts revents (k + el.slots) els

/-- What the bits of one descriptor do to the event of its pollable. -/
def PolledEntry.update (heap : Heap σ) (el : PolledEntry) (bits : PollBits) (old : PollEvent) :
    PollEvent :=
  if el.event = .select then
    if old = .silent ∧ bits.forCurl then .event else old
  else if pollDecode bits = .ready then
    if isListening heap el.pollable then .connect else .ready
  else pollDecode bits

/-- The event of a pollable, from the bits of its own descriptors. -/
def PolledEntry.decoded (heap : Heap σ) (el : PolledEntry) (bits : List PollBits) : PollEvent :=
  Scatter.applyAll (bits.map (el.update heap)) (el.collect 0).1

/-- The event stored in the second loop does not depend on the place. -/
theorem fst_collect (el : PolledEntry) (i : ℕ) : (el.collect i).1 = (el.collect 0).1 := by
  unfold PolledEntry.collect
  cases el.event <;> try rfl
  cases el.pollable <;> rfl

/-- Nor do the number of descriptors and the number of pollables with data. -/
theorem length_collect (el : PolledEntry) (i : ℕ) : (el.collect i).2.1.length = el.slots := by
  unfold PolledEntry.slots PolledEntry.collect
  cases el.event <;> try rfl
  cases el.pollable <;> simp

/-- All the descriptors of a pollable lead back to it. -/
theorem ptr_of_mem_collect {el : PolledEntry} {i : ℕ} {fd : PollFd} (h : fd ∈ (el.collect i).2.1) :
    fd.ptr = i := by
  unfold PolledEntry.collect at h
  cases hevent : el.event with
  | handle =>
    rw [hevent] at h
    obtain rfl := List.mem_singleton.mp h
    rfl
  | select =>
    rw [hevent] at h
    cases hpollable : el.pollable with
    | connection object =>
      rw [hpollable] at h
      cases h
    | curl reads writes exceptions =>
      rw [hpollable] at h
      simp only [List.mem_append, List.mem_map] at h
      obtain (⟨n, _, rfl⟩ | ⟨n, _, rfl⟩) | ⟨n, _, rfl⟩ := h <;> rfl
  | _ =>
    rw [hevent] at h
    cases h

/-- A round of the last loop updates the pollable the descriptor leads back to. -/
theorem decodeFd_eq_modify (heap : Heap σ) {entries : List PolledEntry} {fd : PollFd}
    {el : PolledEntry}
    (hel : entries[fd.ptr]? = some el) (revents : ℕ → PollBits) (k : ℕ) (results : List PollEvent)
    (hasdata : ℕ) : (decodeFd heap entries revents k fd results hasdata).1 =
      results.modify fd.ptr (el.update heap (revents k)) := by
  unfold decodeFd
  rw [hel]
  dsimp only
  by_cases hselect : el.event = .select
  · rw [if_pos hselect, List.modify_eq_set_getElem?]
    have hupdate : ∀ old, el.update heap (revents k) old =
        if old = .silent ∧ (revents k).forCurl then .event else old := fun old => if_pos hselect
    cases hget : results[fd.ptr]? with
    | none =>
      rw [if_neg (by simp)]
      rfl
    | some old =>
      change _ = results.set fd.ptr (el.update heap (revents k) old)
      rw [hupdate]
      by_cases hsilent : old = .silent ∧ (revents k).forCurl
      · rw [if_pos ⟨congrArg some hsilent.1, hsilent.2⟩, if_pos hsilent]
      · rw [if_neg fun h => hsilent ⟨Option.some.inj h.1, h.2⟩, if_neg hsilent]
        exact (Scatter.set_self hget).symm
  · rw [if_neg hselect]
    have hupdate : el.update heap (revents k) = fun _ =>
        if pollDecode (revents k) = .ready then
          if isListening heap el.pollable then .connect else .ready
        else pollDecode (revents k) := by
      funext old
      exact if_neg hselect
    rw [hupdate, ← Scatter.set_eq_modify]
    by_cases hready : pollDecode (revents k) = .ready
    · rw [if_pos hready, if_pos hready]
    · rw [if_neg hready, if_neg hready]

/-- The descriptors of one pollable, and those behind them. -/
theorem decodeFds_block (heap : Heap σ) {entries : List PolledEntry} {i : ℕ} {el : PolledEntry}
    (hel : entries[i]? = some el) (revents : ℕ → PollBits) (fds more : List PollFd)
    (hptr : ∀ fd ∈ fds, fd.ptr = i) (k : ℕ) (results : List PollEvent) (hasdata : ℕ) :
    ∃ n, decodeFds heap entries revents k (fds ++ more) results hasdata =
      decodeFds heap entries revents (k + fds.length) more
        (Scatter.scatter (((List.range fds.length).map fun m => revents (k + m)).map
          fun bits => (i, el.update heap bits)) results) n := by
  induction fds generalizing k results hasdata with
  | nil => exact ⟨hasdata, rfl⟩
  | cons fd fds ih =>
    have hfd : fd.ptr = i := hptr fd List.mem_cons_self
    have hround := decodeFd_eq_modify heap (hfd ▸ hel) revents k results hasdata
    obtain ⟨n, hrest⟩ := ih (fun fd' h => hptr fd' (List.mem_cons_of_mem _ h)) (k + 1)
      (decodeFd heap entries revents k fd results hasdata).1
      (decodeFd heap entries revents k fd results hasdata).2
    refine ⟨n, ?_⟩
    have hshift : (List.range (fds.length + 1)).map (fun m => revents (k + m)) =
        revents k :: (List.range fds.length).map fun m => revents (k + 1 + m) := by
      rw [List.range_succ_eq_map, List.map_cons, List.map_map]
      exact congrArg _ (List.map_congr_left fun m _ => congrArg revents (by simp; omega))
    have hunfold : decodeFds heap entries revents k (fd :: fds ++ more) results hasdata =
        decodeFds heap entries revents (k + 1) (fds ++ more)
          (decodeFd heap entries revents k fd results hasdata).1
          (decodeFd heap entries revents k fd results hasdata).2 := rfl
    rw [hunfold, hrest, hround, hfd, List.length_cons, hshift,
      show k + 1 + fds.length = k + (fds.length + 1) by omega]
    rfl

/-- The last loop gives each pollable the bits of its own descriptors. -/
theorem decodeFds_eq_scatter (heap : Heap σ) (revents : ℕ → PollBits)
    (before els : List PolledEntry)
    (k : ℕ) (results : List PollEvent) (hasdata : ℕ) :
    (decodeFds heap (before ++ els) revents k
      (collectFds before.length els).2.1 results hasdata).1 =
      Scatter.scatter (Scatter.gather before.length
        ((parts revents k els).map fun part => part.2.map (part.1.update heap))) results := by
  induction els generalizing before k results hasdata with
  | nil => rfl
  | cons el els ih =>
    have hel : (before ++ el :: els)[before.length]? = some el := by simp
    obtain ⟨n, hblock⟩ := decodeFds_block heap hel revents (el.collect before.length).2.1
      (collectFds (before.length + 1) els).2.1 (fun fd h => ptr_of_mem_collect h) k results hasdata
    have hrest := ih (before ++ [el]) (k + el.slots) (Scatter.scatter
      (((List.range el.slots).map fun m => revents (k + m)).map
        fun bits => (before.length, el.update heap bits)) results) n
    rw [List.length_append, List.length_singleton, List.append_assoc] at hrest
    rw [collectFds, hblock, length_collect]
    refine hrest.trans ?_
    rw [parts, List.map_cons, Scatter.gather, Scatter.scatter_append, List.map_map]
    simp only [List.map_map, Function.comp_def]

/-- A timeout is stored for each pollable with a descriptor. -/
theorem timeOut_eq_scatter (before els : List PolledEntry) (results : List PollEvent) :
    timeOut (collectFds before.length els).2.1 results =
      Scatter.scatter (Scatter.gather before.length
        (els.map fun el => List.replicate el.slots fun _ => .timeout)) results := by
  have hblock : ∀ (fds : List PollFd) (i : ℕ) (results : List PollEvent),
      (∀ fd ∈ fds, fd.ptr = i) → timeOut fds results =
        Scatter.scatter ((List.replicate fds.length fun _ => PollEvent.timeout).map
          fun f => (i, f)) results := by
    intro fds i results hptr
    induction fds generalizing results with
    | nil => rfl
    | cons fd fds ih =>
      have hrest := ih (results.set fd.ptr .timeout) fun fd' h =>
        hptr fd' (List.mem_cons_of_mem _ h)
      rw [Scatter.set_eq_modify, hptr fd List.mem_cons_self] at hrest
      have hunfold : timeOut (fd :: fds) results = timeOut fds (results.set fd.ptr .timeout) := rfl
      rw [hunfold, Scatter.set_eq_modify, hptr fd List.mem_cons_self, hrest]
      rfl
  induction els generalizing before results with
  | nil => rfl
  | cons el els ih =>
    have hfirst := hblock (el.collect before.length).2.1 before.length results
      fun fd h => ptr_of_mem_collect h
    have hrest := ih (before ++ [el]) (timeOut (el.collect before.length).2.1 results)
    rw [List.length_append, List.length_singleton, hfirst, length_collect] at hrest
    have hunfold : timeOut (collectFds before.length (el :: els)).2.1 results =
        timeOut (collectFds (before.length + 1) els).2.1
          (timeOut (el.collect before.length).2.1 results) := List.foldl_append
    rw [hunfold, hfirst, length_collect, hrest, List.map_cons, Scatter.gather,
      Scatter.scatter_append]

/-- What the second loop stores. -/
theorem fst_collectFds (i : ℕ) (els : List PolledEntry) :
    (collectFds i els).1 = els.map fun el => (el.collect 0).1 := by
  induction els generalizing i with
  | nil => rfl
  | cons el els ih =>
    rw [List.map_cons, ← ih (i + 1), ← fst_collect el i]
    rfl

/-- The number of pollables with data. -/
theorem hasdata_collectFds (i : ℕ) (els : List PolledEntry) :
    (collectFds i els).2.2 = 0 ↔ ∀ el ∈ els, el.event ≠ .ready := by
  induction els generalizing i with
  | nil => simp [collectFds]
  | cons el els ih =>
    have hone : (el.collect i).2.2 = 0 ↔ el.event ≠ .ready := by
      unfold PolledEntry.collect
      cases el.event <;> try simp
      cases el.pollable <;> rfl
    have hsum : (collectFds i (el :: els)).2.2 =
      (el.collect i).2.2 + (collectFds (i + 1) els).2.2 :=
      rfl
    rw [hsum, Nat.add_eq_zero_iff, hone, ih, List.forall_mem_cons]

/-- The parts are those of the pollables. -/
theorem fst_parts (revents : ℕ → PollBits) (k : ℕ) (els : List PolledEntry) :
    (parts revents k els).map Prod.fst = els := by
  induction els generalizing k with
  | nil => rfl
  | cons el els ih => rw [parts, List.map_cons, ih]

/-- Each part has one entry for each descriptor of the pollable, and they come from the answer. -/
theorem mem_parts {revents : ℕ → PollBits} {k i : ℕ} {els : List PolledEntry}
    {part : PolledEntry × List PollBits} (h : part ∈ parts revents k els) :
    part.2.length = part.1.slots ∧
      ∀ bits ∈ part.2, ∃ n < (collectFds i els).2.1.length, bits = revents (k + n) := by
  induction els generalizing k i with
  | nil => cases h
  | cons el els ih =>
    have hlength : (collectFds i (el :: els)).2.1.length =
        el.slots + (collectFds (i + 1) els).2.1.length := by
      have happend : (collectFds i (el :: els)).2.1 =
          (el.collect i).2.1 ++ (collectFds (i + 1) els).2.1 := rfl
      rw [happend, List.length_append, length_collect]
    rcases List.mem_cons.mp h with rfl | h
    · refine ⟨by simp, fun bits hbits => ?_⟩
      obtain ⟨n, hn, rfl⟩ := List.mem_map.mp hbits
      have hlt := List.mem_range.mp hn
      exact ⟨n, by omega, rfl⟩
    · obtain ⟨hslots, hbits⟩ := ih (i := i + 1) h
      refine ⟨hslots, fun bits hmem => ?_⟩
      obtain ⟨n, hn, rfl⟩ := hbits bits hmem
      exact ⟨el.slots + n, by omega, congrArg revents (by omega)⟩

/-- After a timeout nothing has been set in the answer. -/
theorem eq_of_pollCount_eq_zero {nfds : ℕ} {revents : ℕ → PollBits}
    (h : pollCount nfds revents = 0) {n : ℕ} (hn : n < nfds) : revents n = {} := by
  have hall := List.countP_eq_zero.mp h n (List.mem_range.mpr hn)
  simpa using hall

/-- The events when the system has set something, or nothing was polled. -/
theorem decodeFds_eq_map (heap : Heap σ) (revents : ℕ → PollBits) (entries : List PolledEntry)
    (hasdata : ℕ) :
    (decodeFds heap entries revents 0 (collectFds 0 entries).2.1 (collectFds 0 entries).1
      hasdata).1 = (parts revents 0 entries).map fun part => part.1.decoded heap part.2 := by
  have hscatter := decodeFds_eq_scatter heap revents [] entries 0 (collectFds 0 entries).1 hasdata
  have hlength : (collectFds 0 entries).1.length =
      ((parts revents 0 entries).map fun part => part.2.map (part.1.update heap)).length := by
    have hparts := congrArg List.length (fst_parts revents 0 entries)
    rw [List.length_map] at hparts
    rw [fst_collectFds, List.length_map, List.length_map, hparts]
  have hgather := Scatter.scatter_gather _ ([] : List PollEvent) (collectFds 0 entries).1 hlength
  refine hscatter.trans (hgather.trans ?_)
  have hstored : (collectFds 0 entries).1 =
      (parts revents 0 entries).map fun part => (part.1.collect 0).1 := by
    have hmap := congrArg (List.map fun el => (el.collect 0).1) (fst_parts revents 0 entries)
    rw [List.map_map] at hmap
    exact (fst_collectFds 0 entries).trans hmap.symm
  rw [List.nil_append, hstored, List.zipWith_map, List.zipWith_self]
  rfl

/-- The events after a timeout. -/
theorem timeOut_eq_map (entries : List PolledEntry) :
    timeOut (collectFds 0 entries).2.1 (collectFds 0 entries).1 =
      entries.map fun el => if el.slots = 0 then (el.collect 0).1 else .timeout := by
  have hscatter := timeOut_eq_scatter [] entries (collectFds 0 entries).1
  have hlength : (collectFds 0 entries).1.length =
      (entries.map fun el =>
        List.replicate el.slots fun _ : PollEvent => PollEvent.timeout).length := by
    rw [fst_collectFds, List.length_map, List.length_map]
  have hgather := Scatter.scatter_gather _ ([] : List PollEvent) (collectFds 0 entries).1 hlength
  refine hscatter.trans (hgather.trans ?_)
  rw [List.nil_append, fst_collectFds, List.zipWith_map, List.zipWith_self]
  refine List.map_congr_left fun el _ => ?_
  cases hslots : el.slots with
  | zero => rfl
  | succ n =>
    rw [if_neg (Nat.succ_ne_zero n), List.replicate_succ']
    exact List.foldl_append

/-- Is the pollable reported as ready? -/
def PollEvent.isReady : PollEvent → Bool
  | .ready | .connect | .event => true
  | _ => false

/-- What the documentation says of the events: something is ready and nothing has timed out, or
nothing is ready, nothing is silent, and all that is open has timed out. -/
def PollContract (events : List PollEvent) : Prop :=
  ((∃ e ∈ events, e.isReady = true) ∧ .timeout ∉ events) ∨
    ((∀ e ∈ events, e.isReady = false) ∧ .silent ∉ events ∧
      ∀ e ∈ events, e ≠ .nopipe → e ≠ .closed → e = .timeout)

/-- Is a pollable ready, before the system call or by the answer? -/
def PolledEntry.IsReady (el : PolledEntry) (bits : List PollBits) : Prop :=
  el.event = .ready ∨ (el.event = .handle ∧ ∃ b ∈ bits, pollDecode b = .ready) ∨
    (el.event = .select ∧ ∃ b ∈ bits, b.forCurl = true)

/-- Is a pollable without a descriptor, or a connection whose descriptor is not open? -/
def PolledEntry.IsInvalid (el : PolledEntry) (bits : List PollBits) : Prop :=
  bits ≠ [] → el.event = .handle ∧ ∀ b ∈ bits, b.pollnval = true

/-- The answers for which the contract holds: something is ready; or no fd set is empty, and
the system sets nothing, or every descriptor polled is one of a connection and not open. -/
def WellAnswered (ic : Riconv σ) (heap : Heap σ) (pollables : List Pollable)
    (revents : ℕ → PollBits) : Prop :=
  let entries := (prePollAll ic heap pollables).1
  (∃ part ∈ parts revents 0 entries, part.1.IsReady part.2) ∨
    (.curl [] [] [] ∉ pollables ∧
      (pollCount (collectFds 0 entries).2.1.length revents = 0 ∨
        ∀ part ∈ parts revents 0 entries, part.1.IsInvalid part.2))

/-- What the first loop leaves in an entry. -/
def PolledEntry.WellFormed (el : PolledEntry) : Prop :=
  match el.pollable with
  | .curl .. => el.event = .select
  | .connection _ =>
    el.event = .nopipe ∨ el.event = .closed ∨ el.event = .ready ∨ el.event = .handle

/-- The first look at a pollable leaves a well-formed entry for it. -/
theorem wellFormed_prePoll (ic : Riconv σ) (heap : Heap σ) (el : Pollable) :
    (prePoll ic heap el).1.WellFormed ∧ (prePoll ic heap el).1.pollable = el := by
  cases el with
  | curl reads writes exceptions => exact ⟨rfl, rfl⟩
  | connection object =>
    cases object with
    | none => exact ⟨Or.inl rfl, rfl⟩
    | some object =>
      unfold prePoll
      dsimp only
      generalize prePollConnection ic (heap object).toConnection = answer
      obtain ⟨found, ccon⟩ := answer
      cases found with
      | closed => exact ⟨Or.inr (Or.inl rfl), rfl⟩
      | ready => exact ⟨Or.inr (Or.inr (Or.inl rfl)), rfl⟩
      | handle fd => exact ⟨Or.inr (Or.inr (Or.inr rfl)), rfl⟩

/-- So it does for each pollable, in their order. -/
theorem wellFormed_prePollAll (ic : Riconv σ) (heap : Heap σ) (pollables : List Pollable) :
    (∀ el ∈ (prePollAll ic heap pollables).1, el.WellFormed) ∧
      (prePollAll ic heap pollables).1.map PolledEntry.pollable = pollables := by
  induction pollables generalizing heap with
  | nil => exact ⟨nofun, rfl⟩
  | cons el els ih =>
    obtain ⟨hwf, hel⟩ := wellFormed_prePoll ic heap el
    obtain ⟨hrest, hmap⟩ := ih (prePoll ic heap el).2
    have hunfold : (prePollAll ic heap (el :: els)).1 =
        (prePoll ic heap el).1 :: (prePollAll ic (prePoll ic heap el).2 els).1 := rfl
    rw [hunfold, List.map_cons, hel, hmap]
    exact ⟨List.forall_mem_cons.mpr ⟨hwf, hrest⟩, rfl⟩

/-- A pollable that is not asked about has no descriptor. -/
theorem slots_of_other {el : PolledEntry} (h : el.event ≠ .handle ∧ el.event ≠ .select) :
    el.slots = 0 := by
  unfold PolledEntry.slots PolledEntry.collect
  cases hevent : el.event <;> first | rfl | skip
  · exact absurd hevent h.1
  · exact absurd hevent h.2

/-- It keeps its event. -/
theorem decoded_of_other (heap : Heap σ) {el : PolledEntry}
    (h : el.event ≠ .handle ∧ el.event ≠ .select) : el.decoded heap [] = el.event := by
  unfold PolledEntry.decoded PolledEntry.collect
  cases hevent : el.event <;> first | rfl | skip
  · exact absurd hevent h.1
  · exact absurd hevent h.2

/-- A connection has one descriptor. -/
theorem slots_of_handle {el : PolledEntry} (h : el.event = .handle) : el.slots = 1 := by
  unfold PolledEntry.slots PolledEntry.collect
  rw [h]
  rfl

/-- It decides about the event. -/
theorem decoded_of_handle (heap : Heap σ) {el : PolledEntry} (h : el.event = .handle)
    (b : PollBits) :
    el.decoded heap [b] = if pollDecode b = .ready then
      if isListening heap el.pollable then .connect else .ready else pollDecode b := by
  have hupdate : ∀ old, el.update heap b old = if pollDecode b = .ready then
      if isListening heap el.pollable then .connect else .ready else pollDecode b :=
    fun old => if_neg (by rw [h]; decide)
  exact hupdate _

/-- A curl fd set has an event if one of its descriptors has. -/
theorem decoded_of_select (heap : Heap σ) {el : PolledEntry} (h : el.event = .select)
    (bits : List PollBits) :
    el.decoded heap bits = if bits.any PollBits.forCurl then .event else .silent := by
  have hupdate : ∀ b old, el.update heap b old =
      if old = .silent ∧ b.forCurl then .event else old := fun b old => if_pos h
  have hstored : (el.collect 0).1 = .silent := by
    unfold PolledEntry.collect
    rw [h]
    cases el.pollable <;> rfl
  have hafter : ∀ bits : List PollBits,
      Scatter.applyAll (bits.map (el.update heap)) .event = .event := by
    intro bits
    induction bits with
    | nil => rfl
    | cons b bits ih =>
      refine Eq.trans ?_ ih
      exact congrArg (Scatter.applyAll (bits.map (el.update heap))) (hupdate b .event)
  unfold PolledEntry.decoded
  rw [hstored]
  induction bits with
  | nil => rfl
  | cons b bits ih =>
    have hstep : Scatter.applyAll ((b :: bits).map (el.update heap)) .silent =
        Scatter.applyAll (bits.map (el.update heap)) (el.update heap b .silent) := rfl
    rw [hstep, hupdate, List.any_cons]
    cases hb : b.forCurl with
    | true =>
      rw [if_pos ⟨rfl, rfl⟩, Bool.true_or, if_pos rfl]
      exact hafter bits
    | false =>
      rw [if_neg (by simp), Bool.false_or]
      exact ih

/-- What becomes of a pollable that the system was asked about. -/
theorem decoded_cases (heap : Heap σ) {el : PolledEntry} (hwf : el.WellFormed)
    {bits : List PollBits}
    (hslots : bits.length = el.slots) :
    (el.IsReady bits ∧ (el.decoded heap bits).isReady = true) ∨
    (¬ el.IsReady bits ∧ el.event ≠ .select ∧ el.IsInvalid bits ∧
      (el.decoded heap bits = .nopipe ∨ el.decoded heap bits = .closed)) ∨
    (¬ el.IsReady bits ∧ (bits = [] → el.event = .select) ∧ ¬ (bits ≠ [] ∧ el.IsInvalid bits) ∧
      el.decoded heap bits = .silent) := by
  have hasked : ∀ (_ : el.event ≠ .handle ∧ el.event ≠ .select), bits = [] := by
    intro h
    exact List.length_eq_zero_iff.mp (hslots.trans (slots_of_other h))
  cases hevent : el.event with
  | ready =>
    have hother : el.event ≠ .handle ∧ el.event ≠ .select := by simp [hevent]
    obtain rfl := hasked hother
    refine Or.inl ⟨Or.inl hevent, ?_⟩
    rw [decoded_of_other heap hother, hevent]
    rfl
  | nopipe =>
    have hother : el.event ≠ .handle ∧ el.event ≠ .select := by simp [hevent]
    obtain rfl := hasked hother
    refine Or.inr (Or.inl ⟨by simp [PolledEntry.IsReady, hevent], by simp, nofun, Or.inl ?_⟩)
    rw [decoded_of_other heap hother, hevent]
  | closed =>
    have hother : el.event ≠ .handle ∧ el.event ≠ .select := by simp [hevent]
    obtain rfl := hasked hother
    refine Or.inr (Or.inl ⟨by simp [PolledEntry.IsReady, hevent], by simp, nofun, Or.inr ?_⟩)
    rw [decoded_of_other heap hother, hevent]
  | handle =>
    obtain ⟨b, rfl⟩ := List.length_eq_one_iff.mp (hslots.trans (slots_of_handle hevent))
    have hdecoded := decoded_of_handle heap hevent b
    by_cases hready : pollDecode b = .ready
    · refine Or.inl ⟨Or.inr (Or.inl ⟨hevent, b, List.mem_cons_self, hready⟩), ?_⟩
      rw [hdecoded, if_pos hready]
      split <;> rfl
    · have hnot : ¬ el.IsReady [b] := by
        simp [PolledEntry.IsReady, hevent, hready]
      rw [hdecoded, if_neg hready]
      cases hnval : b.pollnval with
      | true =>
        refine Or.inr (Or.inl ⟨hnot, by simp, fun _ => ⟨hevent, by simp [hnval]⟩, Or.inr ?_⟩)
        simp [pollDecode, hnval]
      | false =>
        refine Or.inr (Or.inr ⟨hnot, nofun, fun h => ?_, ?_⟩)
        · have hall := (h.2 (by simp)).2 b List.mem_cons_self
          rw [hnval] at hall
          cases hall
        · unfold pollDecode at hready ⊢
          simp only [hnval, Bool.false_eq_true, if_false] at hready ⊢
          split
          next hdata => exact absurd (if_pos hdata) hready
          next => rfl
  | select =>
    have hdecoded := decoded_of_select heap hevent bits
    cases hany : bits.any PollBits.forCurl with
    | true =>
      refine Or.inl ⟨Or.inr (Or.inr ⟨hevent, List.any_eq_true.mp hany⟩), ?_⟩
      rw [hdecoded, hany]
      rfl
    | false =>
      have hnot : ¬ el.IsReady bits := by
        rintro (h | ⟨h, _⟩ | ⟨_, h⟩)
        · rw [hevent] at h
          cases h
        · rw [hevent] at h
          cases h
        · rw [List.any_eq_true.mpr h] at hany
          cases hany
      refine Or.inr (Or.inr ⟨hnot, fun _ => rfl, fun h => ?_, ?_⟩)
      · have hhandle := (h.2 h.1).1
        rw [hevent] at hhandle
        cases hhandle
      · rw [hdecoded, hany]
        rfl
  | _ =>
    unfold PolledEntry.WellFormed at hwf
    rw [hevent] at hwf
    split at hwf
    · cases hwf
    · obtain h | h | h | h := hwf <;> cases h

/-- An fd set without descriptors is one with three empty vectors. -/
theorem empty_iff {el : PolledEntry} (hwf : el.WellFormed) :
    (el.event = .select ∧ el.slots = 0) ↔ el.pollable = .curl [] [] [] := by
  unfold PolledEntry.WellFormed at hwf
  unfold PolledEntry.slots PolledEntry.collect
  cases hpollable : el.pollable with
  | connection object =>
    rw [hpollable] at hwf
    refine iff_of_false (fun h => ?_) nofun
    rw [h.1] at hwf
    obtain h | h | h | h := hwf <;> cases h
  | curl reads writes exceptions =>
    rw [hpollable] at hwf
    rw [hwf]
    simp [List.length_eq_zero_iff]

section Contract

variable (ic : Riconv σ) (heap : Heap σ) (pollables : List Pollable) (revents : ℕ → PollBits)

/-- The three results: something was ready before the system call, the call has timed out, or
it has set something. -/
theorem pollResult_cases :
    let entries := (prePollAll ic heap pollables).1
    let timedOut := pollCount (collectFds 0 entries).2.1.length revents = 0
    let events := (pollResult ic heap pollables revents).1
    let decoded := (parts revents 0 entries).map fun part =>
      part.1.decoded (prePollAll ic heap pollables).2 part.2
    ((∃ el ∈ entries, el.event = .ready) ∧
      (events = entries.map (fun el => (el.collect 0).1) ∨ events = decoded)) ∨
    ((∀ el ∈ entries, el.event ≠ .ready) ∧ timedOut ∧
      events = entries.map fun el => if el.slots = 0 then (el.collect 0).1 else .timeout) ∨
    ((∀ el ∈ entries, el.event ≠ .ready) ∧ ¬ timedOut ∧ events = decoded) := by
  unfold pollResult
  generalize prePollAll ic heap pollables = first
  obtain ⟨entries, heap⟩ := first
  dsimp only
  have hdecoded := decodeFds_eq_map heap revents entries (collectFds 0 entries).2.2
  have htimeOut := timeOut_eq_map entries
  have hstored := fst_collectFds 0 entries
  have hdata := hasdata_collectFds 0 entries
  generalize collectFds 0 entries = second at hdecoded htimeOut hstored hdata ⊢
  obtain ⟨results, fds, hasdata⟩ := second
  dsimp only at hdecoded htimeOut hstored hdata ⊢
  by_cases hnone : hasdata = 0
  · have hquiet := hdata.mp hnone
    by_cases hcount : pollCount fds.length revents = 0
    · refine Or.inr (Or.inl ⟨hquiet, hcount, ?_⟩)
      by_cases hfds : fds.length = 0
      · obtain rfl := List.length_eq_zero_iff.mp hfds
        exact htimeOut
      · rw [if_neg hfds, if_pos hcount, if_pos hnone]
        exact htimeOut
    · refine Or.inr (Or.inr ⟨hquiet, hcount, ?_⟩)
      have hfds : fds.length ≠ 0 := by
        intro hfds
        rw [hfds] at hcount
        exact hcount rfl
      rw [if_neg hfds, if_neg hcount]
      exact hdecoded
  · have hready : ∃ el ∈ entries, el.event = .ready := by
      by_contra hall
      exact hnone (hdata.mpr fun el hel hevent => hall ⟨el, hel, hevent⟩)
    refine Or.inl ⟨hready, ?_⟩
    by_cases hfds : fds.length = 0
    · rw [if_pos hfds]
      exact Or.inl hstored
    · rw [if_neg hfds]
      by_cases hcount : pollCount fds.length revents = 0
      · rw [if_pos hcount, if_neg hnone]
        exact Or.inl hstored
      · rw [if_neg hcount]
        exact Or.inr hdecoded

end Contract

section Contract

variable {entries : List PolledEntry} {revents : ℕ → PollBits}

/-- An entry of the list is an entry of the parts. -/
theorem exists_part (revents : ℕ → PollBits) (k : ℕ) {el : PolledEntry} (h : el ∈ entries) :
    ∃ bits, (el, bits) ∈ parts revents k entries := by
  rw [← fst_parts revents k entries] at h
  obtain ⟨⟨el, bits⟩, hpart, rfl⟩ := List.mem_map.mp h
  exact ⟨bits, hpart⟩

/-- An entry of the parts is an entry of the list, with one set of bits for each descriptor. -/
theorem of_mem_parts {part : PolledEntry × List PollBits} (h : part ∈ parts revents 0 entries) :
    part.1 ∈ entries ∧ part.2.length = part.1.slots := by
  refine ⟨?_, (mem_parts (i := 0) h).1⟩
  rw [← fst_parts revents 0 entries]
  exact List.mem_map_of_mem h

/-- The contract for the events decoded from an answer. -/
theorem contract_decoded_iff (heap : Heap σ) (revents : ℕ → PollBits)
    (hwf : ∀ el ∈ entries, el.WellFormed) :
    PollContract ((parts revents 0 entries).map fun part => part.1.decoded heap part.2) ↔
      (∃ part ∈ parts revents 0 entries, part.1.IsReady part.2) ∨
        ((¬ ∃ el ∈ entries, el.event = .select ∧ el.slots = 0) ∧
          ∀ part ∈ parts revents 0 entries, part.1.IsInvalid part.2) := by
  have hdecode : ∀ part ∈ parts revents 0 entries, _ := fun part h =>
    decoded_cases heap (hwf part.1 (of_mem_parts h).1) (of_mem_parts h).2
  by_cases hsomething : ∃ part ∈ parts revents 0 entries, part.1.IsReady part.2
  · refine iff_of_true (Or.inl ?_) (Or.inl hsomething)
    obtain ⟨part, hp, hisReady⟩ := hsomething
    refine ⟨⟨_, List.mem_map_of_mem hp, ?_⟩, fun hmem => ?_⟩
    · rcases hdecode part hp with h | ⟨h, _⟩ | ⟨h, _⟩
      · exact h.2
      · exact absurd hisReady h
      · exact absurd hisReady h
    · obtain ⟨part, hp, htimeout⟩ := List.mem_map.mp hmem
      rcases hdecode part hp with ⟨_, h⟩ | ⟨_, _, _, h | h⟩ | ⟨_, _, _, h⟩ <;>
        rw [htimeout] at h <;>
        cases h
  have hnot : ∀ part ∈ parts revents 0 entries, ¬ part.1.IsReady part.2 :=
    fun part hp h => hsomething ⟨part, hp, h⟩
  constructor
  · rintro (⟨⟨e, he, hisReady⟩, _⟩ | ⟨_, hsilent, _⟩)
    · obtain ⟨part, hp, rfl⟩ := List.mem_map.mp he
      rcases hdecode part hp with ⟨h, _⟩ | ⟨_, _, _, h | h⟩ | ⟨_, _, _, h⟩
      · exact absurd h (hnot part hp)
      all_goals
        rw [h] at hisReady
        cases hisReady
    · have hall : ∀ part ∈ parts revents 0 entries,
          part.1.event ≠ .select ∧ part.1.IsInvalid part.2 := by
        intro part hp
        rcases hdecode part hp with ⟨h, _⟩ | ⟨_, h₁, h₂, _⟩ | ⟨_, _, _, h⟩
        · exact absurd h (hnot part hp)
        · exact ⟨h₁, h₂⟩
        · exact absurd (List.mem_map.mpr ⟨part, hp, h⟩) hsilent
      refine Or.inr ⟨?_, fun part hp => (hall part hp).2⟩
      rintro ⟨el, hel, hselect, _⟩
      obtain ⟨bits, hbits⟩ := exists_part revents 0 hel
      exact (hall _ hbits).1 hselect
  · rintro (h | ⟨hnoEmpty, hinvalid⟩)
    · exact absurd h hsomething
    · have hevent : ∀ part ∈ parts revents 0 entries, part.1.decoded heap part.2 = .nopipe ∨
          part.1.decoded heap part.2 = .closed := by
        intro part hp
        rcases hdecode part hp with ⟨h, _⟩ | ⟨_, _, _, h⟩ | ⟨_, hselect, hvalid, _⟩
        · exact absurd h (hnot part hp)
        · exact h
        · by_cases hbits : part.2 = []
          · obtain ⟨hel, hslots⟩ := of_mem_parts hp
            rw [hbits] at hslots
            exact absurd ⟨part.1, hel, hselect hbits, hslots.symm⟩ hnoEmpty
          · exact absurd ⟨hbits, hinvalid part hp⟩ hvalid
      refine Or.inr ⟨fun e he => ?_, fun he => ?_, fun e he hnopipe hclosed => ?_⟩
      all_goals obtain ⟨part, hp, heq⟩ := List.mem_map.mp he
      · rcases hevent part hp with h | h <;> rw [← heq, h] <;> rfl
      · rcases hevent part hp with h | h <;> rw [heq] at h <;> cases h
      · rcases hevent part hp with h | h
        · exact absurd (heq.symm.trans h) hnopipe
        · exact absurd (heq.symm.trans h) hclosed

/-- What the second loop stores for an entry. -/
theorem stored_cases {el : PolledEntry} (hwf : el.WellFormed) :
    (el.collect 0).1 = .ready ∧ el.event = .ready ∨
      (el.collect 0).1 = .silent ∧ (el.event = .select ∨ el.event = .handle) ∨
      (((el.collect 0).1 = .nopipe ∨ (el.collect 0).1 = .closed) ∧ el.event ≠ .select) := by
  unfold PolledEntry.WellFormed at hwf
  unfold PolledEntry.collect
  cases hpollable : el.pollable <;> rw [hpollable] at hwf
  · obtain h | h | h | h := hwf <;> rw [h] <;> simp
  · rw [hwf]
    exact Or.inr (Or.inl ⟨rfl, Or.inl rfl⟩)

/-- The contract after a timeout. -/
theorem contract_timeOut_iff (hwf : ∀ el ∈ entries, el.WellFormed)
    (hquiet : ∀ el ∈ entries, el.event ≠ .ready) :
    PollContract (entries.map fun el => if el.slots = 0 then (el.collect 0).1 else .timeout) ↔
      ¬ ∃ el ∈ entries, el.event = .select ∧ el.slots = 0 := by
  have hevent : ∀ el ∈ entries, ∀ e, (if el.slots = 0 then (el.collect 0).1 else .timeout) = e →
      e.isReady = false ∧ (e = .silent ↔ el.event = .select ∧ el.slots = 0) ∧
        (e = .silent ∨ e = .nopipe ∨ e = .closed ∨ e = .timeout) := by
    rintro el hel e rfl
    by_cases hslots : el.slots = 0
    · have hhandle : el.event ≠ .handle := by
        intro h
        rw [slots_of_handle h] at hslots
        cases hslots
      rw [if_pos hslots]
      rcases stored_cases (hwf el hel) with ⟨_, h⟩ | ⟨h, hselect⟩ | ⟨h, hselect⟩
      · exact absurd h (hquiet el hel)
      · rw [h]
        exact ⟨rfl, iff_of_true rfl ⟨hselect.resolve_right hhandle, hslots⟩, Or.inl rfl⟩
      · rcases h with h | h <;> rw [h] <;> simp [hselect, PollEvent.isReady]
    · rw [if_neg hslots]
      exact ⟨rfl, by simp [hslots], Or.inr (Or.inr (Or.inr rfl))⟩
  constructor
  · rintro (⟨⟨e, he, hisReady⟩, _⟩ | ⟨_, hsilent, _⟩)
    · obtain ⟨el, hel, heq⟩ := List.mem_map.mp he
      rw [(hevent el hel e heq).1] at hisReady
      cases hisReady
    · rintro ⟨el, hel, hemptySet⟩
      exact hsilent (List.mem_map.mpr ⟨el, hel, (hevent el hel _ rfl).2.1.mpr hemptySet⟩)
  · intro hnoEmpty
    refine Or.inr ⟨fun e he => ?_, fun he => ?_, fun e he hnopipe hclosed => ?_⟩
    all_goals obtain ⟨el, hel, heq⟩ := List.mem_map.mp he
    · exact (hevent el hel e heq).1
    · exact hnoEmpty ⟨el, hel, (hevent el hel _ heq).2.1.mp rfl⟩
    · obtain ⟨_, hiff, h | h | h | h⟩ := hevent el hel e heq
      · exact absurd ⟨el, hel, hiff.mp h⟩ hnoEmpty
      · exact absurd h hnopipe
      · exact absurd h hclosed
      · exact h

/-- After a timeout nothing is ready, unless it was before. -/
theorem not_isReady_of_timeOut (hquiet : ∀ el ∈ entries, el.event ≠ .ready)
    (htimedOut : pollCount (collectFds 0 entries).2.1.length revents = 0) :
    ¬ ∃ part ∈ parts revents 0 entries, part.1.IsReady part.2 := by
  rintro ⟨part, hp, hisReady⟩
  have hzero : ∀ b ∈ part.2, b = {} := by
    intro b hb
    obtain ⟨n, hn, rfl⟩ := (mem_parts (i := 0) hp).2 b hb
    rw [Nat.zero_add]
    exact eq_of_pollCount_eq_zero htimedOut hn
  rcases hisReady with h | ⟨_, b, hb, h⟩ | ⟨_, b, hb, h⟩
  · exact hquiet part.1 (of_mem_parts hp).1 h
  · rw [hzero b hb] at h
    cases h
  · rw [hzero b hb] at h
    cases h

/-- The contract for what was known before the system call. -/
theorem contract_stored (hwf : ∀ el ∈ entries, el.WellFormed)
    (hready : ∃ el ∈ entries, el.event = .ready) :
    PollContract (entries.map fun el => (el.collect 0).1) := by
  obtain ⟨el, hel, hevent⟩ := hready
  refine Or.inl ⟨⟨.ready, List.mem_map.mpr ⟨el, hel, ?_⟩, rfl⟩, fun hmem => ?_⟩
  · unfold PolledEntry.collect
    rw [hevent]
  · obtain ⟨el', hel', htimeout⟩ := List.mem_map.mp hmem
    rcases stored_cases (hwf el' hel') with ⟨h, _⟩ | ⟨h, _⟩ | ⟨h | h, _⟩ <;>
      rw [htimeout] at h <;> cases h

/-- What the code makes of an answer meets the contract if and only if the answer is one of
those described. -/
theorem contract_pollResult_iff (ic : Riconv σ) (heap : Heap σ) (pollables : List Pollable)
    (revents : ℕ → PollBits) :
    PollContract (pollResult ic heap pollables revents).1 ↔
      WellAnswered ic heap pollables revents := by
  obtain ⟨hwf, hmap⟩ := wellFormed_prePollAll ic heap pollables
  have hcases := pollResult_cases ic heap pollables revents
  unfold WellAnswered
  generalize (pollResult ic heap pollables revents).1 = events at hcases ⊢
  generalize prePollAll ic heap pollables = first at hwf hmap hcases ⊢
  obtain ⟨entries, heap⟩ := first
  dsimp only at hwf hmap hcases ⊢
  have hempty : .curl [] [] [] ∈ pollables ↔ ∃ el ∈ entries, el.event = .select ∧ el.slots = 0 := by
    rw [← hmap, List.mem_map]
    exact exists_congr fun el => and_congr_right fun hel => (empty_iff (hwf el hel)).symm
  have hdecoded := contract_decoded_iff heap revents hwf
  rw [hempty]
  rcases hcases with ⟨hready, rfl | rfl⟩ | ⟨hquiet, htimedOut, rfl⟩ | ⟨hquiet, hanswered, rfl⟩
  · obtain ⟨el, hel, hevent⟩ := hready
    obtain ⟨bits, hbits⟩ := exists_part revents 0 hel
    exact iff_of_true (contract_stored hwf ⟨el, hel, hevent⟩)
      (Or.inl ⟨(el, bits), hbits, Or.inl hevent⟩)
  · obtain ⟨el, hel, hevent⟩ := hready
    obtain ⟨bits, hbits⟩ := exists_part revents 0 hel
    have hsomething : ∃ part ∈ parts revents 0 entries, part.1.IsReady part.2 :=
      ⟨(el, bits), hbits, Or.inl hevent⟩
    exact iff_of_true (hdecoded.mpr (Or.inl hsomething)) (Or.inl hsomething)
  · rw [contract_timeOut_iff hwf hquiet]
    have hnot := not_isReady_of_timeOut hquiet htimedOut
    exact ⟨fun h => Or.inr ⟨h, Or.inl htimedOut⟩, fun h => (h.resolve_left hnot).1⟩
  · rw [hdecoded]
    exact or_congr_right (and_congr_right fun _ => (or_iff_right hanswered).symm)

/-- **The results of polling.** Whenever `processx_c_connection_poll()` returns, its events meet
the contract if and only if the system's answer is one of those described. -/
theorem poll_contract_iff (ic : Riconv σ) (heap : Heap σ) (pollables : List Pollable) (timeout : ℤ)
    (calls : List PollCall) {events : List PollEvent} {hasdata : ℕ} {after : Heap σ}
    (hreturn : cConnectionPoll ic heap pollables timeout calls =
      some (.ok (events, hasdata), after)) :
    ∃ revents, pollAnswer ic heap pollables timeout calls = some (.ok revents) ∧
      (PollContract events ↔ WellAnswered ic heap pollables revents) := by
  unfold cConnectionPoll at hreturn
  cases hanswer : pollAnswer ic heap pollables timeout calls with
  | none =>
    rw [hanswer] at hreturn
    cases hreturn
  | some answer =>
    rw [hanswer] at hreturn
    cases answer with
    | error msg => cases hreturn
    | ok revents =>
      have hresult : pollResult ic heap pollables revents = (events, hasdata) :=
        Except.ok.inj (Prod.mk.inj (Option.some.inj hreturn)).1
      refine ⟨revents, rfl, ?_⟩
      rw [← contract_pollResult_iff, hresult]

/-- A connection with data, and an fd set without. -/
theorem poll_contract_iff_ready :
    ∃ calls revents after, cConnectionPoll utf8Riconv (fun _ => { handle := 5 })
        [.connection (some 0), .curl [6] [7] []] 1000 calls =
      some (.ok ([.ready, .silent], 1), after) ∧
    pollAnswer utf8Riconv (fun _ => { handle := 5 })
        [.connection (some 0), .curl [6] [7] []] 1000 calls = some (.ok revents) ∧
    PollContract [.ready, .silent] ∧
    (PollContract [.ready, .silent] ↔ WellAnswered utf8Riconv (fun _ => { handle := 5 })
        [.connection (some 0), .curl [6] [7] []] revents) := by
  have hreturn : cConnectionPoll utf8Riconv (fun _ => { handle := 5 })
      [.connection (some 0), .curl [6] [7] []] 1000
      [.eintr, .answer (fun n => if n = 0 then { pollin := true } else {}) false] =
    some (.ok ([.ready, .silent], 1), _) := rfl
  obtain ⟨revents, hanswer, hiff⟩ := poll_contract_iff utf8Riconv _ _ 1000 _ hreturn
  exact ⟨_, revents, _, hreturn, hanswer, Or.inl ⟨⟨.ready, by decide, rfl⟩, by decide⟩, hiff⟩

/-- A connection without data, and an fd set that is empty: the set is silent, and nothing is
ready. -/
theorem silent_without_ready :
    (∃ after, cConnectionPoll utf8Riconv (fun _ => { handle := 5 })
        [.connection (some 0), .curl [] [] []] 0 [.answer (fun _ => {}) false] =
      some (.ok ([.timeout, .silent], 0), after)) ∧ ¬ PollContract [.timeout, .silent] := by
  refine ⟨⟨_, rfl⟩, ?_⟩
  rintro (⟨⟨e, he, hready⟩, _⟩ | ⟨_, hsilent, _⟩)
  · simp only [List.mem_cons, List.not_mem_nil, or_false] at he
    rcases he with rfl | rfl <;> cases hready
  · exact hsilent (by decide)

end Contract

end Processx
