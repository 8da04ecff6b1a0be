import Processx.Win.Pending

/-!
# Whole calls on Windows

`processx__connection_read()` and `processx_c_connection_poll()` with their loops over the
completion port. Each is a run of events, also if it throws, so what holds throughout the runs
of events holds throughout all sequences of calls. The loops end: that of a read when no more
operations are over, that of a poll with a limited time after its rounds.
-/

namespace Processx.Win

open SharedQueue

variable {σ : Type}

/-- The operations that are over, and the bytes that came. -/
abbrev Arrivals := List (ℕ × Bytes)

/-- Operations are over. -/
def background (ic : Riconv σ) (now : Arrivals) (w : World σ) : World σ :=
  w.run (machine ic) (now.map fun arrival => .act arrival.1 (.complete arrival.2))

/-- One `GetQueuedCompletionStatus()`: the operations that are over before it takes a packet, if
it fails without one for another reason than the time, and if the user interrupts after it. -/
structure Status where
  arrivals : Arrivals := []
  error : Bool := false
  interrupted : Bool := false

/-- The loop of `processx__connection_read()` for connection `i`, for the system calls to come.
The result is `none` while it is still going on. -/
def readLoop (ic : Riconv σ) (i : ℕ) : List Status → World σ → Option (Except String ℕ × World σ)
  | [], _ => none
  | sres :: later, w =>
    let w := background ic sres.arrivals w
    match w.queue with
    | [] => some (if sres.error then .error "Read error" else .ok 0, w)
    | (con, overlapped) :: _ =>
      let after := w.step (machine ic) (.take .read)
      if con = i then some (.ok (readPacket ic overlapped.bytes.length (w.state con)).1, after)
      else readLoop ic i later after

/-- `processx__connection_read()` -/
def connectionRead (ic : Riconv σ) (i : ℕ) (start : Start) (calls : List Status) (w : World σ) :
    Option (Except String ℕ × World σ) :=
  let after := w.step (machine ic) (.act i (.readStart start))
  match (connectionReadStart ic start (w.state i)).1 with
  | .error msg => some (.error msg, after)
  | .ok (some bytes) => some (.ok bytes, after)
  | .ok none => readLoop ic i calls after

/-- A connection to poll, the operations that are over before its turn comes, and the answers to
the calls that start a read. -/
structure Pollable where
  object : ℕ
  arrivals : Arrivals := []
  start : Start := {}

/-- The first loop of `processx_c_connection_poll()`. -/
def prePollAll (ic : Riconv σ) : List Pollable → World σ → Except String (List PollEvent) × World σ
  | [], w => (.ok [], w)
  | el :: els, w =>
    let w := background ic el.arrivals w
    let after := w.step (machine ic) (.act el.object (.prePoll el.start))
    match (prePollFuncConnection ic el.start (w.state el.object)).1 with
    | .error msg => (.error msg, after)
    | .ok found =>
      match prePollAll ic els after with
      | (.error msg, w) => (.error msg, w)
      | (.ok events, w) => (.ok (found :: events), w)

/-- What a round of the last loop does with `GetQueuedCompletionStatus()`: the events and the
number of pollables with data. `pollIdx` is `poll_idx`. -/
def pollStatus (ic : Riconv σ) (pollables : List Pollable) (pollIdx : ℕ → ℕ) (sres : Status)
    (events : List PollEvent) (hasdata : ℕ) (w : World σ) :
    Except String (List PollEvent × ℕ) × World σ :=
  let w := background ic sres.arrivals w
  match w.queue with
  | [] => (if sres.error then .error "Cannot poll" else .ok (events, hasdata), w)
  | (con, overlapped) :: _ =>
    let polled := decide (pollables[pollIdx con]?.map Pollable.object = some con)
    let after := w.step (machine ic) (.take (.poll polled))
    match (pollPacket ic polled overlapped.bytes.length (w.state con)).1 with
    | none => (.ok (events, hasdata), after)
    | some found => (.ok (events.set (pollIdx con) found, hasdata + 1), after)

/-- The last loop of `processx_c_connection_poll()`, for the system calls to come. -/
def waitLoop (ic : Riconv σ) (pollables : List Pollable) (pollIdx : ℕ → ℕ) (timeout : ℤ) :
    List Status → ℤ → List PollEvent → ℕ → World σ →
      Option (Except String (List PollEvent × ℕ) × World σ)
  | calls, timeleft, events, hasdata, w =>
    if timeout < 0 ∨ timeleft ≥ 0 then
      match calls with
      | [] => none
      | sres :: later =>
        match pollStatus ic pollables pollIdx sres events hasdata w with
        | (.error msg, w) => some (.error msg, w)
        | (.ok (events, hasdata), w) =>
          if hasdata > 0 then some (.ok (events, hasdata), w)
          else if sres.interrupted then some (.error "interrupt", w)
          else
            waitLoop ic pollables pollIdx timeout later (timeleft - pollInterval) events hasdata w
    else some (.ok (events, hasdata), w)

/-- `for (i = 0; i < j; i++) pollables[ptr[i]].event = PXTIMEOUT` -/
def timeOut (found results : List PollEvent) : List PollEvent :=
  List.zipWith (fun el result => if el = .handle then .timeout else result) found results

/-- `processx_c_connection_poll()` for connections: the events, and the number of those with
data. -/
def cConnectionPoll (ic : Riconv σ) (pollables : List Pollable) (pollIdx : ℕ → ℕ) (timeout : ℤ)
    (calls : List Status) (w : World σ) :
    Option (Except String (List PollEvent × ℕ) × World σ) :=
  match prePollAll ic pollables w with
  | (.error msg, w) => some (.error msg, w)
  | (.ok found, w) =>
    let hasdata := found.countP fun el => el = .ready ∨ el = .connect
    let events := found.map fun el => if el = .handle then .silent else el
    if .handle ∉ found then some (.ok (events, hasdata), w)
    else
      let timeout := if hasdata > 0 then 0 else timeout
      match waitLoop ic pollables pollIdx timeout calls timeout events hasdata w with
      | none => none
      | some (.error msg, w) => some (.error msg, w)
      | some (.ok (events, hasdata), w) =>
        some (.ok (if hasdata = 0 then timeOut found events else events, hasdata), w)

/-- Operations are over, as events. -/
def completions (now : Arrivals) : List Event :=
  now.map fun arrival => .act arrival.1 (.complete arrival.2)

/-- What happens in the loop of `processx__connection_read()`. -/
def readLoopEvents (ic : Riconv σ) (i : ℕ) : List Status → World σ → List Event
  | [], _ => []
  | sres :: later, w =>
    let w := background ic sres.arrivals w
    completions sres.arrivals ++
      match w.queue with
      | [] => []
      | (con, _) :: _ =>
        .take .read ::
          if con = i then [] else readLoopEvents ic i later (w.step (machine ic) (.take .read))

/-- What happens in `processx__connection_read()`. -/
def connectionReadEvents (ic : Riconv σ) (i : ℕ) (start : Start) (calls : List Status)
    (w : World σ) : List Event :=
  .act i (.readStart start) ::
    match (connectionReadStart ic start (w.state i)).1 with
    | .ok none => readLoopEvents ic i calls (w.step (machine ic) (.act i (.readStart start)))
    | _ => []

/-- What happens in the first loop of `processx_c_connection_poll()`. -/
def prePollEvents (ic : Riconv σ) : List Pollable → World σ → List Event
  | [], _ => []
  | el :: els, w =>
    let w := background ic el.arrivals w
    completions el.arrivals ++ .act el.object (.prePoll el.start) ::
      match (prePollFuncConnection ic el.start (w.state el.object)).1 with
      | .error _ => []
      | .ok _ => prePollEvents ic els (w.step (machine ic) (.act el.object (.prePoll el.start)))

/-- What happens in a round of the last loop. -/
def pollStatusEvents (ic : Riconv σ) (pollables : List Pollable) (pollIdx : ℕ → ℕ) (sres : Status)
    (w : World σ) : List Event :=
  completions sres.arrivals ++
    match (background ic sres.arrivals w).queue with
    | [] => []
    | (con, _) :: _ =>
      [.take (.poll (decide (pollables[pollIdx con]?.map Pollable.object = some con)))]

/-- What happens in the last loop of `processx_c_connection_poll()`. -/
def waitLoopEvents (ic : Riconv σ) (pollables : List Pollable) (pollIdx : ℕ → ℕ) (timeout : ℤ) :
    List Status → ℤ → List PollEvent → ℕ → World σ → List Event
  | [], _, _, _, _ => []
  | sres :: later, timeleft, events, hasdata, w =>
    if timeout < 0 ∨ timeleft ≥ 0 then
      pollStatusEvents ic pollables pollIdx sres w ++
        match pollStatus ic pollables pollIdx sres events hasdata w with
        | (.error _, _) => []
        | (.ok (events, hasdata), w) =>
          if hasdata > 0 ∨ sres.interrupted then []
          else waitLoopEvents ic pollables pollIdx timeout later (timeleft - pollInterval) events
            hasdata w
    else []

/-- What happens in `processx_c_connection_poll()`. -/
def cConnectionPollEvents (ic : Riconv σ) (pollables : List Pollable) (pollIdx : ℕ → ℕ)
    (timeout : ℤ) (calls : List Status) (w : World σ) : List Event :=
  prePollEvents ic pollables w ++
    match prePollAll ic pollables w with
    | (.error _, _) => []
    | (.ok found, w) =>
      let hasdata := found.countP fun el => el = .ready ∨ el = .connect
      let events := found.map fun el => if el = .handle then .silent else el
      if .handle ∉ found then []
      else
        let timeout := if hasdata > 0 then 0 else timeout
        waitLoopEvents ic pollables pollIdx timeout calls timeout events hasdata w

/-- The events, all of one kind, lead from one state to another. -/
structure RunsBy (ic : Riconv σ) (P : Event → Prop) (events : List Event) (w w' : World σ) :
    Prop where
  kind : ∀ e ∈ events, P e
  run : w' = w.run (machine ic) events

/-- Events of one kind lead from one state to another. -/
def RunsTo (ic : Riconv σ) (P : Event → Prop) (w w' : World σ) : Prop :=
  ∃ events : List Event, (∀ e ∈ events, P e) ∧ w' = w.run (machine ic) events

variable {ic : Riconv σ}

/-- A run of no events. -/
theorem RunsBy.nil (P : Event → Prop) (w : World σ) : RunsBy ic P [] w w :=
  ⟨List.forall_mem_nil _, rfl⟩

/-- One more event at the start of a run. -/
theorem RunsBy.cons {P : Event → Prop} {e : Event} (he : P e) {events : List Event}
    {w w' : World σ} (h : RunsBy ic P events (w.step (machine ic) e) w') :
    RunsBy ic P (e :: events) w w' :=
  ⟨List.forall_mem_cons.mpr ⟨he, h.kind⟩, h.run⟩

/-- One run after another. -/
theorem RunsBy.append {P : Event → Prop} {events later : List Event} {w w' w'' : World σ}
    (h : RunsBy ic P events w w') (h' : RunsBy ic P later w' w'') :
    RunsBy ic P (events ++ later) w w'' := by
  refine ⟨fun e he => (List.mem_append.mp he).elim (h.kind e) (h'.kind e), ?_⟩
  rw [System.run_append, ← h.run]
  exact h'.run

/-- A run of events of some kind is one of a wider kind. -/
theorem RunsBy.mono {P Q : Event → Prop} {events : List Event} {w w' : World σ}
    (h : RunsBy ic P events w w') (hPQ : ∀ e, P e → Q e) : RunsBy ic Q events w w' :=
  ⟨fun e he => hPQ e (h.kind e he), h.run⟩

/-- A run leads somewhere. -/
theorem RunsBy.runsTo {P : Event → Prop} {events : List Event} {w w' : World σ}
    (h : RunsBy ic P events w w') : RunsTo ic P w w' :=
  ⟨events, h.kind, h.run⟩

/-- What the operating system does by itself. -/
def IsCompletion (e : Event) : Prop := ∃ k bytes, e = .act k (.complete bytes)

/-- What happens in the background are reads that come to their end. -/
theorem background_run (ic : Riconv σ) (now : Arrivals) (w : World σ) :
    RunsBy ic IsCompletion (completions now) w (background ic now w) := by
  refine ⟨fun e he => ?_, rfl⟩
  obtain ⟨arrival, _, rfl⟩ := List.mem_map.mp he
  exact ⟨arrival.1, arrival.2, rfl⟩

/-- The loop of a read handles packets. -/
theorem readLoop_run {i : ℕ} {calls : List Status} {w w' : World σ} {result : Except String ℕ}
    (h : readLoop ic i calls w = some (result, w')) :
    RunsBy ic (fun e => e = .take .read ∨ IsCompletion e) (readLoopEvents ic i calls w) w w' := by
  induction calls generalizing w with
  | nil => cases h
  | cons sres later ih =>
    have hbefore : RunsBy ic (fun e => e = .take .read ∨ IsCompletion e) (completions sres.arrivals)
        w (background ic sres.arrivals w) := (background_run ic _ w).mono fun e he => Or.inr he
    unfold readLoopEvents
    refine hbefore.append ?_
    unfold readLoop at h
    dsimp only at h ⊢
    split at h
    · cases h
      exact .nil _ _
    · refine .cons (Or.inl rfl) ?_
      split_ifs at h ⊢
      · cases h
        exact .nil _ _
      · exact ih h

/-- What a read does after it has started a read: it handles packets. -/
theorem connectionRead_later {i : ℕ} {start : Start} {calls : List Status} {w w' : World σ}
    {result : Except String ℕ} (h : connectionRead ic i start calls w = some (result, w')) :
    RunsBy ic (fun e => e = .take .read ∨ IsCompletion e)
      (connectionReadEvents ic i start calls w).tail
      (w.step (machine ic) (.act i (.readStart start))) w' := by
  unfold connectionRead at h
  unfold connectionReadEvents
  rw [List.tail_cons]
  dsimp only at h
  rcases hstart : (connectionReadStart ic start (w.state i)).1 with msg | _ | bytes <;>
    rw [hstart] at h <;> dsimp only at h ⊢
  · cases h
    exact .nil _ _
  · exact readLoop_run h
  · cases h
    exact .nil _ _

/-- **A read is a run of events**: it starts a read, and it handles packets. -/
theorem connectionRead_run {i : ℕ} {start : Start} {calls : List Status} {w w' : World σ}
    {result : Except String ℕ} (h : connectionRead ic i start calls w = some (result, w')) :
    RunsBy ic (fun e => e = .act i (.readStart start) ∨ e = .take .read ∨ IsCompletion e)
      (connectionReadEvents ic i start calls w) w w' :=
  .cons (Or.inl rfl) ((connectionRead_later h).mono fun _ he => Or.inr he)

/-- The events of a poll of some connections. -/
def IsPoll (pollables : List Pollable) (e : Event) : Prop :=
  (∃ el ∈ pollables, e = .act el.object (.prePoll el.start)) ∨
    (∃ polled, e = .take (.poll polled)) ∨ IsCompletion e

/-- The start of a poll is an event of the poll. -/
theorem IsPoll.prePoll {pollables : List Pollable} {el : Pollable} (hmem : el ∈ pollables) :
    IsPoll pollables (.act el.object (.prePoll el.start)) :=
  Or.inl ⟨el, hmem, rfl⟩

/-- So is a packet that it takes. -/
theorem IsPoll.take (pollables : List Pollable) (polled : Bool) :
    IsPoll pollables (.take (.poll polled)) :=
  Or.inr (Or.inl ⟨polled, rfl⟩)

/-- So is a read that comes to its end meanwhile. -/
theorem IsCompletion.isPoll {e : Event} (he : IsCompletion e) (pollables : List Pollable) :
    IsPoll pollables e :=
  Or.inr (Or.inr he)

/-- The first loop of a poll is a run of such events. -/
theorem prePollAll_run (ic : Riconv σ) (pollables : List Pollable) (w : World σ) :
    RunsBy ic (IsPoll pollables) (prePollEvents ic pollables w) w
      (prePollAll ic pollables w).2 := by
  induction pollables generalizing w with
  | nil => exact .nil _ _
  | cons el els ih =>
    have hbefore : RunsBy ic (IsPoll (el :: els)) (completions el.arrivals) w
        (background ic el.arrivals w) := (background_run ic _ w).mono fun e he => he.isPoll _
    have hels : ∀ e, IsPoll els e → IsPoll (el :: els) e := by
      rintro e (⟨other, hmem, rfl⟩ | he)
      · exact .prePoll (List.mem_cons_of_mem _ hmem)
      · exact Or.inr he
    unfold prePollEvents
    refine hbefore.append (.cons (.prePoll List.mem_cons_self) ?_)
    unfold prePollAll
    dsimp only
    split
    · exact .nil _ _
    · have hrest := (ih ((background ic el.arrivals w).step (machine ic)
        (.act el.object (.prePoll el.start)))).mono hels
      split <;> rename_i heq <;> rw [heq] at hrest <;> exact hrest

/-- So is one look at the queue. -/
theorem pollStatus_run (ic : Riconv σ) (pollables : List Pollable) (pollIdx : ℕ → ℕ)
    (sres : Status) (events : List PollEvent) (hasdata : ℕ) (w : World σ) :
    RunsBy ic (IsPoll pollables) (pollStatusEvents ic pollables pollIdx sres w) w
      (pollStatus ic pollables pollIdx sres events hasdata w).2 := by
  have hbefore : RunsBy ic (IsPoll pollables) (completions sres.arrivals) w
      (background ic sres.arrivals w) := (background_run ic _ w).mono fun e he => he.isPoll _
  unfold pollStatusEvents
  refine hbefore.append ?_
  unfold pollStatus
  dsimp only
  split
  · exact .nil _ _
  · split <;> exact .cons (IsPoll.take _ _) (.nil _ _)

/-- So is the loop of a poll. -/
theorem waitLoop_run {pollables : List Pollable} {pollIdx : ℕ → ℕ} {timeout timeleft : ℤ}
    {calls : List Status} {events : List PollEvent} {hasdata : ℕ} {w w' : World σ}
    {result : Except String (List PollEvent × ℕ)}
    (h : waitLoop ic pollables pollIdx timeout calls timeleft events hasdata w =
      some (result, w')) :
    RunsBy ic (IsPoll pollables)
      (waitLoopEvents ic pollables pollIdx timeout calls timeleft events hasdata w) w w' := by
  induction calls generalizing timeleft events hasdata w with
  | nil =>
    unfold waitLoop at h
    split at h
    · cases h
    · cases h
      exact .nil _ _
  | cons sres later ih =>
    unfold waitLoop at h
    unfold waitLoopEvents
    dsimp only at h ⊢
    by_cases htime : timeout < 0 ∨ timeleft ≥ 0
    · rw [if_pos htime] at h ⊢
      have hround := pollStatus_run ic pollables pollIdx sres events hasdata w
      rcases hstatus : pollStatus ic pollables pollIdx sres events hasdata w with
        ⟨msg | ⟨events', hasdata'⟩, w₁⟩ <;> rw [hstatus] at h hround <;>
        refine hround.append ?_ <;> dsimp only at h ⊢
      · cases h
        exact .nil _ _
      · by_cases hdata : hasdata' > 0
        · rw [if_pos hdata] at h
          rw [if_pos (Or.inl hdata)]
          cases h
          exact .nil _ _
        · rw [if_neg hdata] at h
          by_cases hinterrupt : sres.interrupted = true
          · rw [if_pos hinterrupt] at h
            rw [if_pos (Or.inr hinterrupt)]
            cases h
            exact .nil _ _
          · rw [if_neg hinterrupt] at h
            rw [if_neg (not_or.mpr ⟨hdata, hinterrupt⟩)]
            exact ih h
    · rw [if_neg htime] at h ⊢
      cases h
      exact .nil _ _

/-- **A poll is a run of events**: it asks the connections in turn, and it handles packets. -/
theorem cConnectionPoll_run {pollables : List Pollable} {pollIdx : ℕ → ℕ} {timeout : ℤ}
    {calls : List Status} {w w' : World σ} {result : Except String (List PollEvent × ℕ)}
    (h : cConnectionPoll ic pollables pollIdx timeout calls w = some (result, w')) :
    RunsBy ic (IsPoll pollables) (cConnectionPollEvents ic pollables pollIdx timeout calls w)
      w w' := by
  have hpre := prePollAll_run ic pollables w
  unfold cConnectionPoll at h
  unfold cConnectionPollEvents
  dsimp only at h ⊢
  rcases hfound : prePollAll ic pollables w with ⟨msg | found, w₁⟩ <;> rw [hfound] at h hpre <;>
    refine hpre.append ?_ <;> dsimp only at h ⊢
  · cases h
    exact .nil _ _
  · by_cases hhandle : PollEvent.handle ∉ found
    · rw [if_pos hhandle] at h ⊢
      cases h
      exact .nil _ _
    · rw [if_neg hhandle] at h ⊢
      split at h <;> cases h <;> rename_i hwait <;> exact waitLoop_run hwait

/-- Every operation that is over queues at most one packet. -/
theorem length_queue_background (ic : Riconv σ) (now : Arrivals) (w : World σ) :
    (background ic now w).queue.length ≤ w.queue.length + now.length := by
  unfold background
  induction now generalizing w with
  | nil => exact Nat.le_refl _
  | cons arrival now ih =>
    have hone : (w.step (machine ic) (.act arrival.1 (.complete arrival.2))).queue.length ≤
        w.queue.length + 1 := by
      have hposted : (complete arrival.2 (w.state arrival.1)).2.length ≤ 1 := by
        unfold complete
        rcases (w.state arrival.1).outstanding with _ | ⟨offset, todo⟩ | _
        · exact Nat.zero_le 1
        · dsimp only
          split_ifs <;> simp
        · dsimp only
          split_ifs <;> simp
      simpa [System.step, machine, act] using hposted
    have hrest := ih (w.step (machine ic) (.act arrival.1 (.complete arrival.2)))
    rw [List.map_cons, List.length_cons]
    change (System.run _ (w.step _ _) _).queue.length ≤ _
    omega

/-- **A read ends**: it calls `GetQueuedCompletionStatus()` at most once more than there are
packets, with those queued while it goes on. -/
theorem readLoop_returns {i : ℕ} {calls : List Status} {w : World σ}
    (h : w.queue.length + (calls.flatMap Status.arrivals).length < calls.length) :
    (readLoop ic i calls w).isSome = true := by
  induction calls generalizing w with
  | nil => exact absurd h (Nat.not_lt_zero _)
  | cons sres later ih =>
    have hlength := length_queue_background ic sres.arrivals w
    rw [List.flatMap_cons, List.length_append, List.length_cons] at h
    unfold readLoop
    dsimp only
    split
    · rfl
    · next con overlapped rest hqueue =>
      rw [hqueue, List.length_cons] at hlength
      split
      · rfl
      · refine ih ?_
        simp only [System.step, hqueue]
        omega

/-- **A poll with a limited time ends**: after its rounds of 200 milliseconds. -/
theorem waitLoop_returns {pollables : List Pollable} {pollIdx : ℕ → ℕ} {timeout timeleft : ℤ}
    {calls : List Status} {events : List PollEvent} {hasdata : ℕ} {w : World σ}
    (htimeout : 0 ≤ timeout) (h : timeleft < pollInterval * calls.length) :
    (waitLoop ic pollables pollIdx timeout calls timeleft events hasdata w).isSome = true := by
  induction calls generalizing timeleft events hasdata w with
  | nil =>
    have hover : ¬ (timeout < 0 ∨ timeleft ≥ 0) := by
      simp only [List.length_nil] at h
      omega
    unfold waitLoop
    rw [if_neg hover]
    rfl
  | cons sres later ih =>
    have hlater : timeleft - pollInterval < pollInterval * later.length := by
      rw [List.length_cons] at h
      unfold pollInterval at h ⊢
      omega
    unfold waitLoop
    dsimp only
    split
    · split
      · rfl
      · split
        · rfl
        · split
          · rfl
          · exact ih hlater
    · rfl

/-- `processx_c_connection_poll()` ends. -/
theorem cConnectionPoll_returns {pollables : List Pollable} {pollIdx : ℕ → ℕ} {timeout : ℤ}
    {calls : List Status} {w : World σ} (htimeout : 0 ≤ timeout)
    (h : timeout < pollInterval * calls.length) :
    (cConnectionPoll ic pollables pollIdx timeout calls w).isSome = true := by
  unfold cConnectionPoll
  dsimp only
  split
  · rfl
  · next found after _ =>
    split
    · rfl
    · have hwait : ∀ n : ℕ, ∀ events : List PollEvent,
          (waitLoop ic pollables pollIdx (if n > 0 then 0 else timeout) calls
            (if n > 0 then 0 else timeout) events n after).isSome = true := by
        intro n events
        split_ifs
        · exact waitLoop_returns (Int.le_refl 0) (Int.lt_of_le_of_lt htimeout h)
        · exact waitLoop_returns htimeout h
      have hsome := hwait (found.countP fun el => el = .ready ∨ el = .connect)
        (found.map fun el => if el = .handle then .silent else el)
      split <;> rename_i heq
      · rw [heq] at hsome
        cases hsome
      · rfl
      · rfl

/-- A read, a poll, or anything else that happens. -/
inductive Call
  | read (i : ℕ) (start : Start) (calls : List Status)
  | poll (pollables : List Pollable) (pollIdx : ℕ → ℕ) (timeout : ℤ) (calls : List Status)
  | other (e : Event)

/-- The state after a call, if it ends. -/
def Call.after (ic : Riconv σ) (w : World σ) : Call → Option (World σ)
  | .read i start calls => (connectionRead ic i start calls w).map Prod.snd
  | .poll pollables pollIdx timeout calls =>
    (cConnectionPoll ic pollables pollIdx timeout calls w).map Prod.snd
  | .other e => some (w.step (machine ic) e)

/-- A call is a run of events. -/
theorem Call.after_run {call : Call} {w w' : World σ} (h : call.after ic w = some w') :
    ∃ events : List Event, w' = w.run (machine ic) events := by
  cases call with
  | read i start calls =>
    obtain ⟨⟨result, w'⟩, hread, rfl⟩ := Option.map_eq_some_iff.mp h
    obtain ⟨events, _, hrun⟩ := (connectionRead_run hread).runsTo
    exact ⟨events, hrun⟩
  | poll pollables pollIdx timeout calls =>
    obtain ⟨⟨result, w'⟩, hpoll, rfl⟩ := Option.map_eq_some_iff.mp h
    obtain ⟨events, _, hrun⟩ := (cConnectionPoll_run hpoll).runsTo
    exact ⟨events, hrun⟩
  | other e =>
    cases h
    exact ⟨[e], rfl⟩

/-- **Sequences of calls are runs of events.** -/
theorem calls_run {calls : List Call} {w w' : World σ}
    (h : calls.foldlM (Call.after ic) w = some w') :
    ∃ events : List Event, w' = w.run (machine ic) events := by
  induction calls generalizing w with
  | nil =>
    cases h
    exact ⟨[], rfl⟩
  | cons call calls ih =>
    obtain ⟨between, hcall, hrest⟩ := Option.bind_eq_some_iff.mp h
    obtain ⟨events, rfl⟩ := Call.after_run hcall
    obtain ⟨later, rfl⟩ := ih hrest
    exact ⟨events ++ later, (System.run_append _ w events later).symm⟩

/-- After every sequence of calls, the flags of the connections say what is going on. -/
theorem paired_calls {opened : ℕ → Opened} {calls : List Call} {w : World σ}
    (h : calls.foldlM (Call.after ic) (World.create opened) = some w) (k : ℕ) :
    Paired (w.box k) := by
  obtain ⟨events, rfl⟩ := calls_run h
  exact System.keeps_run (fun b mv hb => hb.step ic mv) events (paired_create opened) k

end Processx.Win
