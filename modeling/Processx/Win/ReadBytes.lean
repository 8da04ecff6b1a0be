import Processx.Win.Handlers
import Processx.Win.Calls
import Processx.Win.Landing

/-!
# Polls and reads of bytes

`processx_connection_read_bytes()` returns bytes from the raw buffer, and switches the connection
to raw mode. Before that a poll may have taken a packet for it, and have converted its bytes to
text, where nobody finds them. If no conversion takes any bytes, and no bytes are taken from before
the place where a read is pending, all that the operating system has brought is returned in order.
-/

namespace Processx.Win

open SharedQueue

variable {σ : Type} {ic : Riconv σ}

/-- The bytes that the operating system brings at once when a read is started. -/
def Start.brings (start : Start) (ccon : Connection σ) : Bytes :=
  let c := ccon.allocated
  if c.handle ≠ 0 ∧ c.readPending = false ∧ ¬ c.listening ∧
      (threadSetup start.setup c).1 = true then
    match start.readFile with
    | .success bytes => bytes.take (c.bufferAllocatedSize - c.bufferDataSize)
    | _ => []
  else []

/-- The bytes that the operating system brings in a move. -/
def brings (ic : Riconv σ) (b : Box σ) : Move → Bytes
  | .act (.prePoll start) =>
    if (preReady ic b.state).1 = none ∧ (preReady ic b.state).2.pipeReady = false then
      start.brings (preReady ic b.state).2
    else []
  | .act (.readStart start) =>
    if ¬ b.state.unaccepted ∧ ¬ (b.state.isEofRaw = true ∧ b.state.bufferDataSize = 0) ∧
        ¬ b.state.full then start.brings b.state.allocated
    else []
  | .act (.complete bytes) =>
    match b.state.outstanding with
    | some (.read _ todo) => bytes.take todo
    | _ => []
  | _ => []

/-- The bytes that are returned in a move. -/
def gives (b : Box σ) : Move → Bytes
  | .act (.takeRaw n) => if b.state.rawMode then b.state.buffer.take n else []
  | _ => []

/-- All bytes that were brought, and all that were returned. -/
structure Ledger where
  delivered : Bytes := []
  returned : Bytes := []
  deriving DecidableEq

/-- The ledger after a move. -/
def Ledger.after (ic : Riconv σ) (ℓ : Ledger) (b : Box σ) (mv : Move) : Ledger where
  delivered := ℓ.delivered ++ brings ic b mv
  returned := ℓ.returned ++ gives b mv

/-- The moves of polls and of `processx_connection_read_bytes()`. -/
def ByBytes (b : Box σ) : Move → Prop
  | .act (.readStart _) =>
    b.state.rawMode = true ∧ b.state.bufferDataSize = 0 ∧ b.state.isEofRaw = false
  | .act (.takeUtf8 _) | .act .growUtf8 => False
  | _ => True

/-- No conversion takes bytes from the raw buffer in the move, no bytes are taken from before the
place where a read is pending, and none come after the end of the file. -/
def Intact (ic : Riconv σ) (b : Box σ) (mv : Move) : Prop :=
  (b.state.isEofRaw = true → brings ic b mv = []) ∧
    match mv with
    | .act (.prePoll start) => (∀ c ∈ macroRuns ic start b.state, ¬ c.TakenByPoll ic) ∧
      (b.state.rawMode = false → start.readFile = .brokenPipe ∨ start.readFile = .handleEof →
        ¬ (markEofRaw (preReady ic b.state).2).Convertible ic)
    | .act (.takeRaw n) => ops b ≠ [] → n = 0 ∨ b.state.bufferDataSize = 0
    | .take _ => b.state.rawMode = false →
      ∀ p ∈ b.waiting.head?, ¬ (b.state.arrive p.bytes.length).Convertible ic
    | _ => True

instance (ic : Riconv σ) (b : Box σ) (mv : Move) : Decidable (Intact ic b mv) :=
  match mv with
  | .act (.prePoll start) =>
    inferInstanceAs (Decidable (_ ∧ (∀ c ∈ macroRuns ic start b.state, ¬ _) ∧ (_ → _ ∨ _ → ¬ _)))
  | .act (.takeRaw _) => inferInstanceAs (Decidable (_ ∧ (_ → _ ∨ _)))
  | .take _ => inferInstanceAs (Decidable (_ ∧ (_ → ∀ p ∈ b.waiting.head?, ¬ _)))
  | .act (.readStart _) | .act (.takeUtf8 _) | .act .growUtf8 | .act .setRaw | .act .accept
  | .act (.complete _) => inferInstanceAs (Decidable (_ ∧ True))

/-- What was brought is what was returned, what is in the raw buffer, and what waits in the queue,
and the pending read is behind the raw buffer. Bytes are `unseen` if no packet tells of them. -/
structure Ledger.Balanced (ℓ : Ledger) (b : Box σ) : Prop where
  offset : ∀ offset todo, .read offset todo ∈ ops b → offset = b.state.bufferDataSize
  written : ∀ p ∈ b.waiting, ∀ offset todo, p.op = .read offset todo →
    ∀ i < p.bytes.length, b.state.memory (offset + i) = p.bytes.getD i 0
  delivered : ∃ unseen, ℓ.delivered =
      ℓ.returned ++ b.state.buffer ++ b.waiting.flatMap Completion.bytes ++ unseen ∧
    (unseen ≠ [] → b.state.readPending = true ∧ ops b = [])
  ended : b.state.isEofRaw = true → ℓ.delivered = ℓ.returned ++ b.state.buffer
  eof : b.state.isEof = true → b.state.isEofRaw = true ∧ b.state.bufferDataSize = 0

section Balanced

variable {ℓ : Ledger}

/-- Nothing is going on. -/
theorem Ledger.Balanced.of_idle {c : Connection σ} (hidle : c.outstanding = none)
    (hall : ℓ.delivered = ℓ.returned ++ c.buffer)
    (heof : c.isEof = true → c.isEofRaw = true ∧ c.bufferDataSize = 0) :
    ℓ.Balanced ⟨c, []⟩ := by
  refine ⟨fun _ _ hmem => by simp [ops, hidle] at hmem, by simp, ⟨[], ?_, by simp⟩,
    fun _ => hall, heof⟩
  simpa using hall

/-- While no read is pending, all that was brought is returned or in the raw buffer. -/
theorem Ledger.Balanced.settled {c : Connection σ} {waiting : List Completion}
    (h : ℓ.Balanced ⟨c, waiting⟩) (hpaired : Paired ⟨c, waiting⟩)
    (hpending : c.readPending = false) : ℓ.delivered = ℓ.returned ++ c.buffer := by
  obtain ⟨unseen, hall, hstuck⟩ := h.delivered
  obtain ⟨_, hwaiting⟩ := hpaired.idle hpending
  dsimp only at hall hstuck hwaiting
  have hnone : unseen = [] := by
    by_contra hne
    have hset := (hstuck hne).1
    rw [hpending] at hset
    cases hset
  simpa [hwaiting, hnone] using hall

/-- A change that keeps the raw buffer, the operations, and what is known of the end. -/
theorem Ledger.Balanced.same {c c' : Connection σ} {waiting : List Completion}
    (h : ℓ.Balanced ⟨c, waiting⟩) (hmemory : c'.memory = c.memory)
    (hsize : c'.bufferDataSize = c.bufferDataSize)
    (hsame : (c'.readPending, c'.outstanding, c'.isEofRaw) =
      (c.readPending, c.outstanding, c.isEofRaw))
    (heof : c'.isEof = true → c.isEofRaw = true ∧ c.bufferDataSize = 0) :
    ℓ.Balanced ⟨c', waiting⟩ := by
  obtain ⟨hpending, hout, heofRaw⟩ := by simpa only [Prod.mk.injEq] using hsame
  have hops : ops ⟨c', waiting⟩ = ops ⟨c, waiting⟩ := by simp only [ops, hout]
  have hbuffer : c'.buffer = c.buffer := by simp only [Connection.buffer, hmemory, hsize]
  obtain ⟨hoffset, hwritten, hdelivered, hended, _⟩ := h
  refine ⟨?_, hmemory ▸ hwritten, ?_, ?_, ?_⟩
  · rw [hops]
    exact hsize ▸ hoffset
  · rw [hops, hbuffer, hpending]
    exact hdelivered
  · rw [hbuffer, heofRaw]
    exact hended
  · rw [heofRaw, hsize]
    exact heof

/-- A conversion that takes nothing. -/
theorem Ledger.Balanced.converted {c c' : Connection σ} {waiting : List Completion}
    (h : ℓ.Balanced ⟨c, waiting⟩) (hconv : Converted c c')
    (hkept : c'.memory = c.memory ∧ c'.bufferDataSize = c.bufferDataSize) :
    ℓ.Balanced ⟨c', waiting⟩ := by
  obtain ⟨_, _, _, _, _, _, rfl⟩ := hconv
  exact h.same hkept.1 hkept.2 rfl h.eof

/-- The look for what is ready already takes no bytes that the condition does not let it take. -/
theorem Ledger.Balanced.ready {c : Connection σ} {waiting : List Completion}
    (h : ℓ.Balanced ⟨c, waiting⟩) (hkept : ¬ c.TakenByPoll ic) :
    ℓ.Balanced ⟨(preReady ic c).2, waiting⟩ :=
  h.converted (preReady_converted ic c) (preReady_of_not_taken hkept)

/-- If the end of the file is known for both buffers, the raw buffer is empty. -/
theorem markEofRaw_eof {c : Connection σ}
    (h : c.isEof = true → c.isEofRaw = true ∧ c.bufferDataSize = 0)
    (hset : (markEofRaw c).isEof = true) :
    (markEofRaw c).isEofRaw = true ∧ (markEofRaw c).bufferDataSize = 0 := by
  refine ⟨rfl, ?_⟩
  show c.bufferDataSize = 0
  rcases (Bool.or_eq_true _ _).mp hset with hset | hset
  · exact (h hset).2
  · simpa using ((Bool.and_eq_true _ _).mp hset).2

/-- Bytes behind the data do not change the data. -/
theorem Connection.buffer_fill (c : Connection σ) (bytes : Bytes) :
    (c.fill c.bufferDataSize bytes).buffer = c.buffer := by
  refine List.map_congr_left fun i hi => ?_
  have hlt : i < c.bufferDataSize := List.mem_range.mp hi
  exact if_neg fun hbehind => by omega

/-- A read that does not succeed at once brings nothing. -/
theorem Start.brings_eq_nil {start : Start} {c : Connection σ}
    (h : c.readPending = false → ¬ c.listening → (threadSetup start.setup c.allocated).1 = true →
      ∀ bytes, start.readFile ≠ .success bytes) : start.brings c = [] := by
  unfold Start.brings
  dsimp only
  split_ifs with hread
  · obtain ⟨_, hpending, hlisten, hset⟩ := hread
    have hother := h (c.allocated_readPending ▸ hpending)
      (fun hlistening => hlisten (c.allocated_listening.mpr hlistening)) hset
    split
    · next bytes hanswer => exact absurd hanswer (hother bytes)
    · rfl
  · rfl

/-- One that does brings what has room in the buffer. -/
theorem Start.brings_of_success {start : Start} {c : Connection σ} {bytes : Bytes}
    (hallocated : c.allocated = c) (hhandle : c.handle ≠ 0) (hpending : c.readPending = false)
    (hlisten : ¬ c.listening) (hset : (threadSetup start.setup c).1 = true)
    (hanswer : start.readFile = .success bytes) :
    start.brings c = bytes.take (c.bufferAllocatedSize - c.bufferDataSize) := by
  unfold Start.brings
  dsimp only
  rw [hallocated, if_pos ⟨hhandle, hpending, hlisten, hset⟩, hanswer]

/-- A read is started while nothing is going on. -/
theorem Ledger.Balanced.started {start : Start} {c : Connection σ} {msg : Option String}
    {c' : Connection σ} {queued : List Completion} (hallocated : c.allocated = c)
    (hhandle : c.handle ≠ 0) (hpending : c.readPending = false) (hidle : c.outstanding = none)
    (hall : ℓ.delivered = ℓ.returned ++ c.buffer)
    (heof : c.isEof = true → c.isEofRaw = true ∧ c.bufferDataSize = 0)
    (hkept : c.bufferDataSize ≠ 0 → start.readFile = .brokenPipe ∨ start.readFile = .handleEof →
      ¬ (markEofRaw c).Convertible ic)
    (hnothing : c.isEofRaw = true → start.brings c = [])
    (hstarted : Started ic start c (msg, c', queued)) :
    ({ ℓ with delivered := ℓ.delivered ++ start.brings c } : Ledger).Balanced ⟨c', queued⟩ := by
  -- all but a read that is over at once bring nothing
  have hnone : start.brings c = [] → ∀ {c'' : Connection σ}, c''.buffer = c.buffer →
      (∀ offset todo, c''.outstanding ≠ some (.read offset todo) ∨ offset = c''.bufferDataSize) →
      (c''.isEof = true → c''.isEofRaw = true ∧ c''.bufferDataSize = 0) →
      ({ ℓ with delivered := ℓ.delivered ++ start.brings c } : Ledger).Balanced ⟨c'', []⟩ := by
    intro hbrings c'' hbuffer hoffset heof''
    have hdelivered : ℓ.delivered ++ start.brings c = ℓ.returned ++ c''.buffer := by
      rw [hbrings, List.append_nil, hbuffer, hall]
    refine ⟨fun offset todo hmem => ?_, by simp, ⟨[], ?_, by simp⟩, fun _ => hdelivered, heof''⟩
    · have hout : c''.outstanding = some (.read offset todo) := by simpa [ops] using hmem
      exact (hoffset offset todo).resolve_left (fun hne => hne hout)
    · simpa using hdelivered
  cases hstarted with
  | connectPending listening =>
    refine hnone (Start.brings_eq_nil fun _ hlisten => absurd listening hlisten) rfl ?_ heof
    exact fun _ _ => Or.inl (by simp)
  | connected listening =>
    refine hnone (Start.brings_eq_nil fun _ hlisten => absurd listening hlisten) rfl ?_ heof
    exact fun _ _ => Or.inl (by simp [hidle])
  | @read e a o bytes reading setup answer =>
    have hset : (threadSetup start.setup c).1 = true := by rw [setup]
    have hbrings := Start.brings_of_success hallocated hhandle hpending reading hset answer
    have hbuffer := c.buffer_fill (bytes.take (c.bufferAllocatedSize - c.bufferDataSize))
    have hended : ∀ c'' : Connection σ, c''.isEofRaw = c.isEofRaw → c''.buffer = c.buffer →
        c''.isEofRaw = true → ℓ.delivered ++ start.brings c = ℓ.returned ++ c''.buffer := by
      intro c'' heofRaw hbuffer'' hset''
      rw [hnothing (heofRaw ▸ hset''), List.append_nil, hbuffer'', hall]
    cases a with
    | true =>
      refine ⟨fun offset todo hmem => ?_, fun p hp offset todo hop i hi => ?_,
        ⟨[], ?_, by simp⟩, hended _ rfl hbuffer, heof⟩
      · have heq : offset = c.bufferDataSize ∧ todo = c.bufferAllocatedSize - c.bufferDataSize := by
          simpa [ops, Connection.fill, hidle] using hmem
        exact heq.1
      · obtain rfl : p = _ := by simpa using hp
        obtain ⟨rfl, rfl⟩ := Overlapped.read.inj hop
        exact c.memory_fill c.bufferDataSize _ hi
      · show ℓ.delivered ++ start.brings c = _ ++ (c.fill _ _).buffer ++ _ ++ _
        rw [hbuffer, hbrings, hall]
        simp
    | false =>
      refine ⟨fun offset todo hmem => ?_, by simp, ⟨start.brings c, ?_, fun _ => ⟨rfl, ?_⟩⟩,
        hended _ rfl hbuffer, heof⟩
      · simp [ops, Connection.fill, hidle] at hmem
      · show ℓ.delivered ++ start.brings c = _ ++ (c.fill _ _).buffer ++ _ ++ _
        rw [hbuffer, hall]
        simp
      · simp [ops, Connection.fill, hidle]
  | readPending reading setup answer =>
    refine hnone (Start.brings_eq_nil fun _ _ _ bytes => by simp [answer]) rfl ?_ heof
    intro offset todo
    by_cases hplace : offset = c.bufferDataSize
    · exact Or.inr hplace
    · exact Or.inl fun hout => hplace (Overlapped.read.inj (Option.some.inj hout)).1.symm
  | @ended e a o c'' reading setup answer marked =>
    have hbrings : start.brings c = [] := Start.brings_eq_nil fun _ _ _ bytes => by
      rcases answer with answer | answer <;> simp [answer]
    have hmarked : c''.isEof = true → c''.isEofRaw = true ∧ c''.bufferDataSize = 0 := by
      subst marked
      exact markEofRaw_eof heof
    split_ifs with hsome
    · have hsame : ¬ c''.Convertible ic := by
        subst marked
        exact hkept hsome answer
      obtain ⟨hmemory, hsize⟩ := connectionToUtf8_of_not_convertible hsame
      obtain ⟨_, _, _, _, _, _, heq⟩ := connectionToUtf8_converted ic c''
      have hfields : (connectionToUtf8 ic c'').2.outstanding = c''.outstanding ∧
          (connectionToUtf8 ic c'').2.isEof = c''.isEof ∧
          (connectionToUtf8 ic c'').2.isEofRaw = c''.isEofRaw := by
        rw [heq]
        exact ⟨rfl, rfl, rfl⟩
      obtain ⟨hout, hisEof, hisEofRaw⟩ := hfields
      refine hnone hbrings ?_ ?_ ?_
      · unfold Connection.buffer
        rw [hmemory, hsize, marked]
        rfl
      · refine fun _ _ => Or.inl ?_
        rw [hout, marked]
        show c.outstanding ≠ _
        simp [hidle]
      · rw [hisEof, hisEofRaw, hsize]
        exact hmarked
    · refine hnone hbrings (by rw [marked]; rfl) ?_ hmarked
      refine fun _ _ => Or.inl ?_
      rw [marked]
      show c.outstanding ≠ _
      simp [hidle]
  | pipeListening reading setup answer type =>
    refine hnone (Start.brings_eq_nil fun _ _ _ bytes => by simp [answer]) rfl ?_ heof
    refine fun _ _ => Or.inl ?_
    dsimp only
    split_ifs <;> simp [hidle]
  | thrown failed =>
    refine hnone (Start.brings_eq_nil fun _ hlisten hset bytes => ?_) rfl ?_ heof
    · rw [hallocated] at hset
      obtain ⟨hlistening, _⟩ | ⟨_, hanswer | ⟨hanswer, _⟩⟩ := failed hset
      · exact absurd hlistening hlisten
      · simp [hanswer]
      · simp [hanswer]
    · exact fun _ _ => Or.inl (by simp [hidle])

/-- Buffers are allocated once. -/
theorem Connection.allocated_allocated (c : Connection σ) : c.allocated.allocated = c.allocated :=
  if_neg c.allocated_ne

/-- Allocating them does not change what a read brings. -/
theorem Start.brings_allocated (start : Start) (c : Connection σ) :
    start.brings c.allocated = start.brings c := by
  unfold Start.brings
  rw [c.allocated_allocated]

/-- Buffers are allocated only when there are none. -/
theorem Ledger.Balanced.allocated {c : Connection σ} {waiting : List Completion}
    (hpaired : Paired ⟨c, waiting⟩) (h : ℓ.Balanced ⟨c, waiting⟩) :
    ℓ.Balanced ⟨c.allocated, waiting⟩ := by
  by_cases hnone : c.bufferAllocatedSize = 0
  · rw [Connection.allocated, if_pos hnone]
    exact h.same rfl (hpaired.unallocated hnone).1.symm rfl h.eof
  · rwa [Connection.allocated, if_neg hnone]

/-- The start of a read keeps the balance. -/
theorem Ledger.Balanced.startRead {c : Connection σ} {waiting : List Completion} {start : Start}
    {msg : Option String} {c' : Connection σ} {queued : List Completion}
    (hpaired : Paired ⟨c, waiting⟩) (h : ℓ.Balanced ⟨c, waiting⟩)
    (hkept : c.bufferDataSize ≠ 0 → start.readFile = .brokenPipe ∨ start.readFile = .handleEof →
      ¬ (markEofRaw c).Convertible ic)
    (hnothing : c.isEofRaw = true → start.brings c = [])
    (hstart : connectionStartRead ic start c = (msg, c', queued)) :
    ({ ℓ with delivered := ℓ.delivered ++ start.brings c } : Ledger).Balanced
      ⟨c', waiting ++ queued⟩ := by
  cases hpending : c.readPending with
  | true =>
    rw [connectionStartRead_of_pending ic start hpending] at hstart
    obtain ⟨_, rfl, rfl⟩ := by simpa only [Prod.mk.injEq] using hstart
    rw [Start.brings_eq_nil fun hidle => by simp [hpending] at hidle]
    simpa only [List.append_nil] using h
  | false =>
    obtain ⟨hidle, hwaiting⟩ := hpaired.idle hpending
    have hstarted := connectionStartRead_started ic start hpaired.handle_ne hpending
    rw [hstart] at hstarted
    have hallocated := h.allocated hpaired
    have hpending' : c.allocated.readPending = false := c.allocated_readPending.trans hpending
    have hall := hallocated.settled hpaired.allocated hpending'
    dsimp only at hwaiting
    subst hwaiting
    rw [List.nil_append, ← start.brings_allocated c]
    refine Ledger.Balanced.started c.allocated_allocated hpaired.allocated.handle_ne hpending'
      (c.allocated_outstanding.trans hidle) hall hallocated.eof ?_ ?_ hstarted
    · intro hsome
      have hsame : c.allocated = c :=
        if_neg fun hnone => hsome (by simp [Connection.allocated, hnone, connectionAlloc])
      rw [hsame] at hsome ⊢
      exact hkept hsome
    · rw [c.allocated_isEofRaw, start.brings_allocated]
      exact hnothing

/-- Bytes that arrive are kept, unless they are converted. -/
theorem Connection.received_of_kept {c : Connection σ} {bytes : ℕ}
    (hkept : c.rawMode = false → ¬ (c.arrive bytes).Convertible ic) :
    (c.received ic bytes).memory = c.memory ∧
      (c.received ic bytes).bufferDataSize = c.bufferDataSize + bytes := by
  unfold Connection.received
  split_ifs with hraw
  · exact ⟨rfl, rfl⟩
  · have htext : c.rawMode = false := by simpa using fun hset => hraw (Or.inl hset)
    exact connectionToUtf8_of_not_convertible (hkept htext)

/-- The buffer has no data if and only if the size of its data is zero. -/
theorem Connection.buffer_eq_nil {c : Connection σ} : c.buffer = [] ↔ c.bufferDataSize = 0 := by
  unfold Connection.buffer
  rw [List.map_eq_nil_iff, List.range_eq_nil]

/-- What the ends of both handlers leave. -/
theorem outline_of_ended {c : Connection σ} (ended : Prop) [Decidable ended] (n : ℕ)
    (heof : c.isEof = true → c.isEofRaw = true ∧ c.bufferDataSize = 0) :
    let o := (if ended then markEofRaw (c.advance n) else c.advance n).outline
    o.buffer = c.buffer ∧ (o.isEof = true → o.isEofRaw = true ∧ o.buffer = []) := by
  intro o
  have ho : o = { (if ended then markEofRaw c else c).outline with
      overlappedOffset := c.overlappedOffset + if c.type = .asyncFile then n else 0 } :=
    outline_advance c ended n
  rw [ho]
  split_ifs
  · exact ⟨rfl, fun hset => ⟨rfl, Connection.buffer_eq_nil.mpr (markEofRaw_eof heof hset).2⟩⟩
  · exact ⟨rfl, fun hset => ⟨rfl, Connection.buffer_eq_nil.mpr (markEofRaw_eof heof hset).2⟩⟩
  · exact ⟨rfl, fun hset => ⟨(heof hset).1, Connection.buffer_eq_nil.mpr (heof hset).2⟩⟩
  · exact ⟨rfl, fun hset => ⟨(heof hset).1, Connection.buffer_eq_nil.mpr (heof hset).2⟩⟩

/-- What a packet leaves of the raw buffer, and of what is known of the end, if the conversion takes
nothing. -/
theorem handlePacket_of_kept (ic : Riconv σ) (handler : Handler) (p : Completion) {c : Connection σ}
    (hbuffer : c.bufferAllocatedSize ≠ 0)
    (hkept : c.rawMode = false → ¬ (c.arrive p.bytes.length).Convertible ic)
    (heof : c.isEof = true → c.isEofRaw = true ∧ c.bufferDataSize + p.bytes.length = 0) :
    (handlePacket ic handler p c).buffer = (c.arrive p.bytes.length).buffer ∧
      ((handlePacket ic handler p c).isEof = true → (handlePacket ic handler p c).isEofRaw = true ∧
        (handlePacket ic handler p c).bufferDataSize = 0) := by
  obtain ⟨hmemory, hsize⟩ := Connection.received_of_kept hkept
  have hreceived : (c.received ic p.bytes.length).buffer = (c.arrive p.bytes.length).buffer := by
    unfold Connection.buffer
    rw [hmemory, hsize]
    rfl
  have heof' : (c.received ic p.bytes.length).isEof = true →
      (c.received ic p.bytes.length).isEofRaw = true ∧
        (c.received ic p.bytes.length).bufferDataSize = 0 := by
    rw [hsize]
    obtain ⟨_, _, _, _, _, _, heq⟩ := c.received_converted ic p.bytes.length
    rw [heq]
    exact heof
  suffices hends : (handlePacket ic handler p c).buffer = (c.received ic p.bytes.length).buffer ∧
      ((handlePacket ic handler p c).isEof = true → (handlePacket ic handler p c).isEofRaw = true ∧
        (handlePacket ic handler p c).buffer = []) by
    rw [Connection.buffer_eq_nil, hreceived] at hends
    exact hends
  cases handler with
  | poll polled =>
    obtain ⟨state, _, hpoll⟩ := pollPacket_eq ic polled p.bytes.length c
    have hended := outline_of_ended (p.bytes.length = 0 ∧ c.connecting = false) p.bytes.length heof'
    show (pollPacket ic polled p.bytes.length c).2.buffer = _ ∧ _
    unfold handlePacket
    dsimp only
    rw [hpoll]
    exact hended
  | read =>
    have hended := outline_of_ended (c.gain ic p.bytes.length = 0) (c.gain ic p.bytes.length) heof'
    dsimp only at hended
    rw [← readPacket_eq ic p.bytes.length hbuffer] at hended
    exact hended

/-- A packet is taken. -/
theorem Ledger.Balanced.take {c : Connection σ} {p : Completion} {rest : List Completion}
    (handler : Handler) (hpaired : Paired ⟨c, p :: rest⟩) (h : ℓ.Balanced ⟨c, p :: rest⟩)
    (hkept : c.rawMode = false → ¬ (c.arrive p.bytes.length).Convertible ic) :
    ℓ.Balanced ⟨handlePacket ic handler p c, rest⟩ := by
  obtain ⟨hidle, hrest⟩ := hpaired.last
  subst hrest
  have hbusy : ops (⟨c, [p]⟩ : Box σ) ≠ [] := by simp [ops]
  -- the bytes are behind those in the raw buffer
  have hbehind : (c.arrive p.bytes.length).buffer = c.buffer ++ p.bytes := by
    refine c.buffer_arrive_of_written fun i hi => ?_
    cases hop : p.op with
    | connect =>
      have hnone := hpaired.empty p List.mem_cons_self hop
      rw [hnone] at hi
      exact absurd hi (Nat.not_lt_zero _)
    | read offset todo =>
      have hplace : offset = c.bufferDataSize := h.offset offset todo (by simp [ops, hop])
      rw [← hplace]
      exact h.written p List.mem_cons_self offset todo hop i hi
  have hall : ℓ.delivered = ℓ.returned ++ (c.buffer ++ p.bytes) := by
    obtain ⟨unseen, hall, hstuck⟩ := h.delivered
    have hseen : unseen = [] := by
      by_contra hne
      exact hbusy (hstuck hne).2
    simpa [hseen] using hall
  have heof : c.isEof = true → c.isEofRaw = true ∧ c.bufferDataSize + p.bytes.length = 0 := by
    intro hset
    obtain ⟨hraw, hsize⟩ := h.eof hset
    have hended := h.ended hraw
    dsimp only at hended hsize
    rw [hall] at hended
    have hnone : p.bytes = [] := by simpa using hended
    exact ⟨hraw, by rw [hsize, hnone]; rfl⟩
  obtain ⟨hbuffer, heof'⟩ := handlePacket_of_kept ic handler p (hpaired.pending hbusy).2
    hkept heof
  obtain ⟨_, _, _, hout, _, _⟩ := handlePacket_handled ic handler p c
  refine .of_idle (hout.trans hidle) ?_ heof'
  rw [hbuffer, hbehind, hall]

/-- `processx_connection_read_bytes()` returns bytes, and none from before a pending read. -/
theorem Ledger.Balanced.returns {c : Connection σ} {waiting : List Completion} (n : ℕ)
    (h : ℓ.Balanced ⟨c, waiting⟩)
    (hkept : ops ⟨c, waiting⟩ ≠ [] → n = 0 ∨ c.bufferDataSize = 0) :
    ({ ℓ with returned := ℓ.returned ++ if c.rawMode then c.buffer.take n else [] } :
      Ledger).Balanced ⟨takeRaw n c, waiting⟩ := by
  unfold takeRaw
  by_cases hraw : c.rawMode = true
  · rw [if_pos hraw, if_pos hraw]
    dsimp only
    -- the end of the file may become known before bytes are returned
    obtain ⟨c₁, hc₁, h₁, hsame⟩ : ∃ c₁, (if c.isEofRaw = true ∧ c.bufferDataSize = 0 then
        { c with isEof := true } else c) = c₁ ∧ ℓ.Balanced ⟨c₁, waiting⟩ ∧
          (c₁.buffer, c₁.bufferDataSize, c₁.outstanding, c₁.readPending) =
            (c.buffer, c.bufferDataSize, c.outstanding, c.readPending) := by
      split_ifs with hended
      · exact ⟨_, rfl, h.same rfl rfl rfl fun _ => hended, rfl⟩
      · exact ⟨_, rfl, h, rfl⟩
    obtain ⟨hbuffer, hsize, hout, hpending⟩ := by simpa only [Prod.mk.injEq] using hsame
    rw [hc₁]
    rw [show ops ⟨c, waiting⟩ = ops ⟨c₁, waiting⟩ by simp only [ops, hout], ← hsize] at hkept
    rw [← hbuffer]
    obtain ⟨hoffset, hwritten, ⟨unseen, hall, hstuck⟩, hended, heof⟩ := h₁
    have hsplit : ∀ more : Bytes, ℓ.returned ++ c₁.buffer.take n ++
        (c₁.shift (min n c₁.bufferDataSize)).buffer ++ more = ℓ.returned ++ c₁.buffer ++ more := by
      intro more
      have hlength : c₁.buffer.length = c₁.bufferDataSize := by simp [Connection.buffer]
      rw [Connection.buffer_shift, ← hlength, List.append_assoc ℓ.returned]
      rcases Nat.le_total n c₁.buffer.length with hle | hle
      · rw [Nat.min_eq_left hle, List.take_append_drop]
      · rw [Nat.min_eq_right hle, List.take_of_length_le hle, List.drop_length, List.append_nil]
    have hplace : ops ⟨c₁, waiting⟩ ≠ [] → c₁.shift (min n c₁.bufferDataSize) = c₁ := by
      intro hbusy
      have hnone : min n c₁.bufferDataSize = 0 := by
        have hzero := hkept hbusy
        omega
      rw [hnone]
      simp [Connection.shift]
    refine ⟨fun offset todo hmem => ?_, fun p hp offset todo hop i hi => ?_,
      ⟨unseen, ?_, hstuck⟩, fun hset => ?_, fun hset => ?_⟩
    · rw [hplace (List.ne_nil_of_mem hmem)]
      exact hoffset offset todo hmem
    · have hbusy : ops ⟨c₁, waiting⟩ ≠ [] := by
        have hne := List.ne_nil_of_mem hp
        simp [ops, hne]
      rw [hplace hbusy]
      exact hwritten p hp offset todo hop i hi
    · dsimp only at hall ⊢
      rw [hall, List.append_assoc _ (waiting.flatMap _), List.append_assoc _ (waiting.flatMap _),
        hsplit]
    · have hall' := hsplit []
      rw [List.append_nil, List.append_nil] at hall'
      exact (hended hset).trans hall'.symm
    · obtain ⟨hraw', hnone⟩ := heof hset
      refine ⟨hraw', ?_⟩
      show c₁.bufferDataSize - _ = 0
      dsimp only at hnone
      omega
  · rw [if_neg hraw, if_neg hraw, List.append_nil]
    exact h

/-- A move that gives nothing to the caller. -/
theorem Ledger.after_of_gives {b : Box σ} {mv : Move} (hgives : gives b mv = []) :
    ℓ.after ic b mv = { ℓ with delivered := ℓ.delivered ++ brings ic b mv } := by
  unfold Ledger.after
  rw [hgives, List.append_nil]

/-- A move that brings nothing either. -/
theorem Ledger.after_of_nothing {b : Box σ} {mv : Move} (hbrings : brings ic b mv = [])
    (hgives : gives b mv = []) : ℓ.after ic b mv = ℓ := by
  rw [Ledger.after_of_gives hgives, hbrings, List.append_nil]

/-- A connection in raw mode is not asked to read while there are bytes. -/
theorem size_of_unready {c : Connection σ} (hraw : c.rawMode = true)
    (hunready : (preReady ic c).1 = none) : c.bufferDataSize = 0 := by
  unfold preReady at hunready
  split_ifs at hunready with hclosed heof hsome
  · omega

/-- The start of a poll keeps the balance. -/
theorem Ledger.Balanced.prePoll {c : Connection σ} {waiting : List Completion} {start : Start}
    (hpaired : Paired ⟨c, waiting⟩) (h : ℓ.Balanced ⟨c, waiting⟩)
    (hintact : Intact ic ⟨c, waiting⟩ (.act (.prePoll start))) :
    (ℓ.after ic ⟨c, waiting⟩ (.act (.prePoll start))).Balanced
      (SharedQueue.Box.step (machine ic) ⟨c, waiting⟩ (.act (.prePoll start))) := by
  obtain ⟨hnothing, hbefore, hkept⟩ := hintact
  rw [Ledger.after_of_gives rfl]
  have hpolled := prePollFuncConnection_prePolled ic start c
  show Ledger.Balanced _ ⟨(prePollFuncConnection ic start c).2.1,
    waiting ++ (prePollFuncConnection ic start c).2.2⟩
  have hconv := preReady_converted ic c
  have hfirst := h.ready (hbefore c List.mem_cons_self)
  have hpaired₁ := hpaired.converted hconv
  have hkept₁ : (preReady ic c).2.bufferDataSize ≠ 0 →
      start.readFile = .brokenPipe ∨ start.readFile = .handleEof →
        (preReady ic c).1 = none → ¬ (markEofRaw (preReady ic c).2).Convertible ic := by
    intro hsome hanswer hunready
    refine hkept ?_ hanswer
    cases hraw : c.rawMode with
    | false => rfl
    | true =>
      have hnone := size_of_unready hraw hunready
      obtain ⟨_, _, size, _, hle, _, heq⟩ := hconv
      rw [heq] at hsome
      dsimp only at hsome
      omega
  generalize prePollFuncConnection ic start c = result at hpolled
  cases hpolled with
  | found ready =>
    have hbrings : brings ic ⟨c, waiting⟩ (.act (.prePoll start)) = [] := by
      refine if_neg fun ⟨hunready, hunconnected⟩ => ?_
      obtain hsome | hconnected := ready
      · exact hsome hunready
      · rw [hconnected] at hunconnected
        cases hunconnected
    rw [hbrings, List.append_nil, List.append_nil]
    exact hfirst
  | thrown hunready hunconnected hstart =>
    have hbrings : brings ic ⟨c, waiting⟩ (.act (.prePoll start)) =
        start.brings (preReady ic c).2 := if_pos ⟨hunready, hunconnected⟩
    rw [hbrings] at hnothing ⊢
    refine hfirst.startRead hpaired₁ (fun hsome hanswer => hkept₁ hsome hanswer hunready) ?_ hstart
    rw [hconv.isEofRaw]
    exact hnothing
  | @started _ c' _ hunready hunconnected hstart =>
    have hbrings : brings ic ⟨c, waiting⟩ (.act (.prePoll start)) =
        start.brings (preReady ic c).2 := if_pos ⟨hunready, hunconnected⟩
    rw [hbrings] at hnothing ⊢
    have hread := hfirst.startRead hpaired₁
      (fun hsome hanswer => hkept₁ hsome hanswer hunready) (hconv.isEofRaw ▸ hnothing) hstart
    refine hread.ready (hbefore c' (List.mem_cons_of_mem _ ?_))
    rw [if_pos ⟨hunready, hunconnected⟩, hstart]
    exact List.mem_singleton.mpr rfl

/-- So does the start of a read by `read_bytes()`. -/
theorem Ledger.Balanced.readStart {c : Connection σ} {waiting : List Completion} {start : Start}
    (hpaired : Paired ⟨c, waiting⟩) (h : ℓ.Balanced ⟨c, waiting⟩)
    (hempty : c.bufferDataSize = 0) (hunended : c.isEofRaw = false) :
    (ℓ.after ic ⟨c, waiting⟩ (.act (.readStart start))).Balanced
      (SharedQueue.Box.step (machine ic) ⟨c, waiting⟩ (.act (.readStart start))) := by
  rw [Ledger.after_of_gives rfl]
  have hread := connectionReadStart_readStarted ic start c
  show Ledger.Balanced _ ⟨(connectionReadStart ic start c).2.1,
    waiting ++ (connectionReadStart ic start c).2.2⟩
  have hroom : ¬ c.full := fun ⟨hsome, hle⟩ => hsome (by omega)
  have hopen : ¬ (c.isEofRaw = true ∧ c.bufferDataSize = 0) := by simp [hunended]
  generalize connectionReadStart ic start c = result at hread
  cases hread with
  | unaccepted unaccepted =>
    have hbrings : brings ic ⟨c, waiting⟩ (.act (.readStart start)) = [] :=
      if_neg fun hstarts => hstarts.1 unaccepted
    rw [hbrings, List.append_nil, List.append_nil]
    exact h
  | ended ended => exact absurd ended hopen
  | full full => exact absurd full hroom
  | converted full => exact absurd full hroom
  | started accepted _ _ hstart =>
    have hbrings : brings ic ⟨c, waiting⟩ (.act (.readStart start)) = start.brings c.allocated :=
      if_pos ⟨accepted, hopen, hroom⟩
    rw [hbrings]
    refine (h.allocated hpaired).startRead hpaired.allocated ?_ ?_ hstart
    · have hnone : c.allocated.bufferDataSize = 0 := by
        unfold Connection.allocated
        split_ifs
        · rfl
        · exact hempty
      exact fun hsome => absurd hnone hsome
    · rw [c.allocated_isEofRaw, hunended]
      exact fun hset => absurd hset Bool.false_ne_true

/-- So do the bytes of a pending read when they arrive. -/
theorem Ledger.Balanced.complete {c : Connection σ} {waiting : List Completion} {bytes : Bytes}
    (hpaired : Paired ⟨c, waiting⟩) (h : ℓ.Balanced ⟨c, waiting⟩)
    (hnothing : c.isEofRaw = true → brings ic ⟨c, waiting⟩ (.act (.complete bytes)) = []) :
    (ℓ.after ic ⟨c, waiting⟩ (.act (.complete bytes))).Balanced
      (SharedQueue.Box.step (machine ic) ⟨c, waiting⟩ (.act (.complete bytes))) := by
  rw [Ledger.after_of_gives rfl]
  show Ledger.Balanced _ ⟨(Win.complete bytes c).1, waiting ++ (Win.complete bytes c).2⟩
  unfold Win.complete
  unfold brings at hnothing ⊢
  dsimp only at hnothing ⊢
  cases hout : c.outstanding with
  | none =>
    rw [List.append_nil, List.append_nil]
    exact h
  | some op =>
    have hbusy : ops ⟨c, waiting⟩ ≠ [] := by simp [ops, hout]
    have hall : ℓ.delivered = ℓ.returned ++ c.buffer := by
      obtain ⟨unseen, hall, hstuck⟩ := h.delivered
      have hseen : unseen = [] := by
        by_contra hne
        exact hbusy (hstuck hne).2
      have hnil := hpaired.unqueued hout
      subst hnil
      simpa [hseen] using hall
    have hnil := hpaired.unqueued hout
    subst hnil
    cases op with
    | connect =>
      simp only [List.append_nil]
      cases hassociated : c.associated with
      | false => exact .of_idle rfl hall h.eof
      | true =>
        have hsame : ℓ.delivered = ℓ.returned ++ c.buffer ++ [] ++ [] := by simpa using hall
        exact ⟨fun _ _ hmem => by simp [ops] at hmem, fun p hp _ _ hop => by simp_all,
          ⟨[], hsame, by simp⟩, fun _ => hall, h.eof⟩
    | read offset todo =>
      rw [hout] at hnothing
      dsimp only at hnothing ⊢
      have hplace : offset = c.bufferDataSize := h.offset offset todo (by simp [ops, hout])
      have hbuffer := c.buffer_fill (bytes.take todo)
      rw [← hplace] at hbuffer
      have hended : c.isEofRaw = true → ℓ.delivered ++ bytes.take todo =
          ℓ.returned ++ (c.fill offset (bytes.take todo)).buffer := by
        intro hset
        rw [hnothing hset, List.append_nil, ← hnothing hset, hbuffer, hall]
      have hpending := (hpaired.pending hbusy).1
      cases hassociated : c.associated with
      | false =>
        refine ⟨fun _ _ hmem => by simp [ops] at hmem, by simp,
          ⟨bytes.take todo, ?_, fun _ => ⟨hpending, rfl⟩⟩, hended, h.eof⟩
        show ℓ.delivered ++ _ = _ ++ (c.fill offset (bytes.take todo)).buffer ++ _ ++ _
        rw [hbuffer, hall]
        simp
      | true =>
        -- the bytes are written where the read was started
        refine ⟨fun offset' todo' hmem => ?_, fun p hp offset' todo' hop i hi => ?_,
          ⟨[], ?_, by simp⟩, hended, h.eof⟩
        · have heq : offset' = offset ∧ todo' = todo := by simpa [ops] using hmem
          exact heq.1.trans hplace
        · obtain rfl : p = _ := by simpa using hp
          obtain ⟨rfl, rfl⟩ := Overlapped.read.inj hop
          exact c.memory_fill offset _ hi
        · show ℓ.delivered ++ _ = _ ++ (c.fill offset (bytes.take todo)).buffer ++ _ ++ _
          rw [hbuffer, hall]
          simp

/-- **A move that leaves the raw buffer intact** keeps the ledger balanced. -/
theorem Ledger.Balanced.step {b : Box σ} {mv : Move} (hpaired : Paired b) (h : ℓ.Balanced b)
    (hbytes : ByBytes b mv) (hintact : Intact ic b mv) :
    (ℓ.after ic b mv).Balanced (b.step (machine ic) mv) := by
  obtain ⟨c, waiting⟩ := b
  cases mv with
  | act a =>
    cases a with
    | prePoll start => exact h.prePoll hpaired hintact
    | readStart start => exact h.readStart hpaired hbytes.2.1 hbytes.2.2
    | takeUtf8 bytes => exact hbytes.elim
    | growUtf8 => exact hbytes.elim
    | setRaw =>
      rw [Ledger.after_of_nothing rfl rfl]
      show ℓ.Balanced ⟨{ c with rawMode := true }, waiting ++ []⟩
      rw [List.append_nil]
      exact h.same rfl rfl rfl h.eof
    | takeRaw n =>
      have hreturned := h.returns n hintact.2
      show Ledger.Balanced _ ⟨takeRaw n c, waiting ++ []⟩
      unfold Ledger.after
      rw [List.append_nil]
      rwa [show brings ic ⟨c, waiting⟩ (.act (.takeRaw n)) = [] from rfl, List.append_nil]
    | accept =>
      rw [Ledger.after_of_nothing rfl rfl]
      show ℓ.Balanced ⟨connectionAcceptSocket c, waiting ++ []⟩
      rw [List.append_nil]
      unfold connectionAcceptSocket
      split_ifs
      · exact h.same rfl rfl rfl h.eof
      · exact h
    | complete bytes => exact h.complete hpaired hintact.1
  | take handler =>
    rw [Ledger.after_of_nothing rfl rfl]
    cases waiting with
    | nil => exact h
    | cons p rest =>
      exact h.take handler hpaired fun htext => hintact.2 htext p (by simp)

end Balanced

/-- The start of a read does not touch the mode. -/
theorem connectionStartRead_rawMode (ic : Riconv σ) (start : Start) {c : Connection σ}
    (hhandle : c.handle ≠ 0) :
    (connectionStartRead ic start c).2.1.rawMode = c.rawMode := by
  have hallocated : c.allocated.rawMode = c.rawMode := by
    unfold Connection.allocated
    split_ifs <;> rfl
  cases hpending : c.readPending with
  | true => rw [connectionStartRead_of_pending ic start hpending]
  | false =>
    have hstarted := connectionStartRead_started ic start hhandle hpending
    rw [← hallocated]
    generalize connectionStartRead ic start c = result at hstarted
    cases hstarted with
    | ended _ _ _ marked =>
      subst marked
      dsimp only
      split_ifs
      · exact (connectionToUtf8_converted ic _).rawMode
      · rfl
    | _ => rfl

/-- Nor does a packet. -/
theorem handlePacket_rawMode (handler : Handler) (p : Completion) (c : Connection σ) :
    (handlePacket ic handler p c).rawMode = c.rawMode := by
  have hconv := (connectionToUtf8_converted ic (c.arrive p.bytes.length)).rawMode
  cases handler with
  | poll polled =>
    obtain ⟨_, _, hpoll⟩ := pollPacket_eq ic polled p.bytes.length c
    have hreceived :
        ((c.received ic p.bytes.length).advance p.bytes.length).rawMode = c.rawMode := by
      unfold Connection.advance
      split_ifs <;> exact (c.received_converted ic p.bytes.length).rawMode
    show (pollPacket ic polled p.bytes.length c).2.rawMode = _
    rw [hpoll]
    dsimp only
    split_ifs <;> exact hreceived
  | read =>
    show (readPacket ic p.bytes.length c).2.rawMode = _
    unfold readPacket
    dsimp only
    split_ifs <;> first | exact hconv | rfl

/-- The raw mode is never left. -/
theorem rawMode_step {b : Box σ} (hpaired : Paired b) (mv : Move) (hraw : b.state.rawMode = true) :
    (b.step (machine ic) mv).state.rawMode = true := by
  obtain ⟨c, waiting⟩ := b
  dsimp only at hraw
  cases mv with
  | act a =>
    cases a with
    | prePoll start =>
      have hpolled := prePollFuncConnection_prePolled ic start c
      have hconv := preReady_converted ic c
      have hhandle : (preReady ic c).2.handle ≠ 0 := (hpaired.converted hconv).handle_ne
      have hstart := connectionStartRead_rawMode ic start hhandle
      rw [hconv.rawMode, hraw] at hstart
      show (prePollFuncConnection ic start c).2.1.rawMode = true
      generalize prePollFuncConnection ic start c = result at hpolled
      cases hpolled with
      | found => exact hconv.rawMode.trans hraw
      | thrown _ _ started =>
        rw [started] at hstart
        exact hstart
      | started _ _ started =>
        rw [started] at hstart
        exact (preReady_converted ic _).rawMode.trans hstart
    | readStart start =>
      have hread := connectionReadStart_readStarted ic start c
      have hallocated : c.allocated.rawMode = true := by
        unfold Connection.allocated
        split_ifs <;> exact hraw
      have hstart := connectionStartRead_rawMode ic start hpaired.allocated.handle_ne
      rw [hallocated] at hstart
      show (connectionReadStart ic start c).2.1.rawMode = true
      generalize connectionReadStart ic start c = result at hread
      cases hread with
      | unaccepted => exact hraw
      | ended => exact hraw
      | full => exact hraw
      | converted => exact (connectionToUtf8_converted ic c).rawMode.trans hraw
      | started _ _ _ started =>
        rw [started] at hstart
        exact hstart
    | complete bytes =>
      show (complete bytes c).1.rawMode = true
      unfold complete
      split <;> exact hraw
    | _ =>
      refine step_of_local ic (I := fun b => b.state.rawMode = true) trivial fun c' hlocal => ?_
      by_contra hunset
      have htext := hlocal.text (by simpa using hunset)
      rw [htext.1] at hraw
      cases hraw
  | take handler =>
    cases waiting with
    | nil => exact hraw
    | cons p rest => exact (handlePacket_rawMode handler p c).trans hraw

/-- Over a run each read keeps its packet. -/
theorem paired_run {i : ℕ} (events : List Event) {w : World σ} (hpaired : Paired (w.box i)) :
    Paired ((w.run (machine ic) events).box i) := by
  induction events generalizing w with
  | nil => exact hpaired
  | cons e events ih =>
    refine ih ?_
    rw [System.box_step]
    cases hmove : w.move i e with
    | none => exact hpaired
    | some mv => exact hpaired.step ic mv

/-- Over a run the raw mode is kept. -/
theorem rawMode_run {i : ℕ} (events : List Event) {w : World σ} (hpaired : Paired (w.box i))
    (hraw : (w.state i).rawMode = true) :
    ((w.run (machine ic) events).state i).rawMode = true := by
  induction events generalizing w with
  | nil => exact hraw
  | cons e events ih =>
    have hnext := System.box_step (machine ic) w i e
    cases hmove : w.move i e with
    | none =>
      rw [hmove] at hnext
      refine ih (hnext ▸ hpaired) ?_
      show ((w.step (machine ic) e).box i).state.rawMode = true
      rw [hnext]
      exact hraw
    | some mv =>
      rw [hmove] at hnext
      refine ih (hnext ▸ hpaired.step ic mv) ?_
      show ((w.step (machine ic) e).box i).state.rawMode = true
      rw [hnext]
      exact rawMode_step hpaired mv hraw

/-- What fills the raw buffer in `processx_connection_read_bytes()`, if it is empty. -/
def fillRaw (ic : Riconv σ) (i : ℕ) (start : Start) (calls : List Status) (w : World σ) :
    Option (Except String ℕ × World σ) :=
  if (w.state i).bufferDataSize = 0 ∧ (w.state i).isEofRaw = false then
    connectionRead ic i start calls w
  else some (.ok 0, w)

/-- `to_read` -/
def toRead (cnbytes : ℤ) (ccon : Connection σ) : ℕ :=
  if cnbytes ≥ 0 ∧ cnbytes < ccon.bufferDataSize then cnbytes.toNat else ccon.bufferDataSize

/-- `processx_connection_read_bytes()` for connection `i`: the raw vector. -/
def connectionReadBytes (ic : Riconv σ) (i : ℕ) (cnbytes : ℤ) (start : Start) (calls : List Status)
    (w : World σ) : Option (Except String Bytes × World σ) :=
  if (w.state i).handle = 0 then
    some (.error "Invalid (uninitialized or closed?) connection object", w)
  else
    match fillRaw ic i start calls (w.step (machine ic) (.act i .setRaw)) with
    | none => none
    | some (.error msg, w) => some (.error msg, w)
    | some (.ok _, w) =>
      let n := toRead cnbytes (w.state i)
      some (.ok ((w.state i).buffer.take n), w.step (machine ic) (.act i (.takeRaw n)))

/-- A call of `processx_connection_read_bytes()` for the connection, or anything else. -/
inductive ByteCall
  | readBytes (cnbytes : ℤ) (start : Start) (calls : List Status)
  | other (call : Call)

/-- Only polls and `processx_connection_read_bytes()` are called for connection `i`. A server socket
may be accepted. -/
def ByteCall.Permitted (i : ℕ) : ByteCall → Prop
  | .readBytes .. | .other (.poll ..) => True
  | .other (.read j _ _) => j ≠ i
  | .other (.other e) => ∀ a, e = .act i a → a = .accept ∨ ∃ bytes, a = .complete bytes

/-- The bytes that a call returns, and the state after it. A call that throws returns none. -/
def ByteCall.perform (ic : Riconv σ) (i : ℕ) (w : World σ) : ByteCall → Option (Bytes × World σ)
  | .readBytes cnbytes start calls =>
    (connectionReadBytes ic i cnbytes start calls w).map fun (result, w) =>
      (result.toOption.getD [], w)
  | .other call => (call.after ic w).map fun w => ([], w)

/-- What happens in a call. -/
def ByteCall.events (ic : Riconv σ) (i : ℕ) (w : World σ) : ByteCall → List Event
  | .readBytes cnbytes start calls =>
    if (w.state i).handle = 0 then []
    else
      let w := w.step (machine ic) (.act i .setRaw)
      .act i .setRaw ::
        ((if (w.state i).bufferDataSize = 0 ∧ (w.state i).isEofRaw = false then
          connectionReadEvents ic i start calls w else []) ++
        match fillRaw ic i start calls w with
        | some (.ok _, w) => [.act i (.takeRaw (toRead cnbytes (w.state i)))]
        | _ => [])
  | .other (.read j start calls) => connectionReadEvents ic j start calls w
  | .other (.poll pollables pollIdx timeout calls) =>
    cConnectionPollEvents ic pollables pollIdx timeout calls w
  | .other (.other e) => [e]

/-- Calls one after the other: all bytes that are returned, if all of them end. -/
def performAll (ic : Riconv σ) (i : ℕ) : List ByteCall → World σ → Option (Bytes × World σ)
  | [], w => some ([], w)
  | call :: calls, w =>
    match call.perform ic i w with
    | none => none
    | some (bytes, w) => (performAll ic i calls w).map fun (more, w) => (bytes ++ more, w)

/-- What happens in them. -/
def eventsAll (ic : Riconv σ) (i : ℕ) : List ByteCall → World σ → List Event
  | [], _ => []
  | call :: calls, w =>
    call.events ic i w ++
      match call.perform ic i w with
      | none => []
      | some (_, w) => eventsAll ic i calls w

/-- The events lead from one state to another, as polls and reads of bytes do, and these bytes are
returned. -/
structure ByteRun (ic : Riconv σ) (i : ℕ) (events : List Event) (w w' : World σ) (bytes : Bytes) :
    Prop where
  run : w' = w.run (machine ic) events
  along : System.Along (machine ic) (System.Of i ByBytes) w events
  returned : ∀ ℓ : Ledger,
    (System.note (machine ic) (Ledger.after ic) i ℓ w events).returned = ℓ.returned ++ bytes

/-- A run of no events reads nothing. -/
theorem ByteRun.nil (ic : Riconv σ) (i : ℕ) (w : World σ) : ByteRun ic i [] w w [] :=
  ⟨rfl, trivial, fun _ => (List.append_nil _).symm⟩

/-- One run after another reads one piece after another. -/
theorem ByteRun.append {i : ℕ} {events later : List Event} {w w' w'' : World σ}
    {bytes more : Bytes} (h : ByteRun ic i events w w' bytes)
    (h' : ByteRun ic i later w' w'' more) :
    ByteRun ic i (events ++ later) w w'' (bytes ++ more) := by
  obtain ⟨rfl, halong, hreturned⟩ := h
  obtain ⟨rfl, halong', hreturned'⟩ := h'
  refine ⟨(System.run_append _ _ _ _).symm, System.along_append.mpr ⟨halong, halong'⟩, fun ℓ => ?_⟩
  rw [System.note_append, hreturned', hreturned, List.append_assoc]

/-- One event. -/
theorem ByteRun.one {i : ℕ} {e : Event} {w : World σ} {bytes : Bytes}
    (hbytes : ∀ mv ∈ w.move i e, ByBytes (w.box i) mv ∧ gives (w.box i) mv = bytes)
    (hother : w.move i e = none → bytes = []) :
    ByteRun ic i [e] w (w.step (machine ic) e) bytes := by
  refine ⟨rfl, ⟨fun mv hmove => (hbytes mv hmove).1, trivial⟩, fun ℓ => ?_⟩
  show ((w.move i e).elim ℓ (Ledger.after ic ℓ (w.box i))).returned = _
  cases hmove : w.move i e with
  | none => rw [hother hmove, List.append_nil]; rfl
  | some mv =>
    rw [← (hbytes mv hmove).2]
    rfl

/-- An event that reads no bytes of the connection. -/
def ReadsNone (i : ℕ) (e : Event) : Prop :=
  ∀ a, e = .act i a →
    (∃ start, a = .prePoll start) ∨ a = .setRaw ∨ a = .accept ∨ ∃ bytes, a = .complete bytes

/-- An event that reads nothing. -/
theorem ByteRun.of_readsNone {i : ℕ} {e : Event} (he : ReadsNone i e) (w : World σ) :
    ByteRun ic i [e] w (w.step (machine ic) e) [] := by
  refine .one (fun mv hmove => ?_) fun _ => rfl
  cases e with
  | act k a =>
    by_cases hk : k = i
    · subst hk
      obtain rfl : Move.act a = mv := by simpa [System.move] using hmove
      obtain ⟨start, rfl⟩ | rfl | rfl | ⟨bytes, rfl⟩ := he a rfl
      all_goals exact ⟨trivial, rfl⟩
    · simp [System.move, hk] at hmove
  | take h =>
    obtain rfl : Move.take h = mv := by
      by_cases hfirst : w.queue.head?.map Prod.fst = some i
      · simpa [System.move, hfirst] using hmove
      · simp [System.move, hfirst] at hmove
    exact ⟨trivial, rfl⟩

/-- A run of such events. -/
theorem RunsBy.byteRun {i : ℕ} {P : Event → Prop} {events : List Event} {w w' : World σ}
    (h : RunsBy ic P events w w') (hP : ∀ e, P e → ReadsNone i e) :
    ByteRun ic i events w w' [] := by
  obtain ⟨hkind, rfl⟩ := h
  induction events generalizing w with
  | nil => exact .nil ic i w
  | cons e events ih =>
    have hone : ByteRun ic i [e] w (w.step (machine ic) e) [] :=
      .of_readsNone (hP e (hkind e List.mem_cons_self)) w
    exact hone.append (ih fun e' he' => hkind e' (List.mem_cons_of_mem _ he'))

/-- A read that comes to its end gives nothing to the caller. -/
theorem IsCompletion.readsNone {e : Event} (he : IsCompletion e) (i : ℕ) : ReadsNone i e := by
  obtain ⟨k, bytes, rfl⟩ := he
  rintro a ⟨⟩
  exact Or.inr (Or.inr (Or.inr ⟨bytes, rfl⟩))

/-- Nor does a packet that is taken from the queue. -/
theorem readsNone_take (i : ℕ) (handler : Handler) : ReadsNone i (.take handler) := by
  rintro a ⟨⟩

/-- Nor does any event of a poll. -/
theorem IsPoll.readsNone {pollables : List Pollable} {e : Event} (he : IsPoll pollables e) (i : ℕ) :
    ReadsNone i e := by
  obtain ⟨el, _, rfl⟩ | ⟨polled, rfl⟩ | hcompletion := he
  · rintro a ⟨⟩
    exact Or.inl ⟨el.start, rfl⟩
  · exact readsNone_take i _
  · exact hcompletion.readsNone i

/-- The raw buffer is filled. -/
theorem fillRaw_run {i : ℕ} {start : Start} {calls : List Status} {w w' : World σ}
    {result : Except String ℕ} (hraw : (w.state i).rawMode = true)
    (h : fillRaw ic i start calls w = some (result, w')) :
    ByteRun ic i (if (w.state i).bufferDataSize = 0 ∧ (w.state i).isEofRaw = false then
      connectionReadEvents ic i start calls w else []) w w' [] := by
  unfold fillRaw at h
  split_ifs at h ⊢ with hempty
  · have hstart : ByteRun ic i [.act i (.readStart start)] w
        (w.step (machine ic) (.act i (.readStart start))) [] := by
      refine .one (fun mv hmove => ?_) fun _ => rfl
      obtain rfl : Move.act (.readStart start) = mv := by simpa [System.move] using hmove
      exact ⟨⟨hraw, hempty⟩, rfl⟩
    have hlater := (connectionRead_later h).byteRun (i := i) fun e he =>
      he.elim (fun htake => htake ▸ readsNone_take i _) fun hdone => hdone.readsNone i
    exact hstart.append hlater
  · cases h
    exact .nil ic i w

/-- A call returns the bytes that are noted. -/
theorem ByteCall.perform_run {i : ℕ} {call : ByteCall} {w w' : World σ} {bytes : Bytes}
    (hpaired : Paired (w.box i)) (hpermitted : call.Permitted i)
    (h : call.perform ic i w = some (bytes, w')) :
    ByteRun ic i (call.events ic i w) w w' bytes := by
  cases call with
  | readBytes cnbytes start calls =>
    obtain ⟨⟨result, w₂⟩, hread, hpair⟩ := Option.map_eq_some_iff.mp h
    obtain ⟨rfl, rfl⟩ := by simpa only [Prod.mk.injEq] using hpair
    unfold connectionReadBytes at hread
    unfold ByteCall.events
    dsimp only at hread ⊢
    have hhandle : (w.state i).handle ≠ 0 := hpaired.handle_ne
    rw [if_neg hhandle] at hread ⊢
    have hset : ByteRun ic i [.act i .setRaw] w (w.step (machine ic) (.act i .setRaw)) [] := by
      refine .of_readsNone (fun a ha => ?_) w
      cases ha
      exact Or.inr (Or.inl rfl)
    have hraw : ((w.step (machine ic) (.act i .setRaw)).state i).rawMode = true := by
      simp [System.step, System.set, machine, act]
    have hpaired₁ : Paired ((w.step (machine ic) (.act i .setRaw)).box i) := by
      rw [System.box_step]
      simpa [System.move] using hpaired.step ic (.act .setRaw)
    generalize w.step (machine ic) (.act i .setRaw) = w₁ at hread hset hraw hpaired₁ ⊢
    rcases hfill : fillRaw ic i start calls w₁ with _ | ⟨msg | n, w₃⟩ <;> rw [hfill] at hread <;>
      dsimp only at hread ⊢
    · cases hread
    · cases hread
      have hfilled := fillRaw_run hraw hfill
      exact hset.append (hfilled.append (.nil ic i _))
    · cases hread
      have hfilled := fillRaw_run hraw hfill
      have hraw₃ : (w₃.state i).rawMode = true := by
        rw [hfilled.run]
        exact rawMode_run _ hpaired₁ hraw
      have htake : ByteRun ic i [.act i (.takeRaw (toRead cnbytes (w₃.state i)))] w₃
          (w₃.step (machine ic) (.act i (.takeRaw (toRead cnbytes (w₃.state i)))))
          ((w₃.state i).buffer.take (toRead cnbytes (w₃.state i))) := by
        refine .one (fun mv hmove => ?_) fun hmove => by simp [System.move] at hmove
        obtain rfl : Move.act (.takeRaw (toRead cnbytes (w₃.state i))) = mv := by
          simpa [System.move] using hmove
        exact ⟨trivial, if_pos hraw₃⟩
      exact hset.append (hfilled.append htake)
  | other call =>
    obtain ⟨w₂, hafter, hpair⟩ := Option.map_eq_some_iff.mp h
    obtain ⟨rfl, rfl⟩ := by simpa only [Prod.mk.injEq] using hpair
    cases call with
    | read j start calls =>
      obtain ⟨⟨result, w₂⟩, hread, rfl⟩ := Option.map_eq_some_iff.mp hafter
      refine (connectionRead_run hread).byteRun fun e he => ?_
      obtain rfl | rfl | hdone := he
      · rintro a ⟨⟩
        exact absurd rfl hpermitted
      · exact readsNone_take i _
      · exact hdone.readsNone i
    | poll pollables pollIdx timeout calls =>
      obtain ⟨⟨result, w₂⟩, hpoll, rfl⟩ := Option.map_eq_some_iff.mp hafter
      exact (cConnectionPoll_run hpoll).byteRun fun e he => he.readsNone i
    | other e =>
      cases hafter
      exact .of_readsNone (fun a ha => Or.inr (Or.inr (hpermitted a ha))) w

/-- Calls of polls and `read_bytes()` are a run that reads what they return. -/
theorem performAll_run {i : ℕ} {calls : List ByteCall} {w w' : World σ} {bytes : Bytes}
    (hpaired : Paired (w.box i)) (hpermitted : ∀ call ∈ calls, call.Permitted i)
    (h : performAll ic i calls w = some (bytes, w')) :
    ByteRun ic i (eventsAll ic i calls w) w w' bytes := by
  induction calls generalizing w bytes with
  | nil =>
    cases h
    exact .nil ic i _
  | cons call calls ih =>
    unfold performAll at h
    unfold eventsAll
    rcases hcall : call.perform ic i w with _ | ⟨first, w₁⟩ <;> rw [hcall] at h <;>
      dsimp only at h ⊢
    · cases h
    · obtain ⟨⟨more, w₂⟩, hrest, hpair⟩ := Option.map_eq_some_iff.mp h
      obtain ⟨rfl, rfl⟩ := by simpa only [Prod.mk.injEq] using hpair
      have hfirst := ByteCall.perform_run hpaired (hpermitted call List.mem_cons_self) hcall
      have hpaired₁ : Paired (w₁.box i) := by
        rw [hfirst.run]
        exact paired_run _ hpaired
      exact hfirst.append
        (ih hpaired₁ (fun call' hcall' => hpermitted call' (List.mem_cons_of_mem _ hcall')) hrest)

/-- **Polling and reading bytes loses nothing** in a run whose moves leave the raw buffer intact:
the bytes that are returned are the first of those that the operating system brought, and at the
end of the file they are all of them. -/
theorem readBytes_loses_nothing (ic : Riconv σ) (opened : ℕ → Opened) (i : ℕ)
    (calls : List ByteCall) {returned : Bytes} {w : World σ}
    (hpermitted : ∀ call ∈ calls, call.Permitted i)
    (hperform : performAll ic i calls (World.create opened) = some (returned, w))
    (hintact : System.Along (machine ic) (System.Of i (Intact ic)) (World.create opened)
      (eventsAll ic i calls (World.create opened))) :
    let ℓ := System.note (machine ic) (Ledger.after ic) i {} (World.create opened)
      (eventsAll ic i calls (World.create opened))
    returned <+: ℓ.delivered ∧ ((w.state i).isEof = true → returned = ℓ.delivered) := by
  intro ℓ
  have hcreated : Paired ((World.create opened : World σ).box i) := paired_create opened i
  have hrun := performAll_run hcreated hpermitted hperform
  have hreturned : ℓ.returned = returned := by simpa using hrun.returned {}
  have hboth := hrun.along.and hintact
  have hfresh : ({} : Ledger).Balanced ((World.create opened : World σ).box i) :=
    .of_idle rfl rfl fun hset => absurd hset Bool.false_ne_true
  have hstep : ∀ (ℓ : Ledger) (b : Box σ) (mv : Move), Paired b ∧ ℓ.Balanced b →
      ByBytes b mv ∧ Intact ic b mv →
        Paired (b.step (machine ic) mv) ∧ (ℓ.after ic b mv).Balanced (b.step (machine ic) mv) :=
    fun ℓ b mv hb hmv => ⟨hb.1.step ic mv, hb.2.step hb.1 hmv.1 hmv.2⟩
  have hbalanced : Paired (w.box i) ∧ ℓ.Balanced (w.box i) := by
    rw [hrun.run]
    exact System.Along.noted (J := fun ℓ b => Paired b ∧ Ledger.Balanced ℓ b) hstep
      ⟨hcreated, hfresh⟩ hboth
  obtain ⟨unseen, hall, _⟩ := hbalanced.2.delivered
  rw [hreturned] at hall
  refine ⟨?_, fun hset => ?_⟩
  · rw [hall, List.append_assoc, List.append_assoc]
    exact List.prefix_append _ _
  · obtain ⟨hraw, hnone⟩ := hbalanced.2.eof hset
    have hended := hbalanced.2.ended hraw
    rw [hreturned, Connection.buffer_eq_nil.mpr hnone, List.append_nil] at hended
    exact hended.symm

/-- A poll before every read, in raw mode. -/
theorem readBytes_loses_nothing_binary :
    let opened : ℕ → Opened :=
      fun _ => { handle := 1, handle_ne := by decide, encoding := "binary" }
    let poll (bytes : Bytes) : ByteCall :=
      .other (.poll [{ object := 0 }] (fun _ => 0) 100 [{ arrivals := [(0, bytes)] }])
    let calls : List ByteCall :=
      [poll [0x61, 0xc3], .readBytes 1 {} [], .readBytes (-1) {} [], poll [], .readBytes (-1) {} []]
    let events := eventsAll utf8Riconv 0 calls (World.create opened)
    (performAll utf8Riconv 0 calls (World.create opened)).map Prod.fst = some [0x61, 0xc3] ∧
      [0x61, 0xc3] <+: (System.note (machine utf8Riconv) (Ledger.after utf8Riconv) 0 {}
        (World.create opened) events).delivered := by
  intro opened poll calls events
  have hreturned : (performAll utf8Riconv 0 calls (World.create opened)).map Prod.fst =
      some [0x61, 0xc3] := by decide +kernel
  have hintact : System.Along (machine utf8Riconv) (System.Of 0 (Intact utf8Riconv))
      (World.create opened) events := by decide +kernel
  have hpermitted : ∀ call ∈ calls, call.Permitted 0 := by
    simp [calls, poll, ByteCall.Permitted]
  obtain ⟨⟨returned, w⟩, hperform, hfirst⟩ := Option.map_eq_some_iff.mp hreturned
  dsimp only at hfirst
  subst hfirst
  exact ⟨hreturned,
    (readBytes_loses_nothing utf8Riconv opened 0 calls hpermitted hperform hintact).1⟩

/-- A poll takes the bytes, and converts them. The read that comes next returns what came later. -/
theorem polled_bytes_lost :
    let opened : ℕ → Opened := fun _ => { handle := 1, handle_ne := by decide }
    let poll (bytes : Bytes) : ByteCall :=
      .other (.poll [{ object := 0 }] (fun _ => 0) 100 [{ arrivals := [(0, bytes)] }])
    let read (bytes : Bytes) : ByteCall := .readBytes (-1) {} [{ arrivals := [(0, bytes)] }]
    let calls : List ByteCall := [poll [0x61], read [0x62]]
    let delivered := (System.note (machine utf8Riconv) (Ledger.after utf8Riconv) 0 {}
      (World.create opened) (eventsAll utf8Riconv 0 calls (World.create opened))).delivered
    (∀ call ∈ calls, call.Permitted 0) ∧
      (performAll utf8Riconv 0 calls (World.create opened)).map Prod.fst = some [0x62] ∧
      delivered = [0x61, 0x62] ∧ ¬ [0x62] <+: delivered := by
  intro opened poll read calls delivered
  have hdelivered : delivered = [0x61, 0x62] := by decide +kernel
  have hreturned : (performAll utf8Riconv 0 calls (World.create opened)).map Prod.fst =
      some [0x62] := by decide +kernel
  refine ⟨by simp [calls, poll, read, ByteCall.Permitted], hreturned, hdelivered, ?_⟩
  rw [hdelivered]
  decide

end Processx.Win
