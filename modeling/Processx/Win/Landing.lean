import Processx.Win.Pending

/-!
# Where pending reads land

A pending read writes behind the bytes that were in the raw buffer when it was started, and its
completion is counted behind the bytes that are there then. The two are the same place if no
conversion takes bytes from the raw buffer in between. A poll converts what is left in the raw
buffer, whether a read is pending or not.
-/

namespace Processx.Win

open SharedQueue

variable {σ : Type} {ic : Riconv σ}

/-- Bytes that arrive come behind those of the raw buffer. -/
theorem Connection.buffer_arrive (c : Connection σ) (n : ℕ) :
    (c.arrive n).buffer =
      c.buffer ++ (List.range n).map fun i => c.memory (c.bufferDataSize + i) := by
  simp [Connection.buffer, Connection.arrive, List.range_add, Function.comp_def]

/-- A shift takes bytes off the front of the raw buffer. -/
theorem Connection.buffer_shift (c : Connection σ) (n : ℕ) :
    (c.shift n).buffer = c.buffer.drop n := by
  refine List.ext_getElem (by simp [Connection.buffer, Connection.shift]) fun i hi _ => ?_
  have hlt : i < c.bufferDataSize - n := by simpa [Connection.buffer, Connection.shift] using hi
  simp [Connection.buffer, Connection.shift, hlt, Nat.add_comm]

/-- What is written at a place is found there. -/
theorem map_range_getD (bytes : Bytes) :
    ((List.range bytes.length).map fun i => bytes.getD i 0) = bytes := by
  refine List.ext_getElem (by simp) fun i hi _ => ?_
  have hlt : i < bytes.length := by simpa using hi
  simp [hlt]

/-- An operation writes its bytes from its offset on. -/
theorem Connection.memory_fill (c : Connection σ) (offset : ℕ) (bytes : Bytes) {i : ℕ}
    (hi : i < bytes.length) : (c.fill offset bytes).memory (offset + i) = bytes.getD i 0 := by
  simp [Connection.fill, hi]

/-- Bytes that were written behind those in the raw buffer, and are now counted. -/
theorem Connection.buffer_arrive_of_written (c : Connection σ) {bytes : Bytes}
    (h : ∀ i < bytes.length, c.memory (c.bufferDataSize + i) = bytes.getD i 0) :
    (c.arrive bytes.length).buffer = c.buffer ++ bytes := by
  rw [Connection.buffer_arrive]
  refine congrArg (c.buffer ++ ·) ?_
  calc (List.range bytes.length).map (fun i => c.memory (c.bufferDataSize + i))
    _ = (List.range bytes.length).map (fun i => bytes.getD i 0) :=
      List.map_congr_left fun i hi => h i (List.mem_range.mp hi)
    _ = bytes := map_range_getD bytes

/-- Would a conversion take bytes from the raw buffer? -/
def Connection.Convertible (ic : Riconv σ) (c : Connection σ) : Prop :=
  let room := c.utf8AllocatedSize - c.utf8.length
  let r := ic.run (c.iconvCtx.getD ic.open_) c.buffer room
  c.bufferDataSize ≠ 0 ∧ room ≠ 0 ∧
    (r.consumed ≠ 0 ∨ r.stop = .invalid ∨ (r.stop = .incomplete ∧ c.isEofRaw = true))

/-- Would the macro of `processx_i_pre_poll_func_connection()` take bytes from the raw buffer? -/
def Connection.TakenByPoll (ic : Riconv σ) (c : Connection σ) : Prop :=
  c.isClosed = false ∧ c.isEof = false ∧ c.rawMode = false ∧ c.utf8 = [] ∧ c.isEofRaw = false ∧
    c.Convertible ic

/-- The connection as the macro finds it, each time it runs. -/
def macroRuns (ic : Riconv σ) (start : Start) (c : Connection σ) : List (Connection σ) :=
  c :: if (preReady ic c).1 = none ∧ (preReady ic c).2.pipeReady = false then
      match connectionStartRead ic start (preReady ic c).2 with
      | (none, c', _) => [c']
      | (some _, _, _) => []
    else []

/-- The move takes no bytes from the raw buffer while a read is pending. -/
def Undisturbed (ic : Riconv σ) (b : Box σ) (mv : Move) : Prop :=
  match mv with
  | .act (.prePoll start) =>
    ∀ c ∈ macroRuns ic start b.state, c.readPending = true → ¬ c.TakenByPoll ic
  | .act (.readStart _) =>
    b.state.readPending = true → b.state.full → b.state.rawMode = false → ¬ b.state.unaccepted →
      ¬ b.state.Convertible ic
  | _ => True

instance (ic : Riconv σ) (c : Connection σ) : Decidable (c.Convertible ic) :=
  inferInstanceAs (Decidable (_ ∧ _ ∧ _))

instance (ic : Riconv σ) (c : Connection σ) : Decidable (c.TakenByPoll ic) :=
  inferInstanceAs (Decidable (_ ∧ _ ∧ _ ∧ _ ∧ _ ∧ _))

instance (ic : Riconv σ) (b : Box σ) (mv : Move) : Decidable (Undisturbed ic b mv) :=
  match mv with
  | .act (.prePoll start) => inferInstanceAs (Decidable (∀ c ∈ macroRuns ic start b.state, _ → ¬ _))
  | .act (.readStart _) => inferInstanceAs (Decidable (_ → (_ ∧ _) → _ → ¬ (_ ∧ _) → ¬ _))
  | .act (.takeUtf8 _) | .act .growUtf8 | .act .setRaw | .act (.takeRaw _) | .act .accept
  | .act (.complete _) | .take _ => isTrue trivial

/-- If the move takes the packet of a read from a connection in text mode, the read was started
at the end of the raw buffer, and the bytes that came are now behind those that were there. -/
def LandsBehind (b : Box σ) (mv : Move) : Prop :=
  match mv, b.waiting with
  | .take _, p :: _ => b.state.rawMode = false → ∀ offset todo, p.op = .read offset todo →
      offset = b.state.bufferDataSize ∧
        (b.state.arrive p.bytes.length).buffer = b.state.buffer ++ p.bytes
  | _, _ => True

/-- A conversion that finds nothing to take leaves the raw buffer alone. -/
theorem connectionToUtf8_of_not_convertible {c : Connection σ} (h : ¬ c.Convertible ic) :
    (connectionToUtf8 ic c).2.memory = c.memory ∧
      (connectionToUtf8 ic c).2.bufferDataSize = c.bufferDataSize := by
  unfold connectionToUtf8
  dsimp only
  split_ifs with hnone
  · exact ⟨rfl, rfl⟩
  obtain ⟨hsome, hroom⟩ := not_or.mp hnone
  obtain ⟨rounds, hrounds⟩ := Nat.exists_eq_succ_of_ne_zero hsome
  have hlength : c.buffer.length = c.bufferDataSize := by simp [Connection.buffer]
  obtain ⟨out, ctx, hloop⟩ : ∃ out ctx, toUtf8Loop ic c.isEofRaw c.bufferDataSize
      (c.iconvCtx.getD ic.open_) c.buffer (c.utf8AllocatedSize - c.utf8.length) [] =
      (c.buffer, out, ctx) := by
    obtain ⟨hconsumed, hother⟩ := not_or.mp fun hr => h ⟨hsome, hroom, hr⟩
    obtain ⟨hvalid, hincomplete⟩ := not_or.mp hother
    rw [hrounds]
    unfold toUtf8Loop
    dsimp only
    rw [not_not.mp hconsumed, List.drop_zero]
    cases hstop : (ic.run (c.iconvCtx.getD ic.open_) c.buffer
      (c.utf8AllocatedSize - c.utf8.length)).stop with
    | done => exact ⟨_, _, rfl⟩
    | full => exact ⟨_, _, rfl⟩
    | invalid => exact absurd hstop hvalid
    | incomplete =>
      rw [if_neg fun heof => hincomplete ⟨hstop, heof⟩]
      exact ⟨_, _, rfl⟩
  rw [hloop, hlength]
  dsimp only [Connection.shift]
  rw [Nat.sub_self, Nat.sub_zero]
  simp

/-- A poll that takes no text leaves the raw buffer alone. -/
theorem preReady_of_not_taken {c : Connection σ} (h : ¬ c.TakenByPoll ic) :
    (preReady ic c).2.memory = c.memory ∧
      (preReady ic c).2.bufferDataSize = c.bufferDataSize := by
  unfold preReady
  by_cases hclosed : c.isClosed = true
  · rw [if_pos hclosed]
    exact ⟨rfl, rfl⟩
  by_cases heof : c.isEof = true
  · rw [if_neg hclosed, if_pos heof]
    exact ⟨rfl, rfl⟩
  by_cases hraw : c.rawMode = true
  · rw [if_neg hclosed, if_neg heof, if_pos hraw]
    exact ⟨rfl, rfl⟩
  by_cases htext : c.utf8.length > 0
  · rw [if_neg hclosed, if_neg heof, if_neg hraw, if_pos htext]
    exact ⟨rfl, rfl⟩
  rw [if_neg hclosed, if_neg heof, if_neg hraw, if_neg htext]
  split_ifs with hended hsome
  · exact ⟨rfl, rfl⟩
  · refine connectionToUtf8_of_not_convertible fun hconvertible => h ?_
    refine ⟨by simpa using hclosed, by simpa using heof, by simpa using hraw, by simpa using htext,
      ?_, hconvertible⟩
    simpa using fun hset => hended ⟨hsome, hset⟩
  · exact ⟨rfl, rfl⟩

/-- The operations of a connection in text mode write behind the raw buffer. -/
structure Lands (b : Box σ) : Prop where
  offset : b.state.rawMode = false → ∀ offset todo, .read offset todo ∈ ops b →
    offset = b.state.bufferDataSize
  written : b.state.rawMode = false → ∀ p ∈ b.waiting, ∀ offset todo, p.op = .read offset todo →
    ∀ i < p.bytes.length, b.state.memory (offset + i) = p.bytes.getD i 0

/-- No completion packet waits. -/
theorem Lands.of_empty {c : Connection σ}
    (hoffset : ∀ offset todo, .read offset todo ∈ ops ⟨c, []⟩ → offset = c.bufferDataSize) :
    Lands ⟨c, []⟩ :=
  ⟨fun _ => hoffset, fun _ _ hp => absurd hp List.not_mem_nil⟩

/-- Without an operation there is nothing to land. -/
theorem Lands.of_idle {c : Connection σ} (hidle : c.outstanding = none) : Lands ⟨c, []⟩ :=
  .of_empty fun _ _ hmem => by simp [ops, hidle] at hmem

/-- A change that keeps the raw buffer and the operations. -/
theorem Lands.same {c c' : Connection σ} {waiting : List Completion} (h : Lands ⟨c, waiting⟩)
    (hsame : c'.rawMode = false →
      c.rawMode = false ∧ c'.memory = c.memory ∧ c'.bufferDataSize = c.bufferDataSize)
    (hout : c'.outstanding = c.outstanding) : Lands ⟨c', waiting⟩ := by
  have hops : ops ⟨c', waiting⟩ = ops ⟨c, waiting⟩ := by simp only [ops, hout]
  refine ⟨fun htext => ?_, fun htext => ?_⟩ <;> obtain ⟨hraw, hmemory, hsize⟩ := hsame htext
  · rw [hops]
    exact hsize ▸ h.offset hraw
  · exact hmemory ▸ h.written hraw

/-- The macro, if it takes no bytes while a read is pending. -/
theorem Lands.preReady {c : Connection σ} {waiting : List Completion}
    (hpaired : Paired ⟨c, waiting⟩)
    (h : Lands ⟨c, waiting⟩) (hquiet : c.readPending = true → ¬ c.TakenByPoll ic) :
    Lands ⟨(preReady ic c).2, waiting⟩ := by
  have hconv := preReady_converted ic c
  cases hpending : c.readPending with
  | true =>
    obtain ⟨hmemory, hsize⟩ := preReady_of_not_taken (hquiet hpending)
    exact h.same (fun htext => ⟨hconv.rawMode.symm.trans htext, hmemory, hsize⟩) hconv.outstanding
  | false =>
    obtain ⟨hidle, hwaiting⟩ := hpaired.idle hpending
    dsimp only at hidle hwaiting
    subst hwaiting
    exact .of_idle (hconv.outstanding.trans hidle)

/-- A read is started at the end of the raw buffer. -/
theorem Lands.started {c : Connection σ} {start : Start} {msg : Option String}
    {c' : Connection σ} {queued : List Completion} (hidle : c.outstanding = none)
    (hstarted : Started ic start c (msg, c', queued)) : Lands ⟨c', queued⟩ := by
  cases hstarted with
  | connectPending => exact .of_empty fun _ _ hmem => by simp [ops] at hmem
  | connected => exact .of_idle hidle
  | @read e a o bytes =>
    cases a with
    | true =>
      refine ⟨fun _ offset todo hmem => ?_, fun _ p hp offset todo hop i hi => ?_⟩
      · have heq : offset = c.bufferDataSize ∧ todo = c.bufferAllocatedSize - c.bufferDataSize := by
          simpa [ops, Connection.fill, hidle] using hmem
        exact heq.1
      · obtain rfl : p = _ := by simpa using hp
        obtain ⟨rfl, rfl⟩ := Overlapped.read.inj hop
        exact c.memory_fill c.bufferDataSize _ hi
    | false => exact .of_idle hidle
  | readPending =>
    refine .of_empty fun offset todo hmem => ?_
    have heq : offset = c.bufferDataSize ∧ todo = c.bufferAllocatedSize - c.bufferDataSize := by
      simpa [ops] using hmem
    exact heq.1
  | @ended e a o c'' _ _ _ hmarked =>
    subst hmarked
    split_ifs
    · exact .of_idle ((connectionToUtf8_converted ic _).outstanding.trans hidle)
    · exact .of_idle hidle
  | pipeListening =>
    refine .of_empty fun _ _ hmem => ?_
    simp only [ops, hidle, List.map_nil, List.append_nil] at hmem
    split_ifs at hmem <;> simp at hmem
  | thrown => exact .of_idle hidle

/-- Starting a read gives it the place behind the raw buffer. -/
theorem Lands.startRead {c : Connection σ} {waiting : List Completion} {start : Start}
    {msg : Option String} {c' : Connection σ} {queued : List Completion}
    (hpaired : Paired ⟨c, waiting⟩) (h : Lands ⟨c, waiting⟩)
    (hstart : connectionStartRead ic start c = (msg, c', queued)) :
    Lands ⟨c', waiting ++ queued⟩ := by
  cases hpending : c.readPending with
  | true =>
    rw [connectionStartRead_of_pending ic start hpending] at hstart
    obtain ⟨_, rfl, rfl⟩ := by simpa only [Prod.mk.injEq] using hstart
    rwa [List.append_nil]
  | false =>
    obtain ⟨hidle, hwaiting⟩ := hpaired.idle hpending
    have hstarted := connectionStartRead_started ic start hpaired.handle_ne hpending
    rw [hstart] at hstarted
    dsimp only at hwaiting
    subst hwaiting
    exact .started (c.allocated_outstanding.trans hidle) hstarted

/-- Buffers are allocated only when there are none. -/
theorem Lands.allocated {c : Connection σ} {waiting : List Completion}
    (hpaired : Paired ⟨c, waiting⟩) (h : Lands ⟨c, waiting⟩) : Lands ⟨c.allocated, waiting⟩ := by
  by_cases hnone : c.bufferAllocatedSize = 0
  · have hnil : ops ⟨c, waiting⟩ = [] := by
      by_contra hne
      exact (hpaired.pending hne).2 hnone
    obtain ⟨hidle, hwaiting⟩ : c.outstanding = none ∧ waiting = [] := by simpa [ops] using hnil
    subst hwaiting
    rw [Connection.allocated, if_pos hnone]
    exact .of_idle hidle
  · rwa [Connection.allocated, if_neg hnone]

/-- A move that takes no bytes from the raw buffer while a read is pending. -/
theorem Lands.step {b : Box σ} (hpaired : Paired b) (h : Lands b) {mv : Move}
    (hquiet : Undisturbed ic b mv) : Lands (b.step (machine ic) mv) := by
  obtain ⟨c, waiting⟩ := b
  cases mv with
  | act a =>
    cases a with
    | prePoll start =>
      have hpolled := prePollFuncConnection_prePolled ic start c
      show Lands ⟨(prePollFuncConnection ic start c).2.1,
        waiting ++ (prePollFuncConnection ic start c).2.2⟩
      have hfirst := h.preReady hpaired (hquiet c List.mem_cons_self)
      have hpaired₁ := hpaired.converted (preReady_converted ic c)
      generalize prePollFuncConnection ic start c = result at hpolled
      cases hpolled with
      | found =>
        rw [List.append_nil]
        exact hfirst
      | thrown _ _ hstart => exact hfirst.startRead hpaired₁ hstart
      | @started _ c' _ hunready hunconnected hstart =>
        refine (hfirst.startRead hpaired₁ hstart).preReady (hpaired₁.startRead hstart)
          (hquiet c' ?_)
        refine List.mem_cons_of_mem _ ?_
        rw [if_pos ⟨hunready, hunconnected⟩, hstart]
        exact List.mem_singleton.mpr rfl
    | readStart start =>
      have hread := connectionReadStart_readStarted ic start c
      show Lands ⟨(connectionReadStart ic start c).2.1,
        waiting ++ (connectionReadStart ic start c).2.2⟩
      generalize connectionReadStart ic start c = result at hread
      cases hread with
      | unaccepted => rwa [List.append_nil]
      | ended =>
        rw [List.append_nil]
        exact h.same (fun htext => ⟨htext, rfl, rfl⟩) rfl
      | full => rwa [List.append_nil]
      | converted hfull htext haccepted =>
        rw [List.append_nil]
        have hconv := connectionToUtf8_converted ic c
        cases hpending : c.readPending with
        | true =>
          obtain ⟨hmemory, hsize⟩ := connectionToUtf8_of_not_convertible
            (hquiet hpending hfull htext haccepted)
          exact h.same (fun htext => ⟨hconv.rawMode.symm.trans htext, hmemory, hsize⟩)
            hconv.outstanding
        | false =>
          obtain ⟨hidle, hwaiting⟩ := hpaired.idle hpending
          dsimp only at hidle hwaiting
          subst hwaiting
          exact .of_idle (hconv.outstanding.trans hidle)
      | started _ _ _ hstart => exact (h.allocated hpaired).startRead hpaired.allocated hstart
    | complete bytes =>
      show Lands ⟨(complete bytes c).1, waiting ++ (complete bytes c).2⟩
      unfold complete
      cases hout : c.outstanding with
      | none =>
        rw [List.append_nil]
        exact h
      | some op =>
        have hnil := hpaired.unqueued hout
        subst hnil
        cases hassociated : c.associated with
        | false => cases op <;> exact .of_idle rfl
        | true =>
          cases op with
          | connect =>
            exact ⟨fun _ _ _ hmem => by simp [ops] at hmem, fun _ p hp _ _ hop => by simp_all⟩
          | read offset todo =>
            -- the bytes are written where the read was started
            refine ⟨fun htext offset' todo' hmem => ?_, fun _ p hp offset' todo' hop i hi => ?_⟩
            · have heq : offset' = offset ∧ todo' = todo := by simpa [ops] using hmem
              rw [heq.1]
              exact h.offset htext offset todo (by simp [ops, hout])
            · obtain rfl : p = _ := by simpa using hp
              obtain ⟨rfl, rfl⟩ := Overlapped.read.inj hop
              exact c.memory_fill offset _ hi
    | _ => exact step_of_local ic trivial fun c' hlocal => h.same hlocal.text hlocal.reads.2
  | take handler =>
    cases waiting with
    | nil => exact h
    | cons p rest =>
      obtain ⟨hidle, hrest⟩ := hpaired.last
      subst hrest
      obtain ⟨ended, _, _, hout, _, _⟩ := handlePacket_handled ic handler p c
      exact .of_idle (hout.trans hidle)

/-- The bytes of a read that lands behind the raw buffer are counted there. -/
theorem Lands.behind {b : Box σ} (h : Lands b) (mv : Move) : LandsBehind b mv := by
  obtain ⟨c, waiting⟩ := b
  cases mv with
  | act a => trivial
  | take handler =>
    cases waiting with
    | nil => trivial
    | cons p rest =>
      intro htext offset todo hop
      have hoffset : offset = c.bufferDataSize :=
        h.offset htext offset todo (by simp [ops, hop])
      refine ⟨hoffset, ?_⟩
      refine c.buffer_arrive_of_written fun i hi => ?_
      rw [← hoffset]
      exact h.written htext p List.mem_cons_self offset todo hop i hi

/-- **Pending reads land behind the raw buffer**, in every run whose moves take no bytes from the
raw buffer of a connection while a read of it is pending. -/
theorem pending_reads_land (ic : Riconv σ) (opened : ℕ → Opened) (events : List Event)
    (h : System.Along (machine ic) (System.Each (Undisturbed ic)) (World.create opened) events) :
    System.Along (machine ic) (System.Each LandsBehind) (World.create opened) events := by
  refine System.Along.of_each (I := fun b => Paired b ∧ Lands b) (fun b mv hb hquiet => ?_) ?_ h
  · obtain ⟨hpaired, hlands⟩ := hb
    exact ⟨hlands.behind mv, hpaired.step ic mv, hlands.step hpaired hquiet⟩
  · exact fun k => ⟨paired_create opened k, .of_idle rfl⟩

/-- The second byte of a character lands behind the first one, which polls have left alone. -/
theorem pending_reads_land_split :
    let opened : ℕ → Opened := fun _ => { handle := 1, handle_ne := by decide }
    let events : List Event :=
      [.act 0 (.readStart {}), .act 0 (.complete [0x41, 0xc3]), .take .read, .act 0 (.takeUtf8 1),
        .act 0 (.prePoll {}), .act 0 (.prePoll {}), .act 0 (.complete [0xa9]), .take (.poll true)]
    System.Along (machine utf8Riconv) (System.Each (Undisturbed utf8Riconv)) (World.create opened)
        events ∧
      System.Along (machine utf8Riconv) (System.Each LandsBehind) (World.create opened) events ∧
      (((World.create opened).run (machine utf8Riconv) events).state 0).utf8 = [0xc3, 0xa9] := by
  intro opened events
  have hquiet : System.Along (machine utf8Riconv) (System.Each (Undisturbed utf8Riconv))
      (World.create opened) events := by decide +kernel
  exact ⟨hquiet, pending_reads_land utf8Riconv opened events hquiet, by decide +kernel⟩

/-- A character of ISO 8859-1, in UTF-8. -/
def latin1Char (b : UInt8) : Bytes :=
  if b < 0x80 then [b] else [(0xc0 : UInt8) ||| (b >>> 6), (0x80 : UInt8) ||| (b &&& 0x3f)]

/-- Conversion from ISO 8859-1: every byte is a character. -/
def latin1Run : Bytes → ℕ → Incremental.Conversion Unit UInt8
  | [], _ => ⟨(), 0, [], .done⟩
  | b :: rest, room =>
    if (latin1Char b).length ≤ room then
      let r := latin1Run rest (room - (latin1Char b).length)
      ⟨(), r.consumed + 1, latin1Char b ++ r.out, r.stop⟩
    else ⟨(), 0, [], .full⟩

/-- `Riconv()` for ISO 8859-1. -/
def latin1Riconv : Riconv Unit where
  open_ := ()
  run _ inbuf room := latin1Run inbuf room

/-- Letters that take two bytes each, until there is no more room. -/
theorem latin1Run_replicate (n k : ℕ) :
    (latin1Run (List.replicate n 0xe9) (2 * k)).consumed = min n k ∧
      (latin1Run (List.replicate n 0xe9) (2 * k)).out.length = 2 * min n k ∧
      ((latin1Run (List.replicate n 0xe9) (2 * k)).stop = .done ∨
        (latin1Run (List.replicate n 0xe9) (2 * k)).stop = .full) := by
  have hchar : (latin1Char 0xe9).length = 2 := by decide
  induction n generalizing k with
  | zero => simp [latin1Run]
  | succ n ih =>
    rw [List.replicate_succ, latin1Run, hchar]
    cases k with
    | zero => simp
    | succ k =>
      obtain ⟨hconsumed, hlength, hstop⟩ := ih k
      rw [if_pos (by omega), show 2 * (k + 1) - 2 = 2 * k by omega]
      refine ⟨?_, ?_, hstop⟩
      · dsimp only
        omega
      · rw [List.length_append, hchar]
        omega

/-- Converting such letters into an empty UTF-8 buffer. -/
theorem connectionToUtf8_latin1 {c : Connection Unit} {n k : ℕ}
    (hbuffer : c.buffer = List.replicate n 0xe9) (hn : n ≠ 0) (hk : k ≠ 0) (hutf8 : c.utf8 = [])
    (hroom : c.utf8AllocatedSize = 2 * k) :
    ∃ text : Bytes, text.length = 2 * min n k ∧ connectionToUtf8 latin1Riconv c =
      (text.length, { c.shift (min n k) with iconvCtx := some (), utf8 := text }) := by
  have hsize : c.bufferDataSize = n := by
    have hlength := congrArg List.length hbuffer
    simpa [Connection.buffer] using hlength
  obtain ⟨hconsumed, hlength, hstop⟩ := latin1Run_replicate n k
  obtain ⟨rounds, hrounds⟩ := Nat.exists_eq_succ_of_ne_zero hn
  have hloop : toUtf8Loop latin1Riconv c.isEofRaw c.bufferDataSize
      (c.iconvCtx.getD latin1Riconv.open_) c.buffer c.utf8AllocatedSize [] =
        (List.replicate (n - min n k) 0xe9,
          (latin1Run (List.replicate n 0xe9) (2 * k)).out, ()) := by
    rw [hsize, hbuffer, hroom]
    conv_lhs => rw [hrounds]
    unfold toUtf8Loop
    rw [← hrounds]
    dsimp only [latin1Riconv]
    rw [hconsumed, List.drop_replicate, List.nil_append]
    rcases hstop with hstop | hstop <;> rw [hstop]
  have hconv := connectionToUtf8_of_loop (by omega) hutf8 (by omega) hloop
  rw [hsize, List.length_replicate, show n - (n - min n k) = min n k by omega] at hconv
  exact ⟨_, hlength, hconv⟩

/-- A connection with buffers of `2 * k` bytes, and what changes in the run below. -/
def latin1State (k : ℕ) (memory : ℕ → UInt8) (size : ℕ) (ctx : Option Unit) (text : Bytes)
    (readPending : Bool) (outstanding : Option Overlapped) : Connection Unit :=
  { handle := 1, iconvCtx := ctx, memory := memory
    bufferAllocatedSize := 2 * k, bufferDataSize := size, utf8 := text, utf8AllocatedSize := 2 * k
    hEvent := true, readPending := readPending, associated := true, outstanding := outstanding }

/-- Reading from it starts a read behind the raw buffer. -/
theorem readStart_latin1 (memory : ℕ → UInt8) {k : ℕ} (hk : k ≠ 0) (ctx : Option Unit) :
    (machine latin1Riconv).act (.readStart {}) (latin1State k memory k ctx [] false none) =
      (latin1State k memory k ctx [] true (some (.read k k)), []) := by
  have hroom : 2 * k - k = k := by omega
  have hne : 2 * k ≠ 0 := by omega
  simp [machine, act, connectionReadStart, connectionStartRead, threadReadFile, threadSetup,
    latin1State, hroom, hne, hk]

/-- Letters that fill the raw buffer are counted, and converted as far as there is room. -/
theorem readPacket_latin1 (memory : ℕ → UInt8) {k : ℕ} (hk : k ≠ 0) {bytes : Bytes}
    (op : Overlapped)
    (hbytes : bytes = List.replicate (2 * k) 0xe9) :
    ∃ memory' text, text.length = 2 * k ∧
      (latin1State k memory' k (some ()) text false none).buffer = List.replicate k 0xe9 ∧
      handlePacket latin1Riconv .read ⟨op, bytes⟩
        (latin1State k ((latin1State k memory 0 none [] true none).fill 0 bytes).memory 0 none []
          true none) =
      latin1State k memory' k (some ()) text false none := by
  have hlength : bytes.length = 2 * k := by rw [hbytes, List.length_replicate]
  have hmin : min (2 * k) k = k := by omega
  have hleft : 2 * k - k = k := by omega
  have hne : 2 * k ≠ 0 := by omega
  let c := latin1State k ((latin1State k memory 0 none [] true none).fill 0 bytes).memory 0 none []
    true none
  have hbuffer : (c.arrive (2 * k)).buffer = List.replicate (2 * k) 0xe9 := by
    rw [← hbytes, ← hlength]
    exact c.buffer_arrive_of_written fun i hi => Connection.memory_fill _ 0 bytes hi
  obtain ⟨text, htext, hconv⟩ := connectionToUtf8_latin1 hbuffer (by omega) hk rfl rfl
  rw [hmin] at htext hconv
  refine ⟨((c.arrive (2 * k)).shift k).memory, text, htext, ?_, ?_⟩
  · have hshift : ((c.arrive (2 * k)).shift k).buffer = List.replicate k 0xe9 := by
      rw [Connection.buffer_shift, hbuffer, List.drop_replicate, hleft]
    rw [← hshift]
    simp [Connection.buffer, Connection.shift, Connection.arrive, latin1State, c, hleft]
  · have hready : (c.arrive (2 * k)).bufferAllocatedSize ≠ 0 ∧
        (c.arrive (2 * k)).bufferDataSize > 0 ∧
        (!(c.arrive (2 * k)).rawMode) = true := by
      simp [Connection.arrive, latin1State, c]
      omega
    show (readPacket latin1Riconv bytes.length c).2 = _
    unfold readPacket
    dsimp only
    rw [hlength, if_pos hready, hconv]
    simp [Connection.shift, Connection.arrive, latin1State, c, hleft, htext, hne]

/-- A poll converts the letters that were left. -/
theorem prePoll_latin1 {memory : ℕ → UInt8} {k : ℕ} (hk : k ≠ 0) {op : Option Overlapped}
    {start : Start}
    (hbuffer : (latin1State k memory k (some ()) [] true op).buffer = List.replicate k 0xe9) :
    ∃ memory' text, (machine latin1Riconv).act (.prePoll start)
        (latin1State k memory k (some ()) [] true op) =
      (latin1State k memory' 0 (some ()) text true op, []) := by
  obtain ⟨text, htext, hconv⟩ := connectionToUtf8_latin1 hbuffer hk hk rfl rfl
  rw [Nat.min_self] at htext hconv
  refine ⟨((latin1State k memory k (some ()) [] true op).shift k).memory, text, ?_⟩
  have hready : preReady latin1Riconv (latin1State k memory k (some ()) [] true op) =
      (some .ready, latin1State k ((latin1State k memory k (some ()) [] true op).shift k).memory 0
        (some ()) text true op) := by
    have hpos : 0 < k := by omega
    unfold preReady
    rw [hconv]
    simp [latin1State, Connection.shift, hpos, htext]
  show (prePollFuncConnection _ _ _).2 = _
  unfold prePollFuncConnection
  rw [hready]

/-- 65536 letters arrive, and what could be converted is read. -/
theorem letters_left {s : World Unit} {n : ℕ} (hn : n = 2 * 32768)
    (h : s.At 0 (cConnectionCreate
      { handle := 1, handle_ne := by decide, encoding := "latin1" }) []) :
    ∃ memory, (latin1State 32768 memory 32768 (some ()) [] true (some (.read 32768 32768))).buffer =
        List.replicate 32768 0xe9 ∧
      (s.run (machine latin1Riconv) [.act 0 (.readStart {}),
        .act 0 (.complete (List.replicate n 0xe9)), .take .read, .act 0 (.takeUtf8 n)]).At 0
          (latin1State 32768 memory 32768 (some ()) [] false none) [] := by
  subst hn
  generalize hletters : List.replicate (2 * 32768) (0xe9 : UInt8) = letters
  have hlength : letters.length = 2 * 32768 := by rw [← hletters, List.length_replicate]
  have h₁ := h.act (machine latin1Riconv) (.readStart {}) (rfl : _ =
    (latin1State 32768 (fun _ => 0) 0 none [] true (some (.read 0 (2 * 32768))), []))
  have h₂ := h₁.act (machine latin1Riconv) (.complete letters) rfl
  obtain ⟨memory, text, htext, hbuffer, hhandle⟩ :=
    readPacket_latin1 (fun _ => 0) (by decide) (.read 0 (2 * 32768)) hletters.symm
  rw [List.take_of_length_le (Nat.le_of_eq hlength)] at h₂
  have h₃ := h₂.take (machine latin1Riconv) .read hhandle
  have h₄ := h₃.act (machine latin1Riconv) (.takeUtf8 (2 * 32768)) (rfl : _ =
    (latin1State 32768 memory 32768 (some ()) (text.drop (2 * 32768)) false none, []))
  rw [List.drop_of_length_le (Nat.le_of_eq htext)] at h₄
  exact ⟨memory, hbuffer, h₄⟩

/-- A read is started, and a poll converts the letters that were left. -/
theorem byte_lands {s : World Unit} {memory : ℕ → UInt8}
    (h : s.At 0 (latin1State 32768 memory 32768 (some ()) [] false none) [])
    (hbuffer : (latin1State 32768 memory 32768 (some ()) [] true
      (some (.read 32768 32768))).buffer =
      List.replicate 32768 0xe9) :
    ∃ memory' text, (s.run (machine latin1Riconv) [.act 0 (.readStart {}), .act 0 (.prePoll {}),
        .act 0 (.complete [0x61])]).At 0
          (latin1State 32768 memory' 0 (some ()) text true none)
          [(0, ⟨.read 32768 32768, [0x61]⟩)] := by
  have hread := readStart_latin1 memory (k := 32768) (by omega) (some ())
  have h₁ := h.act (machine latin1Riconv) (.readStart {}) hread
  obtain ⟨memory', text, hpoll⟩ := prePoll_latin1 (by omega) hbuffer
  have h₂ := h₁.act (machine latin1Riconv) (.prePoll {}) hpoll
  exact ⟨_, text, h₂.act (machine latin1Riconv) (.complete [0x61]) rfl⟩

/-- A packet whose read was started elsewhere. -/
theorem not_landsBehind {w : World σ} {k : ℕ} {handler : Handler} {p : Completion}
    {rest : List (ℕ × Completion)} {offset todo : ℕ} (hqueue : w.queue = (k, p) :: rest)
    (hop : p.op = .read offset todo) (htext : (w.state k).rawMode = false)
    (hne : offset ≠ (w.state k).bufferDataSize) : ¬ System.Each LandsBehind w (.take handler) := by
  intro heach
  have hlands := heach k (.take handler) (by simp [System.move, hqueue])
  have hwaiting : ∃ more, (w.box k).waiting = p :: more := by simp [System.box, hqueue]
  obtain ⟨more, hwaiting⟩ := hwaiting
  unfold LandsBehind at hlands
  rw [hwaiting] at hlands
  exact hne (hlands htext offset todo hop).1

/-- All letters were read, half of them are still in the raw buffer, and a read is pending behind
them. A poll converts them, and the next byte lands 32768 bytes behind the raw buffer. -/
theorem pending_read_lands_elsewhere :
    let opened : ℕ → Opened :=
      fun _ => { handle := 1, handle_ne := by decide, encoding := "latin1" }
    let events : List Event :=
      [.act 0 (.readStart {}), .act 0 (.complete (List.replicate 65536 0xe9)), .take .read,
        .act 0 (.takeUtf8 65536), .act 0 (.readStart {}), .act 0 (.prePoll {}),
        .act 0 (.complete [0x61])]
    let w := (World.create opened).run (machine latin1Riconv) events
    w.queue = [(0, ⟨.read 32768 32768, [0x61]⟩)] ∧ (w.state 0).bufferDataSize = 0 ∧
      ¬ System.Along (machine latin1Riconv) (System.Each LandsBehind) (World.create opened)
        (events ++ [.take .read]) := by
  intro opened events w
  obtain ⟨memory, hbuffer, hleft⟩ := letters_left (s := World.create opened) (n := 65536) (by omega)
    ⟨rfl, rfl⟩
  obtain ⟨memory', text, hw, hqueue⟩ := byte_lands hleft hbuffer
  rw [← System.run_append] at hw hqueue
  have hsize : (w.state 0).bufferDataSize = 0 := congrArg Connection.bufferDataSize hw
  have htext : (w.state 0).rawMode = false := congrArg Connection.rawMode hw
  refine ⟨hqueue, hsize, fun halong => ?_⟩
  have helsewhere : 32768 ≠ (w.state 0).bufferDataSize := by
    rw [hsize]
    omega
  exact not_landsBehind hqueue rfl htext helsewhere (System.Along.last halong)

end Processx.Win
