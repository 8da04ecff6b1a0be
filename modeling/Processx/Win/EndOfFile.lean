import Processx.Win.Pending
import Processx.Connection.Utf8

/-!
# The end of a file

`is_eof_raw_` says that nothing comes any more. A poll sets it for a read that has brought no
bytes. A read goes by what came out of the conversion instead, and that is nothing, too, if all
that arrived is a part of a character, or if the packet says that a client has connected.
-/

namespace Processx.Win

open SharedQueue

variable {σ : Type} {ic : Riconv σ}

/-- Does the loop of `processx__connection_to_utf8()` find a character that fits? It goes on
behind invalid bytes only. -/
def findsText (ic : Riconv σ) : ℕ → σ → Bytes → ℕ → Bool
  | 0, _, _, _ => false
  | rounds + 1, st, inbuf, room =>
    let r := ic.run st inbuf room
    let rest := (inbuf.drop r.consumed).drop 1
    decide (r.out ≠ []) ||
      (decide (r.stop = .invalid ∧ rest.length > 0) && findsText ic rounds r.next rest room)

/-- Does the raw buffer hold a character that can be converted now? -/
def Connection.hasText (ic : Riconv σ) (c : Connection σ) : Bool :=
  let room := c.utf8AllocatedSize - c.utf8.length
  decide (room ≠ 0) && findsText ic c.bufferDataSize (c.iconvCtx.getD ic.open_) c.buffer room

/-- The output of the loop only grows. -/
theorem toUtf8Loop_length_le (ic : Riconv σ) (eof : Bool) (rounds : ℕ) (st : σ) (inbuf : Bytes)
    (room : ℕ) (out : Bytes) :
    out.length ≤ (toUtf8Loop ic eof rounds st inbuf room out).2.1.length := by
  induction rounds generalizing st inbuf room out with
  | zero => exact Nat.le_refl _
  | succ rounds ih =>
    have hgrow : out.length ≤ (out ++ (ic.run st inbuf room).out).length := by simp
    unfold toUtf8Loop
    dsimp only
    cases (ic.run st inbuf room).stop with
    | done => exact hgrow
    | full => exact hgrow
    | invalid =>
      dsimp only
      split_ifs
      · exact Nat.le_trans hgrow (ih _ _ _ _)
      · exact hgrow
    | incomplete =>
      dsimp only
      split_ifs <;> exact hgrow

/-- The loop writes something exactly if it finds a character that fits. -/
theorem toUtf8Loop_length_eq (ic : Riconv σ) (eof : Bool) (rounds : ℕ) (st : σ) (inbuf : Bytes)
    (room : ℕ) (out : Bytes) :
    (toUtf8Loop ic eof rounds st inbuf room out).2.1.length = out.length ↔
      findsText ic rounds st inbuf room = false := by
  induction rounds generalizing st inbuf room out with
  | zero => exact ⟨fun _ => rfl, fun _ => rfl⟩
  | succ rounds ih =>
    unfold toUtf8Loop findsText
    dsimp only
    by_cases hout : (ic.run st inbuf room).out = []
    · rw [hout, List.append_nil, List.length_nil, Nat.sub_zero]
      cases (ic.run st inbuf room).stop with
      | done => simp
      | full => simp
      | invalid =>
        dsimp only
        split_ifs with hrest
        · rw [ih, decide_eq_true (And.intro rfl hrest), Bool.true_and]
          simp
        · have hstop : ¬ (Incremental.Stop.invalid = .invalid ∧
              ((inbuf.drop (ic.run st inbuf room).consumed).drop 1).length > 0) :=
              fun h => hrest h.2
          rw [decide_eq_false hstop, Bool.false_and]
          simp
      | incomplete =>
        dsimp only
        split_ifs <;> simp
    · have hlonger : out.length < (out ++ (ic.run st inbuf room).out).length := by
        have hpos := List.length_pos_of_ne_nil hout
        rw [List.length_append]
        omega
      have hfound : (decide ((ic.run st inbuf room).out ≠ [])) = true := decide_eq_true hout
      rw [hfound, Bool.true_or]
      refine ⟨fun heq => ?_, nofun⟩
      exfalso
      revert heq
      refine Nat.ne_of_gt ?_
      cases (ic.run st inbuf room).stop with
      | done => exact hlonger
      | full => exact hlonger
      | invalid =>
        dsimp only
        split_ifs
        · exact Nat.lt_of_lt_of_le hlonger (toUtf8Loop_length_le ic eof rounds _ _ _ _)
        · exact hlonger
      | incomplete =>
        dsimp only
        split_ifs <;> exact hlonger

/-- A conversion writes nothing exactly if there is no character to be converted now. -/
theorem connectionToUtf8_eq_zero_iff (ic : Riconv σ) (c : Connection σ) :
    (connectionToUtf8 ic c).1 = 0 ↔ c.hasText ic = false := by
  unfold connectionToUtf8 Connection.hasText
  dsimp only
  by_cases hnone : c.bufferDataSize = 0 ∨ c.utf8AllocatedSize - c.utf8.length = 0
  · rw [if_pos hnone]
    rcases hnone with hnone | hnone <;> simp [hnone, findsText]
  · obtain ⟨_, hroom⟩ := not_or.mp hnone
    rw [if_neg hnone, decide_eq_true hroom, Bool.true_and]
    exact toUtf8Loop_length_eq ic c.isEofRaw _ _ _ _ []

/-- The operating system has reported the end: a read brought no bytes, or `ReadFile()` failed
with one of two errors. -/
def ReportsEnd (b : Box σ) (mv : Move) : Prop :=
  match mv with
  | .act (.prePoll start) | .act (.readStart start) =>
    start.readFile = .brokenPipe ∨ start.readFile = .handleEof
  | .take _ =>
    match b.waiting with
    | ⟨.read _ _, []⟩ :: _ => True
    | _ => False
  | _ => False

instance (b : Box σ) (mv : Move) : Decidable (ReportsEnd b mv) :=
  match mv with
  | .act (.prePoll start) | .act (.readStart start) =>
    inferInstanceAs (Decidable (start.readFile = .brokenPipe ∨ start.readFile = .handleEof))
  | .act (.takeUtf8 _) | .act .growUtf8 | .act .setRaw | .act (.takeRaw _) | .act .accept
  | .act (.complete _) => isFalse id
  | .take _ =>
    match hwaiting : b.waiting with
    | ⟨.read _ _, []⟩ :: _ => isTrue (by simp [ReportsEnd, hwaiting])
    | ⟨.read _ _, _ :: _⟩ :: _ | ⟨.connect, _⟩ :: _ | [] => isFalse (by simp [ReportsEnd, hwaiting])

/-- A connection ends only when the operating system has reported it. -/
def EndsWhenReported (ic : Riconv σ) (b : Box σ) (mv : Move) : Prop :=
  b.state.isEofRaw = false → (b.step (machine ic) mv).state.isEofRaw = true → ReportsEnd b mv

instance (ic : Riconv σ) (b : Box σ) (mv : Move) : Decidable (EndsWhenReported ic b mv) :=
  inferInstanceAs (Decidable (_ → _ → _))

/-- If the move takes a packet for a read, and it is not that of a read without bytes, there is
now a character to be converted, or a byte in raw mode. -/
def BringsText (ic : Riconv σ) (b : Box σ) (mv : Move) : Prop :=
  match mv, b.waiting with
  | .take .read, p :: _ =>
    b.state.isEofRaw = false → ¬ ReportsEnd b mv →
      if b.state.rawMode then b.state.bufferDataSize + p.bytes.length ≠ 0
      else (b.state.arrive p.bytes.length).hasText ic = true
  | _, _ => True

/-- Starting a read marks the end only if `ReadFile()` reports it. -/
theorem connectionStartRead_isEofRaw {start : Start} {c : Connection σ} {msg : Option String}
    {c' : Connection σ} {queued : List Completion} (hhandle : c.handle ≠ 0)
    (hstart : connectionStartRead ic start c = (msg, c', queued)) (hopen : c.isEofRaw = false)
    (hended : c'.isEofRaw = true) : start.readFile = .brokenPipe ∨ start.readFile = .handleEof := by
  cases hpending : c.readPending with
  | true =>
    rw [connectionStartRead_of_pending ic start hpending] at hstart
    obtain ⟨_, rfl, _⟩ := by simpa only [Prod.mk.injEq] using hstart
    rw [hopen] at hended
    cases hended
  | false =>
    have hstarted := connectionStartRead_started ic start hhandle hpending
    rw [hstart] at hstarted
    have hnever : ¬ c.allocated.isEofRaw = true := by
      rw [c.allocated_isEofRaw, hopen]
      exact Bool.false_ne_true
    cases hstarted with
    | ended _ _ hanswer => exact hanswer
    | connectPending => exact absurd hended hnever
    | connected => exact absurd hended hnever
    | read => exact absurd hended hnever
    | readPending => exact absurd hended hnever
    | pipeListening => exact absurd hended hnever
    | thrown => exact absurd hended hnever

/-- What a read makes of a packet is nothing if there is nothing to be converted. -/
theorem readPacket_eq_zero_iff (ic : Riconv σ) (bytes : ℕ) {c : Connection σ}
    (hsize : c.bufferAllocatedSize ≠ 0) : (readPacket ic bytes c).1 = 0 ↔
      ¬ (if c.rawMode then c.bufferDataSize + bytes ≠ 0
        else (c.arrive bytes).hasText ic = true) := by
  have hsize' : (c.arrive bytes).bufferAllocatedSize ≠ 0 := hsize
  have hcount : (c.arrive bytes).bufferDataSize = c.bufferDataSize + bytes := rfl
  have hmode : (c.arrive bytes).rawMode = c.rawMode := rfl
  unfold readPacket
  dsimp only
  rw [hmode, hcount]
  cases c.rawMode with
  | true =>
    rw [if_neg (by simp)]
    by_cases hsome : c.bufferDataSize + bytes > 0
    · rw [if_pos hsome]
      simp
    · have hnone : c.bufferDataSize + bytes = 0 := by omega
      have hbytes : bytes = 0 := by omega
      rw [if_neg hsome]
      simpa [hbytes] using hnone
  | false =>
    by_cases hsome : c.bufferDataSize + bytes > 0
    · rw [if_pos ⟨hsize', hsome, rfl⟩]
      simpa using connectionToUtf8_eq_zero_iff ic (c.arrive bytes)
    · have hnone : c.bufferDataSize + bytes = 0 := by omega
      have hbytes : bytes = 0 := by omega
      rw [if_neg (by simp [hnone]), if_neg (by omega)]
      have hempty : (c.arrive bytes).hasText ic = false := by
        rw [← connectionToUtf8_eq_zero_iff]
        unfold connectionToUtf8
        dsimp only
        rw [if_pos (Or.inl (hcount.trans hnone))]
      rw [hempty]
      simp [hbytes]

/-- Only starting a read and taking a packet set the flag. -/
theorem act_isEofRaw (ic : Riconv σ) {b : Box σ} (hpaired : Paired b) (a : Action)
    (hopen : b.state.isEofRaw = false)
    (hended : (b.step (machine ic) (.act a)).state.isEofRaw = true) : ReportsEnd b (.act a) := by
  obtain ⟨c, waiting⟩ := b
  have hnever : ¬ c.isEofRaw = true := by
    rw [hopen]
    nofun
  cases a with
  | prePoll start =>
    have hpolled := prePollFuncConnection_prePolled ic start c
    change (prePollFuncConnection ic start c).2.1.isEofRaw = true at hended
    have hhandle := (hpaired.converted (preReady_converted ic c)).handle_ne
    have hopen₁ : (preReady ic c).2.isEofRaw = false :=
      (preReady_converted ic c).isEofRaw.trans hopen
    generalize prePollFuncConnection ic start c = result at hpolled hended
    cases hpolled with
    | found => exact absurd ((preReady_converted ic c).isEofRaw.symm.trans hended) hnever
    | thrown _ _ hstart => exact connectionStartRead_isEofRaw hhandle hstart hopen₁ hended
    | @started _ c' _ _ _ hstart =>
      exact connectionStartRead_isEofRaw hhandle hstart hopen₁
        ((preReady_converted ic c').isEofRaw.symm.trans hended)
  | readStart start =>
    have hread := connectionReadStart_readStarted ic start c
    change (connectionReadStart ic start c).2.1.isEofRaw = true at hended
    generalize connectionReadStart ic start c = result at hread hended
    cases hread with
    | unaccepted => exact absurd hended hnever
    | ended => exact absurd hended hnever
    | full => exact absurd hended hnever
    | converted =>
      exact absurd ((connectionToUtf8_converted ic c).isEofRaw.symm.trans hended) hnever
    | started _ _ _ hstart =>
      exact connectionStartRead_isEofRaw hpaired.allocated.handle_ne hstart
        (c.allocated_isEofRaw.trans hopen) hended
  | complete bytes =>
    change (complete bytes c).1.isEofRaw = true at hended
    unfold complete at hended
    cases hout : c.outstanding with
    | none =>
      rw [hout] at hended
      exact absurd hended hnever
    | some op =>
      rw [hout] at hended
      cases op <;> exact absurd hended hnever
  | _ =>
    refine absurd ?_ hnever
    revert hended
    refine step_of_local ic (I := fun b => b.state.isEofRaw = true → c.isEofRaw = true) trivial ?_
    exact fun c' hlocal hset => hlocal.isEofRaw.symm.trans hset

/-- A poll takes the packet of a client that has connected for what it is. -/
theorem poll_isEofRaw (ic : Riconv σ) {b : Box σ} (hpaired : Paired b) (polled : Bool)
    (hopen : b.state.isEofRaw = false)
    (hended : (b.step (machine ic) (.take (.poll polled))).state.isEofRaw = true) :
    ReportsEnd b (.take (.poll polled)) := by
  obtain ⟨c, waiting⟩ := b
  cases waiting with
  | nil =>
    have hstill : c.isEofRaw = true := hended
    rw [hopen] at hstill
    cases hstill
  | cons p rest =>
    obtain ⟨op, bytes⟩ := p
    have hmark : (bytes.length == 0 && !c.connecting) = true := by
      have hset := (pollPacket_handled ic polled bytes.length c).isEofRaw
      rw [hopen, Bool.false_or] at hset
      exact hset.symm.trans hended
    obtain ⟨hbytes, hconnecting⟩ : bytes = [] ∧ c.connecting = false := by simpa using hmark
    subst hbytes
    cases op with
    | read => trivial
    | connect =>
      have hset := hpaired.connecting (by simp [ops])
      rw [hconnecting] at hset
      cases hset

/-- A read ends the connection when it should not, exactly if nothing comes of the packet. -/
theorem endsWhenReported_iff (ic : Riconv σ) {b : Box σ} (hpaired : Paired b) (mv : Move) :
    EndsWhenReported ic b mv ↔ BringsText ic b mv := by
  obtain ⟨c, waiting⟩ := b
  cases mv with
  | act a => exact iff_of_true (act_isEofRaw ic hpaired a) trivial
  | take handler =>
    cases handler with
    | poll polled =>
      exact iff_of_true (poll_isEofRaw ic hpaired polled) (by cases waiting <;> trivial)
    | read =>
      cases waiting with
      | nil =>
        refine iff_of_true (fun hopen hended => ?_) trivial
        have hstill : c.isEofRaw = true := hended
        rw [show c.isEofRaw = false from hopen] at hstill
        cases hstill
      | cons p rest =>
        have hsize : c.bufferAllocatedSize ≠ 0 := (hpaired.pending (by simp [ops])).2
        have hset := (readPacket_handled ic p.bytes.length c).isEofRaw
        have hzero := readPacket_eq_zero_iff ic p.bytes.length hsize
        constructor
        · intro hends hopen hreports
          by_contra hnothing
          refine hreports (hends hopen ?_)
          refine hset.trans ?_
          rw [beq_iff_eq.mpr (hzero.mpr hnothing), Bool.or_true]
        · intro hbrings hopen hended
          by_contra hreports
          have hmark : ((readPacket ic p.bytes.length c).1 == 0) = true := by
            rw [show c.isEofRaw = false from hopen, Bool.false_or] at hset
            exact hset.symm.trans hended
          exact hzero.mp (beq_iff_eq.mp hmark) (hbrings hopen hreports)

/-- **Connections end when the operating system reports it**, in exactly the runs in which
something comes of every packet that a read takes, unless it reports the end. -/
theorem ends_when_reported_iff (ic : Riconv σ) (opened : ℕ → Opened) (events : List Event) :
    System.Along (machine ic) (System.Each (EndsWhenReported ic)) (World.create opened) events ↔
      System.Along (machine ic) (System.Each (BringsText ic)) (World.create opened) events :=
  System.along_iff_of_each (fun _ mv hpaired => ⟨endsWhenReported_iff ic hpaired mv,
    fun _ => hpaired.step ic mv⟩) events (paired_create opened)

/-- The first byte of a character arrives, and a client connects to a FIFO: a read takes either for
the end of the file. -/
theorem ends_behind_half_a_character :
    let opened : ℕ → Opened := fun _ => { handle := 1, handle_ne := by decide }
    let character : List Event :=
      [.act 0 (.readStart {}), .act 0 (.complete [0xc3]), .act 0 (.readStart {}), .take .read]
    let client : List Event :=
      [.act 0 (.readStart { readFile := .pipeListening }), .act 0 (.complete []),
        .act 0 (.readStart {}), .take .read]
    (((World.create opened).run (machine utf8Riconv) character).state 0).isEofRaw = true ∧
      ¬ System.Along (machine utf8Riconv) (System.Each (EndsWhenReported utf8Riconv))
        (World.create opened) character ∧
      (((World.create opened).run (machine utf8Riconv) client).state 0).isEof = true ∧
      ¬ System.Along (machine utf8Riconv) (System.Each (EndsWhenReported utf8Riconv))
        (World.create opened) client := by
  decide +kernel

end Processx.Win
