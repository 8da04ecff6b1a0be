import Processx.Win.Pending
import Processx.Connection.Utf8

/-!
# The two handlers of packets

A packet is handled in the loop of `processx__connection_read()` or in that of
`processx_c_connection_poll()`, by whoever takes it first, and the code stands there twice. Both
count the bytes and convert them. Then a poll goes on with the number of bytes that came, and a
read with what it wants to return; and only a poll knows that a client may have been waited for.
-/

namespace Processx.Win

variable {σ : Type}

/-- The fields of a connection that say what has arrived, and what is going on. -/
structure Outline where
  readPending : Bool
  connecting : Bool
  buffer : Bytes
  utf8 : Bytes
  overlappedOffset : ℕ
  isEofRaw : Bool
  isEof : Bool
  state : SocketState
  deriving DecidableEq

/-- These fields. -/
def Connection.outline (c : Connection σ) : Outline where
  readPending := c.readPending
  connecting := c.connecting
  buffer := c.buffer
  utf8 := c.utf8
  overlappedOffset := c.overlappedOffset
  isEofRaw := c.isEofRaw
  isEof := c.isEof
  state := c.state

/-- The connection with the bytes that have come, converted in text mode. -/
def Connection.received (ic : Riconv σ) (bytes : ℕ) (c : Connection σ) : Connection σ :=
  if c.rawMode ∨ c.bufferDataSize + bytes = 0 then c.arrive bytes
  else (connectionToUtf8 ic (c.arrive bytes)).2

/-- What the bytes are good for: the text that they make with those that were there, and in raw
mode all that is in the raw buffer then. -/
def Connection.gain (ic : Riconv σ) (bytes : ℕ) (c : Connection σ) : ℕ :=
  if c.rawMode then c.bufferDataSize + bytes else (connectionToUtf8 ic (c.arrive bytes)).1

/-- The end of the file is known already, as far as both buffers allow. -/
def Connection.EndKnown (ic : Riconv σ) (bytes : ℕ) (c : Connection σ) : Prop :=
  c.isEofRaw = true ∧
    (c.isEof = true ∨ (c.received ic bytes).utf8 ≠ [] ∨ (c.received ic bytes).bufferDataSize ≠ 0)

/-- What the two handlers take for granted: no client was waited for; in a file, as many bytes of
text come out as bytes were read; and nothing comes out exactly if no bytes came, or else the end
of the file is no news. -/
structure Connection.HandledAlike (ic : Riconv σ) (bytes : ℕ) (c : Connection σ) : Prop where
  connecting : c.connecting = false
  offset : c.type = .asyncFile → c.gain ic bytes = bytes
  ended : (c.gain ic bytes = 0 ↔ bytes = 0) ∨ c.EndKnown ic bytes

/-- The file offset after some bytes. -/
def Connection.advance (n : ℕ) (c : Connection σ) : Connection σ :=
  if c.type = .asyncFile then { c with overlappedOffset := c.overlappedOffset + n } else c

/-- Both handlers do with the bytes that have arrived what a conversion does. -/
theorem Connection.received_converted (ic : Riconv σ) (bytes : ℕ) (c : Connection σ) :
    Converted (c.arrive bytes) (c.received ic bytes) := by
  unfold Connection.received
  split_ifs
  · exact .refl _
  · exact connectionToUtf8_converted ic _

/-- What a poll does, without the event. -/
theorem pollPacket_eq (ic : Riconv σ) (polled : Bool) (bytes : ℕ) (c : Connection σ) :
    ∃ state, (c.connecting = false → state = c.state) ∧ (pollPacket ic polled bytes c).2 =
      { (if bytes = 0 ∧ c.connecting = false then
          markEofRaw ((c.received ic bytes).advance bytes)
        else (c.received ic bytes).advance bytes) with
        state := state, connecting := false } := by
  have hreceived : (if (c.arrive bytes).bufferDataSize > 0 ∧ (!(c.arrive bytes).rawMode) = true then
      (connectionToUtf8 ic (c.arrive bytes)).2 else c.arrive bytes) = c.received ic bytes := by
    unfold Connection.received
    show (if c.bufferDataSize + bytes > 0 ∧ (!c.rawMode) = true then _ else _) = _
    cases c.rawMode with
    | true => simp
    | false =>
      by_cases hnone : c.bufferDataSize + bytes = 0
      · rw [if_neg (by simp; omega), if_pos (Or.inr hnone)]
      · rw [if_pos (by simp; omega), if_neg (by simpa using hnone)]
  have hfields : (c.received ic bytes).connecting = c.connecting ∧
      (c.received ic bytes).state = c.state := by
    obtain ⟨_, _, _, _, _, _, heq⟩ := c.received_converted ic bytes
    rw [heq]
    exact ⟨rfl, rfl⟩
  unfold pollPacket
  dsimp only
  rw [hreceived]
  generalize c.received ic bytes = c₁ at hfields ⊢
  obtain ⟨hconnecting, hstate⟩ := hfields
  obtain ⟨c₂, hc₂, hconnecting₂, hstate₂⟩ : ∃ c₂, (if c₁.type = .asyncFile then
      { c₁ with overlappedOffset := c₁.overlappedOffset + bytes } else c₁) = c₂ ∧
      c₂.connecting = c.connecting ∧ c₂.state = c.state := by
    split_ifs
    · exact ⟨_, rfl, hconnecting, hstate⟩
    · exact ⟨_, rfl, hconnecting, hstate⟩
  unfold Connection.advance
  rw [hc₂, hconnecting₂]
  have hcond : (bytes = 0 ∧ (!c.connecting) = true) ↔ (bytes = 0 ∧ c.connecting = false) := by simp
  simp only [hcond]
  obtain ⟨c₃, hc₃, hconnecting₃, hstate₃⟩ : ∃ c₃,
      (if bytes = 0 ∧ c.connecting = false then markEofRaw c₂ else c₂) = c₃ ∧
        c₃.connecting = c.connecting ∧ c₃.state = c.state := by
    split_ifs
    · exact ⟨_, rfl, hconnecting₂, hstate₂⟩
    · exact ⟨_, rfl, hconnecting₂, hstate₂⟩
  rw [hc₃, hconnecting₃]
  split_ifs with hpolled hclient
  · exact ⟨.listenPipeReady, fun hnone => absurd hclient.1 (by simp [hnone]), rfl⟩
  · exact ⟨c₃.state, fun _ => hstate₃, rfl⟩
  · exact ⟨c₃.state, fun _ => hstate₃, rfl⟩

/-- What a read does. -/
theorem readPacket_eq (ic : Riconv σ) (bytes : ℕ) {c : Connection σ}
    (hbuffer : c.bufferAllocatedSize ≠ 0) :
    (readPacket ic bytes c).2.outline =
      (if c.gain ic bytes = 0 then markEofRaw ((c.received ic bytes).advance (c.gain ic bytes))
        else (c.received ic bytes).advance (c.gain ic bytes)).outline := by
  have hpair : (if (c.arrive bytes).bufferAllocatedSize ≠ 0 ∧ (c.arrive bytes).bufferDataSize > 0 ∧
      (!(c.arrive bytes).rawMode) = true then connectionToUtf8 ic (c.arrive bytes)
      else if (c.arrive bytes).bufferDataSize > 0 then
        ((c.arrive bytes).bufferDataSize, c.arrive bytes)
      else (bytes, c.arrive bytes)) = (c.gain ic bytes, c.received ic bytes) := by
    unfold Connection.gain Connection.received
    show (if c.bufferAllocatedSize ≠ 0 ∧ c.bufferDataSize + bytes > 0 ∧ (!c.rawMode) = true then _
      else if c.bufferDataSize + bytes > 0 then (c.bufferDataSize + bytes, _) else _) = _
    by_cases hnone : c.bufferDataSize + bytes = 0
    · have hbytes : bytes = 0 := by omega
      have hsize : (c.arrive bytes).bufferDataSize = 0 := hnone
      have hzero : (connectionToUtf8 ic (c.arrive bytes)).1 = 0 := by
        unfold connectionToUtf8
        dsimp only
        rw [if_pos (Or.inl hsize)]
      rw [if_neg (by omega), if_neg (by omega), hzero, hnone, if_pos (Or.inr rfl), hbytes, ite_self]
    · cases c.rawMode with
      | true =>
        rw [if_neg (by simp), if_pos (by omega)]
        simp
      | false =>
        have htext : ¬((false : Bool) = true ∨ c.bufferDataSize + bytes = 0) := by
          simpa using hnone
        rw [if_pos ⟨hbuffer, by omega, rfl⟩, if_neg Bool.false_ne_true, if_neg htext]
  unfold readPacket
  dsimp only
  rw [hpair]
  rfl

/-- The end of the file is marked by both, by none, or without any effect. -/
theorem outline_markEofRaw_eq_iff (c : Connection σ) :
    (markEofRaw c).outline = c.outline ↔
      c.isEofRaw = true ∧ (c.isEof = true ∨ c.utf8 ≠ [] ∨ c.bufferDataSize ≠ 0) := by
  have hfields : (markEofRaw c).outline = c.outline ↔ true = c.isEofRaw ∧
      (c.isEof || (c.utf8.isEmpty && decide (c.bufferDataSize = 0))) = c.isEof := by
    unfold Connection.outline markEofRaw Connection.buffer
    rw [Outline.mk.injEq]
    simp only [true_and, and_true]
  rw [hfields]
  cases c.isEofRaw <;> cases c.isEof <;> cases c.utf8 <;> simp

/-- The offset is apart from the end of the file. -/
theorem outline_advance (c : Connection σ) (ended : Prop) [Decidable ended] (n : ℕ) :
    (if ended then markEofRaw (c.advance n) else c.advance n).outline =
      { (if ended then markEofRaw c else c).outline with
        overlappedOffset := c.overlappedOffset + if c.type = .asyncFile then n else 0 } := by
  unfold Connection.advance
  split_ifs <;> rfl

/-- Two numbers, by which a connection goes on to its outline: the offsets are the same, and so is
what is known of the end. -/
theorem outline_advance_eq_iff (c : Connection σ) (n m : ℕ) :
    (if n = 0 then markEofRaw (c.advance n) else c.advance n).outline =
        (if m = 0 then markEofRaw (c.advance m) else c.advance m).outline ↔
      (c.type = .asyncFile → m = n) ∧ ((m = 0 ↔ n = 0) ∨
        c.isEofRaw = true ∧ (c.isEof = true ∨ c.utf8 ≠ [] ∨ c.bufferDataSize ≠ 0)) := by
  have hkeep : ∀ k : ℕ, (if k = 0 then markEofRaw c else c).outline.overlappedOffset =
      c.overlappedOffset := by
    intro k
    split_ifs <;> rfl
  have hsplit : (if n = 0 then markEofRaw (c.advance n) else c.advance n).outline =
        (if m = 0 then markEofRaw (c.advance m) else c.advance m).outline ↔
      (c.type = .asyncFile → m = n) ∧ (if n = 0 then markEofRaw c else c).outline =
        (if m = 0 then markEofRaw c else c).outline := by
    rw [outline_advance, outline_advance]
    have hn := hkeep n
    have hm := hkeep m
    generalize (if n = 0 then markEofRaw c else c).outline = a at hn ⊢
    generalize (if m = 0 then markEofRaw c else c).outline = b at hm ⊢
    obtain ⟨_, _, _, _, _, _, _, _⟩ := a
    obtain ⟨_, _, _, _, _, _, _, _⟩ := b
    dsimp only at hn hm ⊢
    subst hn hm
    simp only [Outline.mk.injEq, true_and, Nat.add_left_cancel_iff]
    by_cases hfile : c.type = .asyncFile
    · simp only [hfile, true_implies]
      tauto
    · simp only [hfile, false_implies]
      tauto
  rw [hsplit]
  refine and_congr_right fun _ => ?_
  rw [← outline_markEofRaw_eq_iff]
  by_cases hn : n = 0 <;> by_cases hm : m = 0
  · simp [hn, hm]
  · simp [hn, hm]
  · simp [hn, hm, eq_comm]
  · simp [hn, hm]

/-- **The two handlers agree** on a packet, whoever takes it, exactly if what both take for granted
is so. -/
theorem handlers_agree_iff (ic : Riconv σ) (polled : Bool) (bytes : ℕ) {c : Connection σ}
    (hbuffer : c.bufferAllocatedSize ≠ 0) :
    (pollPacket ic polled bytes c).2.outline = (readPacket ic bytes c).2.outline ↔
      c.HandledAlike ic bytes := by
  obtain ⟨state, hstate, hpoll⟩ := pollPacket_eq ic polled bytes c
  have hreceived : (c.received ic bytes).connecting = c.connecting ∧
      (c.received ic bytes).state = c.state ∧ (c.received ic bytes).type = c.type ∧
      (c.received ic bytes).isEofRaw = c.isEofRaw ∧ (c.received ic bytes).isEof = c.isEof := by
    obtain ⟨_, _, _, _, _, _, heq⟩ := c.received_converted ic bytes
    rw [heq]
    exact ⟨rfl, rfl, rfl, rfl, rfl⟩
  obtain ⟨hconnecting₁, hstate₁, htype₁, heofRaw₁, heof₁⟩ := hreceived
  have hadvanced : ∀ (ended : Prop) [Decidable ended] (n : ℕ),
      (if ended then markEofRaw ((c.received ic bytes).advance n)
        else (c.received ic bytes).advance n).outline.connecting = c.connecting ∧
      (if ended then markEofRaw ((c.received ic bytes).advance n)
        else (c.received ic bytes).advance n).outline.state = c.state := by
    intro ended _ n
    rw [outline_advance]
    split_ifs <;> exact ⟨hconnecting₁, hstate₁⟩
  rw [hpoll, readPacket_eq ic bytes hbuffer]
  cases hconnecting : c.connecting with
  | true =>
    refine iff_of_false (fun heq => ?_) fun h => ?_
    · have hread := congrArg Outline.connecting heq
      rw [(hadvanced _ _).1, hconnecting] at hread
      cases hread
    · have hnone := h.connecting
      rw [hconnecting] at hnone
      cases hnone
  | false =>
    have hsame : ({ (if bytes = 0 ∧ false = false then
        markEofRaw ((c.received ic bytes).advance bytes) else (c.received ic bytes).advance bytes)
          with state := state, connecting := false } : Connection σ).outline =
        (if bytes = 0 then markEofRaw ((c.received ic bytes).advance bytes)
          else (c.received ic bytes).advance bytes).outline := by
      have hfields := hadvanced (bytes = 0) bytes
      simp only [and_true]
      generalize (if bytes = 0 then markEofRaw ((c.received ic bytes).advance bytes)
        else (c.received ic bytes).advance bytes) = c₂ at hfields ⊢
      rw [hconnecting, ← hstate hconnecting] at hfields
      obtain ⟨hc, hs⟩ := hfields
      show Outline.mk _ false _ _ _ _ _ state = _
      rw [← hc, ← hs]
      rfl
    rw [hsame, outline_advance_eq_iff, htype₁, heofRaw₁, heof₁]
    constructor
    · exact fun ⟨hoffset, hended⟩ => ⟨hconnecting, hoffset, hended⟩
    · exact fun h => ⟨h.offset, h.ended⟩

/-- Whole characters for a pipe in text mode. -/
theorem handlers_agree_text :
    let c : Connection Unit := { handle := 1, bufferAllocatedSize := 4, utf8AllocatedSize := 4
                                 readPending := true, memory := fun _ => 97 }
    (pollPacket utf8Riconv true 2 c).2.outline = (readPacket utf8Riconv 2 c).2.outline :=
  (handlers_agree_iff utf8Riconv true 2 (by decide)).mpr
    ⟨rfl, by decide, Or.inl (by decide +kernel)⟩

/-- Half of a character comes. For a poll it waits for the other half; for a read it is the end of
the file. -/
theorem handlers_disagree : ¬∀ (ic : Riconv Unit) (polled : Bool) (bytes : ℕ) (c : Connection Unit),
    c.bufferAllocatedSize ≠ 0 →
      (pollPacket ic polled bytes c).2.outline = (readPacket ic bytes c).2.outline := by
  intro h
  have heq := h utf8Riconv true 1
    { handle := 1, bufferAllocatedSize := 4, utf8AllocatedSize := 4, readPending := true
      memory := fun _ => 0xc3 } (by decide)
  revert heq
  decide +kernel

end Processx.Win
