import Processx.Connection.Reading
import Processx.Connection.Utf8

/-!
# Raw reads

A connection that is read by `processx_connection_read_bytes()` hands out the bytes of the
stream as they are. It shares its buffers and the poll hook with the text reads, but what the
raw buffer holds is never converted: before the first raw read both buffers are empty, and
after it the connection is in raw mode.
-/

namespace Processx

variable {σ : Type} {ic : Riconv σ}

/-- `processx_c_connection_create()` with the name of an encoding. -/
def cConnectionCreateEncoding (osHandle : ℤ) (encoding : String) : Connection σ :=
  { cConnectionCreate osHandle with rawMode := decide (encoding = "binary") }

/-- `processx_connection_read_bytes()`. -/
def connectionReadBytes (ic : Riconv σ) (ccon : Connection σ) (os : Os) (nbytes : ℤ) :
    Except String Bytes × Connection σ × Os :=
  match checkValidConn ccon with
  | .error msg => (.error msg, ccon, os)
  | .ok () =>
    let ccon := { ccon with rawMode := true }
    match if ccon.buffer.length = 0 ∧ !ccon.isEofRaw then connectionRead ic ccon os
      else (.ok 0, ccon, os) with
    | (.error msg, ccon, os) => (.error msg, ccon, os)
    | (.ok _, ccon, os) =>
      let ccon :=
        if ccon.isEofRaw ∧ ccon.buffer.length = 0 then { ccon with isEof := true } else ccon
      let toRead := if nbytes ≥ 0 ∧ nbytes < ccon.buffer.length then nbytes.toNat
        else ccon.buffer.length
      (.ok (ccon.buffer.take toRead), { ccon with buffer := ccon.buffer.drop toRead }, os)

/-- A call on a connection that is read as raw bytes. -/
inductive RawOp
  | readBytes (nbytes : ℤ)
  | poll
  deriving DecidableEq

/-- A connection, the operating system, and the raw vectors returned so far, each with the
number of bytes that was asked for. -/
structure RawReader (σ : Type) where
  returned : List (ℤ × Bytes)
  ccon : Connection σ
  os : Os

/-- All the bytes that were returned. -/
def RawReader.bytes (s : RawReader σ) : Bytes := s.returned.flatMap Prod.snd

/-- One call. A call that throws returns nothing. -/
def RawReader.step (ic : Riconv σ) (s : RawReader σ) (op : RawOp) : RawReader σ :=
  match op with
  | .poll => { s with ccon := (prePollConnection ic s.ccon).2 }
  | .readBytes nbytes =>
    match connectionReadBytes ic s.ccon s.os nbytes with
    | (.ok bytes, ccon, os) => ⟨s.returned ++ [(nbytes, bytes)], ccon, os⟩
    | (.error _, ccon, os) => ⟨s.returned, ccon, os⟩

/-- A sequence of calls on a fresh connection. -/
def RawReader.run (ic : Riconv σ) (osHandle : ℤ) (encoding : String) (os : Os) (ops : List RawOp) :
    RawReader σ :=
  ops.foldl (RawReader.step ic) ⟨[], cConnectionCreateEncoding osHandle encoding, os⟩

/-- The states of a connection that is read as raw bytes: nothing was ever converted, and
before the connection is in raw mode, nothing was read. -/
structure Untouched (ccon : Connection σ) (os : Os) : Prop where
  wellFormed : os.WellFormed
  utf8 : ccon.utf8 = []
  textMode : ccon.rawMode = false → ccon.buffer = []
  eofRaw : ccon.isEofRaw = true → os.eofReported = true
  eof : ccon.isEof = true → ccon.isEofRaw = true ∧ ccon.buffer = []

/-- A poll changes nothing. -/
theorem prePollConnection_untouched (ic : Riconv σ) {ccon : Connection σ} {os : Os}
    (h : Untouched ccon os) :
    (prePollConnection ic ccon).2 = ccon := by
  unfold prePollConnection
  by_cases hclosed : ccon.isClosed = true
  · rw [if_pos hclosed]
  rw [if_neg hclosed]
  by_cases heof : ccon.isEof = true
  · rw [if_pos heof]
  rw [if_neg heof]
  by_cases hraw : ccon.rawMode = true
  · rw [if_pos hraw]
    split <;> rfl
  · have hnil := h.textMode (by simpa using hraw)
    rw [if_neg hraw, h.utf8, hnil]
    rfl

/-- A read into the empty raw buffer puts the next bytes of the stream there. -/
theorem connectionRead_untouched (ic : Riconv σ) {ccon : Connection σ} {os : Os}
    (h : Untouched ccon os) (hraw : ccon.rawMode = true) (hempty : ccon.buffer = [])
    (hopen : ccon.isEofRaw = false) :
    Untouched (connectionRead ic ccon os).2.1 (connectionRead ic ccon os).2.2 ∧
      (connectionRead ic ccon os).2.1.rawMode = true ∧
      (connectionRead ic ccon os).2.1.buffer ++ (connectionRead ic ccon os).2.2.stream =
        os.stream := by
  obtain ⟨ccon₁, hccon₁, hsize, hsame⟩ : ∃ ccon₁,
      (if ccon.bufferAllocatedSize = 0 then connectionAlloc ccon else ccon) = ccon₁ ∧
        0 < ccon₁.bufferAllocatedSize ∧ ccon₁.rawMode = true ∧ ccon₁.buffer = [] ∧
        ccon₁.utf8 = [] ∧ ccon₁.isEofRaw = false ∧ ccon₁.isEof = ccon.isEof := by
    by_cases hnone : ccon.bufferAllocatedSize = 0
    · exact ⟨_, if_pos hnone, by simp [connectionAlloc], hraw, rfl, rfl, hopen, rfl⟩
    · exact ⟨_, if_neg hnone, Nat.pos_of_ne_zero hnone, hraw, hempty, h.utf8, hopen, rfl⟩
  obtain ⟨hraw₁, hbuffer₁, hutf8₁, hopen₁, heof₁⟩ := hsame
  have hnotEof : ccon.isEof = false := by
    by_contra hset
    have hend := (h.eof (by simpa using hset)).1
    rw [hopen] at hend
    cases hend
  have hconvert : ∀ c : Connection σ, c.rawMode = true → convertNew ic c =
    (c.buffer.length, c) := by
    intro c hc
    unfold convertNew
    rw [if_neg (by simp [hc])]
  unfold connectionRead
  rw [if_neg (by simp [hopen]), hccon₁]
  dsimp only
  rw [if_neg (by rw [hbuffer₁]; simpa using Nat.pos_iff_ne_zero.mp hsize)]
  have hroom : 0 < ccon₁.bufferAllocatedSize - ccon₁.buffer.length := by
    rw [hbuffer₁]
    exact hsize
  have hread := Os.read_spec h.wellFormed hroom
  generalize os.read (ccon₁.bufferAllocatedSize - ccon₁.buffer.length) = answer at hread ⊢
  obtain ⟨result, os'⟩ := answer
  have hmark : os'.eofReported = true → Untouched (markEofRaw ccon₁) os' := by
    intro hreported
    refine ⟨hread.wellFormed, hutf8₁, fun hset => ?_, fun _ => hreported, fun _ => ⟨rfl, hbuffer₁⟩⟩
    have hmode : ccon₁.rawMode = false := hset
    rw [hraw₁] at hmode
    cases hmode
  have hopenOnly : ∀ bytes, Untouched { ccon₁ with buffer := bytes } os' := by
    refine fun bytes => ⟨hread.wellFormed, hutf8₁, fun hset => ?_, fun hset => ?_, fun hset => ?_⟩
    · have hmode : ccon₁.rawMode = false := hset
      rw [hraw₁] at hmode
      cases hmode
    · have hend : ccon₁.isEofRaw = true := hset
      rw [hopen₁] at hend
      cases hend
    · have hend : ccon₁.isEof = true := hset
      rw [heof₁, hnotEof] at hend
      cases hend
  cases result with
  | bytes bytes =>
    obtain ⟨hstream, _⟩ := hread.bytes bytes rfl
    dsimp only
    by_cases hnil : bytes.length = 0
    · obtain rfl := List.length_eq_zero_iff.mp hnil
      simp only [List.length_nil, if_true, List.append_nil]
      rw [hconvert (markEofRaw ccon₁) hraw₁]
      exact ⟨hmark (hread.eof (Or.inl rfl)), hraw₁, by rw [hstream]; simp [markEofRaw, hbuffer₁]⟩
    · rw [if_neg hnil, hconvert { ccon₁ with buffer := ccon₁.buffer ++ bytes } hraw₁]
      exact ⟨hopenOnly _, hraw₁, by rw [hstream, hbuffer₁, List.nil_append]⟩
  | eagain =>
    have hstream := hread.other (by simp)
    dsimp only
    rw [hconvert _ hraw₁]
    exact ⟨hopenOnly _, hraw₁, by rw [hstream, hbuffer₁, List.nil_append]⟩
  | eio =>
    have hstream := hread.other (by simp)
    dsimp only
    rw [hconvert (markEofRaw ccon₁) hraw₁]
    exact ⟨hmark (hread.eof (Or.inr rfl)), hraw₁,
      by rw [hstream]; simp [markEofRaw, hbuffer₁]⟩
  | error =>
    have hstream := hread.other (by simp)
    exact ⟨hopenOnly _, hraw₁, by rw [hstream, hbuffer₁, List.nil_append]⟩

/-- The invariant of a raw reader: what was returned, what is in the raw buffer and what the
operating system still has make up the stream. -/
structure RawReader.Keeps (stream : Bytes) (s : RawReader σ) : Prop where
  untouched : Untouched s.ccon s.os
  stream : s.bytes ++ (s.ccon.buffer ++ s.os.stream) = stream
  atMost : ∀ call ∈ s.returned, 0 ≤ call.1 → (call.2.length : ℤ) ≤ call.1

/-- Taking bytes from the front of the raw buffer. -/
theorem RawReader.Keeps.take {stream : Bytes} {returned : List (ℤ × Bytes)} {ccon : Connection σ}
    {os : Os} (h : RawReader.Keeps stream ⟨returned, ccon, os⟩) (hraw : ccon.rawMode = true)
    {nbytes : ℤ} {toRead : ℕ} (hat : 0 ≤ nbytes → (toRead : ℤ) ≤ nbytes) :
    RawReader.Keeps stream ⟨returned ++ [(nbytes, ccon.buffer.take toRead)],
      { ccon with buffer := ccon.buffer.drop toRead }, os⟩ := by
  obtain ⟨⟨hwf, hutf8, htext, heofRaw, heof⟩, hstream, hatMost⟩ := h
  refine ⟨⟨hwf, hutf8, fun hset => ?_, heofRaw, fun hset => ⟨(heof hset).1, ?_⟩⟩, ?_, ?_⟩
  · have hmode : ccon.rawMode = false := hset
    rw [hraw] at hmode
    cases hmode
  · have hnil : ccon.buffer = [] := (heof hset).2
    simp [hnil]
  · rw [← hstream]
    simp only [RawReader.bytes, List.flatMap_append, List.flatMap_singleton, List.append_assoc]
    rw [← List.append_assoc (ccon.buffer.take toRead), List.take_append_drop]
  · intro call hcall hpos
    rcases List.mem_append.mp hcall with hcall | hcall
    · exact hatMost call hcall hpos
    · obtain rfl := List.mem_singleton.mp hcall
      have hle := hat hpos
      simp only [List.length_take] at hle ⊢
      omega

/-- **One call.** Every call keeps the invariant, whether it returns or throws. -/
theorem RawReader.Keeps.step {stream : Bytes} {s : RawReader σ} (h : s.Keeps stream) (op : RawOp) :
    (s.step ic op).Keeps stream := by
  obtain ⟨returned, ccon, os⟩ := s
  obtain ⟨huntouched, hstream, hatMost⟩ := h
  cases op with
  | poll =>
    have hsame := prePollConnection_untouched ic huntouched
    dsimp only [RawReader.step]
    rw [hsame]
    exact ⟨huntouched, hstream, hatMost⟩
  | readBytes nbytes =>
    unfold RawReader.step connectionReadBytes
    dsimp only
    cases checkValidConn ccon with
    | error msg => exact ⟨huntouched, hstream, hatMost⟩
    | ok _ =>
      dsimp only
      obtain ⟨hwf, hutf8, htext, heofRaw, heof⟩ := huntouched
      have hswitched : Untouched { ccon with rawMode := true } os :=
        ⟨hwf, hutf8, nofun, heofRaw, heof⟩
      obtain ⟨result, ccon₁, os₁, hread, huntouched₁, hraw₁, hstream₁⟩ :
          ∃ result ccon₁ os₁, (if ccon.buffer.length = 0 ∧ (!ccon.isEofRaw) = true then
              connectionRead ic { ccon with rawMode := true } os
            else (.ok 0, { ccon with rawMode := true }, os)) = (result, ccon₁, os₁) ∧
            Untouched ccon₁ os₁ ∧ ccon₁.rawMode = true ∧
            ccon₁.buffer ++ os₁.stream = ccon.buffer ++ os.stream := by
        by_cases hmore : ccon.buffer.length = 0 ∧ (!ccon.isEofRaw) = true
        · obtain ⟨hlength, hopen⟩ := hmore
          have hnil := List.length_eq_zero_iff.mp hlength
          obtain ⟨h₁, h₂, h₃⟩ := connectionRead_untouched ic hswitched rfl hnil
            (by simpa using hopen)
          generalize connectionRead ic { ccon with rawMode := true } os = answer at h₁ h₂ h₃
          obtain ⟨result, ccon₁, os₁⟩ := answer
          refine ⟨result, ccon₁, os₁, if_pos ⟨hlength, hopen⟩, h₁, h₂, ?_⟩
          rw [hnil]
          exact h₃
        · exact ⟨_, _, _, if_neg hmore, hswitched, rfl, rfl⟩
      rw [hread]
      have hkeeps : RawReader.Keeps stream ⟨returned, ccon₁, os₁⟩ := by
        refine ⟨huntouched₁, ?_, hatMost⟩
        rw [← hstream]
        exact congrArg (_ ++ ·) hstream₁
      cases result with
      | error msg => exact hkeeps
      | ok n =>
        dsimp only
        obtain ⟨ccon₂, hccon₂, hkeeps₂, hraw₂⟩ : ∃ ccon₂,
            (if ccon₁.isEofRaw = true ∧ ccon₁.buffer.length = 0 then { ccon₁ with isEof := true }
              else ccon₁) = ccon₂ ∧ RawReader.Keeps stream ⟨returned, ccon₂, os₁⟩ ∧
              ccon₂.rawMode = true := by
          by_cases hend : ccon₁.isEofRaw = true ∧ ccon₁.buffer.length = 0
          · refine ⟨_, if_pos hend, ⟨?_, hkeeps.stream, hatMost⟩, hraw₁⟩
            obtain ⟨hwf₁, hutf8₁, htext₁, heofRaw₁, _⟩ := huntouched₁
            exact ⟨hwf₁, hutf8₁, htext₁, heofRaw₁,
              fun _ => ⟨hend.1, List.length_eq_zero_iff.mp hend.2⟩⟩
          · exact ⟨_, if_neg hend, hkeeps, hraw₁⟩
        rw [hccon₂]
        refine hkeeps₂.take hraw₂ fun hpos => ?_
        split <;> omega

/-- A fresh connection has the whole stream still to read. -/
theorem RawReader.keeps_create (osHandle : ℤ) (encoding : String) {os : Os} (hos : os.WellFormed) :
    RawReader.Keeps os.stream (σ := σ) ⟨[], cConnectionCreateEncoding osHandle encoding, os⟩ :=
  ⟨⟨hos, rfl, fun _ => rfl, nofun, nofun⟩, rfl, nofun⟩

/-- Every sequence of calls keeps the invariant. -/
theorem RawReader.keeps_run (ic : Riconv σ) (osHandle : ℤ) (encoding : String) {os : Os}
    (hos : os.WellFormed) (ops : List RawOp) :
    (RawReader.run ic osHandle encoding os ops).Keeps os.stream := by
  suffices hfold : ∀ s : RawReader σ, s.Keeps os.stream →
      (ops.foldl (RawReader.step ic) s).Keeps os.stream from
    hfold _ (RawReader.keeps_create osHandle encoding hos)
  induction ops with
  | nil => exact fun s hs => hs
  | cons op ops ih => exact fun s hs => ih _ (hs.step op)

/-- **Raw reads preserve every byte.** What any sequence of raw reads and polls has returned is
a prefix of the stream, with any encoding; no call returns more bytes than it was asked for;
and `is_eof_` is set only after the operating system has reported the end and every byte was
returned. -/
theorem rawReader_lossless (ic : Riconv σ) (osHandle : ℤ) (encoding : String) {os : Os}
    (hos : os.WellFormed) (ops : List RawOp) :
    (RawReader.run ic osHandle encoding os ops).bytes <+: os.stream ∧
      (∀ call ∈ (RawReader.run ic osHandle encoding os ops).returned, 0 ≤ call.1 →
        (call.2.length : ℤ) ≤ call.1) ∧
      ((RawReader.run ic osHandle encoding os ops).ccon.isEof = true →
        (RawReader.run ic osHandle encoding os ops).os.eofReported = true ∧
          (RawReader.run ic osHandle encoding os ops).bytes = os.stream) := by
  have h := RawReader.keeps_run ic osHandle encoding hos ops
  refine ⟨⟨_, h.stream⟩, h.atMost, fun heof => ?_⟩
  obtain ⟨hraw, hbuffer⟩ := h.untouched.eof heof
  have hreported := h.untouched.eofRaw hraw
  refine ⟨hreported, ?_⟩
  have hstream := h.stream
  rwa [hbuffer, h.untouched.wellFormed.stream_eq_nil hreported, List.append_nil,
    List.append_nil] at hstream

/-- Bytes that are no text, read from a connection with a text encoding after a poll. -/
theorem rawReader_lossless_nul :
    let os : Os := ⟨[.data [0xff, 0], .eagain, .data [0xe2], .eio], false⟩
    let ops : List RawOp := [.poll, .readBytes 1, .poll, .readBytes (-1), .readBytes 5,
      .readBytes 5, .readBytes 2]
    os.WellFormed ∧ (RawReader.run utf8Riconv 3 "UTF-8" os ops).bytes <+: os.stream ∧
      (∀ call ∈ (RawReader.run utf8Riconv 3 "UTF-8" os ops).returned, 0 ≤ call.1 →
        (call.2.length : ℤ) ≤ call.1) ∧
      ((RawReader.run utf8Riconv 3 "UTF-8" os ops).ccon.isEof = true →
        (RawReader.run utf8Riconv 3 "UTF-8" os ops).os.eofReported = true ∧
          (RawReader.run utf8Riconv 3 "UTF-8" os ops).bytes = os.stream) ∧
      (RawReader.run utf8Riconv 3 "UTF-8" os ops).ccon.isEof = true ∧
      (RawReader.run utf8Riconv 3 "UTF-8" os ops).bytes = [0xff, 0, 0xe2] := by
  have hos : Os.WellFormed ⟨[.data [0xff, 0], .eagain, .data [0xe2], .eio], false⟩ := by decide
  obtain ⟨hreturned, hatMost, hend⟩ := rawReader_lossless utf8Riconv 3 "UTF-8" hos
    [.poll, .readBytes 1, .poll, .readBytes (-1), .readBytes 5, .readBytes 5, .readBytes 2]
  exact ⟨hos, hreturned, hatMost, hend, by decide, by decide⟩

end Processx
