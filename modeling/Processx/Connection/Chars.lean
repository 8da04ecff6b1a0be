import Processx.Connection.Reading
import Processx.Connection.Utf8

/-!
# Reading characters

Any mix of `processx_connection_read_chars()`, `processx_c_connection_read_chars()`
and polling hands out the decoding of the whole stream: nothing is lost, repeated
or reordered, wherever the operating system cut the stream and whatever the sizes
asked for were.
-/

namespace Processx

open Incremental

variable {σ : Type} {ic : Riconv σ} {d : Decoder σ UInt8 UInt8}

/-- A call on a connection that is read by characters. -/
inductive CharOp
  | readChars (nchars : ℤ)
  | cReadChars (nbyte : ℕ)
  | poll
  deriving DecidableEq

/-- One call: what it returns or throws, and the state it leaves. -/
def CharOp.run (ic : Riconv σ) (op : CharOp) (ccon : Connection σ) (os : Os) :
    Except String Bytes × Connection σ × Os :=
  match op with
  | .readChars nchars => connectionReadChars ic ccon os nchars
  | .cReadChars nbyte => cConnectionReadChars ic ccon os nbyte
  | .poll => (.ok [], (prePollConnection ic ccon).2, os)

/-- A connection, the operating system, and all that was returned so far. -/
structure CharReader (σ : Type) where
  returned : Bytes
  ccon : Connection σ
  os : Os

/-- A call appends what it returns; a call that throws returns nothing. -/
def CharReader.step (ic : Riconv σ) (s : CharReader σ) (op : CharOp) : CharReader σ :=
  match op.run ic s.ccon s.os with
  | (.ok chars, ccon, os) => ⟨s.returned ++ chars, ccon, os⟩
  | (.error _, ccon, os) => ⟨s.returned, ccon, os⟩

/-- A sequence of calls on a fresh connection. -/
def CharReader.run (ic : Riconv σ) (osHandle : ℤ) (os : Os) (ops : List CharOp) : CharReader σ :=
  ops.foldl (CharReader.step ic) ⟨[], cConnectionCreate osHandle, os⟩

/-- The scanner never finds more bytes than there are. -/
theorem findUtf8CharsFrom_bytes_le {fuel : ℕ} {ptr : Bytes} {maxchars maxbytes : ℤ}
    {chars bytes : ℕ} {found : ℕ × ℕ}
    (h : findUtf8CharsFrom fuel ptr maxchars maxbytes chars bytes = .ok found) :
    found.2 ≤ bytes + ptr.length := by
  induction fuel generalizing ptr maxchars maxbytes chars bytes with
  | zero =>
    have heq : (chars, bytes) = found := Except.ok.inj h
    rw [← heq]
    exact Nat.le_add_right _ _
  | succ fuel ih =>
    have hhere : (chars, bytes) = found → found.2 ≤ bytes + ptr.length := by
      intro heq
      rw [← heq]
      exact Nat.le_add_right _ _
    rw [findUtf8CharsFrom.eq_def] at h
    dsimp only at h
    by_cases hlimit : maxchars = 0 ∨ maxbytes = 0
    · rw [if_pos hlimit] at h
      exact hhere (Except.ok.inj h)
    rw [if_neg hlimit] at h
    cases ptr with
    | nil => exact hhere (Except.ok.inj h)
    | cons c rest =>
      simp only at h
      by_cases hascii : c < 128
      · rw [if_pos hascii] at h
        have hle := ih h
        rw [List.length_drop, List.length_cons] at hle
        rw [List.length_cons]
        omega
      rw [if_neg hascii] at h
      by_cases hlead : c < 0xc0 ∨ c ≥ 0xfe
      · rw [if_pos hlead] at h
        cases h
      rw [if_neg hlead] at h
      by_cases hshort : (c :: rest).length < utf8Length c
      · rw [if_pos hshort] at h
        cases h
      rw [if_neg hshort] at h
      by_cases hroom : maxbytes > 0 ∧ (utf8Length c : ℤ) > maxbytes
      · rw [if_pos hroom] at h
        exact hhere (Except.ok.inj h)
      · rw [if_neg hroom] at h
        have hle := ih h
        rw [List.length_drop] at hle
        omega

/-- Finding characters moves text along, and what it finds is in the UTF-8 buffer. -/
theorem connectionFindChars_moves (hic : ic.Follows d) {ccon : Connection σ} {os : Os}
    (h : Sound ccon os) (maxchars maxbytes : ℤ) :
    ∃ newBytes, Moves ic d ccon os newBytes (connectionFindChars ic ccon os maxchars maxbytes).2.1
        (connectionFindChars ic ccon os maxchars maxbytes).2.2 ∧
      ∀ bytes, (connectionFindChars ic ccon os maxchars maxbytes).1 = .ok bytes →
        bytes ≤ (connectionFindChars ic ccon os maxchars maxbytes).2.1.utf8.length := by
  unfold connectionFindChars
  cases checkValidConn ccon with
  | error msg => exact ⟨0, Moves.refl h, by simp⟩
  | ok _ =>
    obtain ⟨newBytes, hmoves⟩ : ∃ newBytes, Moves ic d ccon os newBytes
        (if (!ccon.isEof) = true ∧ ccon.utf8.length = 0 then connectionRead ic ccon os
          else (.ok 0, ccon, os)).2.1
        (if (!ccon.isEof) = true ∧ ccon.utf8.length = 0 then connectionRead ic ccon os
          else (.ok 0, ccon, os)).2.2 := by
      by_cases hread : (!ccon.isEof) = true ∧ ccon.utf8.length = 0
      · rw [if_pos hread]
        obtain ⟨newBytes, hmoves, _⟩ := connectionRead_moves hic h
        exact ⟨newBytes, hmoves⟩
      · rw [if_neg hread]
        exact ⟨0, Moves.refl h⟩
    dsimp only
    generalize (if (!ccon.isEof) = true ∧ ccon.utf8.length = 0 then connectionRead ic ccon os
      else (.ok 0, ccon, os)) = answer at hmoves ⊢
    obtain ⟨result, ccon', os'⟩ := answer
    cases result with
    | error msg => exact ⟨newBytes, hmoves, by simp⟩
    | ok n =>
      dsimp only
      by_cases hnone : ccon'.utf8.length = 0 ∨ maxchars = 0
      · rw [if_pos hnone]
        refine ⟨newBytes, hmoves, fun bytes hbytes => ?_⟩
        have hzero : 0 = bytes := Except.ok.inj hbytes
        rw [← hzero]
        exact Nat.zero_le _
      · rw [if_neg hnone]
        refine ⟨newBytes, hmoves, fun bytes hbytes => ?_⟩
        dsimp only at hbytes
        cases hfound : connectionFindUtf8Chars ccon' maxchars maxbytes with
        | error msg => simp [hfound, Except.map] at hbytes
        | ok found =>
          have heq : found.2 = bytes := by simpa [hfound, Except.map] using hbytes
          have hle := findUtf8CharsFrom_bytes_le hfound
          dsimp only
          omega

/-- Taking bytes off the front of the UTF-8 buffer takes them off the pending text. -/
theorem take_append_pendingText_dropUtf8 (ic : Riconv σ) (d : Decoder σ UInt8 UInt8)
    (ccon : Connection σ) (os : Os) (bytes : ℕ) :
    ccon.utf8.take bytes ++ pendingText ic d (dropUtf8 ccon bytes) os =
      pendingText ic d ccon os := by
  simp only [pendingText, dropUtf8, Riconv.ctx]
  rw [← List.append_assoc, List.take_append_drop]

/-- The invariant of a reader: what was returned and what can still be read make up
the text, and the UTF-8 buffer has its first size. -/
structure CharReader.Keeps (ic : Riconv σ) (d : Decoder σ UInt8 UInt8) (text : Bytes)
    (s : CharReader σ) : Prop where
  sound : Sound s.ccon s.os
  size : s.ccon.utf8AllocatedSize ≤ 64 * 1024
  text : s.returned ++ pendingText ic d s.ccon s.os = text

/-- Moving text along keeps the invariant. -/
theorem CharReader.Keeps.of_moves {text returned : Bytes} {ccon ccon' : Connection σ} {os os' : Os}
    {newBytes : ℕ} (h : CharReader.Keeps ic d text ⟨returned, ccon, os⟩)
    (hmoves : Moves ic d ccon os newBytes ccon' os') :
    CharReader.Keeps ic d text ⟨returned, ccon', os'⟩ := by
  refine ⟨hmoves.sound, ?_, ?_⟩
  · have hsize := h.size
    have hroom := hmoves.room
    dsimp only at hsize ⊢
    omega
  · have htext := h.text
    rw [← hmoves.text] at htext
    exact htext

/-- Returning the front of the UTF-8 buffer keeps the invariant. -/
theorem CharReader.Keeps.take {text returned : Bytes} {ccon : Connection σ} {os : Os}
    (h : CharReader.Keeps ic d text ⟨returned, ccon, os⟩) (bytes : ℕ) :
    CharReader.Keeps ic d text ⟨returned ++ ccon.utf8.take bytes, dropUtf8 ccon bytes, os⟩ := by
  refine ⟨h.sound.dropUtf8 bytes, h.size, ?_⟩
  have htext := h.text
  rwa [← take_append_pendingText_dropUtf8 ic d ccon os bytes, ← List.append_assoc] at htext

/-- **One call.** Every call keeps the invariant, whether it returns or throws. -/
theorem CharReader.Keeps.step (hic : ic.Follows d) {text : Bytes} {s : CharReader σ}
    (h : s.Keeps ic d text) (op : CharOp) : (s.step ic op).Keeps ic d text := by
  obtain ⟨returned, ccon, os⟩ := s
  unfold CharReader.step CharOp.run
  cases op with
  | poll =>
    obtain ⟨newBytes, hmoves⟩ := prePollConnection_moves hic h.sound
    simpa using h.of_moves hmoves
  | readChars nchars =>
    obtain ⟨newBytes, hmoves, hbytes⟩ := connectionFindChars_moves hic h.sound nchars (-1)
    dsimp only [connectionReadChars]
    generalize connectionFindChars ic ccon os nchars (-1) = answer at hmoves hbytes ⊢
    obtain ⟨result, ccon', os'⟩ := answer
    have hkeeps := h.of_moves hmoves
    cases result with
    | error msg => exact hkeeps
    | ok utf8Bytes =>
      -- the buffer is never enlarged here, so the cast to `int` keeps the length
      have hle : utf8Bytes ≤ 64 * 1024 :=
        le_trans (hbytes utf8Bytes rfl) (le_trans hkeeps.sound.utf8_le hkeeps.size)
      have htake := hkeeps.take utf8Bytes
      cases hmk : mkCharLenCE ccon'.utf8 (toInt utf8Bytes) with
      | error msg => simpa only [hmk] using hkeeps
      | ok chars =>
        rw [← eq_take_of_mkCharLenCE (by omega) hmk] at htake
        simpa only [hmk] using htake
  | cReadChars nbyte =>
    dsimp only [cConnectionReadChars]
    by_cases hsmall : nbyte < 4
    · simpa only [if_pos hsmall] using h
    · simp only [if_neg hsmall]
      obtain ⟨newBytes, hmoves, _⟩ := connectionFindChars_moves hic h.sound (-1) nbyte
      generalize connectionFindChars ic ccon os (-1) nbyte = answer at hmoves ⊢
      obtain ⟨result, ccon', os'⟩ := answer
      have hkeeps := h.of_moves hmoves
      cases result with
      | error msg => exact hkeeps
      | ok utf8Bytes => exact hkeeps.take utf8Bytes

/-- A fresh connection has everything still to read. -/
theorem CharReader.keeps_create {os : Os} (hos : os.WellFormed) (osHandle : ℤ) :
    CharReader.Keeps ic d (d.decode ic.open_ os.stream) ⟨[], cConnectionCreate osHandle, os⟩ := by
  refine ⟨⟨hos, rfl, le_refl _, le_refl _, fun _ => rfl, ?_, ?_⟩, by simp [cConnectionCreate], ?_⟩
  · simp [cConnectionCreate]
  · simp [cConnectionCreate]
  · simp [pendingText, cConnectionCreate, Riconv.ctx]

/-- Every sequence of calls keeps the invariant. -/
theorem CharReader.keeps_run (hic : ic.Follows d) {os : Os} (hos : os.WellFormed) (osHandle : ℤ)
    (ops : List CharOp) :
    (CharReader.run ic osHandle os ops).Keeps ic d (d.decode ic.open_ os.stream) := by
  suffices hfold : ∀ s : CharReader σ, s.Keeps ic d (d.decode ic.open_ os.stream) →
      (ops.foldl (CharReader.step ic) s).Keeps ic d (d.decode ic.open_ os.stream) from
    hfold _ (CharReader.keeps_create hos osHandle)
  induction ops with
  | nil => exact fun s hs => hs
  | cons op ops ih => exact fun s hs => ih _ (hs.step hic op)

/-- **Character reading is lossless.** What any sequence of character reads and polls
has returned is a prefix of the decoding of the whole stream, with invalid bytes
skipped and an incomplete final character dropped; `is_eof_` is set only after the
operating system has reported the end and all of it was returned. -/
theorem charReader_lossless (hic : ic.Follows d) {os : Os} (hos : os.WellFormed) (osHandle : ℤ)
    (ops : List CharOp) :
    (CharReader.run ic osHandle os ops).returned <+: d.decode ic.open_ os.stream ∧
      ((CharReader.run ic osHandle os ops).ccon.isEof = true →
        (CharReader.run ic osHandle os ops).os.eofReported = true ∧
          (CharReader.run ic osHandle os ops).returned = d.decode ic.open_ os.stream) := by
  have h := CharReader.keeps_run hic hos osHandle ops
  refine ⟨⟨_, h.text⟩, fun heof => ?_⟩
  obtain ⟨hraw, hbuffer, hutf8⟩ := h.sound.eof heof
  have hreported := h.sound.eofRaw hraw
  refine ⟨hreported, ?_⟩
  have htext := h.text
  rwa [pendingText, hutf8, hbuffer, h.sound.wellFormed.stream_eq_nil hreported, List.append_nil,
    Decoder.decode_nil, List.append_nil, List.append_nil] at htext

/-- A euro sign cut in two by the operating system and a stray byte before a hangup. -/
theorem charReader_lossless_euro :
    let os : Os := ⟨[.data [0xe2], .eagain, .data [0x82, 0xac, 0xff], .eio], false⟩
    let ops : List CharOp := [.readChars 1, .poll, .readChars (-1), .cReadChars 4, .poll,
      .readChars 1]
    utf8Riconv.Follows utf8Decoder ∧ os.WellFormed ∧
      (CharReader.run utf8Riconv 3 os ops).returned <+:
        utf8Decoder.decode utf8Riconv.open_ os.stream ∧
      ((CharReader.run utf8Riconv 3 os ops).ccon.isEof = true →
        (CharReader.run utf8Riconv 3 os ops).os.eofReported = true ∧
          (CharReader.run utf8Riconv 3 os ops).returned =
            utf8Decoder.decode utf8Riconv.open_ os.stream) ∧
      (CharReader.run utf8Riconv 3 os ops).ccon.isEof = true ∧
      (CharReader.run utf8Riconv 3 os ops).returned = [0xe2, 0x82, 0xac] := by
  have hos : Os.WellFormed ⟨[.data [0xe2], .eagain, .data [0x82, 0xac, 0xff], .eio], false⟩ := by
    decide
  obtain ⟨hreturned, hend⟩ := charReader_lossless utf8Riconv_follows hos 3
    [.readChars 1, .poll, .readChars (-1), .cReadChars 4, .poll, .readChars 1]
  exact ⟨utf8Riconv_follows, hos, hreturned, hend, by decide, by decide⟩

end Processx
