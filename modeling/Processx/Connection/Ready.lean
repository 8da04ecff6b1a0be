import Processx.Connection.Characters

/-!
# Ready before polling

A poll reports a connection as ready without a system call if it is at its end, if its UTF-8
buffer is not empty, or if raw bytes are left although the end of the file was seen. Such bytes
start with a character that did not fit when they were converted, so the next read of characters
gets to it. What is left to go wrong is a string that R refuses, and a failing `read()`.
-/

namespace Processx

open Incremental

variable {σ : Type} {ic : Riconv σ} {d : Decoder σ UInt8 UInt8}

/-- What a decoder yields for one character: whole UTF-8 characters, and eight bytes at most,
which the source counts on. -/
def Yields (d : Decoder σ UInt8 UInt8) : Prop :=
  ∀ st inp len out next, d.head st inp = .char len out next → Whole out ∧ out.length ≤ 8

/-- So what the conversion writes are whole characters. -/
theorem Yields.writesCharacters (hd : Yields d) (hic : ic.Follows d) : ic.WritesCharacters :=
  Riconv.Follows.writesCharacters hic fun st inp len out next hhead =>
    (hd st inp len out next hhead).1

/-- Raw bytes that are left behind the end of the file start with a character, and the UTF-8
buffer has at least its first size. -/
structure Tidy (ic : Riconv σ) (d : Decoder σ UInt8 UInt8) (ccon : Connection σ) : Prop where
  room : ccon.bufferAllocatedSize ≠ 0 → 64 * 1024 ≤ ccon.utf8AllocatedSize
  leftover : ccon.isEofRaw = true → ccon.buffer ≠ [] →
    ∃ len out next, d.head (ic.ctx ccon) ccon.buffer = .char len out next ∧ out ≠ []

/-- At the end of the file, the conversion loop leaves nothing or a character that did not fit. -/
theorem toUtf8Loop_leftover (hic : ic.Follows d) {rounds : ℕ} (st : σ) {inbuf : Bytes}
    (hrounds : inbuf.length ≤ rounds) (room : ℕ) (acc : Bytes)
    (hne : (toUtf8Loop ic true rounds st inbuf room acc).1 ≠ []) :
    ∃ len out next, d.head (toUtf8Loop ic true rounds st inbuf room acc).2.2
      (toUtf8Loop ic true rounds st inbuf room acc).1 = .char len out next ∧ out ≠ [] := by
  induction rounds generalizing st inbuf room acc with
  | zero => exact absurd (List.length_eq_zero_iff.mp (Nat.le_zero.mp hrounds)) hne
  | succ rounds ih =>
    have hconv := d.convert_sound room st inbuf
    have hfull : (d.convert room st inbuf).stop = .full → _ := d.convert_full
    rw [toUtf8Loop, hic st inbuf room] at hne ⊢
    generalize d.convert room st inbuf = c at hconv hfull hne ⊢
    cases hstop : c.stop with
    | done =>
      simp only [hstop] at hne
      rw [hconv.done hstop, List.drop_length] at hne
      exact absurd rfl hne
    | full => exact hfull hstop
    | incomplete =>
      simp only [hstop, if_true] at hne
      exact absurd rfl hne
    | invalid =>
      simp only [hstop] at hne ⊢
      have hpos := List.length_pos_of_ne_nil (Decoder.ne_nil_of_head_invalid (hconv.invalid hstop))
      by_cases hmore : ((inbuf.drop c.consumed).drop 1).length > 0
      · rw [if_pos hmore] at hne ⊢
        refine ih c.next ?_ _ _ hne
        rw [List.length_drop] at hpos
        rw [List.length_drop, List.length_drop]
        omega
      · rw [if_neg hmore] at hne
        exact absurd (List.length_eq_zero_iff.mp (Nat.eq_zero_of_not_pos hmore)) hne

/-- The conversion loop keeps what its first round has written. -/
theorem prefix_toUtf8Loop (ic : Riconv σ) (isEofRaw : Bool) (rounds : ℕ) (st : σ) (inbuf : Bytes)
    (room : ℕ) (acc : Bytes) : acc ++ (ic.run st inbuf room).out <+:
      (toUtf8Loop ic isEofRaw (rounds + 1) st inbuf room acc).2.1 := by
  induction rounds generalizing st inbuf room acc with
  | zero =>
    rw [toUtf8Loop]
    dsimp only
    cases (ic.run st inbuf room).stop with
    | done => exact List.prefix_refl _
    | full => exact List.prefix_refl _
    | incomplete =>
      dsimp only
      split_ifs
      · exact List.prefix_refl _
      · exact List.prefix_refl _
    | invalid =>
      dsimp only
      split_ifs
      · exact List.prefix_refl _
      · exact List.prefix_refl _
  | succ rounds ih =>
    rw [toUtf8Loop]
    dsimp only
    cases (ic.run st inbuf room).stop with
    | done => exact List.prefix_refl _
    | full => exact List.prefix_refl _
    | incomplete =>
      dsimp only
      split_ifs
      · exact List.prefix_refl _
      · exact List.prefix_refl _
    | invalid =>
      dsimp only
      split_ifs
      · exact (List.prefix_append _ _).trans (ih _ _ _ _)
      · exact List.prefix_refl _

/-- A conversion with room leaves a tidy connection. -/
theorem connectionToUtf8_tidy (hic : ic.Follows d) {ccon : Connection σ}
    (hroom : ccon.bufferAllocatedSize ≠ 0 → 64 * 1024 ≤ ccon.utf8AllocatedSize)
    (hfree : ccon.buffer ≠ [] → ccon.utf8.length < ccon.utf8AllocatedSize) :
    Tidy ic d (connectionToUtf8 ic ccon).2 := by
  unfold connectionToUtf8
  dsimp only
  by_cases hnothing : ccon.buffer.length = 0 ∨ ccon.utf8AllocatedSize - ccon.utf8.length = 0
  · rw [if_pos hnothing]
    refine ⟨hroom, fun _ hne => ?_⟩
    have hsome : ccon.buffer ≠ [] := hne
    have hlt := hfree hsome
    have hpos := List.length_pos_of_ne_nil hsome
    omega
  · rw [if_neg hnothing]
    refine ⟨hroom, fun heof hne => ?_⟩
    have heof' : ccon.isEofRaw = true := heof
    rw [heof'] at hne ⊢
    exact toUtf8Loop_leftover hic _ (le_refl _) _ _ hne

/-- A first character that fits gets to the UTF-8 buffer. -/
theorem connectionToUtf8_ne_nil (hic : ic.Follows d) {ccon : Connection σ} {len : ℕ} {out : Bytes}
    {next : σ} (hhead : d.head (ic.ctx ccon) ccon.buffer = .char len out next) (hne : out ≠ [])
    (hfit : out.length ≤ ccon.utf8AllocatedSize - ccon.utf8.length) :
    (connectionToUtf8 ic ccon).2.utf8 ≠ [] := by
  have hlen := d.char_length hhead
  have hpos := List.length_pos_of_ne_nil hne
  have hsome : ¬(ccon.buffer.length = 0 ∨ ccon.utf8AllocatedSize - ccon.utf8.length = 0) := by
    omega
  obtain ⟨n, hn⟩ : ∃ n, ccon.buffer.length = n + 1 := ⟨ccon.buffer.length - 1, by omega⟩
  have hprefix := prefix_toUtf8Loop ic ccon.isEofRaw n (ic.ctx ccon) ccon.buffer
    (ccon.utf8AllocatedSize - ccon.utf8.length) []
  rw [List.nil_append, hic] at hprefix
  have hout := (d.convert_out_prefix hhead hfit).trans hprefix
  unfold connectionToUtf8
  dsimp only
  rw [if_neg hsome, hn]
  intro hnil
  rw [Riconv.ctx] at hout
  rw [(List.append_eq_nil_iff.mp hnil).2] at hout
  exact hne (List.prefix_nil.mp hout)

/-- So does the conversion at the end of a read. -/
theorem convertNew_tidy (hic : ic.Follows d) {ccon : Connection σ}
    (htext : ccon.rawMode = false)
    (hroom : ccon.bufferAllocatedSize ≠ 0 → 64 * 1024 ≤ ccon.utf8AllocatedSize)
    (hfree : ccon.buffer ≠ [] → ccon.utf8.length < ccon.utf8AllocatedSize) :
    Tidy ic d (convertNew ic ccon).2 := by
  unfold convertNew
  by_cases hconv : !ccon.rawMode ∧ ccon.buffer.length > 0
  · rw [if_pos hconv]
    exact connectionToUtf8_tidy hic hroom hfree
  · rw [if_neg hconv]
    refine ⟨hroom, fun _ hne => ?_⟩
    have hpos := List.length_pos_of_ne_nil hne
    exact absurd ⟨by simp [htext], hpos⟩ hconv

/-- A read with room in the UTF-8 buffer leaves a tidy connection. -/
theorem connectionRead_tidy (hic : ic.Follows d) {ccon : Connection σ} {os : Os}
    (h : Sound ccon os) (hs : Tidy ic d ccon)
    (hfree : ccon.bufferAllocatedSize ≠ 0 → ccon.utf8.length < ccon.utf8AllocatedSize) :
    Tidy ic d (connectionRead ic ccon os).2.1 := by
  unfold connectionRead
  by_cases hdone : ccon.isEofRaw ∧ ccon.buffer.length = 0
  · rw [if_pos hdone]
    have hnil : ∀ ccon' : Connection σ, ccon'.buffer = ccon.buffer →
        ccon'.bufferAllocatedSize = ccon.bufferAllocatedSize →
        ccon'.utf8AllocatedSize = ccon.utf8AllocatedSize → Tidy ic d ccon' := by
      intro ccon' hbuffer halloc hutf8
      refine ⟨by rw [halloc, hutf8]; exact hs.room, fun _ hne => ?_⟩
      rw [hbuffer] at hne
      exact absurd (List.length_eq_zero_iff.mp hdone.2) hne
    dsimp only
    split_ifs
    · exact hnil _ rfl rfl rfl
    · exact hs
  · rw [if_neg hdone]
    obtain ⟨ccon₁, hccon₁, htext, hs₁, hroom, hfree₁⟩ :
        ∃ ccon₁, (if ccon.bufferAllocatedSize = 0 then connectionAlloc ccon else ccon) = ccon₁ ∧
          ccon₁.rawMode = false ∧ Tidy ic d ccon₁ ∧
          64 * 1024 ≤ ccon₁.utf8AllocatedSize ∧ ccon₁.utf8.length < ccon₁.utf8AllocatedSize := by
      by_cases hnone : ccon.bufferAllocatedSize = 0
      · refine ⟨connectionAlloc ccon, if_pos hnone, h.textMode, ⟨fun _ => le_refl _, ?_⟩,
          le_refl _, ?_⟩
        · exact fun _ hne => absurd rfl hne
        · simp [connectionAlloc]
      · exact ⟨ccon, if_neg hnone, h.textMode, hs, hs.room hnone, hfree hnone⟩
    rw [hccon₁]
    dsimp only
    by_cases hfull : ccon₁.bufferAllocatedSize - ccon₁.buffer.length = 0
    · rw [if_pos hfull]
      exact connectionToUtf8_tidy hic (fun _ => hroom) fun _ => hfree₁
    · rw [if_neg hfull]
      obtain ⟨bytes | _ | _ | _, os'⟩ :=
        os.read (ccon₁.bufferAllocatedSize - ccon₁.buffer.length)
      · refine convertNew_tidy hic ?_ (fun _ => ?_) fun _ => ?_
        · split_ifs <;> exact htext
        · dsimp only
          split_ifs <;> exact hroom
        · dsimp only
          split_ifs <;> exact hfree₁
      · exact convertNew_tidy hic htext (fun _ => hroom) fun _ => hfree₁
      · exact @convertNew_tidy _ _ _ hic (markEofRaw ccon₁) htext (fun _ => hroom)
          fun _ => hfree₁
      · exact hs₁

/-- The two invariants together, as the calls keep them. -/
structure Readied (ic : Riconv σ) (d : Decoder σ UInt8 UInt8) (ccon : Connection σ) (os : Os) :
    Prop where
  sound : Sound ccon os
  tidy : Tidy ic d ccon

/-- Taking text out of the UTF-8 buffer keeps them. -/
theorem Readied.dropUtf8 {ccon : Connection σ} {os : Os} (h : Readied ic d ccon os) (bytes : ℕ) :
    Readied ic d (dropUtf8 ccon bytes) os :=
  ⟨h.sound.dropUtf8 bytes, h.tidy.room, h.tidy.leftover⟩

/-- So does a read with room in the UTF-8 buffer. -/
theorem Readied.read (hic : ic.Follows d) {ccon : Connection σ} {os : Os}
    (h : Readied ic d ccon os)
    (hfree : ccon.bufferAllocatedSize ≠ 0 → ccon.utf8.length < ccon.utf8AllocatedSize) :
    Readied ic d (connectionRead ic ccon os).2.1 (connectionRead ic ccon os).2.2 := by
  obtain ⟨_, hmoves, _⟩ := connectionRead_moves hic h.sound
  exact ⟨hmoves.sound, connectionRead_tidy hic h.sound h.tidy hfree⟩

/-- An empty UTF-8 buffer has room. -/
theorem Readied.free {ccon : Connection σ} {os : Os} (h : Readied ic d ccon os)
    (hempty : ccon.utf8.length = 0) (hsome : ccon.bufferAllocatedSize ≠ 0) :
    ccon.utf8.length < ccon.utf8AllocatedSize := by
  have hroom := h.tidy.room hsome
  omega

/-- Raw bytes stand in an allocated buffer. -/
theorem Readied.allocated {ccon : Connection σ} {os : Os} (h : Readied ic d ccon os)
    (hne : ccon.buffer ≠ []) : ccon.bufferAllocatedSize ≠ 0 := by
  have hle := h.sound.buffer_le
  have hpos := List.length_pos_of_ne_nil hne
  omega

/-- A larger UTF-8 buffer keeps them, and has room for the next read. -/
theorem Readied.grow {ccon : Connection σ} {os : Os} (h : Readied ic d ccon os) :
    let grown := if ccon.utf8.length ≥ ccon.utf8AllocatedSize - 8 then connectionRealloc ccon
      else ccon
    Readied ic d grown os ∧
      (grown.bufferAllocatedSize ≠ 0 → grown.utf8.length < grown.utf8AllocatedSize) := by
  have hgrow := (SameText.grow ic d h.sound).sound
  have hle := h.sound.utf8_le
  have hroom := h.tidy.room
  dsimp only
  split_ifs at hgrow ⊢ with hfull
  · have hsize : (connectionRealloc ccon).utf8AllocatedSize =
        if ccon.utf8AllocatedSize * 6 / 5 = ccon.utf8AllocatedSize then
          2 * (ccon.utf8AllocatedSize * 6 / 5) else ccon.utf8AllocatedSize * 6 / 5 := rfl
    refine ⟨⟨hgrow, ⟨fun hsome => ?_, h.tidy.leftover⟩⟩, fun hsome => ?_⟩
    · have hmin := hroom hsome
      rw [hsize]
      split_ifs <;> omega
    · have hmin := hroom hsome
      have hutf8 : (connectionRealloc ccon).utf8.length = ccon.utf8.length := rfl
      rw [hutf8, hsize]
      split_ifs <;> omega
  · exact ⟨h, fun _ => by omega⟩

/-- Reading until there is a line feed keeps them. -/
theorem Readied.readUntilNewline (hic : ic.Follows d) {ccon : Connection σ} {os : Os}
    (h : Readied ic d ccon os) :
    Readied ic d (connectionReadUntilNewline ic ccon os).2.1
      (connectionReadUntilNewline ic ccon os).2.2 :=
  connectionReadUntilNewline_keeps (P := Readied ic d)
    (fun _ _ h hempty => h.read hic (h.free hempty)) (fun _ _ h => h.grow.1.read hic h.grow.2) h

/-- Finding characters keeps them. -/
theorem Readied.findChars (hic : ic.Follows d) {ccon : Connection σ} {os : Os}
    (h : Readied ic d ccon os) (maxchars maxbytes : ℤ) :
    Readied ic d (connectionFindChars ic ccon os maxchars maxbytes).2.1
      (connectionFindChars ic ccon os maxchars maxbytes).2.2 :=
  connectionFindChars_keeps (P := Readied ic d) (fun _ _ h hempty => h.read hic (h.free hempty)) h
    maxchars maxbytes

/-- A poll keeps them: it converts only into an empty UTF-8 buffer. -/
theorem Readied.prePoll (hic : ic.Follows d) {ccon : Connection σ} {os : Os}
    (h : Readied ic d ccon os) : Readied ic d (prePollConnection ic ccon).2 os := by
  obtain ⟨_, hmoves⟩ := prePollConnection_moves hic h.sound
  refine ⟨hmoves.sound, ?_⟩
  unfold prePollConnection
  dsimp only
  by_cases hempty : ccon.utf8.length > 0
  · split_ifs <;> exact h.tidy
  · have hconv : Tidy ic d (connectionToUtf8 ic ccon).2 :=
      connectionToUtf8_tidy hic h.tidy.room fun hne =>
        h.free (Nat.eq_zero_of_not_pos hempty) (h.allocated hne)
    split_ifs <;> first | exact h.tidy | exact hconv

/-- In every reachable state a connection is tidy. -/
theorem textRun_readied (hic : ic.Follows d) {os : Os} (hos : os.WellFormed) (osHandle : ℤ)
    (ops : List TextOp) :
    Readied ic d (textRun ic osHandle os ops).1 (textRun ic osHandle os ops).2 := by
  refine textRun_keeps (P := Readied ic d) (fun op _ _ h => ?_) ⟨Sound.create hos osHandle, ?_⟩ ops
  · exact op.keeps (P := Readied ic d)
      (fun maxchars maxbytes h => h.findChars hic maxchars maxbytes)
      (fun h => h.readUntilNewline hic) (fun h => h.prePoll hic) (fun bytes h => h.dropUtf8 bytes) h
  · exact ⟨fun hsome => absurd rfl hsome, fun _ hne => absurd rfl hne⟩

/-- With a limit on the characters only, the scanner takes the first so many of them. -/
theorem connectionFindUtf8Chars_take {ccon : Connection σ} {chars : List Bytes}
    (h : Spells chars ccon.utf8) {nchars : ℤ} (hn : 0 ≤ nchars) :
    connectionFindUtf8Chars ccon nchars (-1) =
      .ok (min nchars.toNat chars.length, ((chars.take nchars.toNat).flatten).length) := by
  obtain ⟨k, hk, hfind, hwithin, _, hmax⟩ :=
    findUtf8CharsFrom_finds h.characters h.length_le nchars (-1) 0 0
  have hle := hmax (min nchars.toNat chars.length) (Nat.min_le_right _ _)
    (by unfold Within; omega) (Or.inl (by decide))
  have hk' : k = min nchars.toNat chars.length := by
    unfold Within at hwithin
    omega
  subst hk'
  rw [h.flatten, Nat.zero_add, Nat.zero_add] at hfind
  rw [connectionFindUtf8Chars, hfind, ← List.take_eq_take_min]

/-- What a call of `processx_connection_read_chars()` hands to R: the first characters of the UTF-8
buffer, after a read if it is empty. R makes a string of them if an `int` holds their length and
there is no NUL among them. -/
def CharsReadable (ic : Riconv σ) (ccon : Connection σ) (os : Os) (nchars : ℤ) : Prop :=
  ccon.isEof = true ∨
    (0 ≤ ccon.handle ∧ (ccon.utf8 = [] → (connectionRead ic ccon os).1.toOption.isSome = true) ∧
      ∀ chars, Spells chars (scannedState ic ccon os).1.utf8 →
        0 < toInt ((chars.take nchars.toNat).flatten).length ∧
          0 ∉ ((chars.take nchars.toNat).flatten).take
            (toInt ((chars.take nchars.toNat).flatten).length).toNat)

/-- A call returns at least one character, or leaves `is_eof_` set. -/
def ReturnsOrEnds (result : Except String Bytes × Connection σ × Os) : Prop :=
  (∃ chars, chars ≠ [] ∧ result.1 = .ok chars) ∨ result.2.1.isEof = true

/-- Raw bytes that are left behind the end of the file get to the UTF-8 buffer, unless the read
fails. -/
theorem Readied.read_leftover (hic : ic.Follows d) (hd : Yields d) {ccon : Connection σ} {os : Os}
    (h : Readied ic d ccon os) (hraw : ccon.isEofRaw = true) (hne : ccon.buffer ≠ [])
    (hempty : ccon.utf8 = []) :
    (connectionRead ic ccon os).2.1.isEof = ccon.isEof ∧
      ((connectionRead ic ccon os).1.toOption.isSome = true →
        (connectionRead ic ccon os).2.1.utf8 ≠ []) := by
  obtain ⟨len, out, next, hhead, hout⟩ := h.tidy.leftover hraw hne
  have halloc := h.allocated hne
  have hroom := h.tidy.room halloc
  have height := (hd _ _ _ _ _ hhead).2
  have htext := h.sound.textMode
  have hpos := List.length_pos_of_ne_nil hne
  have hdone : ¬(ccon.isEofRaw = true ∧ ccon.buffer.length = 0) := by omega
  have hfit : out.length ≤ ccon.utf8AllocatedSize - ccon.utf8.length := by
    rw [hempty, List.length_nil]
    omega
  -- whatever was read, the first character of the raw buffer is still the one that did not fit
  have hconv : ∀ (more : Bytes) (raw eof : Bool),
      (convertNew ic { ccon with
        isEofRaw := raw, isEof := eof, buffer := ccon.buffer ++ more }).2.isEof = eof ∧
      (convertNew ic { ccon with
        isEofRaw := raw, isEof := eof, buffer := ccon.buffer ++ more }).2.utf8 ≠ [] := by
    intro more raw eof
    have hsome : (!ccon.rawMode) = true ∧ (ccon.buffer ++ more).length > 0 := by
      rw [htext, List.length_append]
      exact ⟨rfl, by omega⟩
    unfold convertNew
    rw [if_pos hsome]
    refine ⟨?_, ?_⟩
    · unfold connectionToUtf8
      dsimp only
      split_ifs <;> rfl
    · refine connectionToUtf8_ne_nil hic (d.char_append more hhead) hout ?_
      show out.length ≤ ccon.utf8AllocatedSize - ccon.utf8.length
      exact hfit
  have hmark : (markEofRaw ccon).isEof = ccon.isEof := by
    cases hbuffer : ccon.buffer with
    | nil => exact absurd hbuffer hne
    | cons b rest => simp [markEofRaw, hbuffer]
  unfold connectionRead
  rw [if_neg hdone, if_neg halloc]
  dsimp only
  by_cases hfull : ccon.bufferAllocatedSize - ccon.buffer.length = 0
  · rw [if_pos hfull]
    refine ⟨?_, fun _ => connectionToUtf8_ne_nil hic hhead hout hfit⟩
    unfold connectionToUtf8
    dsimp only
    split_ifs <;> rfl
  · rw [if_neg hfull]
    obtain ⟨bytes | _ | _ | _, os'⟩ := os.read (ccon.bufferAllocatedSize - ccon.buffer.length)
    · dsimp only
      by_cases hend : bytes.length = 0
      · have hnew := hconv bytes true (markEofRaw ccon).isEof
        rw [if_pos hend]
        exact ⟨hnew.1.trans hmark, fun _ => hnew.2⟩
      · have hnew := hconv bytes ccon.isEofRaw ccon.isEof
        rw [if_neg hend]
        exact ⟨hnew.1, fun _ => hnew.2⟩
    · have hnew := hconv [] ccon.isEofRaw ccon.isEof
      rw [List.append_nil] at hnew
      exact ⟨hnew.1, fun _ => hnew.2⟩
    · have hnew := hconv [] true (markEofRaw ccon).isEof
      rw [List.append_nil] at hnew
      exact ⟨hnew.1.trans hmark, fun _ => hnew.2⟩
    · exact ⟨rfl, fun hsome => absurd hsome Bool.false_ne_true⟩

/-- A connection that a poll reports as ready is at its end, or has text, or has raw bytes left
behind the end of the file. -/
theorem Readied.ready {ccon : Connection σ} {os : Os} (h : Readied ic d ccon os)
    (hready : (prePollConnection ic ccon).1 = .ready) :
    (prePollConnection ic ccon).2.isEof = true ∨ (prePollConnection ic ccon).2.utf8 ≠ [] ∨
      ((prePollConnection ic ccon).2.isEofRaw = true ∧
        (prePollConnection ic ccon).2.buffer ≠ []) := by
  have htext := h.sound.textMode
  unfold prePollConnection at hready ⊢
  dsimp only at hready ⊢
  by_cases hclosed : ccon.isClosed = true
  · rw [if_pos hclosed] at hready
    cases hready
  rw [if_neg hclosed] at hready ⊢
  by_cases heof : ccon.isEof = true
  · rw [if_pos heof] at hready ⊢
    exact Or.inl heof
  rw [if_neg heof, if_neg (by simp [htext])] at hready ⊢
  by_cases hutf8 : ccon.utf8.length > 0
  · rw [if_pos hutf8] at hready ⊢
    exact Or.inr (Or.inl (List.ne_nil_of_length_pos hutf8))
  rw [if_neg hutf8] at hready ⊢
  by_cases hleft : ccon.buffer.length > 0 ∧ ccon.isEofRaw = true
  · rw [if_pos hleft] at hready ⊢
    exact Or.inr (Or.inr ⟨hleft.2, List.ne_nil_of_length_pos hleft.1⟩)
  rw [if_neg hleft] at hready ⊢
  split_ifs at hready ⊢ with hbuffer hconv
  exact Or.inr (Or.inl (List.ne_nil_of_length_pos hconv))

/-- At the end a call leaves `is_eof_` set. -/
theorem connectionReadChars_isEof {ccon : Connection σ} (os : Os) (nchars : ℤ)
    (heof : ccon.isEof = true) : (connectionReadChars ic ccon os nchars).2.1.isEof = true := by
  have hstate : (connectionFindChars ic ccon os nchars (-1)).2.1.isEof = true := by
    unfold connectionFindChars
    cases checkValidConn ccon with
    | error msg => exact heof
    | ok _ =>
      have hno : ¬((!ccon.isEof) = true ∧ ccon.utf8.length = 0) := by simp [heof]
      dsimp only
      rw [if_neg hno]
      dsimp only
      split_ifs <;> exact heof
  unfold connectionReadChars
  generalize connectionFindChars ic ccon os nchars (-1) = answer at hstate ⊢
  obtain ⟨msg | bytes, ccon', os'⟩ := answer
  · exact hstate
  · dsimp only at hstate ⊢
    cases mkCharLenCE ccon'.utf8 (toInt bytes) with
    | error msg => exact hstate
    | ok chars => exact hstate

/-- A call on an invalid connection, or whose read fails, throws, and sets `is_eof_` only if the
read does. -/
theorem connectionReadChars_error {ccon : Connection σ} {os : Os} (nchars : ℤ)
    (heof : ccon.isEof = false)
    (hfails : ccon.handle < 0 ∨ (ccon.utf8 = [] ∧
      (connectionRead ic ccon os).1.toOption.isSome = false ∧
      (connectionRead ic ccon os).2.1.isEof = false)) :
    ¬ReturnsOrEnds (connectionReadChars ic ccon os nchars) := by
  have hthrow : ∀ (msg : String) (ccon' : Connection σ) (os' : Os), ccon'.isEof = false →
      ¬ReturnsOrEnds ((.error msg, ccon', os') : Except String Bytes × Connection σ × Os) := by
    rintro msg ccon' os' heof' (⟨chars, _, hchars⟩ | hends)
    · cases hchars
    · exact absurd (heof'.symm.trans hends) Bool.false_ne_true
  unfold connectionReadChars connectionFindChars checkValidConn
  by_cases hhandle : ccon.handle < 0
  · rw [if_pos hhandle]
    exact hthrow _ _ _ heof
  · obtain ⟨hempty, hnone, heof'⟩ := hfails.resolve_left hhandle
    have hread : (!ccon.isEof) = true ∧ ccon.utf8.length = 0 := by simp [heof, hempty]
    rw [if_neg hhandle]
    dsimp only
    rw [if_pos hread]
    generalize connectionRead ic ccon os = answer at hnone heof' ⊢
    obtain ⟨msg | n, ccon', os'⟩ := answer
    · exact hthrow _ _ _ heof'
    · cases hnone

/-- A call on a valid connection whose read does not fail makes a string of the characters that
it finds. -/
theorem connectionReadChars_eq {ccon : Connection σ} {os : Os} {nchars : ℤ} {chars : List Bytes}
    (hhandle : 0 ≤ ccon.handle)
    (hread : ccon.utf8 = [] → (connectionRead ic ccon os).1.toOption.isSome = true)
    (h : Spells chars (scannedState ic ccon os).1.utf8)
    (hne : (scannedState ic ccon os).1.utf8 ≠ []) (hn : 1 ≤ nchars) :
    (connectionReadChars ic ccon os nchars).1 =
        mkCharLenCE (scannedState ic ccon os).1.utf8
          (toInt ((chars.take nchars.toNat).flatten).length) ∧
      (connectionReadChars ic ccon os nchars).2.1.isEof = (scannedState ic ccon os).1.isEof := by
  have htake := connectionFindUtf8Chars_take h (show 0 ≤ nchars by omega)
  have hlen := List.length_pos_of_ne_nil hne
  have hread' : ∃ n, (if (!ccon.isEof) = true ∧ ccon.utf8.length = 0 then connectionRead ic ccon os
      else (.ok 0, ccon, os)) = (.ok n, scannedState ic ccon os) := by
    unfold scannedState
    split_ifs with hempty
    · have hsome := hread (List.length_eq_zero_iff.mp hempty.2)
      generalize connectionRead ic ccon os = answer at hsome ⊢
      obtain ⟨msg | n, state⟩ := answer
      · cases hsome
      · exact ⟨n, rfl⟩
    · exact ⟨0, rfl⟩
  obtain ⟨n, hanswer⟩ := hread'
  have hfind : connectionFindChars ic ccon os nchars (-1) =
      (.ok ((chars.take nchars.toNat).flatten).length, scannedState ic ccon os) := by
    unfold connectionFindChars checkValidConn
    rw [if_neg (by omega)]
    dsimp only
    rw [hanswer]
    dsimp only
    rw [if_neg (by omega), htake]
    rfl
  unfold connectionReadChars
  rw [hfind]
  dsimp only
  generalize mkCharLenCE (scannedState ic ccon os).1.utf8
    (toInt ((chars.take nchars.toNat).flatten).length) = answer
  cases answer with
  | error msg => exact ⟨rfl, rfl⟩
  | ok result => exact ⟨rfl, rfl⟩

/-- When R makes a string with characters in it. -/
theorem mkCharLenCE_ne_nil_iff {memory : Bytes} (hne : memory ≠ []) (len : ℤ) :
    (∃ chars, chars ≠ [] ∧ mkCharLenCE memory len = .ok chars) ↔
      0 < len ∧ 0 ∉ memory.take len.toNat := by
  have hpos := List.length_pos_of_ne_nil hne
  unfold mkCharLenCE
  constructor
  · rintro ⟨chars, hchars, heq⟩
    split_ifs at heq with hneg hnul
    have hsome : memory.take len.toNat ≠ [] := by
      rw [Except.ok.inj heq]
      exact hchars
    have hlen := List.length_pos_of_ne_nil hsome
    rw [List.length_take] at hlen
    exact ⟨by omega, hnul⟩
  · rintro ⟨hlen, hnul⟩
    refine ⟨memory.take len.toNat, List.ne_nil_of_length_pos ?_, ?_⟩
    · rw [List.length_take]
      omega
    · rw [if_neg (by omega), if_neg hnul]

/-- A cast to `int` is not larger than the length. -/
theorem toInt_le (n : ℕ) : toInt n ≤ n := by
  have hmod := Nat.mod_le n (2 ^ 32)
  unfold toInt
  split_ifs <;> omega

/-- The scanned state of a connection that is not at its end: it is not at its end either, and has
text unless the read failed. -/
theorem Readied.scanned (hic : ic.Follows d) (hd : Yields d) {ccon : Connection σ} {os : Os}
    (h : Readied ic d ccon os) (heof : ccon.isEof = false)
    (hready : ccon.utf8 ≠ [] ∨ (ccon.isEofRaw = true ∧ ccon.buffer ≠ [])) :
    (scannedState ic ccon os).1.isEof = false ∧
      ((ccon.utf8 = [] → (connectionRead ic ccon os).1.toOption.isSome = true) →
        (scannedState ic ccon os).1.utf8 ≠ []) := by
  unfold scannedState
  by_cases hread : (!ccon.isEof) = true ∧ ccon.utf8.length = 0
  · have hempty : ccon.utf8 = [] := List.length_eq_zero_iff.mp hread.2
    obtain ⟨hraw, hne⟩ := hready.resolve_left fun hne => hne hempty
    obtain ⟨heof', hutf8⟩ := h.read_leftover hic hd hraw hne hempty
    rw [if_pos hread]
    exact ⟨heof'.trans heof, fun hsome => hutf8 (hsome hempty)⟩
  · rw [if_neg hread]
    refine ⟨heof, fun _ hempty => hread ⟨by simp [heof], ?_⟩⟩
    exact List.length_eq_zero_iff.mpr hempty

/-- A read of characters on a ready connection, one step. -/
theorem Readied.returnsOrEnds_iff (hic : ic.Follows d) (hd : Yields d) {ccon : Connection σ}
    {os : Os} (h : Readied ic d ccon os) (hwhole : Whole ccon.utf8)
    (hready : ccon.isEof = true ∨ ccon.utf8 ≠ [] ∨ (ccon.isEofRaw = true ∧ ccon.buffer ≠ []))
    {nchars : ℤ} (hn : 1 ≤ nchars) :
    ReturnsOrEnds (connectionReadChars ic ccon os nchars) ↔ CharsReadable ic ccon os nchars := by
  cases heof : ccon.isEof with
  | true => exact iff_of_true (Or.inr (connectionReadChars_isEof os nchars heof)) (Or.inl heof)
  | false =>
    have hwrites := hd.writesCharacters hic
    obtain ⟨heof', hutf8⟩ := h.scanned hic hd heof
      (hready.resolve_left fun hend => absurd (heof.symm.trans hend) Bool.false_ne_true)
    by_cases hhandle : ccon.handle < 0
    · refine iff_of_false (connectionReadChars_error nchars heof (Or.inl hhandle)) ?_
      rintro (hend | ⟨hvalid, _⟩)
      · exact absurd (heof.symm.trans hend) Bool.false_ne_true
      · exact absurd hvalid (Int.not_le.mpr hhandle)
    by_cases hread : ccon.utf8 = [] → (connectionRead ic ccon os).1.toOption.isSome = true
    · have hne := hutf8 hread
      -- how many bytes R gets, and that they are the first bytes of the buffer
      have hmake : ∀ chars, Spells chars (scannedState ic ccon os).1.utf8 →
          (ReturnsOrEnds (connectionReadChars ic ccon os nchars) ↔
            0 < toInt ((chars.take nchars.toNat).flatten).length ∧
              0 ∉ ((chars.take nchars.toNat).flatten).take
                (toInt ((chars.take nchars.toNat).flatten).length).toNat) := by
        intro chars hchars
        obtain ⟨hmk, hends⟩ :=
          connectionReadChars_eq (Int.not_lt.mp hhandle) hread hchars hne hn
        have hfront : (chars.take nchars.toNat).flatten.take
              (toInt ((chars.take nchars.toNat).flatten).length).toNat =
            (scannedState ic ccon os).1.utf8.take
              (toInt ((chars.take nchars.toNat).flatten).length).toNat := by
          have hle := toInt_le ((chars.take nchars.toNat).flatten).length
          have hsplit : (chars.take nchars.toNat).flatten ++ (chars.drop nchars.toNat).flatten =
              (scannedState ic ccon os).1.utf8 := by
            rw [← List.flatten_append, List.take_append_drop]
            exact hchars.flatten
          rw [← hsplit, List.take_append_of_le_length (by omega)]
        rw [hfront, ← mkCharLenCE_ne_nil_iff hne, ← hmk]
        refine or_iff_left ?_
        rw [hends, heof']
        exact Bool.false_ne_true
      obtain ⟨chars, hchars⟩ := scannedState_whole hwrites os hwhole
      constructor
      · intro hreturns
        exact Or.inr ⟨Int.not_lt.mp hhandle, hread, fun chars' hchars' =>
          (hmake chars' hchars').mp hreturns⟩
      · rintro (hend | ⟨_, _, hall⟩)
        · exact absurd (heof.symm.trans hend) Bool.false_ne_true
        · exact (hmake chars hchars).mpr (hall chars hchars)
    · obtain ⟨hempty, hnone⟩ := Classical.not_imp.mp hread
      have hfails : (connectionRead ic ccon os).2.1.isEof = false := by
        have hscan : (scannedState ic ccon os).1.isEof = false := heof'
        rw [scannedState, if_pos (by simp [heof, hempty])] at hscan
        exact hscan
      refine iff_of_false (connectionReadChars_error nchars heof
        (Or.inr ⟨hempty, (Bool.not_eq_true _).mp hnone, hfails⟩)) ?_
      rintro (hend | ⟨_, hsome, _⟩)
      · exact absurd (heof.symm.trans hend) Bool.false_ne_true
      · exact hnone (hsome hempty)

/-- **Ready before polling.** In every reachable state of a connection in text mode that a poll
reports as ready, a read of one or more characters returns some of them or leaves `is_eof_` set
exactly if the read that it may need does not fail and R accepts the characters. -/
theorem readChars_of_ready_iff (hic : ic.Follows d) (hd : Yields d) {os : Os} (hos : os.WellFormed)
    (osHandle : ℤ) (ops : List TextOp)
    (hready : (prePollConnection ic (textRun ic osHandle os ops).1).1 = .ready) {nchars : ℤ}
    (hn : 1 ≤ nchars) :
    ReturnsOrEnds (connectionReadChars ic
        (prePollConnection ic (textRun ic osHandle os ops).1).2
        (textRun ic osHandle os ops).2 nchars) ↔
      CharsReadable ic (prePollConnection ic (textRun ic osHandle os ops).1).2
        (textRun ic osHandle os ops).2 nchars := by
  have hwrites := hd.writesCharacters hic
  have hwhole := textRun_whole hwrites osHandle os ops
  have h := textRun_readied hic hos osHandle ops
  generalize textRun ic osHandle os ops = s at hready hwhole h ⊢
  exact (h.prePoll hic).returnsOrEnds_iff hic hd (prePollConnection_whole hwrites hwhole)
    (h.ready hready) hn

/-- The decoder of a connection with encoding UTF-8 yields a character at a time. -/
theorem utf8Decoder_yields : Yields utf8Decoder := by
  intro st inp len out next hhead
  have hchar := utf8Decoder_character hhead
  have hle := hchar.length_bounds.2
  exact ⟨⟨[out], List.forall_mem_singleton.mpr hchar, by simp⟩, by omega⟩

/-- Text behind a line that was read. -/
theorem readChars_of_ready_text :
    let os : Os := ⟨[.data [97, 10, 98]], false⟩
    let s := textRun utf8Riconv 3 os [.readLines 1]
    ReturnsOrEnds (connectionReadChars utf8Riconv (prePollConnection utf8Riconv s.1).2 s.2 1) ↔
      CharsReadable utf8Riconv (prePollConnection utf8Riconv s.1).2 s.2 1 :=
  readChars_of_ready_iff utf8Riconv_follows utf8Decoder_yields (by decide) 3 [.readLines 1]
    (by decide) (by decide)

/-- A NUL behind a line that was read: the poll reports the connection as ready, the read throws,
and both do so again. -/
theorem readChars_of_ready_nul :
    let os : Os := ⟨[.data [97, 10, 0, 98]], false⟩
    let s := textRun utf8Riconv 3 os [.readLines 1]
    let polled := prePollConnection utf8Riconv s.1
    let answer := connectionReadChars utf8Riconv polled.2 s.2 1
    polled.1 = .ready ∧ ¬ReturnsOrEnds answer ∧ answer.2 = (polled.2, s.2) := by
  intro os s polled answer
  have herror : answer.1 = .error "embedded nul in string" := by decide
  have heof : answer.2.1.isEof = false := by decide
  refine ⟨by decide, ?_, by decide⟩
  rintro (⟨chars, _, hchars⟩ | hends)
  · cases herror.symm.trans hchars
  · exact absurd (heof.symm.trans hends) Bool.false_ne_true

end Processx
