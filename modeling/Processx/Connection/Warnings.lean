import Processx.Connection.Progress

/-!
# The warning at the end of a stream

If a stream ends in the middle of a character then `processx__connection_to_utf8()` warns, before
it updates the buffers. Under `options(warn = 2)` the warning is an error and jumps out: the raw
buffer keeps all its bytes, those of the complete characters as well, and the next read converts
them again, with the same result.
-/

namespace Processx

open Incremental

variable {σ : Type} {ic : Riconv σ} {d : Decoder σ UInt8 UInt8}

/-- Does the loop of `processx__connection_to_utf8()` come to its `warning()`? The state that
`Riconv()` has left then. -/
def toUtf8Warning (ic : Riconv σ) (isEofRaw : Bool) : ℕ → σ → Bytes → ℕ → Option σ
  | 0, _, _, _ => none
  | rounds + 1, st, inbuf, outbytesleft =>
    let r := ic.run st inbuf outbytesleft
    let inbuf := inbuf.drop r.consumed
    let outbytesleft := outbytesleft - r.out.length
    match r.stop with
    | .done => none
    | .full => none
    | .invalid =>
      let inbuf := inbuf.drop 1
      if inbuf.length > 0 then toUtf8Warning ic isEofRaw rounds r.next inbuf outbytesleft else none
    | .incomplete => if isEofRaw then some r.next else none

/-- The same for the whole function. -/
def connectionToUtf8Warning (ic : Riconv σ) (ccon : Connection σ) : Option σ :=
  let inbytesleft := ccon.buffer.length
  let outbytesleft := ccon.utf8AllocatedSize - ccon.utf8.length
  if inbytesleft = 0 ∨ outbytesleft = 0 then none
  else toUtf8Warning ic ccon.isEofRaw inbytesleft (ic.ctx ccon) ccon.buffer outbytesleft

/-- `processx__connection_to_utf8()`, where `warning()` may throw. -/
def connectionToUtf8Throwing (ic : Riconv σ) (throws : Bool) (ccon : Connection σ) :
    Except String ℕ × Connection σ :=
  match if throws then connectionToUtf8Warning ic ccon else none with
  | some ctx =>
    (.error "(converted from warning) Invalid multi-byte character at end of stream ignored",
      { ccon with iconvCtx := some ctx })
  | none => (.ok (connectionToUtf8 ic ccon).1, (connectionToUtf8 ic ccon).2)

/-- The end of `processx__connection_read()`. -/
def convertNewThrowing (ic : Riconv σ) (throws : Bool) (ccon : Connection σ) :
    Except String ℕ × Connection σ :=
  if !ccon.rawMode ∧ ccon.buffer.length > 0 then connectionToUtf8Throwing ic throws ccon
  else (.ok ccon.buffer.length, ccon)

/-- `processx__connection_read()`. -/
def connectionReadThrowing (ic : Riconv σ) (throws : Bool) (ccon : Connection σ) (os : Os) :
    Except String ℕ × Connection σ × Os :=
  if ccon.isEofRaw ∧ ccon.buffer.length = 0 then
    let ccon := if ccon.utf8.length = 0 then { ccon with isEof := true } else ccon
    (.ok 0, ccon, os)
  else
    let ccon := if ccon.bufferAllocatedSize = 0 then connectionAlloc ccon else ccon
    let todo := ccon.bufferAllocatedSize - ccon.buffer.length
    if todo = 0 then
      let (result, ccon) := connectionToUtf8Throwing ic throws ccon
      (result, ccon, os)
    else
      match os.read todo with
      | (.bytes bytes, os) =>
        let ccon := if bytes.length = 0 then markEofRaw ccon else ccon
        let (result, ccon) :=
          convertNewThrowing ic throws { ccon with buffer := ccon.buffer ++ bytes }
        (result, ccon, os)
      | (.eagain, os) =>
        let (result, ccon) := convertNewThrowing ic throws ccon
        (result, ccon, os)
      | (.eio, os) =>
        let (result, ccon) := convertNewThrowing ic throws (markEofRaw ccon)
        (result, ccon, os)
      | (.error, os) => (.error "Cannot read from processx connection", ccon, os)

/-- `processx__connection_find_chars()`. -/
def connectionFindCharsThrowing (ic : Riconv σ) (throws : Bool) (ccon : Connection σ) (os : Os)
    (maxchars maxbytes : ℤ) : Except String ℕ × Connection σ × Os :=
  match checkValidConn ccon with
  | .error msg => (.error msg, ccon, os)
  | .ok () =>
    let shouldReadMore := !ccon.isEof ∧ ccon.utf8.length = 0
    match if shouldReadMore then connectionReadThrowing ic throws ccon os else (.ok 0, ccon, os) with
    | (.error msg, ccon, os) => (.error msg, ccon, os)
    | (.ok _, ccon, os) =>
      if ccon.utf8.length = 0 ∨ maxchars = 0 then (.ok 0, ccon, os)
      else ((connectionFindUtf8Chars ccon maxchars maxbytes).map Prod.snd, ccon, os)

/-- `processx_connection_read_chars()`. -/
def connectionReadCharsThrowing (ic : Riconv σ) (throws : Bool) (ccon : Connection σ) (os : Os)
    (nchars : ℤ) : Except String Bytes × Connection σ × Os :=
  match connectionFindCharsThrowing ic throws ccon os nchars (-1) with
  | (.error msg, ccon, os) => (.error msg, ccon, os)
  | (.ok utf8Bytes, ccon, os) =>
    match mkCharLenCE ccon.utf8 (toInt utf8Bytes) with
    | .error msg => (.error msg, ccon, os)
    | .ok result => (.ok result, dropUtf8 ccon utf8Bytes, os)

/-- `processx_c_connection_read_chars()`. -/
def cConnectionReadCharsThrowing (ic : Riconv σ) (throws : Bool) (ccon : Connection σ) (os : Os)
    (nbyte : ℕ) : Except String Bytes × Connection σ × Os :=
  if nbyte < 4 then
    (.error "Buffer size must be at least 4 bytes, to allow multibyte characters", ccon, os)
  else
    match connectionFindCharsThrowing ic throws ccon os (-1) nbyte with
    | (.error msg, ccon, os) => (.error msg, ccon, os)
    | (.ok utf8Bytes, ccon, os) =>
      (.ok (ccon.utf8.take utf8Bytes), dropUtf8 ccon utf8Bytes, os)

/-- The loop of `processx__connection_read_until_newline()`. -/
def readUntilNewlineLoopThrowing (ic : Riconv σ) (throws : Bool) : ℕ → Connection σ → Os → ℕ → ℕ →
    Except String (Option ℕ) × Connection σ × Os
  | 0, ccon, os, _, _ => (.ok none, ccon, os)
  | fuel + 1, ccon, os, ptr, end_ =>
    let ptr := ((((ccon.utf8.take end_).drop ptr).idxOf? lineFeed).map (ptr + ·)).getD end_
    if ptr < end_ then (.ok (some ptr), ccon, os)
    else if ccon.isEof then (.ok none, ccon, os)
    else
      let ccon := if ccon.utf8.length ≥ ccon.utf8AllocatedSize - 8 then connectionRealloc ccon
        else ccon
      match connectionReadThrowing ic throws ccon os with
      | (.error msg, ccon, os) => (.error msg, ccon, os)
      | (.ok newBytes, ccon, os) =>
        if newBytes = 0 then (.ok none, ccon, os)
        else readUntilNewlineLoopThrowing ic throws fuel ccon os ptr end_

/-- `processx__connection_read_until_newline()`. -/
def connectionReadUntilNewlineThrowing (ic : Riconv σ) (throws : Bool) (ccon : Connection σ)
    (os : Os) : Except String (Option ℕ) × Connection σ × Os :=
  match if ccon.utf8.length = 0 then connectionReadThrowing ic throws ccon os
    else (.ok 0, ccon, os) with
  | (.error msg, ccon, os) => (.error msg, ccon, os)
  | (.ok _, ccon, os) =>
    if ccon.utf8.length = 0 then (.ok none, ccon, os)
    else readUntilNewlineLoopThrowing ic throws (readRounds ccon os) ccon os 0 ccon.utf8.length

/-- `processx__connection_find_lines()`. -/
def connectionFindLinesThrowing (ic : Riconv σ) (throws : Bool) (ccon : Connection σ) (os : Os)
    (maxlines : ℤ) : Except String (ℕ × Bool) × Connection σ × Os :=
  let maxlines := if maxlines < 0 then 1000 else maxlines
  match checkValidConn ccon with
  | .error msg => (.error msg, ccon, os)
  | .ok () =>
    match connectionReadUntilNewlineThrowing ic throws ccon os with
    | (.error msg, ccon, os) => (.error msg, ccon, os)
    | (.ok newline, ccon, os) =>
      (.ok (countLines ccon.utf8 maxlines.toNat newline, unterminatedEnd ccon), ccon, os)

/-- `processx_connection_read_lines()`. -/
def connectionReadLinesThrowing (ic : Riconv σ) (throws : Bool) (ccon : Connection σ) (os : Os)
    (nlines : ℤ) : Except String (List Bytes) × Connection σ × Os :=
  match connectionFindLinesThrowing ic throws ccon os nlines with
  | (.error msg, ccon, os) => (.error msg, ccon, os)
  | (.ok (linesRead, eof), ccon, os) =>
    match takeText ccon.utf8 linesRead eof with
    | .error msg => (.error msg, ccon, os)
    | .ok (result, taken) => (.ok result, dropUtf8 ccon taken, os)

/-- `processx_c_connection_read_line()`. -/
def cConnectionReadLineThrowing (ic : Riconv σ) (throws : Bool) (before : UInt8)
    (ccon : Connection σ) (os : Os) (line : LineBuffer) :
    LineAnswer × LineBuffer × Connection σ × Os :=
  match line.linep, line.linecapp with
  | none, _ => (.throw "cannot read line, linep cannot be a null pointer", line, ccon, os)
  | some _, none => (.throw "cannot read line, linecapp cannot be a null pointer", line, ccon, os)
  | some linep, some linecapp =>
    if ccon.isEof then (.ret (-1), line, ccon, os)
    else
      match connectionReadUntilNewlineThrowing ic throws ccon os with
      | (.error msg, ccon, os) => (.throw msg, line, ccon, os)
      | (.ok newline, ccon, os) =>
        let (answer, line, ccon) := serveLine before ccon newline linep linecapp
        (answer, line, ccon, os)

/-- The state a call leaves. A poll converts only in front of the end of the file, so it does not
warn. -/
def TextOp.runThrowing (ic : Riconv σ) (throws : Bool) (op : TextOp) (ccon : Connection σ)
    (os : Os) : Connection σ × Os :=
  match op with
  | .readChars nchars => (connectionReadCharsThrowing ic throws ccon os nchars).2
  | .cReadChars nbyte => (cConnectionReadCharsThrowing ic throws ccon os nbyte).2
  | .readLines nlines => (connectionReadLinesThrowing ic throws ccon os nlines).2
  | .readLine before line => (cConnectionReadLineThrowing ic throws before ccon os line).2.2
  | .poll => ((prePollConnection ic ccon).2, os)

/-- The connection after any calls on a fresh one, each of which may return or throw. -/
def textRunThrowing (ic : Riconv σ) (throws : Bool) (osHandle : ℤ) (os : Os) (ops : List TextOp) :
    Connection σ × Os :=
  ops.foldl (fun s op => op.runThrowing ic throws s.1 s.2) (cConnectionCreate osHandle, os)

/-- What a connection can still read ends in the middle of a character. -/
def pendingCut (ic : Riconv σ) (d : Decoder σ UInt8 UInt8) (ccon : Connection σ) (os : Os) : Bool :=
  d.cut (ic.ctx ccon) (ccon.buffer ++ os.stream)

/-- The loop does not warn in front of the end of the file. -/
theorem toUtf8Warning_eq_none (ic : Riconv σ) (rounds : ℕ) (st : σ) (inbuf : Bytes) (room : ℕ) :
    toUtf8Warning ic false rounds st inbuf room = none := by
  induction rounds generalizing st inbuf room with
  | zero => rfl
  | succ rounds ih =>
    rw [toUtf8Warning]
    cases (ic.run st inbuf room).stop with
    | done => rfl
    | full => rfl
    | incomplete => rfl
    | invalid =>
      dsimp only
      split_ifs
      · exact ih _ _ _
      · rfl

/-- It warns only if the input ends in the middle of a character. -/
theorem cut_of_toUtf8Warning (hic : ic.Follows d) {isEofRaw : Bool} {rounds : ℕ} {st ctx : σ}
    {inbuf : Bytes} {room : ℕ} (h : toUtf8Warning ic isEofRaw rounds st inbuf room = some ctx) :
    d.cut st inbuf = true := by
  induction rounds generalizing st inbuf room with
  | zero => cases h
  | succ rounds ih =>
    have hconv := d.convert_sound room st inbuf
    have hcut := d.convert_cut room st inbuf []
    rw [List.append_nil, List.append_nil] at hcut
    rw [toUtf8Warning, hic st inbuf room] at h
    dsimp only at h
    rw [hcut]
    cases hstop : (d.convert room st inbuf).stop with
    | done => rw [hstop] at h; cases h
    | full => rw [hstop] at h; cases h
    | incomplete =>
      exact Decoder.cut_of_incomplete (hconv.incomplete hstop)
        (Decoder.convert_incomplete_ne_nil hstop)
    | invalid =>
      rw [hstop] at h
      dsimp only at h
      rw [Decoder.cut_of_invalid (hconv.invalid hstop)]
      split_ifs at h
      exact ih h

/-- A loop that does not warn changes nothing about the end. -/
theorem toUtf8Loop_cut (hic : ic.Follows d) {isEofRaw : Bool} {rounds : ℕ} {st : σ}
    {inbuf : Bytes} (hrounds : inbuf.length ≤ rounds) {room : ℕ} (acc : Bytes) {more : Bytes}
    (hmore : isEofRaw = true → more = [])
    (hquiet : toUtf8Warning ic isEofRaw rounds st inbuf room = none) :
    d.cut (toUtf8Loop ic isEofRaw rounds st inbuf room acc).2.2
        ((toUtf8Loop ic isEofRaw rounds st inbuf room acc).1 ++ more) =
      d.cut st (inbuf ++ more) := by
  induction rounds generalizing st inbuf room acc with
  | zero => rfl
  | succ rounds ih =>
    have hconv := d.convert_sound room st inbuf
    rw [d.convert_cut room st inbuf more]
    rw [toUtf8Warning, hic st inbuf room] at hquiet
    rw [toUtf8Loop, hic st inbuf room]
    generalize d.convert room st inbuf = c at hconv hquiet ⊢
    cases hstop : c.stop with
    | done => rfl
    | full => rfl
    | incomplete =>
      cases isEofRaw with
      | false => rfl
      | true =>
        rw [hstop] at hquiet
        cases hquiet
    | invalid =>
      rw [hstop] at hquiet
      dsimp only at hquiet ⊢
      have hhead := hconv.invalid hstop
      have hpos := List.length_pos_of_ne_nil (Decoder.ne_nil_of_head_invalid hhead)
      rw [Decoder.cut_of_invalid (d.invalid_append more hhead),
        List.drop_append_of_le_length (by omega)]
      by_cases hleft : ((inbuf.drop c.consumed).drop 1).length > 0
      · rw [if_pos hleft] at hquiet ⊢
        refine ih ?_ _ hquiet
        rw [List.length_drop] at hpos ⊢
        rw [List.length_drop]
        omega
      · rw [if_neg hleft]

/-- Without shift states the loop warns from every state, or from none. -/
theorem toUtf8Warning_stateless (hic : ic.Follows d) (hstateless : d.Stateless) {isEofRaw : Bool}
    {rounds : ℕ} {st : σ} (st' : σ) {inbuf : Bytes} {room : ℕ}
    (h : (toUtf8Warning ic isEofRaw rounds st inbuf room).isSome) :
    (toUtf8Warning ic isEofRaw rounds st' inbuf room).isSome := by
  induction rounds generalizing st st' inbuf room with
  | zero => cases h
  | succ rounds ih =>
    obtain ⟨hconsumed, hout, hstop⟩ := hstateless.convert_eq room st st' inbuf
    rw [toUtf8Warning, hic st inbuf room] at h
    rw [toUtf8Warning, hic st' inbuf room]
    dsimp only at h ⊢
    rw [hconsumed, hout, hstop] at h
    cases hcase : (d.convert room st' inbuf).stop with
    | done => rw [hcase] at h; cases h
    | full => rw [hcase] at h; cases h
    | incomplete =>
      rw [hcase] at h
      dsimp only at h ⊢
      split_ifs at h ⊢
      · rfl
      · cases h
    | invalid =>
      rw [hcase] at h
      dsimp only at h ⊢
      split_ifs at h ⊢
      · exact ih _ h
      · cases h

/-- A connection after a read, up to its conversion. -/
structure Fetched (ccon : Connection σ) (os : Os) (ccon₁ : Connection σ) (os₁ : Os) : Prop where
  sound : Sound ccon₁ os₁
  handle : ccon₁.handle = ccon.handle
  iconvCtx : ccon₁.iconvCtx = ccon.iconvCtx
  utf8 : ccon₁.utf8 = ccon.utf8
  raw : ccon₁.buffer ++ os₁.stream = ccon.buffer ++ os.stream
  eofRaw : ccon.isEofRaw = true → ccon₁.isEofRaw = true
  sized : Sized ccon → Sized ccon₁
  room : ccon.bufferAllocatedSize ≠ 0 → ccon₁.utf8AllocatedSize = ccon.utf8AllocatedSize
  final : os.Final → os₁.Final

/-- A read fetches bytes and converts them, or there is nothing to convert. It is only the
conversion that may warn. -/
theorem connectionRead_fetched (ic : Riconv σ) (throws : Bool) {ccon : Connection σ} {os : Os}
    (h : Sound ccon os) :
    ∃ ccon₁ os₁, Fetched ccon os ccon₁ os₁ ∧
      ((∃ result, connectionRead ic ccon os = (result, ccon₁, os₁) ∧
          connectionReadThrowing ic throws ccon os = (result, ccon₁, os₁) ∧
          (os.Final → ccon₁.buffer = [] ∧ ∃ n, result = .ok n)) ∨
        (connectionRead ic ccon os =
            (.ok (connectionToUtf8 ic ccon₁).1, (connectionToUtf8 ic ccon₁).2, os₁) ∧
          connectionReadThrowing ic throws ccon os =
            ((connectionToUtf8Throwing ic throws ccon₁).1,
              (connectionToUtf8Throwing ic throws ccon₁).2, os₁))) := by
  by_cases hdone : ccon.isEofRaw = true ∧ ccon.buffer.length = 0
  · -- nothing to read and nothing to convert
    have hbuffer := List.length_eq_zero_iff.mp hdone.2
    refine ⟨if ccon.utf8.length = 0 then { ccon with isEof := true } else ccon, os, ?_,
      Or.inl ⟨.ok 0, ?_, ?_, fun _ => ⟨?_, 0, rfl⟩⟩⟩
    · by_cases hempty : ccon.utf8.length = 0
      · rw [if_pos hempty]
        have hend : Sound { ccon with isEof := true } os :=
          ⟨h.wellFormed, h.textMode, h.buffer_le, h.utf8_le, h.unallocated, h.eofRaw, fun _ =>
            ⟨hdone.1, hbuffer, List.length_eq_zero_iff.mp hempty⟩⟩
        exact ⟨hend, rfl, rfl, rfl, rfl, id, id, fun _ => rfl, id⟩
      · rw [if_neg hempty]
        exact ⟨h, rfl, rfl, rfl, rfl, id, id, fun _ => rfl, id⟩
    · unfold connectionRead
      rw [if_pos hdone]
    · unfold connectionReadThrowing
      rw [if_pos hdone]
    · split_ifs <;> exact hbuffer
  unfold connectionRead connectionReadThrowing
  rw [if_neg hdone, if_neg hdone]
  obtain ⟨ccon₁, hccon₁, h₁⟩ : ∃ ccon₁,
      (if ccon.bufferAllocatedSize = 0 then connectionAlloc ccon else ccon) = ccon₁ ∧
        Fetched ccon os ccon₁ os := by
    by_cases hnone : ccon.bufferAllocatedSize = 0
    · obtain ⟨hnil, htext, hsound⟩ := h.alloc hnone
      exact ⟨connectionAlloc ccon, if_pos hnone, hsound, rfl, rfl, htext.symm,
        congrArg (· ++ os.stream) hnil.symm, id, fun _ => Or.inr ⟨rfl, le_refl _⟩,
        absurd hnone, id⟩
    · exact ⟨ccon, if_neg hnone, h, rfl, rfl, rfl, rfl, id, id, fun _ => rfl, id⟩
  rw [hccon₁]
  dsimp only
  by_cases hfull : ccon₁.bufferAllocatedSize - ccon₁.buffer.length = 0
  · rw [if_pos hfull, if_pos hfull]
    exact ⟨ccon₁, os, h₁, Or.inr ⟨rfl, rfl⟩⟩
  rw [if_neg hfull, if_neg hfull]
  have hread := Os.read_spec h.wellFormed (Nat.pos_of_ne_zero hfull)
  have hfinal := fun hfinal : os.Final =>
    hfinal.read (ccon₁.bufferAllocatedSize - ccon₁.buffer.length)
  generalize os.read (ccon₁.bufferAllocatedSize - ccon₁.buffer.length) = answer at hread hfinal ⊢
  obtain ⟨result, os'⟩ := answer
  have hconvert : ∀ ccon₂ : Connection σ, Fetched ccon os ccon₂ os' →
      ∃ ccon₃ os₃, Fetched ccon os ccon₃ os₃ ∧
        ((∃ result, ((.ok (convertNew ic ccon₂).1, (convertNew ic ccon₂).2, os') :
              Except String ℕ × Connection σ × Os) = (result, ccon₃, os₃) ∧
            ((convertNewThrowing ic throws ccon₂).1, (convertNewThrowing ic throws ccon₂).2, os') =
              (result, ccon₃, os₃) ∧
            (os.Final → ccon₃.buffer = [] ∧ ∃ n, result = .ok n)) ∨
          (((.ok (convertNew ic ccon₂).1, (convertNew ic ccon₂).2, os') :
              Except String ℕ × Connection σ × Os) =
              (.ok (connectionToUtf8 ic ccon₃).1, (connectionToUtf8 ic ccon₃).2, os₃) ∧
            ((convertNewThrowing ic throws ccon₂).1, (convertNewThrowing ic throws ccon₂).2, os') =
              ((connectionToUtf8Throwing ic throws ccon₃).1,
                (connectionToUtf8Throwing ic throws ccon₃).2, os₃))) := by
    intro ccon₂ h₂
    refine ⟨ccon₂, os', h₂, ?_⟩
    unfold convertNew convertNewThrowing
    by_cases hsome : (!ccon₂.rawMode) = true ∧ ccon₂.buffer.length > 0
    · rw [if_pos hsome, if_pos hsome]
      exact Or.inr ⟨rfl, rfl⟩
    · have hnil : ccon₂.buffer = [] := by
        have htext := h₂.sound.textMode
        simpa [htext] using hsome
      rw [if_neg hsome, if_neg hsome]
      exact Or.inl ⟨_, rfl, rfl, fun _ => ⟨hnil, _, rfl⟩⟩
  have hmark : os'.eofReported = true → os'.stream = os.stream →
      Fetched ccon os (markEofRaw ccon₁) os' := fun heof hstream =>
    ⟨h₁.sound.markEofRaw hread.wellFormed heof, h₁.handle, h₁.iconvCtx, h₁.utf8,
      by rw [hstream]; exact h₁.raw, fun _ => rfl, h₁.sized, h₁.room, fun hf => (hfinal hf).1⟩
  have hnext : os'.stream = os.stream → Fetched ccon os ccon₁ os' := fun hstream =>
    ⟨h₁.sound.next hread.wellFormed hread.reported, h₁.handle, h₁.iconvCtx, h₁.utf8,
      by rw [hstream]; exact h₁.raw, h₁.eofRaw, h₁.sized, h₁.room, fun hf => (hfinal hf).1⟩
  cases result with
  | bytes bytes =>
    obtain ⟨hstream, hfit⟩ := hread.bytes bytes rfl
    dsimp only
    by_cases hnil : bytes.length = 0
    · obtain rfl := List.length_eq_zero_iff.mp hnil
      simp only [List.length_nil, if_true, List.append_nil]
      exact hconvert _ (hmark (hread.eof (Or.inl rfl)) hstream.symm)
    · simp only [if_neg hnil]
      have hlive : bytes ≠ [] → ccon₁.isEofRaw = false := by
        intro hne
        by_contra hset
        have hend := h.wellFormed.stream_eq_nil (h₁.sound.eofRaw (by simpa using hset))
        rw [hstream] at hend
        exact hne (List.append_eq_nil_iff.mp hend).1
      refine hconvert _ ⟨h₁.sound.append hread.wellFormed hread.reported hfit hlive, h₁.handle,
        h₁.iconvCtx, h₁.utf8, ?_, h₁.eofRaw, h₁.sized, h₁.room, fun hf => (hfinal hf).1⟩
      rw [← h₁.raw, hstream, List.append_assoc]
  | eagain => exact hconvert _ (hnext (hread.other (by simp)))
  | eio => exact hconvert _ (hmark (hread.eof (Or.inr rfl)) (hread.other (by simp)))
  | error =>
    exact ⟨ccon₁, os', hnext (hread.other (by simp)), Or.inl ⟨_, rfl, rfl, fun hf =>
      absurd rfl (hfinal hf).2⟩⟩

/-- What a read leaves that has warned: the state in front of the conversion, but for the state of
`Riconv()`. -/
def Warned (ic : Riconv σ) (throws : Bool) (ccon : Connection σ) (os : Os)
    (result : Except String ℕ × Connection σ × Os) : Prop :=
  ∃ msg ccon₁ ctx os₁, result = (.error msg, { ccon₁ with iconvCtx := some ctx }, os₁) ∧
    throws = true ∧ Fetched ccon os ccon₁ os₁ ∧ connectionToUtf8Warning ic ccon₁ = some ctx

/-- A read that does not warn is one that cannot throw a warning. -/
theorem connectionReadThrowing_eq_or (ic : Riconv σ) (throws : Bool) {ccon : Connection σ} {os : Os}
    (h : Sound ccon os) :
    connectionReadThrowing ic throws ccon os = connectionRead ic ccon os ∨
      Warned ic throws ccon os (connectionReadThrowing ic throws ccon os) := by
  obtain ⟨ccon₁, os₁, hfetched, ⟨result, hquiet, hthrowing, -⟩ | ⟨hquiet, hthrowing⟩⟩ :=
    connectionRead_fetched ic throws h
  · exact Or.inl (hthrowing.trans hquiet.symm)
  · rw [hquiet, hthrowing]
    unfold connectionToUtf8Throwing
    cases throws with
    | false => exact Or.inl rfl
    | true =>
      simp only [if_true]
      cases hwarns : connectionToUtf8Warning ic ccon₁ with
      | none => exact Or.inl rfl
      | some ctx => exact Or.inr ⟨_, ccon₁, ctx, os₁, rfl, rfl, hfetched, hwarns⟩

/-- A call that returns what a call returns that cannot throw a warning, or throws it. -/
def SameOrThrown {α : Type} (Q : Connection σ → Os → Prop)
    (throwing quiet : Except String α × Connection σ × Os) : Prop :=
  throwing = quiet ∨ ∃ msg ccon os, throwing = (.error msg, ccon, os) ∧ Q ccon os

section Calls

variable {throws : Bool} {P Q : Connection σ → Os → Prop}
  (hread : ∀ {ccon os}, P ccon os →
    SameOrThrown Q (connectionReadThrowing ic throws ccon os) (connectionRead ic ccon os))
  (hkeeps : ∀ {ccon os}, P ccon os →
    P (connectionRead ic ccon os).2.1 (connectionRead ic ccon os).2.2)
  (hgrow : ∀ {ccon os}, P ccon os →
    P (if ccon.utf8.length ≥ ccon.utf8AllocatedSize - 8 then connectionRealloc ccon else ccon) os)

include hread

/-- Finding characters. -/
theorem connectionFindCharsThrowing_eq_or {ccon : Connection σ} {os : Os} (h : P ccon os)
    (maxchars maxbytes : ℤ) :
    SameOrThrown Q (connectionFindCharsThrowing ic throws ccon os maxchars maxbytes)
      (connectionFindChars ic ccon os maxchars maxbytes) := by
  unfold connectionFindCharsThrowing connectionFindChars
  cases checkValidConn ccon with
  | error msg => exact Or.inl rfl
  | ok _ =>
    dsimp only
    by_cases hempty : (!ccon.isEof) = true ∧ ccon.utf8.length = 0
    · rw [if_pos hempty, if_pos hempty]
      rcases hread h with heq | ⟨msg, ccon', os', heq, hleft⟩
      · rw [heq]
        exact Or.inl rfl
      · rw [heq]
        exact Or.inr ⟨msg, ccon', os', rfl, hleft⟩
    · rw [if_neg hempty, if_neg hempty]
      exact Or.inl rfl

include hkeeps hgrow

/-- The scan for a line feed. -/
theorem readUntilNewlineLoopThrowing_eq_or (fuel ptr end_ : ℕ) {ccon : Connection σ} {os : Os}
    (h : P ccon os) :
    SameOrThrown Q (readUntilNewlineLoopThrowing ic throws fuel ccon os ptr end_)
      (readUntilNewlineLoop ic fuel ccon os ptr end_) := by
  induction fuel generalizing ccon os ptr with
  | zero => exact Or.inl rfl
  | succ fuel ih =>
    rw [readUntilNewlineLoopThrowing, readUntilNewlineLoop]
    dsimp only
    generalize ((((ccon.utf8.take end_).drop ptr).idxOf? lineFeed).map (ptr + ·)).getD end_ = ptr'
    by_cases hfound : ptr' < end_
    · rw [if_pos hfound, if_pos hfound]
      exact Or.inl rfl
    by_cases heof : ccon.isEof = true
    · rw [if_neg hfound, if_neg hfound, if_pos heof, if_pos heof]
      exact Or.inl rfl
    rw [if_neg hfound, if_neg hfound, if_neg heof, if_neg heof]
    have hgrown := hgrow h
    have hnext := hkeeps hgrown
    rcases hread hgrown with heq | ⟨msg, ccon', os', heq, hleft⟩
    · rw [heq]
      generalize connectionRead ic _ os = answer at hnext ⊢
      obtain ⟨msg | newBytes, ccon', os'⟩ := answer
      · exact Or.inl rfl
      · dsimp only at hnext ⊢
        by_cases hnone : newBytes = 0
        · rw [if_pos hnone, if_pos hnone]
          exact Or.inl rfl
        · rw [if_neg hnone, if_neg hnone]
          exact ih ptr' hnext
    · rw [heq]
      exact Or.inr ⟨msg, ccon', os', rfl, hleft⟩

/-- Reading until there is a line feed. -/
theorem connectionReadUntilNewlineThrowing_eq_or {ccon : Connection σ} {os : Os} (h : P ccon os) :
    SameOrThrown Q (connectionReadUntilNewlineThrowing ic throws ccon os)
      (connectionReadUntilNewline ic ccon os) := by
  have hloop : ∀ {ccon' : Connection σ} {os' : Os}, P ccon' os' →
      SameOrThrown Q
        (if ccon'.utf8.length = 0 then (.ok none, ccon', os') else
          readUntilNewlineLoopThrowing ic throws (readRounds ccon' os') ccon' os' 0
            ccon'.utf8.length)
        (if ccon'.utf8.length = 0 then (.ok none, ccon', os') else
          readUntilNewlineLoop ic (readRounds ccon' os') ccon' os' 0 ccon'.utf8.length) := by
    intro ccon' os' h'
    by_cases hempty : ccon'.utf8.length = 0
    · rw [if_pos hempty, if_pos hempty]
      exact Or.inl rfl
    · rw [if_neg hempty, if_neg hempty]
      exact readUntilNewlineLoopThrowing_eq_or hread hkeeps hgrow _ _ _ h'
  unfold connectionReadUntilNewlineThrowing connectionReadUntilNewline
  by_cases hempty : ccon.utf8.length = 0
  · rw [if_pos hempty, if_pos hempty]
    have hnext := hkeeps h
    rcases hread h with heq | ⟨msg, ccon', os', heq, hleft⟩
    · rw [heq]
      generalize connectionRead ic ccon os = answer at hnext ⊢
      obtain ⟨msg | n, ccon', os'⟩ := answer
      · exact Or.inl rfl
      · exact hloop hnext
    · rw [heq]
      exact Or.inr ⟨msg, ccon', os', rfl, hleft⟩
  · rw [if_neg hempty, if_neg hempty]
    exact hloop h

/-- A call leaves what it leaves if it cannot throw a warning, or what a read leaves that has thrown
one. -/
theorem TextOp.runThrowing_eq_or (op : TextOp) {ccon : Connection σ} {os : Os} (h : P ccon os) :
    op.runThrowing ic throws ccon os = op.run ic ccon os ∨
      Q (op.runThrowing ic throws ccon os).1 (op.runThrowing ic throws ccon os).2 := by
  have hfind := connectionFindCharsThrowing_eq_or hread h
  have huntil := connectionReadUntilNewlineThrowing_eq_or hread hkeeps hgrow h
  cases op with
  | poll => exact Or.inl rfl
  | readChars nchars =>
    dsimp only [TextOp.runThrowing, TextOp.run, connectionReadCharsThrowing, connectionReadChars]
    rcases hfind nchars (-1) with heq | ⟨msg, ccon', os', heq, hleft⟩
    · rw [heq]
      exact Or.inl rfl
    · rw [heq]
      exact Or.inr hleft
  | cReadChars nbyte =>
    dsimp only [TextOp.runThrowing, TextOp.run, cConnectionReadCharsThrowing, cConnectionReadChars]
    by_cases hsmall : nbyte < 4
    · rw [if_pos hsmall, if_pos hsmall]
      exact Or.inl rfl
    rw [if_neg hsmall, if_neg hsmall]
    rcases hfind (-1) nbyte with heq | ⟨msg, ccon', os', heq, hleft⟩
    · rw [heq]
      exact Or.inl rfl
    · rw [heq]
      exact Or.inr hleft
  | readLines nlines =>
    dsimp only [TextOp.runThrowing, TextOp.run, connectionReadLinesThrowing, connectionReadLines,
      connectionFindLinesThrowing, connectionFindLines]
    cases checkValidConn ccon with
    | error msg => exact Or.inl rfl
    | ok _ =>
      dsimp only
      rcases huntil with heq | ⟨msg, ccon', os', heq, hleft⟩
      · rw [heq]
        exact Or.inl rfl
      · rw [heq]
        exact Or.inr hleft
  | readLine before line =>
    obtain ⟨_ | linep, _ | linecapp⟩ := line
    · exact Or.inl rfl
    · exact Or.inl rfl
    · exact Or.inl rfl
    dsimp only [TextOp.runThrowing, TextOp.run, cConnectionReadLineThrowing, cConnectionReadLine]
    by_cases heof : ccon.isEof = true
    · rw [if_pos heof, if_pos heof]
      exact Or.inl rfl
    rw [if_neg heof, if_neg heof]
    rcases huntil with heq | ⟨msg, ccon', os', heq, hleft⟩
    · rw [heq]
      exact Or.inl rfl
    · rw [heq]
      exact Or.inr hleft

end Calls

/-- A run keeps what each of its calls keeps. -/
theorem textRunThrowing_keeps {throws : Bool} {P : Connection σ → Os → Prop}
    (hstep : ∀ (op : TextOp) {ccon os}, P ccon os →
      P (op.runThrowing ic throws ccon os).1 (op.runThrowing ic throws ccon os).2)
    {osHandle : ℤ} {os : Os} (hcreate : P (cConnectionCreate osHandle) os) (ops : List TextOp) :
    P (textRunThrowing ic throws osHandle os ops).1 (textRunThrowing ic throws osHandle os ops).2 := by
  unfold textRunThrowing
  suffices hfold : ∀ s : Connection σ × Os, P s.1 s.2 →
      P (ops.foldl (fun s op => op.runThrowing ic throws s.1 s.2) s).1
        (ops.foldl (fun s op => op.runThrowing ic throws s.1 s.2) s).2 from hfold _ hcreate
  induction ops with
  | nil => exact fun s hs => hs
  | cons op ops ih => exact fun s hs => ih _ (hstep op hs)

/-- The states of a connection in text mode, with whole characters in its UTF-8 buffer. -/
structure TextState (osHandle : ℤ) (ccon : Connection σ) (os : Os) : Prop where
  sound : Sound ccon os
  whole : Whole ccon.utf8
  held : Held osHandle ccon

/-- A read keeps them. -/
theorem TextState.read (hic : ic.Follows d) (hd : Yields d) {osHandle : ℤ} {ccon : Connection σ}
    {os : Os} (h : TextState osHandle ccon os) :
    TextState osHandle (connectionRead ic ccon os).2.1 (connectionRead ic ccon os).2.2 := by
  obtain ⟨_, hmoves, -⟩ := connectionRead_moves hic h.sound
  exact ⟨hmoves.sound, connectionRead_whole (hd.writesCharacters hic) os h.whole, h.held.read ic os⟩

/-- So does a warning. -/
theorem TextState.warned {throws : Bool} {osHandle : ℤ} {ccon : Connection σ} {os : Os}
    {result : Except String ℕ × Connection σ × Os} (h : TextState osHandle ccon os)
    (hwarned : Warned ic throws ccon os result) : TextState osHandle result.2.1 result.2.2 := by
  obtain ⟨msg, ccon₁, ctx, os₁, rfl, -, hfetched, -⟩ := hwarned
  obtain ⟨hwf, htext, hbuffer, hutf8, hnone, hraw, heof⟩ := hfetched.sound
  refine ⟨⟨hwf, htext, hbuffer, hutf8, hnone, hraw, heof⟩, ?_, hfetched.handle.trans h.held.handle,
    hfetched.sized h.held.sized⟩
  show Whole ccon₁.utf8
  rw [hfetched.utf8]
  exact h.whole

/-- And a larger UTF-8 buffer. -/
theorem TextState.grow {osHandle : ℤ} {ccon : Connection σ} {os : Os}
    (h : TextState osHandle ccon os) :
    TextState osHandle (if ccon.utf8.length ≥ ccon.utf8AllocatedSize - 8 then connectionRealloc ccon
      else ccon) os := by
  refine ⟨h.sound.grow, ?_, h.held.grow⟩
  split_ifs <;> exact h.whole

/-- Any call, whether it throws or not. -/
theorem TextState.run (hic : ic.Follows d) (hd : Yields d) {throws : Bool} {osHandle : ℤ}
    (op : TextOp) {ccon : Connection σ} {os : Os} (h : TextState osHandle ccon os) :
    TextState osHandle (op.runThrowing ic throws ccon os).1 (op.runThrowing ic throws ccon os).2 := by
  have hread : ∀ {ccon os}, TextState osHandle ccon os → SameOrThrown (TextState osHandle)
      (connectionReadThrowing ic throws ccon os) (connectionRead ic ccon os) := by
    intro ccon os h
    refine (connectionReadThrowing_eq_or ic throws h.sound).imp_right fun hwarned => ?_
    have hleft := h.warned hwarned
    obtain ⟨msg, ccon₁, ctx, os₁, heq, -⟩ := hwarned
    rw [heq] at hleft ⊢
    exact ⟨msg, _, _, rfl, hleft⟩
  rcases op.runThrowing_eq_or hread (fun h => h.read hic hd) (fun h => h.grow) h with heq | hthrown
  · rw [heq]
    exact ⟨op.sound hic h.sound, op.whole (hd.writesCharacters hic) os h.whole,
      op.held ic os h.held⟩
  · exact hthrown

/-- **Any calls under `options(warn = 2)`.** They keep the connection in these states. -/
theorem textRunThrowing_state (hic : ic.Follows d) (hd : Yields d) (throws : Bool) {os : Os}
    (hos : os.WellFormed) (osHandle : ℤ) (ops : List TextOp) :
    TextState osHandle (textRunThrowing ic throws osHandle os ops).1
      (textRunThrowing ic throws osHandle os ops).2 :=
  textRunThrowing_keeps (fun op _ _ h => h.run hic hd op)
    ⟨Sound.create hos osHandle, ⟨[], nofun, rfl⟩, rfl, Or.inl rfl⟩ ops

/-- The same for the whole function: it does not warn in front of the end of the file. -/
theorem connectionToUtf8Warning_eq_none (ic : Riconv σ) {ccon : Connection σ}
    (h : ccon.isEofRaw = false) : connectionToUtf8Warning ic ccon = none := by
  unfold connectionToUtf8Warning
  dsimp only
  rw [h]
  split_ifs
  · rfl
  · exact toUtf8Warning_eq_none ic _ _ _ _

/-- A conversion that does not warn changes nothing about the end of the stream. -/
theorem connectionToUtf8_cut (hic : ic.Follows d) {ccon : Connection σ} {os : Os}
    (h : Sound ccon os) (hquiet : connectionToUtf8Warning ic ccon = none) :
    pendingCut ic d (connectionToUtf8 ic ccon).2 os = pendingCut ic d ccon os := by
  unfold connectionToUtf8Warning at hquiet
  unfold pendingCut connectionToUtf8
  dsimp only at hquiet ⊢
  by_cases hnothing : ccon.buffer.length = 0 ∨ ccon.utf8AllocatedSize - ccon.utf8.length = 0
  · rw [if_pos hnothing]
    rfl
  · rw [if_neg hnothing] at hquiet ⊢
    exact toUtf8Loop_cut hic (le_refl _) [] (fun heof => h.wellFormed.stream_eq_nil
      (h.eofRaw heof)) hquiet

/-- So does a poll. -/
theorem prePollConnection_cut (hic : ic.Follows d) {ccon : Connection σ} {os : Os}
    (h : Sound ccon os) :
    pendingCut ic d (prePollConnection ic ccon).2 os = pendingCut ic d ccon os := by
  have hconv : ccon.isEofRaw = false →
      pendingCut ic d (connectionToUtf8 ic ccon).2 os = pendingCut ic d ccon os := fun hopen =>
    connectionToUtf8_cut hic h (connectionToUtf8Warning_eq_none ic hopen)
  unfold prePollConnection
  dsimp only
  by_cases hraw : ccon.buffer.length > 0 ∧ ccon.isEofRaw = true
  · rw [if_pos hraw]
    split_ifs <;> rfl
  · rw [if_neg hraw]
    split_ifs with _ _ _ _ _ hsome
    all_goals first | rfl | exact hconv (by simpa [hsome] using hraw)

/-- And a read that does not warn. -/
theorem connectionRead_cut (hic : ic.Follows d) {ccon : Connection σ} {os : Os} (h : Sound ccon os)
    (hquiet : connectionReadThrowing ic true ccon os = connectionRead ic ccon os) :
    pendingCut ic d (connectionRead ic ccon os).2.1 (connectionRead ic ccon os).2.2 =
      pendingCut ic d ccon os := by
  obtain ⟨ccon₁, os₁, hfetched, hanswer⟩ := connectionRead_fetched ic true h
  have hsame : pendingCut ic d ccon₁ os₁ = pendingCut ic d ccon os := by
    unfold pendingCut Riconv.ctx
    rw [hfetched.iconvCtx, hfetched.raw]
  rcases hanswer with ⟨result, heq, -⟩ | ⟨heq, hthrowing⟩
  · rw [heq]
    exact hsame
  · rw [hthrowing, heq] at hquiet
    rw [heq]
    refine (connectionToUtf8_cut hic hfetched.sound ?_).trans hsame
    by_contra hwarns
    obtain ⟨ctx, hctx⟩ := Option.ne_none_iff_exists'.mp hwarns
    unfold connectionToUtf8Throwing at hquiet
    rw [if_pos rfl, hctx] at hquiet
    cases congrArg Prod.fst hquiet

/-- A read of characters that does not throw a warning changes nothing about the end either. -/
theorem connectionReadChars_cut (hic : ic.Follows d) {ccon : Connection σ} {os : Os}
    (h : Sound ccon os) (nchars : ℤ)
    (hquiet : (!ccon.isEof) = true ∧ ccon.utf8.length = 0 →
      connectionReadThrowing ic true ccon os = connectionRead ic ccon os) :
    pendingCut ic d (connectionReadChars ic ccon os nchars).2.1
        (connectionReadChars ic ccon os nchars).2.2 = pendingCut ic d ccon os := by
  have hfind : pendingCut ic d (connectionFindChars ic ccon os nchars (-1)).2.1
      (connectionFindChars ic ccon os nchars (-1)).2.2 = pendingCut ic d ccon os := by
    unfold connectionFindChars
    cases checkValidConn ccon with
    | error msg => rfl
    | ok _ =>
      dsimp only
      by_cases hempty : (!ccon.isEof) = true ∧ ccon.utf8.length = 0
      · have hcut := connectionRead_cut hic h (hquiet hempty)
        rw [if_pos hempty]
        generalize connectionRead ic ccon os = answer at hcut ⊢
        obtain ⟨msg | n, ccon', os'⟩ := answer
        · exact hcut
        · dsimp only
          split_ifs <;> exact hcut
      · rw [if_neg hempty]
        dsimp only
        split_ifs <;> rfl
  unfold connectionReadChars
  generalize connectionFindChars ic ccon os nchars (-1) = answer at hfind ⊢
  obtain ⟨msg | bytes, ccon', os'⟩ := answer
  · exact hfind
  · dsimp only at hfind ⊢
    cases mkCharLenCE ccon'.utf8 (toInt bytes) with
    | error msg => exact hfind
    | ok chars => exact hfind

/-- The raw buffer holds the end of the stream, which is cut, and a conversion warns in whatever
state `Riconv()` is. -/
structure Stuck (ic : Riconv σ) (ccon : Connection σ) : Prop where
  eofRaw : ccon.isEofRaw = true
  isEof : ccon.isEof = false
  utf8 : ccon.utf8 = []
  warns : ∀ ctx, (connectionToUtf8Warning ic { ccon with iconvCtx := some ctx }).isSome

/-- There is a raw buffer then. -/
theorem Stuck.buffer_ne_nil {ccon : Connection σ} (h : Stuck ic ccon) : ccon.buffer ≠ [] := by
  intro hnil
  have hwarns := h.warns ic.open_
  unfold connectionToUtf8Warning at hwarns
  dsimp only at hwarns
  rw [if_pos (Or.inl (by rw [hnil]; rfl))] at hwarns
  cases hwarns

/-- Only a stream that is cut makes a read warn, and at its end. -/
theorem Warned.cut (hic : ic.Follows d) {throws : Bool} {ccon : Connection σ} {os : Os}
    {result : Except String ℕ × Connection σ × Os} (h : Warned ic throws ccon os result) :
    pendingCut ic d ccon os = true := by
  obtain ⟨msg, ccon₁, ctx, os₁, -, -, hfetched, hwarns⟩ := h
  have heof : ccon₁.isEofRaw = true := by
    by_contra hopen
    rw [connectionToUtf8Warning_eq_none ic (by simpa using hopen)] at hwarns
    cases hwarns
  have hstream := hfetched.sound.wellFormed.stream_eq_nil (hfetched.sound.eofRaw heof)
  have hraw := hfetched.raw
  rw [hstream, List.append_nil] at hraw
  unfold connectionToUtf8Warning at hwarns
  dsimp only at hwarns
  split_ifs at hwarns
  have hcut := cut_of_toUtf8Warning hic hwarns
  unfold Riconv.ctx at hcut
  unfold pendingCut Riconv.ctx
  rwa [hfetched.iconvCtx, hraw] at hcut

/-- Without shift states, a connection whose read has warned is stuck, with the text it had. -/
theorem Warned.stuck (hic : ic.Follows d) (hstateless : d.Stateless) {throws : Bool}
    {ccon : Connection σ} {os : Os} (hempty : ccon.utf8 = [])
    {result : Except String ℕ × Connection σ × Os} (h : Warned ic throws ccon os result) :
    Stuck ic result.2.1 ∧
      pendingText ic d result.2.1 result.2.2 = pendingText ic d ccon os ∧
      pendingCut ic d result.2.1 result.2.2 = pendingCut ic d ccon os := by
  obtain ⟨msg, ccon₁, ctx, os₁, rfl, -, hfetched, hwarns⟩ := h
  have hsome : ∀ ctx', (connectionToUtf8Warning ic { ccon₁ with iconvCtx := some ctx' }).isSome := by
    intro ctx'
    unfold connectionToUtf8Warning at hwarns ⊢
    dsimp only at hwarns ⊢
    by_cases hnothing : ccon₁.buffer.length = 0 ∨ ccon₁.utf8AllocatedSize - ccon₁.utf8.length = 0
    · rw [if_pos hnothing] at hwarns
      cases hwarns
    · rw [if_neg hnothing] at hwarns ⊢
      exact toUtf8Warning_stateless hic hstateless _ (by rw [hwarns]; rfl)
  have heof : ccon₁.isEofRaw = true := by
    by_contra hopen
    rw [connectionToUtf8Warning_eq_none ic (by simpa using hopen)] at hwarns
    cases hwarns
  have hopen : ccon₁.isEof = false := by
    by_contra hend
    have hnil := (hfetched.sound.eof (by simpa using hend)).2.1
    unfold connectionToUtf8Warning at hwarns
    dsimp only at hwarns
    rw [if_pos (Or.inl (by rw [hnil]; rfl))] at hwarns
    cases hwarns
  refine ⟨⟨heof, hopen, hfetched.utf8.trans hempty, hsome⟩, ?_, ?_⟩
  · show ccon₁.utf8 ++ d.decode _ (ccon₁.buffer ++ os₁.stream) = _
    rw [hfetched.utf8, hfetched.raw, pendingText]
    exact congrArg _ (hstateless.decode_eq _ _ _)
  · show d.cut _ (ccon₁.buffer ++ os₁.stream) = _
    rw [hfetched.raw]
    exact hstateless.cut_eq _ _ _

/-- A stuck connection stays as it is when it is polled, and every read from it throws. -/
theorem Stuck.read {ccon : Connection σ} {os : Os} (hsound : Sound ccon os) (hfinal : os.Final)
    (h : Stuck ic ccon) :
    (prePollConnection ic ccon).2 = ccon ∧
      ∃ msg ccon' os', connectionReadThrowing ic true ccon os = (.error msg, ccon', os') := by
  refine ⟨?_, ?_⟩
  · have hpos := List.length_pos_of_ne_nil h.buffer_ne_nil
    unfold prePollConnection
    dsimp only
    rw [if_pos (⟨hpos, h.eofRaw⟩ : ccon.buffer.length > 0 ∧ ccon.isEofRaw = true)]
    split_ifs <;> rfl
  · obtain ⟨ccon₁, os₁, hfetched, hanswer⟩ := connectionRead_fetched ic true hsound
    have hstream := hsound.wellFormed.stream_eq_nil (hsound.eofRaw h.eofRaw)
    have hstream₁ := hfetched.sound.wellFormed.stream_eq_nil
      (hfetched.sound.eofRaw (hfetched.eofRaw h.eofRaw))
    have hraw := hfetched.raw
    rw [hstream, hstream₁, List.append_nil, List.append_nil] at hraw
    rcases hanswer with ⟨result, -, -, hnil⟩ | ⟨-, hthrowing⟩
    · exact absurd (hraw.symm.trans (hnil hfinal).1) h.buffer_ne_nil
    have halloc : ccon.bufferAllocatedSize ≠ 0 := by
      have hle := hsound.buffer_le
      have hpos := List.length_pos_of_ne_nil h.buffer_ne_nil
      omega
    have hwarns := h.warns (ic.ctx ccon₁)
    have hsame : connectionToUtf8Warning ic { ccon with iconvCtx := some (ic.ctx ccon₁) } =
        connectionToUtf8Warning ic ccon₁ := by
      unfold connectionToUtf8Warning
      dsimp only
      rw [hraw, hfetched.utf8, hfetched.room halloc, hfetched.eofRaw h.eofRaw, h.eofRaw]
      rfl
    rw [hsame] at hwarns
    obtain ⟨ctx, hctx⟩ := Option.isSome_iff_exists.mp hwarns
    unfold connectionToUtf8Throwing at hthrowing
    rw [if_pos rfl, hctx] at hthrowing
    exact ⟨_, _, _, hthrowing⟩

/-- A read of characters throws a warning only if the read does that it makes. -/
theorem connectionReadCharsThrowing_eq {throws : Bool} {ccon : Connection σ} {os : Os} (nchars : ℤ)
    (hquiet : (!ccon.isEof) = true ∧ ccon.utf8.length = 0 →
      connectionReadThrowing ic throws ccon os = connectionRead ic ccon os) :
    connectionReadCharsThrowing ic throws ccon os nchars = connectionReadChars ic ccon os nchars := by
  have hfind : connectionFindCharsThrowing ic throws ccon os nchars (-1) =
      connectionFindChars ic ccon os nchars (-1) := by
    have hread : (if (!ccon.isEof) = true ∧ ccon.utf8.length = 0
          then connectionReadThrowing ic throws ccon os else (.ok 0, ccon, os)) =
        if (!ccon.isEof) = true ∧ ccon.utf8.length = 0
          then connectionRead ic ccon os else (.ok 0, ccon, os) := by
      by_cases hempty : (!ccon.isEof) = true ∧ ccon.utf8.length = 0
      · rw [if_pos hempty, if_pos hempty, hquiet hempty]
      · rw [if_neg hempty, if_neg hempty]
    unfold connectionFindCharsThrowing
    dsimp only
    rw [hread]
    rfl
  unfold connectionReadCharsThrowing
  rw [hfind]
  rfl

/-- It throws what that read throws. -/
theorem connectionReadCharsThrowing_error {throws : Bool} {ccon ccon' : Connection σ} {os os' : Os}
    {msg : String} (nchars : ℤ) (hvalid : 0 ≤ ccon.handle)
    (hempty : (!ccon.isEof) = true ∧ ccon.utf8.length = 0)
    (hread : connectionReadThrowing ic throws ccon os = (.error msg, ccon', os')) :
    connectionReadCharsThrowing ic throws ccon os nchars = (.error msg, ccon', os') := by
  unfold connectionReadCharsThrowing connectionFindCharsThrowing checkValidConn
  rw [if_neg (by omega)]
  dsimp only
  rw [if_pos hempty, hread]

/-- **One call on text under `options(warn = 2)`.** It does what it does without a warning, or it
warns, and then the connection is stuck. -/
theorem TextOpen.readCharsThrowing (hic : ic.Follows d) {throws : Bool} {ccon : Connection σ}
    {os : Os} (h : TextOpen ccon os)
    (hshift : throws = true → d.Stateless ∨ pendingCut ic d ccon os = false) :
    (connectionReadCharsThrowing ic throws ccon os 2000 = connectionReadChars ic ccon os 2000 ∧
        (throws = true → pendingCut ic d (connectionReadChars ic ccon os 2000).2.1
          (connectionReadChars ic ccon os 2000).2.2 = pendingCut ic d ccon os)) ∨
      (throws = true ∧ d.Stateless ∧ pendingCut ic d ccon os = true ∧ ccon.isEof = false ∧
        ∃ msg ccon' os', connectionReadCharsThrowing ic throws ccon os 2000 =
            (.error msg, ccon', os') ∧ TextOpen ccon' os' ∧ Stuck ic ccon' ∧
          pendingText ic d ccon' os' = pendingText ic d ccon os ∧
          pendingCut ic d ccon' os' = true) := by
  by_cases hempty : (!ccon.isEof) = true ∧ ccon.utf8.length = 0
  · rcases connectionReadThrowing_eq_or ic throws h.sound with hquiet | hwarned
    · refine Or.inl ⟨connectionReadCharsThrowing_eq 2000 fun _ => hquiet, ?_⟩
      rintro rfl
      exact connectionReadChars_cut hic h.sound 2000 fun _ => hquiet
    · have hcut := hwarned.cut hic
      have hstate := TextState.warned ⟨h.sound, h.whole, rfl, h.sized⟩ hwarned
      have hnil := List.length_eq_zero_iff.mp hempty.2
      have hstuck := fun hstateless => hwarned.stuck hic hstateless hnil
      obtain ⟨msg, ccon₁, ctx, os₁, heq, hthrows, hfetched, -⟩ := hwarned
      rw [heq] at hstate hstuck
      have hstateless : d.Stateless := (hshift hthrows).resolve_right (by rw [hcut]; decide)
      obtain ⟨hstuck, htext, hsame⟩ := hstuck hstateless
      exact Or.inr ⟨hthrows, hstateless, hcut, by simpa using hempty.1, msg, _, _,
        connectionReadCharsThrowing_error 2000 h.valid hempty heq,
        ⟨hstate.sound, hstate.whole, h.valid.trans_eq hstate.held.handle.symm, hstate.held.sized,
          hfetched.final h.final⟩, hstuck, htext, hsame.trans hcut⟩
  · refine Or.inl ⟨connectionReadCharsThrowing_eq 2000 (absurd · hempty), fun _ => ?_⟩
    exact connectionReadChars_cut hic h.sound 2000 (absurd · hempty)

/-- `Riconv_open()` has failed, which nobody looks at: each call of `Riconv()` fails with `EBADF`,
converts nothing, and the code goes on as it does if there is no more room. -/
def Riconv.Unopened (ic : Riconv σ) : Prop :=
  ∀ st inbuf room, ic.run st inbuf room = ⟨st, 0, [], .full⟩

/-- What is assumed of `Riconv()`: it follows a decoder, if `Riconv_open()` has not failed. -/
def Riconv.Converts (ic : Riconv σ) (d : Decoder σ UInt8 UInt8) (opened : Bool) : Prop :=
  if opened then ic.Follows d else ic.Unopened

/-- It stays within its bounds. -/
theorem Riconv.Unopened.bounded (hic : ic.Unopened) : ic.Bounded := by
  refine ⟨fun st inbuf room => ?_, fun st inbuf room => ?_, fun st inbuf room hstop => ?_⟩
  · rw [hic]
    exact Nat.zero_le _
  · rw [hic]
    exact Nat.zero_le _
  · rw [hic] at hstop
    cases hstop

/-- In either case. -/
theorem Riconv.Converts.bounded {opened : Bool} (hic : ic.Converts d opened) : ic.Bounded := by
  cases opened with
  | true => exact Riconv.Follows.bounded hic
  | false => exact Riconv.Unopened.bounded hic

/-- A conversion does nothing. -/
theorem Riconv.Unopened.toUtf8 (hic : ic.Unopened) (ccon : Connection σ) :
    ∃ ctx, connectionToUtf8 ic ccon = (0, { ccon with iconvCtx := ctx }) := by
  unfold connectionToUtf8
  dsimp only
  split_ifs with hnothing
  · exact ⟨_, rfl⟩
  · obtain ⟨n, hn⟩ : ∃ n, ccon.buffer.length = n + 1 := ⟨ccon.buffer.length - 1, by omega⟩
    rw [hn, toUtf8Loop, hic]
    exact ⟨some (ccon.iconvCtx.getD ic.open_), by simp⟩

/-- And it does not warn. -/
theorem Riconv.Unopened.quiet (hic : ic.Unopened) (ccon : Connection σ) :
    connectionToUtf8Warning ic ccon = none := by
  unfold connectionToUtf8Warning
  dsimp only
  split_ifs with hnothing
  · rfl
  · obtain ⟨n, hn⟩ : ∃ n, ccon.buffer.length = n + 1 := ⟨ccon.buffer.length - 1, by omega⟩
    rw [hn, toUtf8Warning, hic]

/-- Neither does a read. -/
theorem Riconv.Unopened.read_quiet (hic : ic.Unopened) (throws : Bool) {ccon : Connection σ}
    {os : Os} (h : Sound ccon os) :
    connectionReadThrowing ic throws ccon os = connectionRead ic ccon os := by
  refine (connectionReadThrowing_eq_or ic throws h).resolve_right ?_
  rintro ⟨msg, ccon₁, ctx, os₁, -, -, -, hwarns⟩
  rw [hic.quiet] at hwarns
  cases hwarns

/-- The states of a connection in text mode from which nothing was ever converted. -/
structure Unconverted (osHandle : ℤ) (ccon : Connection σ) (os : Os) : Prop where
  sound : Sound ccon os
  utf8 : ccon.utf8 = []
  held : Held osHandle ccon

/-- Another state of `Riconv()` makes no difference. -/
theorem Unconverted.ctx {osHandle : ℤ} {ccon : Connection σ} {os : Os}
    (h : Unconverted osHandle ccon os) (ctx : Option σ) :
    Unconverted osHandle { ccon with iconvCtx := ctx } os := by
  obtain ⟨⟨hwf, htext, hbuffer, hutf8, hnone, hraw, heof⟩, hempty, hheld⟩ := h
  exact ⟨⟨hwf, htext, hbuffer, hutf8, hnone, hraw, heof⟩, hempty, hheld.handle, hheld.sized⟩

/-- A read keeps them, and all the bytes that are still to come. It fails only if the system does. -/
theorem Unconverted.read (hic : ic.Unopened) {osHandle : ℤ} {ccon : Connection σ} {os : Os}
    (h : Unconverted osHandle ccon os) :
    Unconverted osHandle (connectionRead ic ccon os).2.1 (connectionRead ic ccon os).2.2 ∧
      (connectionRead ic ccon os).2.1.buffer ++ (connectionRead ic ccon os).2.2.stream =
        ccon.buffer ++ os.stream ∧
      (os.Final → (∃ n, (connectionRead ic ccon os).1 = .ok n) ∧
        (connectionRead ic ccon os).2.2.Final) := by
  obtain ⟨ccon₁, os₁, hfetched, hanswer⟩ := connectionRead_fetched ic false h.sound
  have h₁ : Unconverted osHandle ccon₁ os₁ := ⟨hfetched.sound, hfetched.utf8.trans h.utf8,
    hfetched.handle.trans h.held.handle, hfetched.sized h.held.sized⟩
  rcases hanswer with ⟨result, heq, -, hok⟩ | ⟨heq, -⟩
  · rw [heq]
    exact ⟨h₁, hfetched.raw, fun hfinal => ⟨(hok hfinal).2, hfetched.final hfinal⟩⟩
  · obtain ⟨ctx, hctx⟩ := hic.toUtf8 ccon₁
    rw [hctx] at heq
    rw [heq]
    exact ⟨h₁.ctx ctx, hfetched.raw, fun hfinal => ⟨⟨0, rfl⟩, hfetched.final hfinal⟩⟩

/-- A poll changes the state of `Riconv()` at most. -/
theorem Riconv.Unopened.prePoll (hic : ic.Unopened) (ccon : Connection σ) :
    ∃ ctx, (prePollConnection ic ccon).2 = { ccon with iconvCtx := ctx } := by
  obtain ⟨ctx, hctx⟩ := hic.toUtf8 ccon
  unfold prePollConnection
  dsimp only
  rw [hctx]
  split_ifs <;> exact ⟨_, rfl⟩

/-- Any calls on a fresh connection leave one of these states. -/
theorem textRunThrowing_unconverted (hic : ic.Unopened) (throws : Bool) {os : Os}
    (hos : os.WellFormed) (osHandle : ℤ) (ops : List TextOp) :
    Unconverted osHandle (textRunThrowing ic throws osHandle os ops).1
      (textRunThrowing ic throws osHandle os ops).2 := by
  have hgrow : ∀ {ccon : Connection σ} {os : Os}, Unconverted osHandle ccon os →
      Unconverted osHandle (if ccon.utf8.length ≥ ccon.utf8AllocatedSize - 8 then
        connectionRealloc ccon else ccon) os := by
    intro ccon os h
    refine ⟨h.sound.grow, ?_, h.held.grow⟩
    split_ifs <;> exact h.utf8
  refine textRunThrowing_keeps (P := Unconverted osHandle) (fun op ccon os h => ?_)
    ⟨Sound.create hos osHandle, rfl, rfl, Or.inl rfl⟩ ops
  have hsame : op.runThrowing ic throws ccon os = op.run ic ccon os :=
    (op.runThrowing_eq_or (P := Unconverted osHandle) (Q := fun _ _ => False)
      (fun h => Or.inl (hic.read_quiet throws h.sound)) (fun h => (h.read hic).1) hgrow
      h).resolve_right id
  rw [hsame]
  refine op.keeps (P := Unconverted osHandle) (fun maxchars maxbytes h => ?_) (fun h => ?_)
    (fun {ccon os} h => ?_) (fun bytes h => ?_) h
  · exact connectionFindChars_keeps (P := Unconverted osHandle) (fun _ _ h _ => (h.read hic).1) h
      maxchars maxbytes
  · exact connectionReadUntilNewline_keeps (P := Unconverted osHandle)
      (fun _ _ h _ => (h.read hic).1) (fun _ _ h => ((hgrow h).read hic).1) h
  · obtain ⟨ctx, hctx⟩ := hic.prePoll ccon
    rw [hctx]
    exact h.ctx ctx
  · refine ⟨h.sound.dropUtf8 bytes, ?_, h.held.handle, h.held.sized⟩
    simp [dropUtf8, h.utf8]

/-- If nothing is left, a read sees the end of the file. -/
theorem connectionRead_drained (ic : Riconv σ) {ccon : Connection σ} {os : Os} (h : Sound ccon os)
    (hfinal : os.Final) (hempty : ccon.utf8 = []) (hraw : ccon.buffer ++ os.stream = []) :
    (connectionRead ic ccon os).2.1.isEof = true := by
  obtain ⟨hbuffer, hstream⟩ := List.append_eq_nil_iff.mp hraw
  unfold connectionRead
  by_cases hdone : ccon.isEofRaw ∧ ccon.buffer.length = 0
  · rw [if_pos hdone]
    dsimp only
    rw [if_pos (by rw [hempty]; rfl)]
  rw [if_neg hdone]
  obtain ⟨ccon₁, hccon₁, hsize, hbuffer₁, hutf8₁⟩ : ∃ ccon₁,
      (if ccon.bufferAllocatedSize = 0 then connectionAlloc ccon else ccon) = ccon₁ ∧
        ccon₁.bufferAllocatedSize ≠ 0 ∧ ccon₁.buffer = [] ∧ ccon₁.utf8 = [] := by
    by_cases hnone : ccon.bufferAllocatedSize = 0
    · exact ⟨_, if_pos hnone, by simp [connectionAlloc], rfl, rfl⟩
    · exact ⟨_, if_neg hnone, hnone, hbuffer, hempty⟩
  rw [hccon₁]
  dsimp only
  rw [hbuffer₁, List.length_nil, Nat.sub_zero, if_neg hsize]
  have hread := hfinal.read_end h.wellFormed hstream ccon₁.bufferAllocatedSize
  generalize os.read ccon₁.bufferAllocatedSize = answer at hread ⊢
  obtain ⟨result, os'⟩ := answer
  have hmark : (convertNew ic (markEofRaw ccon₁)).2.isEof = true := by
    unfold convertNew
    rw [if_neg (by simp [markEofRaw, hbuffer₁])]
    simp [markEofRaw, hbuffer₁, hutf8₁]
  rcases hread with rfl | rfl
  · simpa [hbuffer₁, markEofRaw] using hmark
  · exact hmark

/-- **One call if nothing is converted.** It returns an empty string and leaves all the bytes that
are still to come, or sees the end of the file if there are none. -/
theorem Unconverted.readChars (hic : ic.Unopened) (throws : Bool) {osHandle : ℤ}
    {ccon : Connection σ} {os : Os} (h : Unconverted osHandle ccon os) (hvalid : 0 ≤ osHandle)
    (hfinal : os.Final) :
    ∃ ccon' os', connectionReadCharsThrowing ic throws ccon os 2000 = (.ok [], ccon', os') ∧
      Unconverted osHandle ccon' os' ∧ os'.Final ∧
      ccon'.buffer ++ os'.stream = ccon.buffer ++ os.stream ∧
      (ccon.buffer ++ os.stream = [] → ccon'.isEof = true) := by
  have hquiet : connectionReadCharsThrowing ic throws ccon os 2000 =
      connectionReadChars ic ccon os 2000 :=
    connectionReadCharsThrowing_eq 2000 fun _ => hic.read_quiet throws h.sound
  have hhandle := h.held.handle
  obtain ⟨n, ccon₁, os₁, hread, h₁, hfinal₁, hraw₁, hend⟩ : ∃ n ccon₁ os₁,
      (if (!ccon.isEof) = true ∧ ccon.utf8.length = 0 then connectionRead ic ccon os
        else (.ok 0, ccon, os)) = (.ok n, ccon₁, os₁) ∧ Unconverted osHandle ccon₁ os₁ ∧
        os₁.Final ∧ ccon₁.buffer ++ os₁.stream = ccon.buffer ++ os.stream ∧
        (ccon.buffer ++ os.stream = [] → ccon₁.isEof = true) := by
    by_cases hmore : (!ccon.isEof) = true ∧ ccon.utf8.length = 0
    · obtain ⟨hnext, hraw, hok⟩ := h.read hic
      obtain ⟨⟨n, hn⟩, hfinal'⟩ := hok hfinal
      exact ⟨n, _, _, by rw [if_pos hmore, ← hn], hnext, hfinal', hraw,
        connectionRead_drained ic h.sound hfinal h.utf8⟩
    · refine ⟨0, ccon, os, if_neg hmore, h, hfinal, rfl, fun _ => ?_⟩
      by_contra hopen
      exact hmore ⟨by simpa using hopen, by rw [h.utf8]; rfl⟩
  refine ⟨ccon₁, os₁, hquiet.trans ?_, h₁, hfinal₁, hraw₁, hend⟩
  unfold connectionReadChars connectionFindChars checkValidConn
  rw [if_neg (by omega)]
  dsimp only
  rw [hread]
  dsimp only
  rw [if_pos (Or.inl (by rw [h₁.utf8]; rfl))]
  dsimp only
  rw [h₁.utf8]
  have hdrop : dropUtf8 ccon₁ 0 = ccon₁ := by simp [dropUtf8]
  rw [hdrop]
  rfl

end Processx
