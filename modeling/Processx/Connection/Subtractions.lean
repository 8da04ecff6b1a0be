import Processx.Connection.Buffers

/-!
# Subtractions of sizes

The sizes of the buffers are unsigned, so a subtraction of too much wraps around. Here are the
subtractions that each function makes, in the order of the source, and none of them does, whatever
was called before.
-/

namespace Processx

open Incremental

variable {σ : Type} {ic : Riconv σ}

/-- A subtraction of unsigned sizes. -/
structure Subtraction where
  minuend : ℕ
  subtrahend : ℕ
  deriving DecidableEq

/-- It does not wrap around. -/
def Subtraction.Exact (sub : Subtraction) : Prop := sub.subtrahend ≤ sub.minuend

/-- None of them does. -/
def AllExact (subs : List Subtraction) : Prop := ∀ sub ∈ subs, sub.Exact

/-- No subtraction at all. -/
@[simp] theorem allExact_nil : AllExact [] := fun _ h => absurd h List.not_mem_nil

/-- One more subtraction. -/
@[simp] theorem allExact_cons {m n : ℕ} {subs : List Subtraction} :
    AllExact (⟨m, n⟩ :: subs) ↔ n ≤ m ∧ AllExact subs := by
  simp [AllExact, Subtraction.Exact]

/-- Subtractions behind others. -/
@[simp] theorem allExact_append {subs subs' : List Subtraction} :
    AllExact (subs ++ subs') ↔ AllExact subs ∧ AllExact subs' := by
  simp [AllExact, or_imp, forall_and]

/-- The loop of `processx__connection_to_utf8()`: what `Riconv()` takes off `inbytesleft` and
`outbytesleft`, and `inbytesleft--` for an invalid byte. -/
def toUtf8LoopSubs (ic : Riconv σ) : ℕ → σ → Bytes → ℕ → List Subtraction
  | 0, _, _, _ => []
  | rounds + 1, st, inbuf, outbytesleft =>
    let r := ic.run st inbuf outbytesleft
    ⟨inbuf.length, r.consumed⟩ :: ⟨outbytesleft, r.out.length⟩ ::
      match r.stop with
      | .invalid =>
        let inbuf := inbuf.drop r.consumed
        ⟨inbuf.length, 1⟩ ::
          if (inbuf.drop 1).length > 0 then
            toUtf8LoopSubs ic rounds r.next (inbuf.drop 1) (outbytesleft - r.out.length)
          else []
      | _ => []

/-- `processx__connection_to_utf8()`. The last one is `ccon->buffer_data_size -= indone`. -/
def connectionToUtf8Subs (ic : Riconv σ) (ccon : Connection σ) : List Subtraction :=
  let outbytesleft := ccon.utf8AllocatedSize - ccon.utf8.length
  let ctx := ccon.iconvCtx.getD ic.open_
  ⟨ccon.utf8AllocatedSize, ccon.utf8.length⟩ ::
    if ccon.buffer.length = 0 ∨ outbytesleft = 0 then []
    else
      let removed := ((connectionToUtf8Traced ic ccon.buffer.length ccon).map Prod.fst).getD []
      toUtf8LoopSubs ic ccon.buffer.length ctx ccon.buffer outbytesleft ++
        [⟨ccon.buffer.length, (removed.flatMap Removed.bytes).length⟩]

/-- The end of `processx__connection_read()`. -/
def convertNewSubs (ic : Riconv σ) (ccon : Connection σ) : List Subtraction :=
  if !ccon.rawMode ∧ ccon.buffer.length > 0 then connectionToUtf8Subs ic ccon else []

/-- `processx__connection_read()` -/
def connectionReadSubs (ic : Riconv σ) (ccon : Connection σ) (os : Os) : List Subtraction :=
  if ccon.isEofRaw ∧ ccon.buffer.length = 0 then []
  else
    let ccon := if ccon.bufferAllocatedSize = 0 then connectionAlloc ccon else ccon
    let todo := ccon.bufferAllocatedSize - ccon.buffer.length
    ⟨ccon.bufferAllocatedSize, ccon.buffer.length⟩ ::
      if todo = 0 then connectionToUtf8Subs ic ccon
      else
        match os.read todo with
        | (.bytes bytes, _) =>
          let ccon := if bytes.length = 0 then markEofRaw ccon else ccon
          convertNewSubs ic { ccon with buffer := ccon.buffer ++ bytes }
        | (.eagain, _) => convertNewSubs ic ccon
        | (.eio, _) => convertNewSubs ic (markEofRaw ccon)
        | (.error, _) => []

/-- The loop of `processx__connection_find_utf8_chars()`, which takes each character off
`length`. -/
def findUtf8CharsSubs : ℕ → Bytes → ℤ → ℤ → List Subtraction
  | 0, _, _, _ => []
  | fuel + 1, ptr, maxchars, maxbytes =>
    if maxchars = 0 ∨ maxbytes = 0 then []
    else match ptr with
    | [] => []
    | c :: _ =>
      if c < 128 then
        ⟨ptr.length, 1⟩ ::
          findUtf8CharsSubs fuel (ptr.drop 1) (countDown maxchars 1) (countDown maxbytes 1)
      else if c < 0xc0 ∨ c ≥ 0xfe then []
      else
        let clen := utf8Length c
        if ptr.length < clen then []
        else if maxbytes > 0 ∧ clen > maxbytes then []
        else
          ⟨ptr.length, clen⟩ ::
            findUtf8CharsSubs fuel (ptr.drop clen) (countDown maxchars 1) (countDown maxbytes clen)

/-- `processx__connection_find_chars()` -/
def connectionFindCharsSubs (ic : Riconv σ) (ccon : Connection σ) (os : Os)
    (maxchars maxbytes : ℤ) : List Subtraction :=
  match checkValidConn ccon with
  | .error _ => []
  | .ok () =>
    let shouldReadMore := !ccon.isEof ∧ ccon.utf8.length = 0
    (if shouldReadMore then connectionReadSubs ic ccon os else []) ++
      match if shouldReadMore then connectionRead ic ccon os else (.ok 0, ccon, os) with
      | (.error _, _, _) => []
      | (.ok _, ccon, _) =>
        if ccon.utf8.length = 0 ∨ maxchars = 0 then []
        else findUtf8CharsSubs ccon.utf8.length ccon.utf8 maxchars maxbytes

/-- `processx_connection_read_chars()` -/
def connectionReadCharsSubs (ic : Riconv σ) (ccon : Connection σ) (os : Os) (nchars : ℤ) :
    List Subtraction :=
  connectionFindCharsSubs ic ccon os nchars (-1) ++
    match connectionFindChars ic ccon os nchars (-1) with
    | (.error _, _, _) => []
    | (.ok utf8Bytes, ccon, _) =>
      match mkCharLenCE ccon.utf8 (toInt utf8Bytes) with
      | .error _ => []
      | .ok _ => [⟨ccon.utf8.length, utf8Bytes⟩]

/-- `processx_c_connection_read_chars()` -/
def cConnectionReadCharsSubs (ic : Riconv σ) (ccon : Connection σ) (os : Os) (nbyte : ℕ) :
    List Subtraction :=
  if nbyte < 4 then []
  else
    connectionFindCharsSubs ic ccon os (-1) nbyte ++
      match connectionFindChars ic ccon os (-1) nbyte with
      | (.error _, _, _) => []
      | (.ok utf8Bytes, ccon, _) => [⟨ccon.utf8.length, utf8Bytes⟩]

/-- `processx_connection_read_bytes()` -/
def connectionReadBytesSubs (ic : Riconv σ) (ccon : Connection σ) (os : Os) (nbytes : ℤ) :
    List Subtraction :=
  match checkValidConn ccon with
  | .error _ => []
  | .ok () =>
    let ccon := { ccon with rawMode := true }
    let fill := ccon.buffer.length = 0 ∧ !ccon.isEofRaw
    (if fill then connectionReadSubs ic ccon os else []) ++
      match if fill then connectionRead ic ccon os else (.ok 0, ccon, os) with
      | (.error _, _, _) => []
      | (.ok _, ccon, _) =>
        let toRead := if nbytes ≥ 0 ∧ nbytes < ccon.buffer.length then nbytes.toNat
          else ccon.buffer.length
        if toRead > 0 then [⟨ccon.buffer.length, toRead⟩] else []

/-- The loop of `processx__connection_read_until_newline()`, with
`ccon->utf8_allocated_size - 8`. -/
def untilNewlineLoopSubs (ic : Riconv σ) : ℕ → Connection σ → Os → ℕ → ℕ → List Subtraction
  | 0, _, _, _, _ => []
  | rounds + 1, ccon, os, ptr, end_ =>
    let ptr := ((((ccon.utf8.take end_).drop ptr).idxOf? lineFeed).map (ptr + ·)).getD end_
    if ptr < end_ then []
    else if ccon.isEof then []
    else
      ⟨ccon.utf8AllocatedSize, 8⟩ ::
        let ccon := if ccon.utf8.length ≥ ccon.utf8AllocatedSize - 8 then connectionRealloc ccon
          else ccon
        connectionReadSubs ic ccon os ++
          match connectionRead ic ccon os with
          | (.error _, _, _) => []
          | (.ok newBytes, ccon, os) =>
            if newBytes = 0 then [] else untilNewlineLoopSubs ic rounds ccon os ptr end_

/-- `processx__connection_read_until_newline()` -/
def readUntilNewlineSubs (ic : Riconv σ) (rounds : ℕ) (ccon : Connection σ) (os : Os) :
    List Subtraction :=
  (if ccon.utf8.length = 0 then connectionReadSubs ic ccon os else []) ++
    match if ccon.utf8.length = 0 then connectionRead ic ccon os else (.ok 0, ccon, os) with
    | (.error _, _, _) => []
    | (.ok _, ccon, os) =>
      if ccon.utf8.length = 0 then []
      else untilNewlineLoopSubs ic rounds ccon os 0 ccon.utf8.length

/-- The index of the last byte, which tells an unterminated end. -/
def unterminatedEndSubs (ccon : Connection σ) : List Subtraction :=
  if ccon.isEofRaw ∧ ccon.utf8.length ≠ 0 ∧ ccon.buffer.length = 0 then [⟨ccon.utf8.length, 1⟩]
  else []

/-- `processx_connection_read_lines()`. At an unterminated end `eol` is the index of the last
byte. -/
def readLinesSubs (ic : Riconv σ) (rounds : ℕ) (ccon : Connection σ) (os : Os) (nlines : ℤ) :
    List Subtraction :=
  let maxlines := if nlines < 0 then 1000 else nlines
  match checkValidConn ccon with
  | .error _ => []
  | .ok () =>
    readUntilNewlineSubs ic rounds ccon os ++
      match readUntilNewline ic rounds ccon os with
      | (none, _, _) => []
      | (some (.error _), _, _) => []
      | (some (.ok newline), ccon, _) =>
        unterminatedEndSubs ccon ++
          match takeText ccon.utf8 (countLines ccon.utf8 maxlines.toNat newline)
              (unterminatedEnd ccon) with
          | .error _ => []
          | .ok (_, taken) =>
            (if unterminatedEnd ccon then [⟨ccon.utf8.length, 1⟩] else []) ++
              if taken > 0 then [⟨ccon.utf8.length, taken⟩] else []

/-- `processx_c_connection_read_line()` behind its reads. -/
def serveLineSubs (before : UInt8) (ccon : Connection σ) (newline : Option ℕ) :
    List Subtraction :=
  let eof := unterminatedEnd ccon
  if newline = none ∧ !eof then []
  else
    let newline := newline.getD ccon.utf8.length
    let slashr := (before :: ccon.utf8)[newline]? = some carriageReturn
    if newline = 0 ∧ slashr then []
    else
      let newline := if slashr then newline - 1 else newline
      if !eof then [⟨ccon.utf8.length, newline + 1⟩] else []

/-- `processx_c_connection_read_line()` -/
def readLineSubs (ic : Riconv σ) (rounds : ℕ) (before : UInt8) (ccon : Connection σ) (os : Os)
    (line : LineBuffer) : List Subtraction :=
  match line.linep, line.linecapp with
  | none, _ => []
  | some _, none => []
  | some _, some _ =>
    if ccon.isEof then []
    else
      readUntilNewlineSubs ic rounds ccon os ++
        match readUntilNewline ic rounds ccon os with
        | (none, _, _) => []
        | (some (.error _), _, _) => []
        | (some (.ok newline), ccon, _) =>
          unterminatedEndSubs ccon ++ serveLineSubs before ccon newline

/-- `processx_i_pre_poll_func_connection()` -/
def prePollSubs (ic : Riconv σ) (ccon : Connection σ) : List Subtraction :=
  if !ccon.isClosed ∧ !ccon.isEof ∧ !ccon.rawMode ∧ ccon.utf8.length = 0 ∧
      ccon.buffer.length > 0 ∧ !ccon.isEofRaw then
    connectionToUtf8Subs ic ccon
  else []

/-- The subtractions of a call. -/
def BufferOp.subs (ic : Riconv σ) (rounds : ℕ) (op : BufferOp) (ccon : Connection σ) (os : Os) :
    List Subtraction :=
  match op with
  | .readChars nchars => connectionReadCharsSubs ic ccon os nchars
  | .cReadChars nbyte => cConnectionReadCharsSubs ic ccon os nbyte
  | .readBytes nbytes => connectionReadBytesSubs ic ccon os nbytes
  | .readLines nlines => readLinesSubs ic rounds ccon os nlines
  | .readLine before line => readLineSubs ic rounds before ccon os line
  | .poll => prePollSubs ic ccon

/-- The subtractions of a conversion loop, by induction on its rounds. -/
theorem toUtf8LoopSubs_exact (hic : ic.Bounded) (rounds : ℕ) (st : σ) (inbuf : Bytes) (room : ℕ) :
    AllExact (toUtf8LoopSubs ic rounds st inbuf room) := by
  induction rounds generalizing st inbuf room with
  | zero => exact allExact_nil
  | succ rounds ih =>
    have hinvalid := hic.invalid_lt st inbuf room
    rw [toUtf8LoopSubs, allExact_cons, allExact_cons]
    refine ⟨hic.consumed_le st inbuf room, hic.out_le st inbuf room, ?_⟩
    cases hstop : (ic.run st inbuf room).stop with
    | invalid =>
      have hlt := hinvalid hstop
      dsimp only
      rw [allExact_cons, List.length_drop]
      refine ⟨by omega, ?_⟩
      split
      · exact ih _ _ _
      · exact allExact_nil
    | done | full | incomplete => exact allExact_nil

/-- Those of `processx__connection_to_utf8()`. -/
theorem connectionToUtf8Subs_exact (hic : ic.Bounded) {ccon : Connection σ}
    (h : Represented ccon) : AllExact (connectionToUtf8Subs ic ccon) := by
  rw [connectionToUtf8Subs, allExact_cons]
  refine ⟨h.utf8_le, ?_⟩
  split
  · exact allExact_nil
  · obtain ⟨removed, hrounds, hremoved⟩ := convertsExactly hic ccon
    have hlength := congrArg List.length hremoved
    rw [List.length_append] at hlength
    rw [allExact_append, hrounds _ le_rfl, Option.map_some, Option.getD_some, allExact_cons]
    refine ⟨toUtf8LoopSubs_exact hic _ _ _ _, ?_, allExact_nil⟩
    dsimp only
    omega

/-- Those of a conversion of new bytes. -/
theorem convertNewSubs_exact (hic : ic.Bounded) {ccon : Connection σ} (h : Represented ccon) :
    AllExact (convertNewSubs ic ccon) := by
  unfold convertNewSubs
  split
  · exact connectionToUtf8Subs_exact hic h
  · exact allExact_nil

/-- Those of a read. -/
theorem connectionReadSubs_exact (hic : ic.Bounded) {ccon : Connection σ} (h : Represented ccon)
    (os : Os) : AllExact (connectionReadSubs ic ccon os) := by
  unfold connectionReadSubs
  by_cases hend : ccon.isEofRaw = true ∧ ccon.buffer.length = 0
  · rw [if_pos hend]
    exact allExact_nil
  rw [if_neg hend]
  obtain ⟨halloc, hopen⟩ := h.opened hend rfl
  generalize (if ccon.bufferAllocatedSize = 0 then connectionAlloc ccon else ccon) = ccon₁ at *
  dsimp only
  rw [allExact_cons]
  refine ⟨halloc.buffer_le, ?_⟩
  split
  · exact connectionToUtf8Subs_exact hic halloc
  have hle := Os.length_read_le os (ccon₁.bufferAllocatedSize - ccon₁.buffer.length)
  generalize os.read (ccon₁.bufferAllocatedSize - ccon₁.buffer.length) = answer at hle ⊢
  obtain ⟨bytes | _ | _ | _, os'⟩ := answer
  · exact convertNewSubs_exact hic (halloc.filled hopen (hle bytes os' rfl))
  · exact convertNewSubs_exact hic halloc
  · exact convertNewSubs_exact hic halloc.markEofRaw
  · exact allExact_nil

/-- Those of the count of characters. -/
theorem findUtf8CharsSubs_exact (fuel : ℕ) (ptr : Bytes) (maxchars maxbytes : ℤ) :
    AllExact (findUtf8CharsSubs fuel ptr maxchars maxbytes) := by
  induction fuel generalizing ptr maxchars maxbytes with
  | zero => exact allExact_nil
  | succ fuel ih =>
    rw [findUtf8CharsSubs.eq_def]
    dsimp only
    split
    · exact allExact_nil
    cases ptr with
    | nil => exact allExact_nil
    | cons c rest =>
      dsimp only
      split
      · rw [allExact_cons]
        exact ⟨Nat.succ_pos _, ih _ _ _⟩
      split
      · exact allExact_nil
      split
      · exact allExact_nil
      split
      · exact allExact_nil
      · rw [allExact_cons]
        exact ⟨Nat.le_of_not_lt ‹_›, ih _ _ _⟩

/-- Those of a look for characters. -/
theorem connectionFindCharsSubs_exact (hic : ic.Bounded) {ccon : Connection σ}
    (h : Represented ccon) (os : Os) (maxchars maxbytes : ℤ) :
    AllExact (connectionFindCharsSubs ic ccon os maxchars maxbytes) := by
  unfold connectionFindCharsSubs
  cases checkValidConn ccon with
  | error msg => exact allExact_nil
  | ok _ =>
    dsimp only
    rw [allExact_append]
    constructor
    · split
      · exact connectionReadSubs_exact hic h os
      · exact allExact_nil
    · generalize (if (!ccon.isEof) = true ∧ ccon.utf8.length = 0 then connectionRead ic ccon os
        else (.ok 0, ccon, os)) = answer
      obtain ⟨msg | n, ccon', os'⟩ := answer
      · exact allExact_nil
      · dsimp only
        split
        · exact allExact_nil
        · exact findUtf8CharsSubs_exact _ _ _ _

/-- What is found is in the UTF-8 buffer. -/
theorem connectionFindChars_le (ic : Riconv σ) (ccon : Connection σ) (os : Os)
    (maxchars maxbytes : ℤ) (bytes : ℕ) (ccon' : Connection σ) (os' : Os)
    (h : connectionFindChars ic ccon os maxchars maxbytes = (.ok bytes, ccon', os')) :
    bytes ≤ ccon'.utf8.length := by
  unfold connectionFindChars at h
  cases hvalid : checkValidConn ccon with
  | error msg =>
    rw [hvalid] at h
    cases h
  | ok _ =>
    rw [hvalid] at h
    dsimp only at h
    generalize (if (!ccon.isEof) = true ∧ ccon.utf8.length = 0 then connectionRead ic ccon os
      else (.ok 0, ccon, os)) = answer at h
    obtain ⟨msg | n, ccon₁, os₁⟩ := answer
    · cases h
    · dsimp only at h
      split at h
      · cases h
        exact Nat.zero_le _
      · obtain ⟨hfound, hstate⟩ := Prod.mk.inj h
        obtain ⟨rfl, rfl⟩ := Prod.mk.inj hstate
        cases hscan : connectionFindUtf8Chars ccon₁ maxchars maxbytes with
        | error msg =>
          rw [hscan] at hfound
          cases hfound
        | ok found =>
          rw [hscan] at hfound
          obtain rfl : found.2 = bytes := Except.ok.inj hfound
          simpa using findUtf8CharsFrom_bytes_le hscan

/-- The subtractions of `processx__connection_read_chars()` are exact. -/
theorem connectionReadCharsSubs_exact (hic : ic.Bounded) {ccon : Connection σ}
    (h : Represented ccon) (os : Os) (nchars : ℤ) :
    AllExact (connectionReadCharsSubs ic ccon os nchars) := by
  have hle := connectionFindChars_le ic ccon os nchars (-1)
  rw [connectionReadCharsSubs, allExact_append]
  refine ⟨connectionFindCharsSubs_exact hic h os _ _, ?_⟩
  generalize connectionFindChars ic ccon os nchars (-1) = answer at hle ⊢
  obtain ⟨msg | bytes, ccon', os'⟩ := answer
  · exact allExact_nil
  · dsimp only
    split
    · exact allExact_nil
    · rw [allExact_cons]
      exact ⟨hle bytes ccon' os' rfl, allExact_nil⟩

/-- So are those of `processx_c_connection_read_chars()`. -/
theorem cConnectionReadCharsSubs_exact (hic : ic.Bounded) {ccon : Connection σ}
    (h : Represented ccon) (os : Os) (nbyte : ℕ) :
    AllExact (cConnectionReadCharsSubs ic ccon os nbyte) := by
  unfold cConnectionReadCharsSubs
  split
  · exact allExact_nil
  have hle := connectionFindChars_le ic ccon os (-1) nbyte
  rw [allExact_append]
  refine ⟨connectionFindCharsSubs_exact hic h os _ _, ?_⟩
  generalize connectionFindChars ic ccon os (-1) nbyte = answer at hle ⊢
  obtain ⟨msg | bytes, ccon', os'⟩ := answer
  · exact allExact_nil
  · dsimp only
    rw [allExact_cons]
    exact ⟨hle bytes ccon' os' rfl, allExact_nil⟩

/-- So are those of `processx__connection_read_bytes()`. -/
theorem connectionReadBytesSubs_exact (hic : ic.Bounded) {ccon : Connection σ}
    (h : Represented ccon) (os : Os) (nbytes : ℤ) :
    AllExact (connectionReadBytesSubs ic ccon os nbytes) := by
  unfold connectionReadBytesSubs
  cases checkValidConn ccon with
  | error msg => exact allExact_nil
  | ok _ =>
    have hraw : Represented { ccon with rawMode := true } :=
      ⟨h.buffer_le, h.utf8_le, h.allocated, h.unallocated, h.eof⟩
    dsimp only
    rw [allExact_append]
    constructor
    · split
      · exact connectionReadSubs_exact hic hraw os
      · exact allExact_nil
    · generalize (if ccon.buffer.length = 0 ∧ (!ccon.isEofRaw) = true then
        connectionRead ic { ccon with rawMode := true } os
        else (.ok 0, { ccon with rawMode := true }, os)) = answer
      obtain ⟨msg | n, ccon₁, os₁⟩ := answer
      · exact allExact_nil
      · have hle : (if nbytes ≥ 0 ∧ nbytes < ccon₁.buffer.length then nbytes.toNat
            else ccon₁.buffer.length) ≤ ccon₁.buffer.length := by
          split <;> omega
        dsimp only
        generalize (if nbytes ≥ 0 ∧ nbytes < ccon₁.buffer.length then nbytes.toNat
          else ccon₁.buffer.length) = toRead at hle ⊢
        split
        · rw [allExact_cons]
          exact ⟨hle, allExact_nil⟩
        · exact allExact_nil

/-- The buffers of a connection whose UTF-8 buffer is not empty are allocated. -/
theorem Represented.eight_le {ccon : Connection σ} (h : Represented ccon) (hne : ccon.utf8 ≠ []) :
    8 ≤ ccon.utf8AllocatedSize := by
  have hpos := List.length_pos_of_ne_nil hne
  have hutf8 := h.utf8_le
  have hunallocated := h.unallocated
  have hallocated := h.allocated
  omega

/-- The subtractions of the loop that reads until a newline are exact. -/
theorem untilNewlineLoopSubs_exact (hic : ic.Bounded) (rounds : ℕ) {ccon : Connection σ}
    (h : Represented ccon) (hne : ccon.utf8 ≠ []) (os : Os) (ptr end_ : ℕ) :
    AllExact (untilNewlineLoopSubs ic rounds ccon os ptr end_) := by
  induction rounds generalizing ccon os ptr with
  | zero => exact allExact_nil
  | succ rounds ih =>
    rw [untilNewlineLoopSubs]
    dsimp only
    split
    · exact allExact_nil
    split
    · exact allExact_nil
    have hgrow := h.grow
    have hsame := grow_utf8 ccon
    rw [allExact_cons]
    refine ⟨h.eight_le hne, ?_⟩
    generalize (if ccon.utf8.length ≥ ccon.utf8AllocatedSize - 8 then connectionRealloc ccon
      else ccon) = ccon₁ at hgrow hsame ⊢
    have hread := hgrow.read hic os
    have hextends := hgrow.read_extends hic os
    rw [allExact_append]
    refine ⟨connectionReadSubs_exact hic hgrow os, ?_⟩
    generalize connectionRead ic ccon₁ os = answer at hread hextends ⊢
    obtain ⟨msg | newBytes, ccon₂, os₂⟩ := answer
    · exact allExact_nil
    · dsimp only at hread hextends ⊢
      split
      · exact allExact_nil
      · refine ih hread (fun hnil => hne ?_) os₂ _
        rw [hnil, List.prefix_nil] at hextends
        rw [← hsame, hextends]

/-- Those of a look for a line feed. -/
theorem readUntilNewlineSubs_exact (hic : ic.Bounded) (rounds : ℕ) {ccon : Connection σ}
    (h : Represented ccon) (os : Os) : AllExact (readUntilNewlineSubs ic rounds ccon os) := by
  rw [readUntilNewlineSubs, allExact_append]
  constructor
  · split
    · exact connectionReadSubs_exact hic h os
    · exact allExact_nil
  · have hstart := h.readIf hic os (ccon.utf8.length = 0)
    generalize (if ccon.utf8.length = 0 then connectionRead ic ccon os else (.ok 0, ccon, os)) =
      answer at hstart ⊢
    obtain ⟨msg | n, ccon₁, os₁⟩ := answer
    · exact allExact_nil
    · dsimp only at hstart ⊢
      split
      · exact allExact_nil
      · rename_i hpos
        exact untilNewlineLoopSubs_exact hic rounds hstart
          (fun hnil => hpos (by rw [hnil]; rfl)) os₁ _ _

/-- Those of a look at the end of the buffer. -/
theorem unterminatedEndSubs_exact (ccon : Connection σ) : AllExact (unterminatedEndSubs ccon) := by
  unfold unterminatedEndSubs
  split
  · rename_i hend
    rw [allExact_cons]
    exact ⟨Nat.pos_of_ne_zero hend.2.1, allExact_nil⟩
  · exact allExact_nil

/-- The lines that are taken are in the UTF-8 buffer. -/
theorem takeText_le {utf8 : Bytes} {linesRead taken : ℕ} {eof : Bool} {strings : List Bytes}
    (hle : linesRead ≤ utf8.count lineFeed)
    (htake : takeText utf8 linesRead eof = .ok (strings, taken)) : taken ≤ utf8.length := by
  obtain ⟨complete, start, hlines, ⟨-, -, rfl⟩ | ⟨-, rfl, -⟩⟩ := takeText_cases htake
  · obtain ⟨_, _, _, hbehind, _⟩ := takeLines_behind [] 0 (by simpa using hle) (Or.inl rfl) hlines
    rcases hbehind with hzero | hlf
    · omega
    · have hlt := (List.getElem?_eq_some_iff.mp hlf).1
      omega
  · exact le_rfl

/-- A buffer that does not end in a line feed is not empty. -/
theorem length_pos_of_unterminatedEnd {ccon : Connection σ} (h : unterminatedEnd ccon = true) :
    0 < ccon.utf8.length := by
  rw [unterminatedEnd, decide_eq_true_eq] at h
  exact Nat.pos_of_ne_zero h.2.1

/-- Those of a read of lines. -/
theorem readLinesSubs_exact (hic : ic.Bounded) (rounds : ℕ) {ccon : Connection σ}
    (h : Represented ccon) (os : Os) (nlines : ℤ) :
    AllExact (readLinesSubs ic rounds ccon os nlines) := by
  unfold readLinesSubs
  cases checkValidConn ccon with
  | error msg => exact allExact_nil
  | ok _ =>
    have hnewline {ccon' : Connection σ} {os' : Os} {newline : Option ℕ}
        (heq : readUntilNewline ic rounds ccon os = (some (.ok newline), ccon', os')) :=
      readUntilNewline_newline ic heq
    dsimp only
    rw [allExact_append]
    refine ⟨readUntilNewlineSubs_exact hic rounds h os, ?_⟩
    generalize readUntilNewline ic rounds ccon os = answer at hnewline ⊢
    obtain ⟨_ | _ | newline, ccon', os'⟩ := answer
    · exact allExact_nil
    · exact allExact_nil
    · dsimp only
      rw [allExact_append]
      refine ⟨unterminatedEndSubs_exact ccon', ?_⟩
      have hcount := countLines_eq_min (hnewline rfl) nlines
      generalize countLines ccon'.utf8 (if nlines < 0 then 1000 else nlines).toNat newline =
        linesRead at hcount ⊢
      cases htake : takeText ccon'.utf8 linesRead (unterminatedEnd ccon') with
      | error msg => exact allExact_nil
      | ok found =>
        have hle := takeText_le (hcount.trans_le (Nat.min_le_right _ _)) htake
        dsimp only
        rw [allExact_append]
        constructor
        · split
          · rename_i hend
            rw [allExact_cons]
            exact ⟨length_pos_of_unterminatedEnd hend, allExact_nil⟩
          · exact allExact_nil
        · split
          · rw [allExact_cons]
            exact ⟨hle, allExact_nil⟩
          · exact allExact_nil

/-- Those of the copy of one line. -/
theorem serveLineSubs_exact (before : UInt8) {ccon : Connection σ} {newline : Option ℕ}
    (hnewline : newline = none ∨ newline = findNewline ccon.utf8 0) :
    AllExact (serveLineSubs before ccon newline) := by
  unfold serveLineSubs
  dsimp only
  split
  · exact allExact_nil
  rename_i hserved
  split
  · exact allExact_nil
  split
  · rename_i hend
    -- not at an unterminated end, so a line feed was found
    obtain ⟨eol, rfl⟩ : ∃ eol, newline = some eol :=
      Option.ne_none_iff_exists'.mp fun hnone => hserved ⟨hnone, hend⟩
    have hlt : eol < ccon.utf8.length := by
      rcases hnewline with hnone | hfind
      · cases hnone
      · exact lt_of_findNewline hfind.symm
    rw [allExact_cons, Option.getD_some]
    refine ⟨?_, allExact_nil⟩
    split <;> omega
  · exact allExact_nil

/-- Those of a read of one line. -/
theorem readLineSubs_exact (hic : ic.Bounded) (rounds : ℕ) (before : UInt8) {ccon : Connection σ}
    (h : Represented ccon) (os : Os) (line : LineBuffer) :
    AllExact (readLineSubs ic rounds before ccon os line) := by
  unfold readLineSubs
  obtain ⟨_ | linep, _ | linecapp⟩ := line
  · exact allExact_nil
  · exact allExact_nil
  · exact allExact_nil
  · dsimp only
    split
    · exact allExact_nil
    have hnewline {ccon' : Connection σ} {os' : Os} {newline : Option ℕ}
        (heq : readUntilNewline ic rounds ccon os = (some (.ok newline), ccon', os')) :=
      readUntilNewline_newline ic heq
    rw [allExact_append]
    refine ⟨readUntilNewlineSubs_exact hic rounds h os, ?_⟩
    generalize readUntilNewline ic rounds ccon os = answer at hnewline ⊢
    obtain ⟨_ | _ | newline, ccon', os'⟩ := answer
    · exact allExact_nil
    · exact allExact_nil
    · dsimp only
      rw [allExact_append]
      exact ⟨unterminatedEndSubs_exact ccon', serveLineSubs_exact before (hnewline rfl)⟩

/-- Those of the start of a poll. -/
theorem prePollSubs_exact (hic : ic.Bounded) {ccon : Connection σ} (h : Represented ccon) :
    AllExact (prePollSubs ic ccon) := by
  unfold prePollSubs
  split
  · exact connectionToUtf8Subs_exact hic h
  · exact allExact_nil

/-- Those of each call. -/
theorem BufferOp.subs_exact (hic : ic.Bounded) (rounds : ℕ) (op : BufferOp) {ccon : Connection σ}
    (h : Represented ccon) (os : Os) : AllExact (op.subs ic rounds ccon os) := by
  cases op with
  | readChars nchars => exact connectionReadCharsSubs_exact hic h os nchars
  | cReadChars nbyte => exact cConnectionReadCharsSubs_exact hic h os nbyte
  | readBytes nbytes => exact connectionReadBytesSubs_exact hic h os nbytes
  | readLines nlines => exact readLinesSubs_exact hic rounds h os nlines
  | readLine before line => exact readLineSubs_exact hic rounds before h os line
  | poll => exact prePollSubs_exact hic h

/-- **The buffers of a connection.** After any sequence of text reads, raw reads and polls,
whatever the operating system returns and `Riconv()` answers, the data sizes are within the
allocated sizes and a connection at its end has nothing in its raw buffer; the next call makes no
subtraction that wraps around; and a conversion ends and has removed what it converted or
skipped. -/
theorem buffers_represented (hic : ic.Bounded) (osHandle : ℤ) (encoding : String) (os : Os)
    (calls : List (ℕ × BufferOp)) :
    Represented (bufferRun ic osHandle encoding os calls).ccon ∧
    (∀ rounds (op : BufferOp), AllExact (op.subs ic rounds
      (bufferRun ic osHandle encoding os calls).ccon
      (bufferRun ic osHandle encoding os calls).os)) ∧
    ∀ ccon, ConvertsExactly ic ccon := by
  have h := bufferRun_represented hic osHandle encoding os calls
  exact ⟨h, fun rounds op => op.subs_exact hic rounds h _, convertsExactly hic⟩

/-- An invalid byte, text and raw reads, and a poll. -/
theorem buffers_represented_mixed :
    let run := bufferRun utf8Riconv 3 "" ⟨[.data [0x61, 0xff, 0x0a, 0x62], .eagain, .eof], false⟩
      [(1, .poll), (2, .readChars 1), (2, .readLines 1), (1, .readBytes 2), (2, .readChars 1)]
    Represented run.ccon ∧
      (∀ rounds (op : BufferOp), AllExact (op.subs utf8Riconv rounds run.ccon run.os)) ∧
      ∀ ccon, ConvertsExactly utf8Riconv ccon :=
  buffers_represented utf8Riconv_follows.bounded 3 "" _ _

end Processx
