import Processx.Library.Decoder
import Processx.Library.Lines
import Mathlib.Algebra.Group.Int.Defs
import Mathlib.Algebra.Group.Nat.Defs
import Mathlib.Data.Int.Notation

/-!
# Connections and the functions that read them

The Unix half of `processx-connection.c`. A connection has a raw buffer, which
`read()` fills, and a UTF-8 buffer, which `Riconv()` fills from the raw one. The
data sizes of the source are the lengths of the two lists here, the allocated
sizes are kept as numbers. `Riconv()` is not part of the repository, so it is a
parameter; the operating system is a script of `read()` results.
-/

namespace Processx

open Incremental

/-- Bytes, as in the buffers of a connection. -/
abbrev Bytes := List UInt8

/-- The line feed `'\n'`. -/
def lineFeed : UInt8 := 10

/-- The carriage return `'\r'`. -/
def carriageReturn : UInt8 := 13

/-- A C cast of a length to `int`: the low 32 bits, in two's complement. -/
def toInt (n : ℕ) : ℤ :=
  if n % 2 ^ 32 < 2 ^ 31 then (n % 2 ^ 32 : ℕ) else (n % 2 ^ 32 : ℕ) - 2 ^ 32

/-- The part of R's string conversion the code uses: the state `Riconv_open()`
starts in and one call of `Riconv()` with a given output room. -/
structure Riconv (σ : Type) where
  open_ : σ
  run : σ → Bytes → ℕ → Conversion σ UInt8

/-- What is assumed of `Riconv()`: it consumes the longest run of complete
characters that fits, and answers according to the bytes that follow. -/
def Riconv.Follows {σ : Type} (ic : Riconv σ) (d : Decoder σ UInt8 UInt8) : Prop :=
  ∀ st inbuf room, ic.run st inbuf room = d.convert room st inbuf

/-- What `read()` may report next: some bytes, nothing for now, the end of the
file, `EIO` or another error. -/
inductive ReadItem
  | data (bytes : Bytes)
  | eagain
  | eof
  | eio
  | error
  deriving DecidableEq

/-- The results the operating system will give, and whether it has reported the
end of the file yet (as `0` or as `EIO`). -/
structure Os where
  items : List ReadItem
  eofReported : Bool := false
  deriving DecidableEq

/-- One result of `read()`. No bytes stand for a result of `0`. -/
inductive ReadResult
  | bytes (bytes : Bytes)
  | eagain
  | eio
  | error
  deriving DecidableEq

/-- The bytes an item still delivers. -/
def ReadItem.bytes : ReadItem → Bytes
  | .data bytes => bytes
  | _ => []

/-- Does an item report the end of the file? -/
def ReadItem.isEof : ReadItem → Bool
  | .eof | .eio => true
  | _ => false

/-- The part of the stream that `read()` has not delivered yet. -/
def Os.stream (os : Os) : Bytes := os.items.flatMap ReadItem.bytes

/-- A script the operating system may follow: data items are not empty, and no
data comes behind the end of the file. -/
def Os.WellFormed (os : Os) : Prop :=
  (∀ item ∈ os.items, item ≠ .data []) ∧
    os.items.Pairwise (fun item later => item.isEof = true → later.bytes = []) ∧
    (os.eofReported = true → os.stream = [])

instance (os : Os) : Decidable os.WellFormed :=
  inferInstanceAs (Decidable ((∀ item ∈ os.items, item ≠ .data []) ∧
    os.items.Pairwise (fun item later => item.isEof = true → later.bytes = []) ∧
    (os.eofReported = true → os.stream = [])))

/-- `read()` with room for `todo` bytes. A chunk that does not fit is delivered in
parts; a script that has run out is at the end of the file. -/
def Os.read (os : Os) (todo : ℕ) : ReadResult × Os :=
  match os.items with
  | [] => (.bytes [], { os with eofReported := true })
  | .data bytes :: rest =>
    if bytes.length ≤ todo then (.bytes bytes, { os with items := rest })
    else (.bytes (bytes.take todo), { os with items := .data (bytes.drop todo) :: rest })
  | .eagain :: rest => (.eagain, { os with items := rest })
  | .eof :: rest => (.bytes [], { items := rest, eofReported := true })
  | .eio :: rest => (.eio, { items := rest, eofReported := true })
  | .error :: rest => (.error, { os with items := rest })

/-- `processx_connection_t`: the fields the reading functions use. The state of
`iconv_ctx` is `none` before the first conversion. -/
structure Connection (σ : Type) where
  isClosed : Bool := false
  isEof : Bool := false
  isEofRaw : Bool := false
  rawMode : Bool := false
  iconvCtx : Option σ := none
  handle : ℤ
  buffer : Bytes := []
  bufferAllocatedSize : ℕ := 0
  utf8 : Bytes := []
  utf8AllocatedSize : ℕ := 0
  deriving DecidableEq

variable {σ : Type}

/-- `processx_c_connection_create()`: a fresh text-mode connection. -/
def cConnectionCreate (osHandle : ℤ) : Connection σ := { handle := osHandle }

/-- `processx__connection_alloc()`. -/
def connectionAlloc (ccon : Connection σ) : Connection σ :=
  { ccon with
    buffer := [], bufferAllocatedSize := 64 * 1024, utf8 := [], utf8AllocatedSize := 64 * 1024 }

/-- `processx__connection_realloc()`. The factor 1.2 is a double in the source. -/
def connectionRealloc (ccon : Connection σ) : Connection σ :=
  let newSize := ccon.utf8AllocatedSize * 6 / 5
  let newSize := if newSize = ccon.utf8AllocatedSize then 2 * newSize else newSize
  { ccon with utf8AllocatedSize := newSize }

/-- The loop of `processx__connection_to_utf8()`: what is left of the input, the
output written so far and the conversion state. The bound counts rounds; each
round but the last drops an invalid byte. -/
def toUtf8Loop (ic : Riconv σ) (isEofRaw : Bool) : ℕ → σ → Bytes → ℕ → Bytes → Bytes × Bytes × σ
  | 0, st, inbuf, _, out => (inbuf, out, st)
  | rounds + 1, st, inbuf, outbytesleft, out =>
    let r := ic.run st inbuf outbytesleft
    let inbuf := inbuf.drop r.consumed
    let outbytesleft := outbytesleft - r.out.length
    let out := out ++ r.out
    match r.stop with
    | .done => (inbuf, out, r.next)
    | .full => (inbuf, out, r.next)
    | .invalid =>
      let inbuf := inbuf.drop 1
      if inbuf.length > 0 then toUtf8Loop ic isEofRaw rounds r.next inbuf outbytesleft out
      else (inbuf, out, r.next)
    | .incomplete =>
      -- the incomplete character stays for later, unless nothing can complete it any more
      if isEofRaw then ([], out, r.next) else (inbuf, out, r.next)

/-- `processx__connection_to_utf8()`: convert what the raw buffer holds, and return the number of
bytes written. The warning at an incomplete end only counts where it throws, or where `Riconv_open()`
has failed: that is in `Connection.Warnings`. -/
def connectionToUtf8 (ic : Riconv σ) (ccon : Connection σ) : ℕ × Connection σ :=
  let inbytesleft := ccon.buffer.length
  let outbytesleft := ccon.utf8AllocatedSize - ccon.utf8.length
  let ctx := ccon.iconvCtx.getD ic.open_
  if inbytesleft = 0 ∨ outbytesleft = 0 then (0, { ccon with iconvCtx := some ctx })
  else
    let (inbuf, out, ctx) := toUtf8Loop ic ccon.isEofRaw inbytesleft ctx ccon.buffer outbytesleft []
    (out.length,
      { ccon with iconvCtx := some ctx, buffer := inbuf, utf8 := ccon.utf8 ++ out })

/-- The end of the file was reported: `is_eof_raw_` is set, and `is_eof_` as well
if both buffers are empty. -/
def markEofRaw (ccon : Connection σ) : Connection σ :=
  { ccon with
    isEofRaw := true
    isEof := ccon.isEof || (ccon.utf8.isEmpty && ccon.buffer.isEmpty) }

/-- The end of `processx__connection_read()`: convert, unless in raw mode. -/
def convertNew (ic : Riconv σ) (ccon : Connection σ) : ℕ × Connection σ :=
  if !ccon.rawMode ∧ ccon.buffer.length > 0 then connectionToUtf8 ic ccon
  else (ccon.buffer.length, ccon)

/-- `processx__connection_read()`: one `read()` and a conversion. The result is the
number of new bytes, or the message of the error that was thrown. -/
def connectionRead (ic : Riconv σ) (ccon : Connection σ) (os : Os) :
    Except String ℕ × Connection σ × Os :=
  if ccon.isEofRaw ∧ ccon.buffer.length = 0 then
    let ccon := if ccon.utf8.length = 0 then { ccon with isEof := true } else ccon
    (.ok 0, ccon, os)
  else
    let ccon := if ccon.bufferAllocatedSize = 0 then connectionAlloc ccon else ccon
    let todo := ccon.bufferAllocatedSize - ccon.buffer.length
    if todo = 0 then
      let (newBytes, ccon) := connectionToUtf8 ic ccon
      (.ok newBytes, ccon, os)
    else
      match os.read todo with
      | (.bytes bytes, os) =>
        let ccon := if bytes.length = 0 then markEofRaw ccon else ccon
        let (newBytes, ccon) := convertNew ic { ccon with buffer := ccon.buffer ++ bytes }
        (.ok newBytes, ccon, os)
      | (.eagain, os) =>
        let (newBytes, ccon) := convertNew ic ccon
        (.ok newBytes, ccon, os)
      | (.eio, os) =>
        let (newBytes, ccon) := convertNew ic (markEofRaw ccon)
        (.ok newBytes, ccon, os)
      | (.error, os) => (.error "Cannot read from processx connection", ccon, os)

/-- `PROCESSX_CHECK_VALID_CONN()`. -/
def checkValidConn (ccon : Connection σ) : Except String Unit :=
  if ccon.handle < 0 then .error "Invalid (uninitialized or closed?) connection object" else .ok ()

/-- `mkCharLenCE()`: an R string of `len` bytes of a buffer. R refuses a negative
length and a NUL byte. -/
def mkCharLenCE (memory : Bytes) (len : ℤ) : Except String Bytes :=
  if len < 0 then .error "negative length vectors are not allowed"
  else if 0 ∈ memory.take len.toNat then .error "embedded nul in string"
  else .ok (memory.take len.toNat)

/-- `processx__utf8_length`: the length of a character by its first byte. -/
def utf8Length (c : UInt8) : ℕ :=
  [2, 2, 2, 2, 2, 2, 2, 2, 2, 2, 2, 2, 2, 2, 2, 2,
   2, 2, 2, 2, 2, 2, 2, 2, 2, 2, 2, 2, 2, 2, 2, 2,
   3, 3, 3, 3, 3, 3, 3, 3, 3, 3, 3, 3, 3, 3, 3, 3,
   4, 4, 4, 4, 4, 4, 4, 4, 5, 5, 5, 5, 6, 6, 6, 6].getD (c &&& 0x3f).toNat 0

/-- A limit that counts down unless it is negative, which means no limit. -/
def countDown (limit : ℤ) (by_ : ℕ) : ℤ := if limit > 0 then limit - by_ else limit

/-- The loop of `processx__connection_find_utf8_chars()` from `ptr` on, with the
numbers of characters and bytes found so far. -/
def findUtf8CharsFrom : ℕ → Bytes → ℤ → ℤ → ℕ → ℕ → Except String (ℕ × ℕ)
  | 0, _, _, _, chars, bytes => .ok (chars, bytes)
  | fuel + 1, ptr, maxchars, maxbytes, chars, bytes =>
    if maxchars = 0 ∨ maxbytes = 0 then .ok (chars, bytes)
    else match ptr with
    | [] => .ok (chars, bytes)
    | c :: _ =>
      if c < 128 then
        findUtf8CharsFrom fuel (ptr.drop 1) (countDown maxchars 1) (countDown maxbytes 1)
          (chars + 1) (bytes + 1)
      else if c < 0xc0 ∨ c ≥ 0xfe then .error "Invalid UTF-8 string, internal error"
      else
        let clen := utf8Length c
        if ptr.length < clen then .error "Invalid UTF-8 string, internal error"
        else if maxbytes > 0 ∧ clen > maxbytes then .ok (chars, bytes)
        else
          findUtf8CharsFrom fuel (ptr.drop clen) (countDown maxchars 1) (countDown maxbytes clen)
            (chars + 1) (bytes + clen)

/-- `processx__connection_find_utf8_chars()`: the numbers of characters and bytes. -/
def connectionFindUtf8Chars (ccon : Connection σ) (maxchars maxbytes : ℤ) : Except String (ℕ × ℕ) :=
  findUtf8CharsFrom ccon.utf8.length ccon.utf8 maxchars maxbytes 0 0

/-- `processx__connection_find_chars()`: read once if the UTF-8 buffer is empty, and
return the number of bytes to take from it. -/
def connectionFindChars (ic : Riconv σ) (ccon : Connection σ) (os : Os) (maxchars maxbytes : ℤ) :
    Except String ℕ × Connection σ × Os :=
  match checkValidConn ccon with
  | .error msg => (.error msg, ccon, os)
  | .ok () =>
    let shouldReadMore := !ccon.isEof ∧ ccon.utf8.length = 0
    match if shouldReadMore then connectionRead ic ccon os else (.ok 0, ccon, os) with
    | (.error msg, ccon, os) => (.error msg, ccon, os)
    | (.ok _, ccon, os) =>
      if ccon.utf8.length = 0 ∨ maxchars = 0 then (.ok 0, ccon, os)
      else ((connectionFindUtf8Chars ccon maxchars maxbytes).map Prod.snd, ccon, os)

/-- Remove the first bytes of the UTF-8 buffer. -/
def dropUtf8 (ccon : Connection σ) (bytes : ℕ) : Connection σ :=
  { ccon with utf8 := ccon.utf8.drop bytes }

/-- `processx_connection_read_chars()`. -/
def connectionReadChars (ic : Riconv σ) (ccon : Connection σ) (os : Os) (nchars : ℤ) :
    Except String Bytes × Connection σ × Os :=
  match connectionFindChars ic ccon os nchars (-1) with
  | (.error msg, ccon, os) => (.error msg, ccon, os)
  | (.ok utf8Bytes, ccon, os) =>
    match mkCharLenCE ccon.utf8 (toInt utf8Bytes) with
    | .error msg => (.error msg, ccon, os)
    | .ok result => (.ok result, dropUtf8 ccon utf8Bytes, os)

/-- `processx_c_connection_read_chars()`. -/
def cConnectionReadChars (ic : Riconv σ) (ccon : Connection σ) (os : Os) (nbyte : ℕ) :
    Except String Bytes × Connection σ × Os :=
  if nbyte < 4 then
    (.error "Buffer size must be at least 4 bytes, to allow multibyte characters", ccon, os)
  else
    match connectionFindChars ic ccon os (-1) nbyte with
    | (.error msg, ccon, os) => (.error msg, ccon, os)
    | (.ok utf8Bytes, ccon, os) =>
      (.ok (ccon.utf8.take utf8Bytes), dropUtf8 ccon utf8Bytes, os)

/-- `processx__find_newline()`: the first line feed from `start` on, `none` for -1. -/
def findNewline (utf8 : Bytes) (start : ℕ) : Option ℕ :=
  if utf8.length = 0 then none else ((utf8.drop start).idxOf? lineFeed).map (start + ·)

/-- The loop of `processx__connection_read_until_newline()`. The bytes from `ptr` to
`end_` are those not scanned yet; the source computes `end_` once, before the
loop, and moves it only together with a reallocated buffer. -/
def readUntilNewlineLoop (ic : Riconv σ) : ℕ → Connection σ → Os → ℕ → ℕ →
    Except String (Option ℕ) × Connection σ × Os
  | 0, ccon, os, _, _ => (.ok none, ccon, os)
  | fuel + 1, ccon, os, ptr, end_ =>
    let ptr := ((((ccon.utf8.take end_).drop ptr).idxOf? lineFeed).map (ptr + ·)).getD end_
    if ptr < end_ then (.ok (some ptr), ccon, os)
    else if ccon.isEof then (.ok none, ccon, os)
    else
      let ccon := if ccon.utf8.length ≥ ccon.utf8AllocatedSize - 8 then connectionRealloc ccon
        else ccon
      match connectionRead ic ccon os with
      | (.error msg, ccon, os) => (.error msg, ccon, os)
      | (.ok newBytes, ccon, os) =>
        if newBytes = 0 then (.ok none, ccon, os)
        else readUntilNewlineLoop ic fuel ccon os ptr end_

/-- A bound on the rounds of `processx__connection_read_until_newline()`: every
round but the last takes at least one byte from the raw buffer or the stream. -/
def readRounds (ccon : Connection σ) (os : Os) : ℕ := ccon.buffer.length + os.stream.length + 1

/-- `processx__connection_read_until_newline()`: the place of the first line feed,
`none` for -1. -/
def connectionReadUntilNewline (ic : Riconv σ) (ccon : Connection σ) (os : Os) :
    Except String (Option ℕ) × Connection σ × Os :=
  match if ccon.utf8.length = 0 then connectionRead ic ccon os else (.ok 0, ccon, os) with
  | (.error msg, ccon, os) => (.error msg, ccon, os)
  | (.ok _, ccon, os) =>
    if ccon.utf8.length = 0 then (.ok none, ccon, os)
    else readUntilNewlineLoop ic (readRounds ccon os) ccon os 0 ccon.utf8.length

/-- The counting loop of `processx__connection_find_lines()`: the number of lines
that end at `newline` or behind it, at most `maxlines`. -/
def countLines (utf8 : Bytes) : ℕ → Option ℕ → ℕ
  | 0, _ => 0
  | _ + 1, none => 0
  | maxlines + 1, some newline => countLines utf8 maxlines (findNewline utf8 (newline + 1)) + 1

/-- Does the file end in the UTF-8 buffer, and without a line feed? -/
def unterminatedEnd (ccon : Connection σ) : Bool :=
  ccon.isEofRaw ∧ ccon.utf8.length ≠ 0 ∧ ccon.buffer.length = 0 ∧
    ccon.utf8.getLast? ≠ some lineFeed

/-- `processx__connection_find_lines()`: the number of complete lines to return, and
whether what stands behind them is returned as a last line. -/
def connectionFindLines (ic : Riconv σ) (ccon : Connection σ) (os : Os) (maxlines : ℤ) :
    Except String (ℕ × Bool) × Connection σ × Os :=
  let maxlines := if maxlines < 0 then 1000 else maxlines
  match checkValidConn ccon with
  | .error msg => (.error msg, ccon, os)
  | .ok () =>
    match connectionReadUntilNewline ic ccon os with
    | (.error msg, ccon, os) => (.error msg, ccon, os)
    | (.ok newline, ccon, os) =>
      (.ok (countLines ccon.utf8 maxlines.toNat newline, unterminatedEnd ccon), ccon, os)

/-- The loop of `processx_connection_read_lines()` over the complete lines: the
strings, and where the text behind the last of them starts. -/
def takeLines (utf8 : Bytes) : ℕ → ℕ → Except String (List Bytes × ℕ)
  | 0, start => .ok ([], start)
  | linesRead + 1, start => do
    let eol := (findNewline utf8 start).getD 0
    let slashr := if 0 < eol ∧ utf8[eol - 1]? = some carriageReturn then 1 else 0
    let line ← mkCharLenCE (utf8.drop start) (toInt (eol - start - slashr))
    let (lines, behind) ← takeLines utf8 linesRead (eol + 1)
    .ok (line :: lines, behind)

/-- The strings `processx_connection_read_lines()` makes of the UTF-8 buffer, and the
number of bytes it removes. -/
def takeText (utf8 : Bytes) (linesRead : ℕ) (eof : Bool) : Except String (List Bytes × ℕ) := do
  let (lines, start) ← takeLines utf8 linesRead 0
  if eof then
    let last ← mkCharLenCE (utf8.drop start) (toInt (utf8.length - start))
    .ok (lines ++ [last], utf8.length)
  else .ok (lines, start)

/-- `processx_connection_read_lines()`. -/
def connectionReadLines (ic : Riconv σ) (ccon : Connection σ) (os : Os) (nlines : ℤ) :
    Except String (List Bytes) × Connection σ × Os :=
  match connectionFindLines ic ccon os nlines with
  | (.error msg, ccon, os) => (.error msg, ccon, os)
  | (.ok (linesRead, eof), ccon, os) =>
    match takeText ccon.utf8 linesRead eof with
    | .error msg => (.error msg, ccon, os)
    | .ok (result, taken) => (.ok result, dropUtf8 ccon taken, os)

/-- The events of a poll before the system call is made. -/
inductive PrePoll
  | closed
  | ready
  | handle (fd : ℤ)
  deriving DecidableEq

/-- `processx_i_pre_poll_func_connection()` on an existing connection. -/
def prePollConnection (ic : Riconv σ) (ccon : Connection σ) : PrePoll × Connection σ :=
  if ccon.isClosed then (.closed, ccon)
  else if ccon.isEof then (.ready, ccon)
  else if ccon.rawMode then
    if ccon.buffer.length > 0 then (.ready, ccon) else (.handle ccon.handle, ccon)
  else if ccon.utf8.length > 0 then (.ready, ccon)
  else if ccon.buffer.length > 0 ∧ ccon.isEofRaw then (.ready, ccon)
  else if ccon.buffer.length > 0 then
    let ccon := (connectionToUtf8 ic ccon).2
    if ccon.utf8.length > 0 then (.ready, ccon) else (.handle ccon.handle, ccon)
  else (.handle ccon.handle, ccon)

end Processx
