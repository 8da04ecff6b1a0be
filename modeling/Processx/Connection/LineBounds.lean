import Processx.Connection.Buffers

/-!
# Where the line readers look

Every read of the UTF-8 buffer by `processx__find_newline()`,
`processx__connection_read_until_newline()`, `processx_connection_read_lines()` and
`processx_c_connection_read_line()`, in the order of the source and for at most some rounds of the
loop that reads. The first two stay inside the buffer, whatever the calls before were and whatever
`Riconv()` answers. The third passes a length on as an `int`, and the fourth looks at the byte in
front of the buffer if the line feed it found is the first byte.
-/

namespace Processx

open Incremental Textual

variable {σ : Type} {ic : Riconv σ}

/-- A read of `len` bytes from `start` on, while the UTF-8 buffer holds `size` bytes. -/
structure Utf8Read where
  size : ℕ
  start : ℤ
  len : ℤ
  deriving DecidableEq

/-- A read of non-negative length inside the buffer. -/
def Utf8Read.Inside (read : Utf8Read) : Prop :=
  0 ≤ read.start ∧ 0 ≤ read.len ∧ read.start + read.len ≤ read.size

instance (read : Utf8Read) : Decidable read.Inside :=
  inferInstanceAs (Decidable (0 ≤ read.start ∧ 0 ≤ read.len ∧ read.start + read.len ≤ read.size))

/-- A read is inside the buffer when it starts and ends there. -/
theorem Utf8Read.inside_iff {size : ℕ} {start len : ℤ} :
    (⟨size, start, len⟩ : Utf8Read).Inside ↔ 0 ≤ start ∧ 0 ≤ len ∧ start + len ≤ size := Iff.rfl

/-- The loop `while (ptr < end && *ptr != '\n') ptr++` with so many bytes left to `end`. -/
def scanReads (utf8 : Bytes) : ℕ → ℕ → List Utf8Read
  | 0, _ => []
  | left + 1, ptr =>
    ⟨utf8.length, ptr, 1⟩ ::
      if utf8[ptr]? = some lineFeed then [] else scanReads utf8 left (ptr + 1)

/-- The reads of `processx__find_newline()`. -/
def findNewlineReads (utf8 : Bytes) (start : ℕ) : List Utf8Read :=
  if utf8.length = 0 then [] else scanReads utf8 (utf8.length - start) start

/-- The reads of the loop of `processx__connection_read_until_newline()`. -/
def readUntilNewlineLoopReads (ic : Riconv σ) : ℕ → Connection σ → Os → ℕ → ℕ → List Utf8Read
  | 0, _, _, _, _ => []
  | fuel + 1, ccon, os, ptr, end_ =>
    scanReads ccon.utf8 (end_ - ptr) ptr ++
      let ptr := ((((ccon.utf8.take end_).drop ptr).idxOf? lineFeed).map (ptr + ·)).getD end_
      if ptr < end_ then []
      else if ccon.isEof then []
      else
        let ccon := if ccon.utf8.length ≥ ccon.utf8AllocatedSize - 8 then connectionRealloc ccon
          else ccon
        match connectionRead ic ccon os with
        | (.error _, _, _) => []
        | (.ok newBytes, ccon, os) =>
          if newBytes = 0 then [] else readUntilNewlineLoopReads ic fuel ccon os ptr end_

/-- The reads of `processx__connection_read_until_newline()`. -/
def readUntilNewlineReads (ic : Riconv σ) (rounds : ℕ) (ccon : Connection σ) (os : Os) :
    List Utf8Read :=
  match if ccon.utf8.length = 0 then connectionRead ic ccon os else (.ok 0, ccon, os) with
  | (.error _, _, _) => []
  | (.ok _, ccon, os) =>
    if ccon.utf8.length = 0 then []
    else readUntilNewlineLoopReads ic rounds ccon os 0 ccon.utf8.length

/-- The reads of the counting loop of `processx__connection_find_lines()`. -/
def countLinesReads (utf8 : Bytes) : ℕ → Option ℕ → List Utf8Read
  | 0, _ => []
  | _ + 1, none => []
  | maxlines + 1, some newline =>
    findNewlineReads utf8 (newline + 1) ++
      countLinesReads utf8 maxlines (findNewline utf8 (newline + 1))

/-- The read of the last byte, which tells an unterminated end. -/
def unterminatedEndReads (ccon : Connection σ) : List Utf8Read :=
  if ccon.isEofRaw ∧ ccon.utf8.length ≠ 0 ∧ ccon.buffer.length = 0 then
    [⟨ccon.utf8.length, ccon.utf8.length - 1, 1⟩]
  else []

/-- A C cast of a `ssize_t` to `int`. -/
def castInt (n : ℤ) : ℤ := toInt (n % 2 ^ 32).toNat

/-- The reads of `processx_connection_read_lines()` behind `processx__connection_find_lines()`:
for each complete line the scan, the byte in front of the line feed and the string, then the
string of an unterminated end, and what is moved to the front. `eol` is -1 where nothing is
found. A string that R refuses is the last read. -/
def takeTextReads (utf8 : Bytes) (eof : Bool) : ℕ → ℕ → List Utf8Read
  | 0, start =>
    if eof then
      let len := castInt (utf8.length - start)
      ⟨utf8.length, start, len⟩ ::
        match mkCharLenCE (utf8.drop start) len with
        | .error _ => []
        | .ok _ => [⟨utf8.length, utf8.length, 0⟩]
    else if start = 0 then []
    else [⟨utf8.length, start, utf8.length - start⟩]
  | linesRead + 1, start =>
    let eol : ℤ := ((findNewline utf8 start).map Int.ofNat).getD (-1)
    let slashr := if 0 < eol ∧ utf8[(eol - 1).toNat]? = some carriageReturn then 1 else 0
    let len := castInt (eol - start - slashr)
    findNewlineReads utf8 start ++ (if 0 < eol then [⟨utf8.length, eol - 1, 1⟩] else []) ++
      ⟨utf8.length, start, len⟩ ::
        match mkCharLenCE (utf8.drop start) len with
        | .error _ => []
        | .ok _ => takeTextReads utf8 eof linesRead (eol + 1).toNat

/-- The reads of `processx_connection_read_lines()`. -/
def connectionReadLinesReads (ic : Riconv σ) (rounds : ℕ) (ccon : Connection σ) (os : Os)
    (nlines : ℤ) : List Utf8Read :=
  let maxlines := if nlines < 0 then 1000 else nlines
  match checkValidConn ccon with
  | .error _ => []
  | .ok () =>
    readUntilNewlineReads ic rounds ccon os ++
      match readUntilNewline ic rounds ccon os with
      | (none, _, _) => []
      | (some (.error _), _, _) => []
      | (some (.ok newline), ccon, _) =>
        countLinesReads ccon.utf8 maxlines.toNat newline ++ unterminatedEndReads ccon ++
          takeTextReads ccon.utf8 (unterminatedEnd ccon)
            (countLines ccon.utf8 maxlines.toNat newline) 0

/-- The reads of `processx_c_connection_read_line()` behind
`processx__connection_read_until_newline()`: the byte in front of the line feed, the line, and
what is moved to the front. -/
def serveLineReads (before : UInt8) (ccon : Connection σ) (newline : Option ℕ) : List Utf8Read :=
  let eof := unterminatedEnd ccon
  unterminatedEndReads ccon ++
    if newline = none ∧ !eof then []
    else
      let newline := newline.getD ccon.utf8.length
      let slashr := (before :: ccon.utf8)[newline]? = some carriageReturn
      let len : ℤ := if slashr then newline - 1 else newline
      ⟨ccon.utf8.length, newline - 1, 1⟩ :: ⟨ccon.utf8.length, 0, len⟩ ::
        -- a copy of -1 bytes does not come to its end
        if len < 0 ∨ eof then []
        else [⟨ccon.utf8.length, len + 1, ccon.utf8.length - (len + 1)⟩]

/-- The reads of `processx_c_connection_read_line()`. -/
def cConnectionReadLineReads (ic : Riconv σ) (rounds : ℕ) (before : UInt8) (ccon : Connection σ)
    (os : Os) : List Utf8Read :=
  if ccon.isEof then []
  else
    readUntilNewlineReads ic rounds ccon os ++
      match readUntilNewline ic rounds ccon os with
      | (none, _, _) => []
      | (some (.error _), _, _) => []
      | (some (.ok newline), ccon, _) => serveLineReads before ccon newline

/-- What `processx_connection_read_lines()` makes strings of: complete lines, and what stands
behind them at an unterminated end. -/
def takenPieces (eof : Bool) : ℕ → Bytes → List Bytes
  | 0, text => if eof then [text] else []
  | linesRead + 1, text =>
    match text.idxOf? lineFeed with
    | none => []
    | some eol => chomp carriageReturn (text.take eol) ::
        takenPieces eof linesRead (text.drop (eol + 1))

/-- An `int` holds the length of every piece, up to the first one that R refuses as there is a
NUL in it. From `2^32` on only the low bits are left of a length. -/
def Castable : List Bytes → Prop
  | [] => True
  | piece :: pieces => piece.length % 2 ^ 32 < 2 ^ 31 ∧
      (0 ∉ piece.take (piece.length % 2 ^ 32) → Castable pieces)

/-- The lengths of the lines that a call of `processx_connection_read_lines()` takes are good, if
its loop that reads ends within some rounds. -/
def LinesCast (ic : Riconv σ) (rounds : ℕ) (ccon : Connection σ) (os : Os) (nlines : ℤ) : Prop :=
  checkValidConn ccon = .ok () →
    let (result, ccon, _) := readUntilNewline ic rounds ccon os
    ∀ newline ∈ result.bind Except.toOption, Castable (takenPieces (unterminatedEnd ccon)
      (countLines ccon.utf8 (if nlines < 0 then 1000 else nlines).toNat newline) ccon.utf8)

instance Castable.decidable : ∀ pieces : List Bytes, Decidable (Castable pieces)
  | [] => isTrue trivial
  | piece :: pieces =>
    have := Castable.decidable pieces
    inferInstanceAs (Decidable (piece.length % 2 ^ 32 < 2 ^ 31 ∧
      (0 ∉ piece.take (piece.length % 2 ^ 32) → Castable pieces)))

instance (rounds : ℕ) (ccon : Connection σ) (os : Os) (nlines : ℤ) :
    Decidable (LinesCast ic rounds ccon os nlines) :=
  inferInstanceAs (Decidable (checkValidConn ccon = .ok () →
    ∀ newline ∈ (readUntilNewline ic rounds ccon os).1.bind Except.toOption,
      Castable (takenPieces (unterminatedEnd (readUntilNewline ic rounds ccon os).2.1)
        (countLines (readUntilNewline ic rounds ccon os).2.1.utf8
          (if nlines < 0 then 1000 else nlines).toNat newline)
        (readUntilNewline ic rounds ccon os).2.1.utf8)))

/-- Does a call that is not at the end of the file find that the UTF-8 buffer, after a read if it
is empty, starts with a line feed? -/
def StartsWithLineFeed (ic : Riconv σ) (ccon : Connection σ) (os : Os) : Prop :=
  ccon.isEof = false ∧
    let (result, ccon, _) :=
      if ccon.utf8.length = 0 then connectionRead ic ccon os else (.ok 0, ccon, os)
    result.toOption.isSome = true ∧ ccon.utf8.head? = some lineFeed

/-- A scan that ends inside the buffer reads inside the buffer. -/
theorem scanReads_inside {utf8 : Bytes} {left ptr : ℕ} (h : ptr + left ≤ utf8.length) :
    ∀ read ∈ scanReads utf8 left ptr, read.Inside := by
  induction left generalizing ptr with
  | zero => exact List.forall_mem_nil _
  | succ left ih =>
    rw [scanReads, List.forall_mem_cons]
    constructor
    · rw [Utf8Read.inside_iff]
      omega
    · by_cases hlf : utf8[ptr]? = some lineFeed
      · rw [if_pos hlf]
        exact List.forall_mem_nil _
      · rw [if_neg hlf]
        exact ih (by omega)

/-- `processx__find_newline()` reads inside the buffer, wherever it starts. -/
theorem findNewlineReads_inside (utf8 : Bytes) (start : ℕ) :
    ∀ read ∈ findNewlineReads utf8 start, read.Inside := by
  unfold findNewlineReads
  by_cases hnil : utf8.length = 0
  · rw [if_pos hnil]
    exact List.forall_mem_nil _
  · rw [if_neg hnil]
    by_cases hstart : start ≤ utf8.length
    · exact scanReads_inside (by omega)
    · rw [Nat.sub_eq_zero_of_le (by omega)]
      exact List.forall_mem_nil _

/-- The scan of `processx__connection_read_until_newline()` ends where the buffer ended when it
started, and reading only makes the buffer longer. -/
theorem readUntilNewlineLoopReads_inside (hic : ic.Bounded) (rounds : ℕ) {ccon : Connection σ}
    (os : Os) (h : Represented ccon) {ptr end_ : ℕ} (hptr : ptr ≤ end_)
    (hend : end_ ≤ ccon.utf8.length) :
    ∀ read ∈ readUntilNewlineLoopReads ic rounds ccon os ptr end_, read.Inside := by
  induction rounds generalizing ccon os ptr with
  | zero => exact List.forall_mem_nil _
  | succ rounds ih =>
    rw [readUntilNewlineLoopReads, List.forall_mem_append]
    refine ⟨scanReads_inside (by omega), ?_⟩
    dsimp only
    have hnext : ((((ccon.utf8.take end_).drop ptr).idxOf? lineFeed).map (ptr + ·)).getD end_ ≤
        end_ := by
      cases hscan : ((ccon.utf8.take end_).drop ptr).idxOf? lineFeed with
      | none => exact Nat.le_refl _
      | some i =>
        have hlt := (split_of_idxOf?_eq_some hscan).2.2
        rw [List.length_drop, List.length_take] at hlt
        simp only [Option.map_some, Option.getD_some]
        omega
    generalize ((((ccon.utf8.take end_).drop ptr).idxOf? lineFeed).map (ptr + ·)).getD end_ = ptr'
      at hnext ⊢
    by_cases hfound : ptr' < end_
    · rw [if_pos hfound]
      exact List.forall_mem_nil _
    rw [if_neg hfound]
    by_cases heof : ccon.isEof = true
    · rw [if_pos heof]
      exact List.forall_mem_nil _
    rw [if_neg heof]
    have hgrow := h.grow
    have hutf8 := grow_utf8 ccon
    generalize (if ccon.utf8.length ≥ ccon.utf8AllocatedSize - 8 then connectionRealloc ccon
      else ccon) = ccon₁ at hgrow hutf8 ⊢
    have hkept := hgrow.read hic os
    have hlonger := (hgrow.read_extends hic os).length_le
    generalize connectionRead ic ccon₁ os = answer at hkept hlonger ⊢
    obtain ⟨msg | n, ccon', os'⟩ := answer
    · exact List.forall_mem_nil _
    · dsimp only at hkept hlonger ⊢
      by_cases hnone : n = 0
      · rw [if_pos hnone]
        exact List.forall_mem_nil _
      · rw [if_neg hnone]
        refine ih os' hkept hnext ?_
        rw [hutf8] at hlonger
        omega

/-- So it reads inside the buffer. -/
theorem readUntilNewlineReads_inside (hic : ic.Bounded) (rounds : ℕ) {ccon : Connection σ}
    (os : Os) (h : Represented ccon) :
    ∀ read ∈ readUntilNewlineReads ic rounds ccon os, read.Inside := by
  unfold readUntilNewlineReads
  have hfirst := h.readIf hic os (ccon.utf8.length = 0)
  generalize (if ccon.utf8.length = 0 then connectionRead ic ccon os else (.ok 0, ccon, os)) =
    answer at hfirst ⊢
  obtain ⟨msg | n, ccon₁, os₁⟩ := answer
  · exact List.forall_mem_nil _
  · dsimp only at hfirst ⊢
    by_cases hempty : ccon₁.utf8.length = 0
    · rw [if_pos hempty]
      exact List.forall_mem_nil _
    · rw [if_neg hempty]
      exact readUntilNewlineLoopReads_inside hic rounds os₁ hfirst (Nat.zero_le _) (le_refl _)

/-- Counting the lines reads inside the buffer. -/
theorem countLinesReads_inside (utf8 : Bytes) (maxlines : ℕ) (newline : Option ℕ) :
    ∀ read ∈ countLinesReads utf8 maxlines newline, read.Inside := by
  induction maxlines generalizing newline with
  | zero => exact List.forall_mem_nil _
  | succ maxlines ih =>
    cases newline with
    | none => exact List.forall_mem_nil _
    | some eol =>
      rw [countLinesReads, List.forall_mem_append]
      exact ⟨findNewlineReads_inside _ _, ih _⟩

/-- So does the look at the last byte. -/
theorem unterminatedEndReads_inside (ccon : Connection σ) :
    ∀ read ∈ unterminatedEndReads ccon, read.Inside := by
  unfold unterminatedEndReads
  by_cases hend : ccon.isEofRaw ∧ ccon.utf8.length ≠ 0 ∧ ccon.buffer.length = 0
  · have hne := hend.2.1
    rw [if_pos hend, List.forall_mem_singleton, Utf8Read.inside_iff]
    omega
  · rw [if_neg hend]
    exact List.forall_mem_nil _

/-- The cast of a `ssize_t` that is a length. -/
theorem castInt_natCast (n : ℕ) : castInt (n : ℤ) = toInt n := by
  unfold castInt toInt
  omega

/-- The length of a piece of the buffer is passed on as a non-negative one exactly if the low 32
bits of it are. -/
theorem string_inside_iff {utf8 piece : Bytes} {start : ℕ} (hstart : start ≤ utf8.length)
    (hpiece : piece <+: utf8.drop start) :
    (⟨utf8.length, start, toInt piece.length⟩ : Utf8Read).Inside ↔
      piece.length % 2 ^ 32 < 2 ^ 31 := by
  have hle := hpiece.length_le
  rw [List.length_drop] at hle
  rw [Utf8Read.inside_iff, toInt]
  split_ifs <;> omega

/-- Then R refuses the piece only for a NUL. -/
theorem mkCharLenCE_piece {utf8 piece : Bytes} {start : ℕ} (hpiece : piece <+: utf8.drop start)
    (hlow : piece.length % 2 ^ 32 < 2 ^ 31) :
    mkCharLenCE (utf8.drop start) (toInt piece.length) =
      if 0 ∈ piece.take (piece.length % 2 ^ 32) then .error "embedded nul in string"
      else .ok (piece.take (piece.length % 2 ^ 32)) := by
  obtain ⟨behind, hbehind⟩ := hpiece
  have htake : (utf8.drop start).take (piece.length % 2 ^ 32) =
      piece.take (piece.length % 2 ^ 32) := by
    rw [← hbehind, List.take_append_of_le_length (Nat.mod_le _ _)]
  have hpos : ¬((piece.length % 2 ^ 32 : ℕ) : ℤ) < 0 := by omega
  rw [toInt, if_pos hlow, mkCharLenCE, if_neg hpos, Int.toNat_natCast, htake]

/-- A piece without its carriage return is a prefix of it. -/
theorem chomp_initial (cr : UInt8) (piece : Bytes) : chomp cr piece <+: piece := by
  unfold chomp
  split_ifs
  · exact List.dropLast_prefix piece
  · exact List.prefix_refl piece

/-- The length of a line, as the source works it out from the place of the line feed. -/
theorem length_without_slashr {utf8 piece : Bytes} {start eol : ℕ}
    (hstart : start = 0 ∨ utf8[start - 1]? = some lineFeed)
    (hpiece : piece <+: utf8.drop start) (heol : eol = start + piece.length) :
    (eol : ℤ) - start -
        (if 0 < (eol : ℤ) ∧ utf8[((eol : ℤ) - 1).toNat]? = some carriageReturn then 1 else 0) =
      ((chomp carriageReturn piece).length : ℕ) := by
  have hbefore := getElem?_before_eol hstart hpiece
  have hindex : ((eol : ℤ) - 1).toNat = eol - 1 := by omega
  have hcond : (0 < (eol : ℤ) ∧ utf8[eol - 1]? = some carriageReturn) ↔
      piece.getLast? = some carriageReturn := by
    rw [← hbefore, ← heol]
    exact and_congr_left' (by omega)
  rw [hindex, if_congr hcond rfl rfl, chomp]
  split_ifs with hcr
  · have hne : piece ≠ [] := by
      rintro rfl
      simp at hcr
    have hpos := List.length_pos_of_ne_nil hne
    rw [List.length_dropLast]
    omega
  · omega

/-- The string of an unterminated end, and what is moved to the front. -/
theorem takeTextReads_zero_inside_iff {utf8 : Bytes} (eof : Bool) {start : ℕ}
    (hle : start ≤ utf8.length) :
    (∀ read ∈ takeTextReads utf8 eof 0 start, read.Inside) ↔
      Castable (takenPieces eof 0 (utf8.drop start)) := by
  unfold takeTextReads takenPieces
  cases eof with
  | true =>
    have hlength : (utf8.length - start : ℤ) = ((utf8.drop start).length : ℕ) := by
      rw [List.length_drop]
      omega
    have hinside := string_inside_iff hle (List.prefix_refl (utf8.drop start))
    rw [if_pos rfl, if_pos rfl, hlength, castInt_natCast]
    dsimp only
    rw [List.forall_mem_cons, hinside, Castable]
    refine and_congr_right fun hlow => iff_of_true ?_ fun _ => trivial
    cases mkCharLenCE (utf8.drop start) (toInt (utf8.drop start).length) with
    | error msg => exact List.forall_mem_nil _
    | ok line =>
      rw [List.forall_mem_singleton, Utf8Read.inside_iff]
      omega
  | false =>
    rw [if_neg Bool.false_ne_true, if_neg Bool.false_ne_true]
    refine iff_of_true ?_ trivial
    split_ifs
    · exact List.forall_mem_nil _
    · rw [List.forall_mem_singleton, Utf8Read.inside_iff]
      omega

/-- The first piece of a text with a line feed. -/
theorem takenPieces_succ (eof : Bool) (k : ℕ) {piece rest : Bytes} (hpiece : lineFeed ∉ piece) :
    takenPieces eof (k + 1) (piece ++ lineFeed :: rest) =
      chomp carriageReturn piece :: takenPieces eof k rest := by
  rw [takenPieces, idxOf?_piece hpiece]
  dsimp only
  rw [List.take_left, List.drop_length_add_append, List.drop_one, List.tail_cons]

/-- **The strings.** From any place where a line starts, the reads are inside the buffer exactly
if the lengths of the pieces are good. -/
theorem takeTextReads_inside_iff {utf8 : Bytes} (eof : Bool) {k : ℕ} (start : ℕ)
    (hk : k ≤ (utf8.drop start).count lineFeed) (hle : start ≤ utf8.length)
    (hstart : start = 0 ∨ utf8[start - 1]? = some lineFeed) :
    (∀ read ∈ takeTextReads utf8 eof k start, read.Inside) ↔
      Castable (takenPieces eof k (utf8.drop start)) := by
  induction k generalizing start with
  | zero => exact takeTextReads_zero_inside_iff eof hle
  | succ k ih =>
    cases hfound : findNewline utf8 start with
    | none =>
      have hnone := List.count_eq_zero_of_not_mem (notMem_of_findNewline hfound)
      omega
    | some eol =>
      obtain ⟨piece, hsplit, hpiece, heol⟩ := drop_eq_of_findNewline hfound
      have hprefix : piece <+: utf8.drop start := ⟨_, hsplit.symm⟩
      have hlf := getElem?_of_findNewline hfound
      have hlt : eol < utf8.length := (List.getElem?_eq_some_iff.mp hlf).1
      have hchomp := (chomp_initial carriageReturn piece).trans hprefix
      have hlength := length_without_slashr hstart hprefix heol
      have hpieces : takenPieces eof (k + 1) (utf8.drop start) =
          chomp carriageReturn piece :: takenPieces eof k (utf8.drop (eol + 1)) := by
        rw [hsplit, takenPieces_succ eof k hpiece]
      have hcount := count_of_findNewline hfound
      have hrest := ih (eol + 1) (by omega) (by omega) (Or.inr (by simpa using hlf))
      have hnext : ((eol : ℤ) + 1).toNat = eol + 1 := by omega
      rw [takeTextReads, hfound]
      simp only [Option.map_some, Option.getD_some, Int.ofNat_eq_natCast]
      rw [hlength, castInt_natCast, hnext, hpieces, Castable, List.append_assoc,
        List.forall_mem_append, List.forall_mem_append, List.forall_mem_cons,
        string_inside_iff hle hchomp]
      have hbyte : ∀ read ∈ (if 0 < (eol : ℤ) then [(⟨utf8.length, eol - 1, 1⟩ : Utf8Read)]
          else []), read.Inside := by
        split_ifs
        · rw [List.forall_mem_singleton, Utf8Read.inside_iff]
          omega
        · exact List.forall_mem_nil _
      rw [and_iff_right (findNewlineReads_inside utf8 start), and_iff_right hbyte]
      refine and_congr_right fun hlow => ?_
      rw [mkCharLenCE_piece hchomp hlow]
      by_cases hnul : 0 ∈ (chomp carriageReturn piece).take
          ((chomp carriageReturn piece).length % 2 ^ 32)
      · rw [if_pos hnul]
        exact iff_of_true (List.forall_mem_nil _) fun h => absurd hnul h
      · rw [if_neg hnul, hrest]
        exact ⟨fun h _ => h, fun h => h hnul⟩

/-- `processx_connection_read_lines()` reads inside the buffer, and passes on no negative length,
exactly if the lengths of its lines are good. -/
theorem connectionReadLinesReads_inside_iff (hic : ic.Bounded) (rounds : ℕ) {ccon : Connection σ}
    (os : Os) (h : Represented ccon) (nlines : ℤ) :
    (∀ read ∈ connectionReadLinesReads ic rounds ccon os nlines, read.Inside) ↔
      LinesCast ic rounds ccon os nlines := by
  have hscan := readUntilNewlineReads_inside hic rounds os h
  have hnewline := fun newline ccon' os' =>
    @readUntilNewline_newline σ ic rounds ccon ccon' os os' newline
  unfold connectionReadLinesReads LinesCast
  cases checkValidConn ccon with
  | error msg =>
    refine iff_of_true (List.forall_mem_nil _) fun hvalid => ?_
    cases hvalid
  | ok _ =>
    dsimp only
    rw [List.forall_mem_append, and_iff_right hscan]
    generalize readUntilNewline ic rounds ccon os = answer at hnewline ⊢
    obtain ⟨_ | msg | newline, ccon₁, os₁⟩ := answer
    · refine iff_of_true (List.forall_mem_nil _) fun _ newline hnone => ?_
      cases hnone
    · refine iff_of_true (List.forall_mem_nil _) fun _ newline hnone => ?_
      cases hnone
    · dsimp only
      have hcount := countLines_eq_min (hnewline newline ccon₁ os₁ rfl) nlines
      have hiff := @takeTextReads_inside_iff ccon₁.utf8 (unterminatedEnd ccon₁)
        (countLines ccon₁.utf8 (if nlines < 0 then 1000 else nlines).toNat newline) 0
        (by rw [hcount, List.drop_zero]; exact Nat.min_le_right _ _) (Nat.zero_le _)
        (Or.inl rfl)
      rw [List.forall_mem_append, List.forall_mem_append,
        and_iff_right (countLinesReads_inside _ _ _),
        and_iff_right (unterminatedEndReads_inside ccon₁), hiff, List.drop_zero]
      refine ⟨fun hcast _ found hfound => ?_, fun hall => hall rfl newline rfl⟩
      rwa [← Option.some.inj hfound]

/-- A line feed that is found as the first byte is the first byte of the buffer that the scan
started from, and it is found there at once. -/
theorem readUntilNewline_zero_iff (ic : Riconv σ) {ccon : Connection σ} (os : Os)
    (hopen : ccon.isEof = false) :
    (∃ rounds, (readUntilNewline ic rounds ccon os).1 = some (.ok (some 0))) ↔
      StartsWithLineFeed ic ccon os := by
  unfold readUntilNewline StartsWithLineFeed
  rw [and_iff_right hopen]
  generalize (if ccon.utf8.length = 0 then connectionRead ic ccon os else (.ok 0, ccon, os)) =
    answer
  obtain ⟨msg | n, ccon₁, os₁⟩ := answer
  · refine iff_of_false (fun ⟨_, heq⟩ => ?_) fun hstart => ?_
    · cases heq
    · exact absurd hstart.1 Bool.false_ne_true
  · have hsome : (Except.ok n : Except String ℕ).toOption.isSome = true := rfl
    dsimp only
    rw [and_iff_right hsome]
    by_cases hempty : ccon₁.utf8.length = 0
    · simp only [if_pos hempty]
      refine iff_of_false (fun ⟨_, heq⟩ => ?_) fun hhead => ?_
      · cases heq
      · rw [List.length_eq_zero_iff.mp hempty] at hhead
        cases hhead
    simp only [if_neg hempty]
    cases hfound : findNewline ccon₁.utf8 0 with
    | none =>
      have hnone := notMem_of_findNewline hfound
      refine iff_of_false (fun ⟨rounds, heq⟩ => ?_) fun hhead => ?_
      · cases rounds with
        | zero => cases heq
        | succ rounds =>
          rw [untilNewlineLoop_skip ic rounds os₁ hfound] at heq
          cases untilNewlineLoop_passed ic _ _ ccon₁ os₁ heq
      · exact hnone (List.mem_of_mem_head? hhead)
    | some eol =>
      obtain ⟨piece, hsplit, hpiece, heol⟩ := drop_eq_of_findNewline hfound
      rw [List.drop_zero] at hsplit
      have hat : (untilNewlineLoop ic 1 ccon₁ os₁ 0 ccon₁.utf8.length).1 = some (.ok (some eol)) := by
        rw [untilNewlineLoop_found ic 0 os₁ hfound]
      constructor
      · rintro ⟨rounds, heq⟩
        cases rounds with
        | zero => cases heq
        | succ rounds =>
          rw [untilNewlineLoop_found ic rounds os₁ hfound] at heq
          cases heq
          rw [List.length_eq_zero_iff.mp (by omega : piece.length = 0)] at hsplit
          rw [hsplit]
          rfl
      · intro hhead
        cases piece with
        | nil => exact ⟨1, hat.trans (by rw [heol]; rfl)⟩
        | cons c piece =>
          rw [hsplit] at hhead
          cases hhead
          exact absurd List.mem_cons_self hpiece

/-- Behind its reads, `processx_c_connection_read_line()` looks inside the buffer exactly if the
line feed it found is not the first byte. -/
theorem serveLineReads_inside_iff (before : UInt8) {ccon : Connection σ} {newline : Option ℕ}
    (hnewline : newline = none ∨ newline = findNewline ccon.utf8 0) :
    (∀ read ∈ serveLineReads before ccon newline, read.Inside) ↔ newline ≠ some 0 := by
  unfold serveLineReads
  rw [List.forall_mem_append, and_iff_right (unterminatedEndReads_inside ccon)]
  cases newline with
  | none =>
    refine iff_of_true ?_ (Option.some_ne_none 0).symm
    cases hend : unterminatedEnd ccon with
    | false => simp
    | true =>
      rw [unterminatedEnd, decide_eq_true_eq] at hend
      have hne := hend.2.1
      simp only [Bool.not_true, Bool.false_eq_true, and_false, if_false, Option.getD_none, or_true,
        if_true]
      rw [List.forall_mem_cons, List.forall_mem_singleton, Utf8Read.inside_iff,
        Utf8Read.inside_iff]
      split_ifs <;> omega
  | some eol =>
    have hlt : eol < ccon.utf8.length := by
      rcases hnewline with hnone | hfind
      · cases hnone
      · obtain ⟨piece, hsplit, _, hlen⟩ := drop_eq_of_findNewline hfind.symm
        have hlength := congrArg List.length hsplit
        rw [List.drop_zero, List.length_append, List.length_cons] at hlength
        omega
    simp only [reduceCtorEq, false_and, if_false, Option.getD_some, ne_eq, Option.some.injEq]
    rw [List.forall_mem_cons, List.forall_mem_cons, Utf8Read.inside_iff, Utf8Read.inside_iff]
    constructor
    · rintro ⟨hfront, _⟩ rfl
      omega
    · intro hne
      generalize hlen : (if (before :: ccon.utf8)[eol]? = some carriageReturn then
        (eol : ℤ) - 1 else eol) = len
      have hbounds : 0 ≤ len ∧ len ≤ eol := by
        rw [← hlen]
        split_ifs <;> omega
      refine ⟨by omega, by omega, ?_⟩
      split_ifs
      · exact List.forall_mem_nil _
      · rw [List.forall_mem_singleton, Utf8Read.inside_iff]
        omega

/-- `processx_c_connection_read_line()` reads inside the buffer exactly if the text it starts from
does not start with a line feed. -/
theorem cConnectionReadLineReads_inside_iff (hic : ic.Bounded) {ccon : Connection σ} (os : Os)
    (h : Represented ccon) (before : UInt8) :
    (∀ rounds, ∀ read ∈ cConnectionReadLineReads ic rounds before ccon os, read.Inside) ↔
      ¬StartsWithLineFeed ic ccon os := by
  unfold cConnectionReadLineReads
  by_cases heof : ccon.isEof = true
  · simp only [if_pos heof]
    refine iff_of_true (fun _ => List.forall_mem_nil _) fun hstart => ?_
    exact absurd heof (by rw [hstart.1]; exact Bool.false_ne_true)
  · rw [← readUntilNewline_zero_iff ic os (Bool.eq_false_iff.mpr heof), not_exists]
    refine forall_congr' fun rounds => ?_
    have hscan := readUntilNewlineReads_inside hic rounds os h
    have hnewline := fun newline ccon' os' =>
      @readUntilNewline_newline σ ic rounds ccon ccon' os os' newline
    rw [if_neg heof, List.forall_mem_append, and_iff_right hscan]
    generalize readUntilNewline ic rounds ccon os = answer at hnewline ⊢
    obtain ⟨_ | msg | newline, ccon₁, os₁⟩ := answer
    · exact iff_of_true (List.forall_mem_nil _) fun heq => by cases heq
    · exact iff_of_true (List.forall_mem_nil _) fun heq => by cases heq
    · dsimp only
      rw [serveLineReads_inside_iff before (hnewline newline ccon₁ os₁ rfl), Option.some.injEq,
        Except.ok.injEq]

/-- **Where the line readers look.** In every reachable state, whatever the encoding, the calls and
the operating system were, finding a line feed reads inside the UTF-8 buffer;
`processx_connection_read_lines()` does, and passes on no negative length, exactly if the lengths
of its lines are good; and `processx_c_connection_read_line()` does exactly if the text it starts
from does not start with a line feed. -/
theorem lineReads_inside_iff (hic : ic.Bounded) (osHandle : ℤ) (encoding : String) (os : Os)
    (calls : List (ℕ × BufferOp)) :
    let s := bufferRun ic osHandle encoding os calls
    (∀ start, ∀ read ∈ findNewlineReads s.ccon.utf8 start, read.Inside) ∧
    (∀ rounds, ∀ read ∈ readUntilNewlineReads ic rounds s.ccon s.os, read.Inside) ∧
    (∀ rounds nlines, (∀ read ∈ connectionReadLinesReads ic rounds s.ccon s.os nlines,
      read.Inside) ↔ LinesCast ic rounds s.ccon s.os nlines) ∧
    ∀ before, (∀ rounds, ∀ read ∈ cConnectionReadLineReads ic rounds before s.ccon s.os,
      read.Inside) ↔ ¬StartsWithLineFeed ic s.ccon s.os := by
  intro s
  have h : Represented s.ccon := bufferRun_represented hic osHandle encoding os calls
  exact ⟨findNewlineReads_inside _, fun rounds => readUntilNewlineReads_inside hic rounds s.os h,
    fun rounds => connectionReadLinesReads_inside_iff hic rounds s.os h,
    cConnectionReadLineReads_inside_iff hic s.os h⟩

/-- The second line of a stream is empty: C code that has read the first looks in front of the
buffer. -/
theorem lineReads_before_buffer :
    let os : Os := ⟨[.data [97, 10, 10], .eof], false⟩
    let s := bufferRun utf8Riconv 3 "" os [(1, .readLine 0 ⟨some none, some 0⟩)]
    os.WellFormed ∧ s.live = true ∧ s.ccon.utf8 = [10] ∧
      ⟨1, -1, 1⟩ ∈ cConnectionReadLineReads utf8Riconv 1 0 s.ccon s.os ∧
      ¬∀ read ∈ cConnectionReadLineReads utf8Riconv 1 0 s.ccon s.os, read.Inside :=
  ⟨by decide, by decide, by decide, by decide, by decide⟩

/-- With R code nothing is wrong with the empty line. -/
theorem lineReads_inside_empty_line :
    let os : Os := ⟨[.data [97, 10, 10], .eof], false⟩
    let s := bufferRun utf8Riconv 3 "" os [(1, .readLines 1)]
    ∀ read ∈ connectionReadLinesReads utf8Riconv 1 s.ccon s.os 1, read.Inside := by
  obtain ⟨_, _, hlines, _⟩ := lineReads_inside_iff utf8Riconv_follows.bounded 3 ""
    ⟨[.data [97, 10, 10], .eof], false⟩ [(1, .readLines 1)]
  exact (hlines 1 1).mpr (by decide)

end Processx
