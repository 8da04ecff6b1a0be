import Processx.Supervisor.Commands

/-!
# The start time of a process

On Linux the start time of a process is the 22nd field of `/proc/<pid>/stat`. The file is read into
a buffer that is doubled when it is full. The name of the command, in parentheses, may contain
anything, so its end is the last closing parenthesis.
-/

namespace Processx

/-- What the operating system does: the file, if it can be opened, how many bytes the calls of
`read()` return at most, beyond one, or `none` for a call that fails, and what is in the memory
that is allocated. -/
structure FileRead where
  file : Option Bytes
  answers : ℕ → Option ℕ
  garbage : ℕ → UInt8

/-- The variables of `processx__read_file()`, with the position in the file and the number of calls
of `read()`. -/
structure ReadState where
  buffer : Bytes
  ptr : ℕ
  remSize : ℕ
  bufferSize : ℕ
  offset : ℕ
  calls : ℕ

/-- The start of a round. If the buffer is full then `S_realloc()` copies it into one of twice the
size, with zeros behind. -/
def ReadState.grow (s : ReadState) : ReadState :=
  if s.remSize = 0 then
    { s with
      buffer := s.buffer.take s.bufferSize ++ List.replicate (s.bufferSize * 2 - s.bufferSize) 0
      ptr := s.bufferSize
      remSize := s.bufferSize
      bufferSize := s.bufferSize * 2 }
  else s

/-- `ret = read(fd, ptr, rem_size)`, where at most `most + 1` bytes are returned. -/
def ReadState.piece (s : ReadState) (file : Bytes) (most : ℕ) : Bytes :=
  (file.drop s.offset).take (min (most + 1) s.remSize)

/-- The end of a round. -/
def ReadState.stored (s : ReadState) (piece : Bytes) : ReadState :=
  { s with
    buffer := s.buffer.take s.ptr ++ piece ++ s.buffer.drop (s.ptr + piece.length)
    ptr := s.ptr + piece.length
    remSize := s.remSize - piece.length
    offset := s.offset + piece.length
    calls := s.calls + 1 }

/-- The loop of `processx__read_file()`, for at most some rounds: the result, and the buffer. There is
none if the rounds are used up, or a call of `read()` fails: then `free()` is called for memory of
`R_alloc()`, and anything may happen. -/
def readFileLoop (file : Bytes) (answers : ℕ → Option ℕ) : ℕ → ReadState → Option (Int32 × Bytes)
  | 0, _ => none
  | rounds + 1, s =>
    let s := s.grow
    match answers s.calls with
    | none => none
    | some most =>
      let piece := s.piece file most
      let s := s.stored piece
      if piece.length > 0 then readFileLoop file answers rounds s
      else some (Int32.ofNat (s.bufferSize - s.remSize), s.buffer)

/-- `processx__read_file()` -/
def processxReadFile (sys : FileRead) (bufferSize rounds : ℕ) : Option (Int32 × Bytes) :=
  match sys.file with
  | none => some (-1, [])
  | some file =>
    readFileLoop file sys.answers rounds
      { buffer := (List.range bufferSize).map sys.garbage, ptr := 0, remSize := bufferSize,
        bufferSize := bufferSize, offset := 0, calls := 0 }

/-- A conversion of a format. A space in front of one for a number changes nothing, as the
conversion skips white space itself. -/
inductive Conversion
  | c
  | d
  | u
  | lu
  | ld
  | llu
  deriving DecidableEq

/-- The numbers of the type of a conversion. -/
def Conversion.holds (conv : Conversion) (n : ℤ) : Prop :=
  match conv with
  | .c => True
  | .d => -2 ^ 31 ≤ n ∧ n < 2 ^ 31
  | .u => 0 ≤ n ∧ n < 2 ^ 32
  | .ld => -2 ^ 63 ≤ n ∧ n < 2 ^ 63
  | .lu | .llu => 0 ≤ n ∧ n < 2 ^ 64

instance (conv : Conversion) (n : ℤ) : Decidable (conv.holds n) :=
  match conv with
  | .c => isTrue trivial
  | .d => inferInstanceAs (Decidable (-2 ^ 31 ≤ n ∧ n < 2 ^ 31))
  | .u => inferInstanceAs (Decidable (0 ≤ n ∧ n < 2 ^ 32))
  | .ld => inferInstanceAs (Decidable (-2 ^ 63 ≤ n ∧ n < 2 ^ 63))
  | .lu | .llu => inferInstanceAs (Decidable (0 ≤ n ∧ n < 2 ^ 64))

/-- What a conversion does: there is no match, or its behavior is not defined, or it stores a
value, with the rest of the text. -/
inductive Converted
  | noMatch
  | undefined
  | stored (value : ℤ) (rest : Bytes)

/-- A number with a sign, for an unsigned type. -/
def Conversion.negated (conv : Conversion) (n : ℤ) : ℤ :=
  match conv with
  | .u => if n < 0 then n + 2 ^ 32 else n
  | .lu | .llu => if n < 0 then n + 2 ^ 64 else n
  | _ => n

/-- A conversion for a number. What its type does not hold is undefined. -/
def Conversion.number (conv : Conversion) (text : Bytes) : Converted :=
  let text := text.dropWhile isSpaceByte
  let negative := text.head? = some 45
  let text := if negative ∨ text.head? = some 43 then text.tail else text
  let digits := text.takeWhile isDigitByte
  let number := digits.foldl (fun n c => 10 * n + (c.toNat - 48 : ℤ)) 0
  let number := conv.negated (if negative then -number else number)
  if digits = [] then .noMatch
  else if conv.holds number then .stored number (text.dropWhile isDigitByte)
  else .undefined

def Conversion.convert (conv : Conversion) (text : Bytes) : Converted :=
  match conv, text with
  | .c, [] => .noMatch
  | .c, byte :: text => .stored byte.toNat text
  | conv, text => conv.number text

/-- `sscanf()`: the values that are stored, `none` if the behavior is not defined. -/
def sscanf : List Conversion → Bytes → Option (List ℤ)
  | [], _ => some []
  | conv :: format, text =>
    match conv.convert text with
    | .noMatch => some []
    | .undefined => none
    | .stored value rest => (sscanf format rest).map (value :: ·)

/-- The C string at the start of some memory. -/
def cString (memory : Bytes) : Option Bytes :=
  if 0 ∈ memory then some (memory.takeWhile (· ≠ 0)) else none

/-- `strrchr()`, as an index. -/
def strrchr (text : Bytes) (c : UInt8) : Option ℕ :=
  if c ∈ text then some (text.length - 1 - text.reverse.idxOf c) else none

/-- The double nearest to an `unsigned long long`. Of two that are equally near it is the even
one. -/
def toDouble (n : ℕ) : ℕ :=
  let unit := 2 ^ (n.log2 + 1 - 53)
  let even := n / unit % 2 = 0
  if 2 * (n % unit) < unit ∨ (2 * (n % unit) = unit ∧ even) then n / unit * unit
  else (n / unit + 1) * unit

/-- `"%c %d %d %d %d %d %u %lu %lu %lu %lu %lu %lu %ld %ld %ld %ld %ld %ld %llu"` -/
def statFormat : List Conversion :=
  [.c, .d, .d, .d, .d, .d, .u, .lu, .lu, .lu, .lu, .lu, .lu, .ld, .ld, .ld, .ld, .ld, .ld, .llu]

/-- `processx__create_time_since_boot()`, where `buf` is what is read, from `*r = '\0'` on. -/
def scanStartTime (buf : Bytes) (r : ℕ) : Option ℕ := do
  let buf := buf.set r 0
  let text ← cString (buf.drop (r + 2))
  let values ← sscanf statFormat text
  -- with an empty text the result of sscanf() is -1
  if values.length ≠ 20 then some 0
  else values.getLast?.map fun starttime => toDouble starttime.toNat

/-- `processx__create_time_since_boot()`. The result is `none` if the rounds were not enough, or
the behavior is not defined. -/
def createTimeSinceBoot (sys : FileRead) (rounds : ℕ) : Option ℕ := do
  let (ret, buf) ← processxReadFile sys 2048 rounds
  if ret = -1 then some 0
  else if ret.toInt - 1 < 0 ∨ (buf.length : ℤ) ≤ ret.toInt - 1 then none
  else
    let buf := buf.set (ret.toInt - 1).toNat 0
    let text ← cString buf
    -- Find the first '(' and last ')', that's the end of the command
    if 40 ∉ text then some 0
    else
      match strrchr text 41 with
      | none => some 0
      | some r => scanStartTime buf r

/-- A content of `/proc/<pid>/stat`: the process id, the name of the command in parentheses, which
is any C string, the state, which is a letter, and numbers, the first of which are of the types that
are documented for them, each behind a space. -/
structure StatFile where
  pid : Bytes
  comm : Bytes
  state : UInt8
  fields : List Bytes
  pid_digits : pid.all isDigitByte = true
  comm_ne : 0 ∉ comm
  state_letter : 65 ≤ state
  fields_number : ∀ field ∈ fields, isNumber field = true
  fields_typed : List.Forall₂ (fun conv field => conv.holds (numberValue field)) statFormat.tail
    (fields.take 19)

namespace StatFile

/-- What stands before the last parenthesis. -/
def head (f : StatFile) : Bytes := f.pid ++ 32 :: 40 :: f.comm

/-- The fields from the fourth on. -/
def tail (f : StatFile) : Bytes := f.fields.flatMap (32 :: ·)

/-- The content without its line end. -/
def line (f : StatFile) : Bytes := f.head ++ 41 :: 32 :: f.state :: f.tail

/-- The content. -/
def content (f : StatFile) : Bytes := f.line ++ [lineFeed]

/-- The 22nd field. -/
def starttime (f : StatFile) : ℕ := (numberValue (f.fields.getD 18 [])).toNat

end StatFile

/-- A result of `processx__read_file()` that is the whole content with its length. -/
def ReadsWhole (file : Bytes) (result : Option (Int32 × Bytes)) : Prop :=
  ∃ ret buffer, result = some (ret, buffer) ∧ ret.toInt = file.length ∧
    buffer.take file.length = file

/-- The counters fit together, and the buffer starts with what is read. -/
structure ReadState.Keeps (file : Bytes) (s : ReadState) : Prop where
  buffer : s.buffer.length = s.bufferSize
  counters : s.ptr + s.remSize = s.bufferSize
  positive : 0 < s.bufferSize
  offset : s.offset = s.ptr
  read : s.buffer.take s.ptr = file.take s.ptr
  le : s.ptr ≤ file.length

/-- Growing the buffer keeps its contents and always leaves room for one more byte. -/
theorem ReadState.Keeps.grow {file : Bytes} {s : ReadState} (h : s.Keeps file) :
    s.grow.Keeps file ∧ 0 < s.grow.remSize ∧ s.grow.offset = s.offset := by
  unfold ReadState.grow
  have hcounters := h.counters
  split
  · rename_i hzero
    have hptr : s.bufferSize = s.ptr := by omega
    have hbuffer : s.buffer.length = s.ptr := h.buffer.trans hptr
    refine ⟨⟨?_, ?_, ?_, ?_, ?_, ?_⟩, h.positive, rfl⟩
    · simp only [List.length_append, List.length_take, List.length_replicate, h.buffer]
      omega
    · dsimp only
      omega
    · have := h.positive
      dsimp only
      omega
    · exact h.offset.trans hptr.symm
    · dsimp only
      rw [hptr, List.take_append_of_le_length (by rw [List.length_take]; omega), List.take_take,
        Nat.min_self, h.read]
    · exact hptr.le.trans h.le
  · rename_i hpos
    exact ⟨h, Nat.pos_of_ne_zero hpos, rfl⟩

/-- `read()` returns at most what it was asked for and at most what the file still has. -/
theorem ReadState.length_piece_le (s : ReadState) (file : Bytes) (most : ℕ) :
    (s.piece file most).length ≤ s.remSize ∧
      (s.piece file most).length ≤ file.length - s.offset := by
  simp only [ReadState.piece, List.length_take, List.length_drop]
  omega

/-- A call of `read()` returns nothing only at the end of the file. -/
theorem ReadState.length_piece_pos (file : Bytes) {s : ReadState} (most : ℕ)
    (hrem : 0 < s.remSize) : 0 < (s.piece file most).length ↔ s.offset < file.length := by
  simp only [ReadState.piece, List.length_take, List.length_drop]
  omega

/-- Storing the piece just read keeps the buffer a prefix of the file. -/
theorem ReadState.Keeps.stored {file : Bytes} {s : ReadState} (h : s.Keeps file) (most : ℕ) :
    (s.stored (s.piece file most)).Keeps file := by
  obtain ⟨hroom, hrest⟩ := s.length_piece_le file most
  have hbuffer := h.buffer
  have hcounters := h.counters
  have hle := h.le
  have hoffset := h.offset
  have hlength : (s.buffer.take s.ptr).length = s.ptr := by rw [List.length_take]; omega
  have hpiece : s.piece file most = (file.drop s.ptr).take (s.piece file most).length := by
    have htake : s.piece file most = (file.drop s.ptr).take (min (most + 1) s.remSize) := by
      rw [ReadState.piece, hoffset]
    rw [htake, List.length_take, List.take_eq_take_min]
  refine ⟨?_, ?_, h.positive, ?_, ?_, ?_⟩
  · simp only [ReadState.stored, List.length_append, List.length_drop, hlength]
    omega
  · simp only [ReadState.stored]
    omega
  · simp only [ReadState.stored]
    omega
  · simp only [ReadState.stored]
    rw [List.take_left' (by rw [List.length_append, hlength]), h.read, List.take_add, ← hpiece]
  · simp only [ReadState.stored]
    omega

/-- The loop reads the rest of the file, whatever the sizes of the pieces. -/
theorem readFileLoop_eq {file : Bytes} (sizes : ℕ → ℕ) {rounds : ℕ} {s : ReadState}
    (h : s.Keeps file) (hrounds : file.length - s.offset < rounds) :
    ∃ buffer, readFileLoop file (fun i => some (sizes i)) rounds s =
        some (Int32.ofNat file.length, buffer) ∧
      buffer.take file.length = file ∧ file.length ≤ buffer.length := by
  induction rounds generalizing s with
  | zero => omega
  | succ rounds ih =>
    obtain ⟨hgrow, hrem, hoffset⟩ := h.grow
    rw [readFileLoop]
    dsimp only
    generalize s.grow = s' at hgrow hrem hoffset ⊢
    have hstored := hgrow.stored (sizes s'.calls)
    have hpos := ReadState.length_piece_pos file (sizes s'.calls) hrem
    have hlen := s'.length_piece_le file (sizes s'.calls)
    by_cases hmore : 0 < (s'.piece file (sizes s'.calls)).length
    · rw [if_pos hmore]
      refine ih hstored ?_
      have := hpos.mp hmore
      simp only [ReadState.stored]
      omega
    · rw [if_neg hmore]
      have hend : s'.offset = file.length := by
        have := hgrow.le
        have := hgrow.offset
        omega
      have hptr : (s'.stored (s'.piece file (sizes s'.calls))).ptr = file.length := by
        have := hgrow.offset
        simp only [ReadState.stored]
        omega
      have hcounters := hstored.counters
      have hbuffer := hstored.buffer
      refine ⟨(s'.stored (s'.piece file (sizes s'.calls))).buffer, ?_, ?_, ?_⟩
      · congr 3
        omega
      · rw [← hptr, hstored.read, hptr, List.take_length]
      · omega

/-- `processx__read_file()` reads the whole file. Its length is returned as an `int`. -/
theorem processxReadFile_eq (file : Bytes) (sizes : ℕ → ℕ) (garbage : ℕ → UInt8)
    {size rounds : ℕ} (hsize : 0 < size) (hrounds : file.length < rounds) :
    ∃ buffer, processxReadFile ⟨some file, fun i => some (sizes i), garbage⟩ size rounds =
        some (Int32.ofNat file.length, buffer) ∧
      buffer.take file.length = file ∧ file.length ≤ buffer.length := by
  refine readFileLoop_eq sizes ⟨?_, ?_, hsize, rfl, rfl, Nat.zero_le _⟩ ?_
  · simp
  · exact Nat.zero_add _
  · simpa using hrounds

/-- The `int` is the length of the file if it is below 2^31. -/
theorem readsWhole_iff (file : Bytes) (sizes : ℕ → ℕ) (garbage : ℕ → UInt8) {size rounds : ℕ}
    (hsize : 0 < size) (hrounds : file.length < rounds) :
    ReadsWhole file (processxReadFile ⟨some file, fun i => some (sizes i), garbage⟩ size rounds) ↔
      file.length < 2 ^ 31 := by
  obtain ⟨buffer, hread, htake, _⟩ := processxReadFile_eq file sizes garbage hsize hrounds
  rw [hread]
  constructor
  · rintro ⟨ret, _, heq, hret, _⟩
    have hlt := ret.toInt_lt
    omega
  · intro hlt
    exact ⟨_, buffer, rfl, Int32.toInt_ofNat_of_lt hlt, htake⟩

/-- A number is a double if it is a multiple of the unit in its last place. -/
theorem toDouble_eq_iff (n : ℕ) : toDouble n = n ↔ 2 ^ (n.log2 + 1 - 53) ∣ n := by
  unfold toDouble
  generalize hunit : 2 ^ (n.log2 + 1 - 53) = unit
  have hpos : 0 < unit := hunit ▸ Nat.two_pow_pos _
  have hdiv : n / unit * unit + n % unit = n := Nat.div_add_mod' n unit
  have hmod := Nat.mod_lt n hpos
  have hnext : (n / unit + 1) * unit = n / unit * unit + unit := Nat.succ_mul _ _
  rw [Nat.dvd_iff_mod_eq_zero]
  dsimp only
  split <;> omega

/-- A number that the type holds is not changed. -/
theorem Conversion.negated_eq {conv : Conversion} {n : ℤ} (h : conv.holds n) :
    conv.negated n = n := by
  cases conv with
  | u | lu | llu => exact if_neg (not_lt_of_ge h.1)
  | c | d | ld => rfl

/-- Digits are read up to what follows them. -/
theorem digits_append {digits rest : Bytes} (hdigits : digits.all isDigitByte = true)
    (hrest : rest.takeWhile isDigitByte = []) :
    (digits ++ rest).takeWhile isDigitByte = digits ∧
      (digits ++ rest).dropWhile isDigitByte = rest := by
  have hall : ∀ c ∈ digits, isDigitByte c = true := by simpa using hdigits
  have hdrop := List.takeWhile_append_dropWhile (p := isDigitByte) (l := rest)
  rw [hrest, List.nil_append] at hdrop
  rw [List.takeWhile_append_of_pos hall, List.dropWhile_append_of_pos hall, hrest, hdrop,
    List.append_nil]
  exact ⟨rfl, rfl⟩

/-- A conversion reads a number behind a space, if what follows is not a digit. -/
theorem Conversion.number_eq {conv : Conversion} {field rest : Bytes}
    (hnumber : isNumber field = true) (hholds : conv.holds (numberValue field))
    (hrest : rest.takeWhile isDigitByte = []) :
    conv.number (32 :: (field ++ rest)) = .stored (numberValue field) rest := by
  have hnegated := negated_eq hholds
  have hspace : (32 :: (field ++ rest)).dropWhile isSpaceByte =
      (field ++ rest).dropWhile isSpaceByte := List.dropWhile_cons_of_pos rfl
  unfold Conversion.number
  rw [hspace]
  cases field with
  | nil => cases hnumber
  | cons c digits =>
    simp only [isNumber, unsignedPart, Bool.and_eq_true, Bool.not_eq_true',
      List.isEmpty_eq_false_iff] at hnumber
    simp only [numberValue, unsignedPart] at hholds hnegated ⊢
    by_cases hminus : c = 45
    · subst hminus
      obtain ⟨hne, hall⟩ : digits ≠ [] ∧ digits.all isDigitByte = true := by simpa using hnumber
      obtain ⟨htake, hdrop⟩ := digits_append hall hrest
      have hsign : (45 :: digits ++ rest).dropWhile isSpaceByte = 45 :: (digits ++ rest) := rfl
      simp only [List.head?_cons, if_true, List.tail_cons] at hholds hnegated
      simp only [hsign, List.head?_cons, true_or, if_true, List.tail_cons, htake, hdrop, hnegated,
        if_neg hne, if_pos hholds]
    · have hall : (c :: digits).all isDigitByte = true := by simpa [hminus] using hnumber.2
      obtain ⟨htake, hdrop⟩ := digits_append hall hrest
      have hc : isDigitByte c = true := by
        rw [List.all_cons, Bool.and_eq_true] at hall
        exact hall.1
      obtain ⟨hnospace, hplus⟩ := digit_not_space_or_sign c hc
      have hsign : (c :: digits ++ rest).dropWhile isSpaceByte = c :: digits ++ rest :=
        List.dropWhile_cons_of_neg (by simp [hnospace])
      have hhead : (c :: digits ++ rest).head? = some c := rfl
      simp only [List.head?_cons, Option.some.injEq, hminus, if_false] at hholds hnegated
      simp only [hsign, hhead, List.head?_cons, Option.some.injEq, hminus, hplus, or_self, if_false,
        htake, hdrop, hnegated, if_pos hholds, reduceCtorEq]

/-- Behind a field there is a space, or the end of the text. -/
theorem takeWhile_fields (fields : List Bytes) {rest : Bytes}
    (hrest : rest.takeWhile isDigitByte = []) :
    (fields.flatMap (32 :: ·) ++ rest).takeWhile isDigitByte = [] := by
  cases fields with
  | nil => exact hrest
  | cons field fields => rfl

/-- `sscanf()` reads a field with each conversion for a number. -/
theorem sscanf_fields {format : List Conversion} {fields : List Bytes} {rest : Bytes}
    (hc : .c ∉ format) (hfields : ∀ field ∈ fields, isNumber field = true)
    (htyped : List.Forall₂ (fun conv field => conv.holds (numberValue field)) format fields)
    (hrest : rest.takeWhile isDigitByte = []) :
    sscanf format (fields.flatMap (32 :: ·) ++ rest) = some (fields.map numberValue) := by
  induction htyped with
  | nil => rfl
  | @cons conv field format fields hholds _ ih =>
    rw [List.mem_cons, not_or] at hc
    obtain ⟨hconv, hformat⟩ := hc
    have hconvert (text : Bytes) : conv.convert text = conv.number text := by
      cases conv with
      | c => exact absurd rfl hconv
      | d | u | lu | ld | llu => rfl
    have htext : (field :: fields).flatMap (32 :: ·) ++ rest =
        32 :: (field ++ (fields.flatMap (32 :: ·) ++ rest)) := by simp
    rw [sscanf, hconvert, htext, Conversion.number_eq (hfields field List.mem_cons_self) hholds
      (takeWhile_fields fields hrest)]
    dsimp only
    rw [ih hformat (fun f hf => hfields f (List.mem_cons_of_mem _ hf))]
    rfl

/-- `strrchr()` finds the mark in front of a part that does not contain it. -/
theorem strrchr_append {before behind : Bytes} {c : UInt8} (h : c ∉ behind) :
    strrchr (before ++ c :: behind) c = some before.length := by
  have hrev : (before ++ c :: behind).reverse = behind.reverse ++ c :: before.reverse := by simp
  rw [strrchr, if_pos (by simp), hrev, List.idxOf_append_of_notMem (by simpa using h),
    List.idxOf_cons_self]
  simp only [List.length_append, List.length_cons, List.length_reverse]
  congr 1
  omega

/-- The C string in a text ends at its first NUL. -/
theorem cString_append {text rest : Bytes} (h : 0 ∉ text) :
    cString (text ++ 0 :: rest) = some text := by
  have hall : ∀ c ∈ text, decide (c ≠ 0) = true := by
    intro c hc
    rw [decide_eq_true_iff]
    rintro rfl
    exact h hc
  rw [cString, if_pos (by simp), List.takeWhile_append_of_pos hall]
  simp
/-- The characters of a number are not `NUL`, and no parentheses. -/
theorem ne_of_mem_number {field : Bytes} (h : isNumber field = true) {c : UInt8} (hc : c ∈ field) :
    c ≠ 0 ∧ c ≠ 41 := by
  have hdigit : ∀ c : UInt8, isDigitByte c = true → c ≠ 0 ∧ c ≠ 41 := by
    intro c hdigit
    constructor <;> rintro rfl <;> revert hdigit <;> decide
  cases field with
  | nil => cases hc
  | cons d digits =>
    simp only [isNumber, unsignedPart, Bool.and_eq_true, List.all_eq_true] at h
    by_cases hminus : d = 45
    · rcases List.mem_cons.mp hc with rfl | hmem
      · rw [hminus]
        decide
      · exact hdigit c (h.2 c (by simpa [hminus] using hmem))
    · exact hdigit c (h.2 c (by simpa [hminus] using hc))

namespace StatFile

variable (f : StatFile)

/-- No byte behind the state letter is a NUL or a closing bracket. -/
theorem ne_of_mem_tail {c : UInt8} (hc : c ∈ f.tail) : c ≠ 0 ∧ c ≠ 41 := by
  obtain ⟨field, hfield, hmem⟩ := List.mem_flatMap.mp hc
  rcases List.mem_cons.mp hmem with rfl | hmem
  · decide
  · exact ne_of_mem_number (f.fields_number field hfield) hmem

/-- Neither is the state letter itself. -/
theorem state_ne : f.state ≠ 0 ∧ f.state ≠ 41 := by
  have h := f.state_letter
  constructor <;> intro heq <;> rw [heq] at h <;> revert h <;> decide

/-- Only the name of the command may contain parentheses, so the last one is behind it. -/
theorem not_mem_behind : (41 : UInt8) ∉ 32 :: f.state :: f.tail := by
  simp only [List.mem_cons, not_or]
  exact ⟨by decide, Ne.symm f.state_ne.2, fun h => (f.ne_of_mem_tail h).2 rfl⟩

/-- There is no NUL in the part that `sscanf()` scans. -/
theorem zero_not_mem_scanned : (0 : UInt8) ∉ f.state :: f.tail := by
  simp only [List.mem_cons, not_or]
  exact ⟨Ne.symm f.state_ne.1, fun h => (f.ne_of_mem_tail h).1 rfl⟩

/-- There is no NUL in the whole line. -/
theorem zero_not_mem_line : (0 : UInt8) ∉ f.line := by
  have hpid : (0 : UInt8) ∉ f.pid := fun h => by
    have := List.all_eq_true.mp f.pid_digits 0 h
    exact absurd this (by decide)
  simp only [line, head, List.mem_append, List.mem_cons, not_or]
  refine ⟨⟨hpid, by decide, by decide, f.comm_ne⟩, by decide, by decide, ?_⟩
  simpa only [List.mem_cons, not_or] using f.zero_not_mem_scanned

/-- `sscanf()` stores 20 values, the last of which is the start time. -/
theorem sscanf_eq : ∃ values, sscanf statFormat (f.state :: f.tail) = some values ∧
    values.length = 20 ∧ values.getLast? = some (numberValue (f.fields.getD 18 [])) := by
  have hlength : (f.fields.take 19).length = 19 := f.fields_typed.length_eq.symm
  have htail : f.tail =
      (f.fields.take 19).flatMap (32 :: ·) ++ (f.fields.drop 19).flatMap (32 :: ·) := by
    rw [← List.flatMap_append, List.take_append_drop, tail]
  have hbehind : ((f.fields.drop 19).flatMap (32 :: ·) ++ []).takeWhile isDigitByte = [] :=
    takeWhile_fields _ rfl
  rw [List.append_nil] at hbehind
  have hscan := sscanf_fields (by decide)
    (fun field h => f.fields_number field (List.mem_of_mem_take h)) f.fields_typed hbehind
  refine ⟨(f.state.toNat : ℤ) :: (f.fields.take 19).map numberValue, ?_, ?_, ?_⟩
  · rw [htail]
    show (sscanf statFormat.tail _).map _ = _
    rw [hscan]
    rfl
  · rw [List.length_cons, List.length_map, hlength]
  · have hlt : 18 < f.fields.length := by
      rw [List.length_take] at hlength
      omega
    simp only [List.getLast?_eq_getElem?, List.length_cons, List.length_map, hlength]
    simp [hlt]

/-- The start time behind a name that is read to its last parenthesis. -/
theorem scanStartTime_eq (junk : Bytes) :
    scanStartTime (f.line ++ 0 :: junk) f.head.length = some (toDouble f.starttime) := by
  obtain ⟨values, hscan, hlength, hlast⟩ := f.sscanf_eq
  have hdrop : ((f.line ++ 0 :: junk).set f.head.length 0).drop (f.head.length + 2) =
      (f.state :: f.tail) ++ 0 :: junk := by
    simp [line, List.set_append_right, List.drop_append]
  unfold scanStartTime
  simp only [hdrop, cString_append f.zero_not_mem_scanned, hscan, hlength, hlast,
    Option.bind_eq_bind, Option.bind_some, ne_eq, not_true_eq_false, if_false, Option.map_some]
  rfl

/-- A file shorter than 2^31 bytes is read, and its 22nd field is returned as a double. -/
theorem createTimeSinceBoot_eq (sizes : ℕ → ℕ) (garbage : ℕ → UInt8) {rounds : ℕ}
    (hrounds : f.content.length < rounds) (hlt : f.content.length < 2 ^ 31) :
    createTimeSinceBoot ⟨some f.content, fun i => some (sizes i), garbage⟩ rounds =
      some (toDouble f.starttime) := by
  obtain ⟨buffer, hread, htake, hlength⟩ :=
    processxReadFile_eq f.content sizes garbage (by decide : 0 < 2048) hrounds
  have hret : (Int32.ofNat f.content.length).toInt = f.content.length :=
    Int32.toInt_ofNat_of_lt hlt
  have hcontent : f.content.length = f.line.length + 1 := by simp [content]
  have hne : Int32.ofNat f.content.length ≠ -1 := by
    intro heq
    rw [heq] at hret
    have hminus : (-1 : Int32).toInt = -1 := rfl
    omega
  obtain ⟨junk, rfl⟩ : ∃ junk, buffer = f.content ++ junk :=
    ⟨_, (htake ▸ (List.take_append_drop f.content.length buffer).symm :)⟩
  have hbounds : ¬((f.content.length : ℤ) - 1 < 0 ∨
      ((f.content ++ junk).length : ℤ) ≤ f.content.length - 1) := by
    rw [List.length_append]
    omega
  have hlast : ((f.content.length : ℤ) - 1).toNat = f.line.length := by omega
  have hset : (f.content ++ junk).set f.line.length 0 = f.line ++ 0 :: junk := by
    simp [content, List.set_append_right]
  have hopen : ¬(40 : UInt8) ∉ f.line := by simp [line, head]
  unfold createTimeSinceBoot
  simp only [hread, Option.bind_eq_bind, Option.bind_some, if_neg hne, hret, if_neg hbounds, hlast,
    hset, cString_append f.zero_not_mem_line, if_neg hopen]
  have hclose : strrchr f.line 41 = some f.head.length := strrchr_append f.not_mem_behind
  rw [hclose]
  exact f.scanStartTime_eq junk

end StatFile

/-- `processx__read_file()` returns the whole content with its length, and
`processx__create_time_since_boot()` the 22nd field, if and only if the content is shorter than
2^31 bytes and the field is a double. -/
theorem startTime_iff (f : StatFile) (sizes : ℕ → ℕ) (garbage : ℕ → UInt8) (rounds : ℕ)
    (hrounds : f.content.length < rounds) :
    (ReadsWhole f.content
        (processxReadFile ⟨some f.content, fun i => some (sizes i), garbage⟩ 2048 rounds) ∧
      createTimeSinceBoot ⟨some f.content, fun i => some (sizes i), garbage⟩ rounds =
        some f.starttime) ↔
      f.content.length < 2 ^ 31 ∧ 2 ^ (f.starttime.log2 + 1 - 53) ∣ f.starttime := by
  rw [readsWhole_iff f.content sizes garbage (by decide) hrounds]
  refine and_congr_right fun hlt => ?_
  rw [f.createTimeSinceBoot_eq sizes garbage hrounds hlt, Option.some.injEq, toDouble_eq_iff]

/-- The file of a process with a given name, all of whose other fields are 1. -/
def StatFile.named (comm : Bytes) (h : 0 ∉ comm) : StatFile where
  pid := [49]
  comm := comm
  state := 83
  fields := List.replicate 19 [49]
  pid_digits := by decide
  comm_ne := h
  state_letter := by decide
  fields_number := by decide
  fields_typed := by decide

/-- The content with a given name is the name and 45 bytes. -/
theorem StatFile.length_named (comm : Bytes) (h : 0 ∉ comm) :
    (StatFile.named comm h).content.length = comm.length + 45 := by
  simp [StatFile.named, content, line, head, tail]

/-- A name with parentheses and a line feed: `) (`, a line feed, and `)`. -/
theorem startTime_iff_parentheses :
    (StatFile.named [41, 32, 40, 10, 41] (by decide)).content.length < 51 ∧
      createTimeSinceBoot ⟨some (StatFile.named [41, 32, 40, 10, 41] (by decide)).content,
        fun i => some (i % 3), fun _ => 7⟩ 51 = some 1 := by
  have hlength : (StatFile.named [41, 32, 40, 10, 41] (by decide)).content.length < 51 := by
    rw [StatFile.length_named]
    decide
  have hstart : (StatFile.named [41, 32, 40, 10, 41] (by decide)).starttime = 1 := rfl
  have htime := (startTime_iff (StatFile.named [41, 32, 40, 10, 41] (by decide)) (fun i => i % 3)
    (fun _ => 7) 51 hlength).mpr ⟨hlength.trans (by decide), by rw [hstart]; decide⟩
  exact ⟨hlength, hstart ▸ htime.2⟩

/-- The long name is a C string. -/
theorem zero_not_mem_longName : (0 : UInt8) ∉ List.replicate (2 ^ 32 - 46) (97 : UInt8) := by
  intro h
  exact absurd (List.eq_of_mem_replicate h) (by decide)

/-- A file that is 2^32 - 1 bytes long. -/
def StatFile.longName : StatFile :=
  .named (List.replicate (2 ^ 32 - 46) 97) zero_not_mem_longName

/-- Its length is returned as -1, as if it could not be read, so the start time is 0 and not 1. -/
theorem startTime_longName :
    ¬(ReadsWhole StatFile.longName.content
        (processxReadFile ⟨some StatFile.longName.content, fun _ => some 4095, fun _ => 0⟩ 2048
          (2 ^ 32)) ∧
      createTimeSinceBoot ⟨some StatFile.longName.content, fun _ => some 4095, fun _ => 0⟩
        (2 ^ 32) = some StatFile.longName.starttime) ∧
      createTimeSinceBoot ⟨some StatFile.longName.content, fun _ => some 4095, fun _ => 0⟩
        (2 ^ 32) = some 0 ∧
      StatFile.longName.starttime = 1 := by
  have hlength : StatFile.longName.content.length = 2 ^ 32 - 46 + 45 := by
    rw [StatFile.longName, StatFile.length_named, List.length_replicate]
  have hrounds : StatFile.longName.content.length < 2 ^ 32 := by
    rw [hlength]
    decide
  have hwhole := readsWhole_iff StatFile.longName.content (fun _ => 4095) (fun _ => 0)
    (by decide : 0 < 2048) hrounds
  obtain ⟨buffer, hread, -, -⟩ := processxReadFile_eq StatFile.longName.content (fun _ => 4095)
    (fun _ => 0) (by decide : 0 < 2048) hrounds
  rw [hlength] at hwhole hread
  refine ⟨fun h => absurd (hwhole.mp h.1) (by decide), ?_, rfl⟩
  unfold createTimeSinceBoot
  rw [hread]
  rfl

end Processx
