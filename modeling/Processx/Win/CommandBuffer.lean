import Processx.Win.CommandLine
import Processx.Win.Environment
import Processx.Library.Writes
import Mathlib.Data.List.TakeWhile

/-!
# The buffer of the command line on Windows

`processx__make_program_args()` measures the arguments, allocates twice the sum of their sizes and
two characters more for each of them, and fills this buffer through a temporary one. Each argument
is converted into the temporary buffer with the room that is left in the other one, as an `int`.
If that is zero then `MultiByteToWideChar()` only counts, and what the temporary buffer held before
is quoted once more. For the first argument that is memory that nothing was written to.
-/

namespace Processx

variable {toWide : List UInt8 → WString}

/-- What `MultiByteToWideChar()` makes of a text, with its `NUL`, in characters. -/
def wideSize (toWide : List UInt8 → WString) (arg : List UInt8) : ℕ := (toWide arg).val.length + 1

/-- `MultiByteToWideChar(CP_UTF8, 0, arg, -1, NULL, 0)`: the number of characters, if that is an
`int`. -/
def countWide (toWide : List UInt8 → WString) (arg : List UInt8) : Option ℕ :=
  if 2 ^ 31 ≤ wideSize toWide arg then none else some (wideSize toWide arg)

/-- `MultiByteToWideChar(CP_UTF8, 0, arg, -1, temp_buffer, room)`: the number of characters, and
what the temporary buffer holds then. Without any room it counts. -/
def convertArg (toWide : List UInt8 → WString) (arg : List UInt8) (temp : WString) (room : ℤ) :
    Option (ℕ × WString) :=
  match countWide toWide arg with
  | none => none
  | some argLen =>
    if room = 0 then some (argLen, temp)
    else if room < argLen then none
    else some (argLen, toWide arg)

/-- `processx__quote_cmd_arg()`: its writes, and the target behind them. `wcsrev()` writes the text
between the quotes anew, in front of the terminator. -/
def quoteCmdArgWrites (source : List WChar) (target : ℕ) : List (ℕ × WChar) × ℕ :=
  let len := source.length
  if len = 0 then ([(target, wQuote), (target + 1, wQuote)], target + 2)
  else if !wcspbrk source [wSpace, wTab, wQuote] then (Writes.text target source, target + len)
  else if !wcspbrk source [wQuote, wBackslash] then
    ((target, wQuote) :: Writes.text (target + 1) source ++ [(target + 1 + len, wQuote)],
      target + 1 + len + 1)
  else
    let start := target + 1
    let backwards := quoteLoop source.reverse true
    let behind := start + backwards.length
    ((target, wQuote) :: Writes.text start backwards ++ (behind, 0) ::
        Writes.text start backwards.reverse ++ [(behind, wQuote)],
      behind + 1)

/-- The first loop of `processx__make_program_args()`: `dst_len` and `temp_buffer_len`. -/
def countArgs (toWide : List UInt8 → WString) : List (List UInt8) → ℕ → ℕ → Option (ℕ × ℕ)
  | [], dstLen, tempBufferLen => some (dstLen, tempBufferLen)
  | arg :: args, dstLen, tempBufferLen =>
    match countWide toWide arg with
    | none => none
    | some argLen =>
      countArgs toWide args (dstLen + argLen)
        (if argLen > tempBufferLen then argLen else tempBufferLen)

/-- `dst_len * 2 + arg_count * 2`, where the second product is an `int`. -/
def commandLineLen (dstLen argCount : ℕ) : ℕ :=
  (((dstLen : ℤ) * 2 + ((argCount : ℤ) * 2).bmod (2 ^ 32)) % 2 ^ 64).toNat

/-- The copy of an argument from the temporary buffer, and `pos` behind it. -/
def copyArg (verbatimArguments : Bool) (temp : WString) (argLen pos : ℕ) :
    List (ℕ × WChar) × ℕ :=
  if verbatimArguments then (Writes.text pos (temp.val ++ [0]), pos + (argLen - 1))
  else quoteCmdArgWrites temp.val pos

/-- The second loop: its writes to the buffer, and whether it comes to its end. -/
def copyArgs (toWide : List UInt8 → WString) (verbatimArguments : Bool) (dstLen : ℕ) :
    ℕ → WString → List (List UInt8) → List (ℕ × WChar) × Bool
  | _, _, [] => ([], true)
  | pos, temp, arg :: args =>
    match convertArg toWide arg temp (roomAt dstLen pos) with
    | none => ([], false)
    | some (argLen, temp) =>
      let (copied, pos) := copyArg verbatimArguments temp argLen pos
      let (writes, ok) := copyArgs toWide verbatimArguments dstLen (pos + 1) temp args
      (copied ++ (pos, if args = [] then 0 else wSpace) :: writes, ok)

/-- A command line: the allocated size, the writes, and whether the function succeeds. -/
structure CommandLine where
  dstLen : ℕ
  tempBufferLen : ℕ
  writes : List (ℕ × WChar)
  ok : Bool

/-- `processx__make_program_args()`, where some text stands in the memory from the temporary buffer
on before anything is written there, up to the first `NUL`. Nothing is allocated if `LENGTH()`
throws or an argument cannot be counted. -/
def makeProgramArgs (toWide : List UInt8 → WString) (verbatimArguments : Bool)
    (args : List (List UInt8)) (fresh : WString) : Option CommandLine :=
  if 2 ^ 31 ≤ args.length then none
  else
    match countArgs toWide args 0 0 with
    | none => none
    | some (dstLen, tempBufferLen) =>
      let dstLen := commandLineLen dstLen args.length
      let filled := copyArgs toWide verbatimArguments dstLen 0 fresh args
      some ⟨dstLen, tempBufferLen, filled.1, filled.2⟩

/-- What is written for an argument. -/
def argPiece (verbatimArguments : Bool) (source : List WChar) : List WChar :=
  if verbatimArguments then source else quoteCmdArg source

/-- The quoting loop at most doubles the text. -/
theorem length_quoteLoop (text : List WChar) (quoteHit : Bool) :
    text.length ≤ (quoteLoop text quoteHit).length ∧
      (quoteLoop text quoteHit).length ≤ 2 * text.length := by
  induction text generalizing quoteHit with
  | nil => exact ⟨Nat.zero_le _, Nat.zero_le _⟩
  | cons c text ih =>
    rw [quoteLoop]
    split_ifs
    all_goals
      simp only [List.length_cons]
      have hrest := ih quoteHit
      have hhit := ih true
      have hnone := ih false
      omega

/-- Quoting loses no character, and it at most doubles them and adds two quotes. -/
theorem length_argPiece (verbatimArguments : Bool) (source : List WChar) :
    source.length ≤ (argPiece verbatimArguments source).length ∧
      (argPiece verbatimArguments source).length ≤ 2 * source.length + 2 := by
  unfold argPiece quoteCmdArg
  have hloop := length_quoteLoop source.reverse true
  rw [List.length_reverse] at hloop
  split_ifs <;> simp <;> omega

/-- The writes of the quoted text, and what they leave. -/
theorem quoteCmdArgWrites_spec (source : List WChar) (target : ℕ) :
    (quoteCmdArgWrites source target).2 = target + (quoteCmdArg source).length ∧
      Writes.Within target (target + (quoteCmdArg source).length)
        (quoteCmdArgWrites source target).1 ∧
      ∀ memory, Writes.Holds (Writes.apply (quoteCmdArgWrites source target).1 memory) target
        (quoteCmdArg source) := by
  have hforward {writes : List (ℕ × WChar)} {behind : ℕ}
      (hwrites : writes = Writes.text target (quoteCmdArg source))
      (hbehind : behind = target + (quoteCmdArg source).length) :
      behind = target + (quoteCmdArg source).length ∧
        Writes.Within target (target + (quoteCmdArg source).length) writes ∧
        ∀ memory, Writes.Holds (Writes.apply writes memory) target (quoteCmdArg source) :=
    ⟨hbehind, hwrites ▸ Writes.within_text _ _,
      fun memory => hwrites ▸ Writes.holds_apply_text _ _ memory⟩
  unfold quoteCmdArgWrites
  dsimp only
  split_ifs with hempty hplain hwrap
  · exact hforward (by simp [quoteCmdArg, hempty, Writes.text]) (by simp [quoteCmdArg, hempty])
  · exact hforward (by simp only [quoteCmdArg, if_neg hempty, if_pos hplain])
      (by simp only [quoteCmdArg, if_neg hempty, if_pos hplain])
  · refine hforward ?_ ?_ <;>
      simp only [quoteCmdArg, if_neg hempty, if_neg hplain, if_pos hwrap, List.cons_append]
    · rw [Writes.text, Writes.text_append]
      rfl
    · simp only [List.length_cons, List.length_append, List.length_nil]
      omega
  · have hquoted : quoteCmdArg source =
        wQuote :: ((quoteLoop source.reverse true).reverse ++ [wQuote]) := by
      simp only [quoteCmdArg, if_neg hempty, if_neg hplain, if_neg hwrap, List.cons_append]
    rw [hquoted]
    generalize quoteLoop source.reverse true = backwards
    -- the text from behind the first quote is written twice
    have hagain : (target, wQuote) :: Writes.text (target + 1) backwards ++
          (target + 1 + backwards.length, 0) :: Writes.text (target + 1) backwards.reverse ++
          [(target + 1 + backwards.length, wQuote)] =
        (target, wQuote) :: (Writes.text (target + 1) (backwards ++ [0]) ++
          Writes.text (target + 1) (backwards.reverse ++ [wQuote])) := by
      simp only [Writes.text_append, Writes.text, List.length_reverse, List.cons_append,
        List.append_assoc, List.nil_append]
    have hbackwards := Writes.within_text (target + 1) (backwards ++ [0])
    have hreversed := Writes.within_text (target + 1) (backwards.reverse ++ [wQuote])
    rw [hagain]
    simp only [List.length_cons, List.length_append, List.length_reverse, List.length_nil]
      at hbackwards hreversed ⊢
    refine ⟨by omega, ?_, fun memory => ?_⟩
    · rw [Writes.within_cons, Writes.within_append]
      exact ⟨by omega, hbackwards.mono (by omega) (by omega), hreversed.mono (by omega) (by omega)⟩
    · rw [Writes.apply, Writes.apply_append, Writes.holds_cons]
      refine ⟨?_, Writes.holds_apply_text _ _ _⟩
      rw [hreversed.apply_eq (by omega), hbackwards.apply_eq (by omega), Function.update_self]

/-- The copy of an argument stays within its piece and the terminator behind it. -/
theorem copyArg_spec (verbatimArguments : Bool) (temp : WString) (argLen pos : ℕ) :
    Writes.Within pos (pos + (argPiece verbatimArguments temp.val).length + 1)
        (copyArg verbatimArguments temp argLen pos).1 ∧
      (copyArg verbatimArguments temp argLen pos).2 = pos +
        (if verbatimArguments then argLen - 1 else (argPiece verbatimArguments temp.val).length) ∧
      ∀ memory, Writes.Holds (Writes.apply (copyArg verbatimArguments temp argLen pos).1 memory) pos
        (argPiece verbatimArguments temp.val) := by
  cases verbatimArguments with
  | true =>
    refine ⟨?_, rfl, fun memory => ?_⟩
    · have hwithin := Writes.within_text pos (temp.val ++ [0])
      rwa [List.length_append, List.length_singleton, ← Nat.add_assoc] at hwithin
    · exact (Writes.holds_append.mp (Writes.holds_apply_text pos (temp.val ++ [0]) memory)).1
  | false =>
    obtain ⟨hbehind, hwithin, hholds⟩ := quoteCmdArgWrites_spec temp.val pos
    exact ⟨hwithin.mono le_rfl (Nat.le_succ _), hbehind, hholds⟩

/-- Behind the copy of an argument that was converted is the end of its piece. -/
theorem copyArg_converted (toWide : List UInt8 → WString) (verbatimArguments : Bool)
    (arg : List UInt8) (pos : ℕ) :
    (copyArg verbatimArguments (toWide arg) (wideSize toWide arg) pos).2 =
      pos + (argPiece verbatimArguments (toWide arg).val).length := by
  rw [(copyArg_spec _ _ _ _).2.1]
  cases verbatimArguments <;> rfl

/-- A conversion that does not fail has counted, or has filled the temporary buffer. -/
theorem convertArg_some {arg : List UInt8} {temp temp' : WString} {room : ℤ} {argLen : ℕ}
    (h : convertArg toWide arg temp room = some (argLen, temp')) :
    argLen = wideSize toWide arg ∧ wideSize toWide arg < 2 ^ 31 ∧
      (room = 0 ∧ temp' = temp ∨ (wideSize toWide arg : ℤ) ≤ room ∧ temp' = toWide arg) := by
  unfold convertArg countWide at h
  by_cases hlong : 2 ^ 31 ≤ wideSize toWide arg
  · rw [if_pos hlong] at h
    cases h
  · rw [if_neg hlong] at h
    dsimp only at h
    refine ⟨?_, Nat.lt_of_not_le hlong, ?_⟩
    · split_ifs at h <;> cases h <;> rfl
    · split_ifs at h with hzero hshort
      · cases h
        exact .inl ⟨hzero, rfl⟩
      · cases h
        exact .inr ⟨Int.not_lt.mp hshort, rfl⟩

/-- The room is what is left, up to a multiple of `2 ^ 32`. -/
theorem roomAt_spec (dstLen pos : ℕ) :
    ∃ k : ℤ, (dstLen : ℤ) - pos = roomAt dstLen pos + k * 2 ^ 32 ∧
      -2 ^ 31 ≤ roomAt dstLen pos ∧ roomAt dstLen pos < 2 ^ 31 := by
  unfold roomAt
  generalize (dstLen : ℤ) - pos = left
  rw [Int.bmod_def]
  split
  · exact ⟨left / 2 ^ 32, by omega, by omega, by omega⟩
  · exact ⟨left / 2 ^ 32 + 1, by omega, by omega, by omega⟩

/-- What the source allocates: the worst case, where every character needs escaping. -/
def worstCase (toWide : List UInt8 → WString) (args : List (List UInt8)) : ℕ :=
  2 * (args.map (wideSize toWide)).sum + 2 * args.length

/-- The worst case is a sum over the arguments. -/
theorem worstCase_cons (arg : List UInt8) (args : List (List UInt8)) :
    worstCase toWide (arg :: args) = 2 * wideSize toWide arg + 2 + worstCase toWide args := by
  simp only [worstCase, List.map_cons, List.sum_cons, List.length_cons]
  omega

/-- A converted argument is copied and the loop goes on behind it. -/
theorem copyArgs_of_some {verbatimArguments : Bool} {dstLen pos argLen : ℕ} {temp temp' : WString}
    {arg : List UInt8} (args : List (List UInt8))
    (h : convertArg toWide arg temp (roomAt dstLen pos) = some (argLen, temp')) :
    copyArgs toWide verbatimArguments dstLen pos temp (arg :: args) =
      ((copyArg verbatimArguments temp' argLen pos).1 ++
          ((copyArg verbatimArguments temp' argLen pos).2, if args = [] then 0 else wSpace) ::
            (copyArgs toWide verbatimArguments dstLen
              ((copyArg verbatimArguments temp' argLen pos).2 + 1) temp' args).1,
        (copyArgs toWide verbatimArguments dstLen
          ((copyArg verbatimArguments temp' argLen pos).2 + 1) temp' args).2) := by
  rw [copyArgs, h]

/-- The loop ends at the first argument that is not converted. -/
theorem copyArgs_of_none {verbatimArguments : Bool} {dstLen pos : ℕ} {temp : WString}
    {arg : List UInt8} (args : List (List UInt8))
    (h : convertArg toWide arg temp (roomAt dstLen pos) = none) :
    copyArgs toWide verbatimArguments dstLen pos temp (arg :: args) = ([], false) := by
  rw [copyArgs, h]

/-- Where the room is negative the conversion fails, so nothing more is written. -/
theorem copyArgs_of_negative {verbatimArguments : Bool} {dstLen pos : ℕ}
    (h : roomAt dstLen pos < 0) (temp : WString) (args : List (List UInt8)) :
    (copyArgs toWide verbatimArguments dstLen pos temp args).1 = [] := by
  cases args with
  | nil => rfl
  | cons arg args =>
    cases hconvert : convertArg toWide arg temp (roomAt dstLen pos) with
    | none => rw [copyArgs_of_none args hconvert]
    | some converted =>
      obtain ⟨-, -, ⟨hzero, -⟩ | ⟨hroom, -⟩⟩ := convertArg_some hconvert <;> omega

/-- **The second loop.** It starts with room for the worst case. If it starts with a room of zero
then what the temporary buffer holds is written again, which is less than `2 ^ 31` characters
here; behind them the room is negative. -/
theorem copyArgs_within (verbatimArguments : Bool) {dstLen pos : ℕ} (temp : WString)
    {args : List (List UInt8)} (hroom : pos + worstCase toWide args ≤ dstLen)
    (hstale : roomAt dstLen pos = 0 →
      (argPiece verbatimArguments temp.val).length + 1 < 2 ^ 31) :
    Writes.Within 0 dstLen (copyArgs toWide verbatimArguments dstLen pos temp args).1 := by
  induction args generalizing pos temp with
  | nil => exact Writes.within_nil _ _
  | cons arg args ih =>
    rw [worstCase_cons] at hroom
    cases hconvert : convertArg toWide arg temp (roomAt dstLen pos) with
    | none =>
      rw [copyArgs_of_none args hconvert]
      exact Writes.within_nil _ _
    | some converted =>
      obtain ⟨argLen, temp'⟩ := converted
      obtain ⟨rfl, hint, hcase⟩ := convertArg_some hconvert
      obtain ⟨hcopied, hbehind, -⟩ := copyArg_spec verbatimArguments temp' (wideSize toWide arg) pos
      obtain ⟨k, hleft, -, hhigh⟩ := roomAt_spec dstLen pos
      obtain ⟨k', hleft', -, hhigh'⟩ :=
        roomAt_spec dstLen ((copyArg verbatimArguments temp' (wideSize toWide arg) pos).2 + 1)
      have hpos : 0 < wideSize toWide arg := Nat.succ_pos _
      rw [copyArgs_of_some args hconvert, Writes.within_append, Writes.within_cons]
      rcases hcase with ⟨hzero, rfl⟩ | ⟨hfits, rfl⟩
      · -- counted only: what is left is a positive multiple of `2 ^ 32`
        have hshort := hstale hzero
        generalize (copyArg verbatimArguments temp' (wideSize toWide arg) pos).2 = behind at *
        have hnegative : roomAt dstLen (behind + 1) < 0 := by
          cases verbatimArguments <;>
            simp only [Bool.false_eq_true, if_true, if_false] at hbehind <;> omega
        rw [copyArgs_of_negative hnegative]
        refine ⟨hcopied.mono (Nat.zero_le _) (by omega), ⟨Nat.zero_le _, ?_⟩,
          Writes.within_nil _ _⟩
        split at hbehind <;> omega
      · have hpiece := (length_argPiece verbatimArguments (toWide arg).val).2
        have hsize : wideSize toWide arg = (toWide arg).val.length + 1 := rfl
        have hnext := copyArg_converted toWide verbatimArguments arg pos
        refine ⟨hcopied.mono (Nat.zero_le _) (by omega), ⟨Nat.zero_le _, by omega⟩,
          ih (toWide arg) (by omega) fun hzero => ?_⟩
        -- what was written is the room in front of it, which is an `int`
        omega

/-- The first loop, if it does not fail: the sum of the sizes, and a temporary buffer for the
longest argument. -/
theorem countArgs_some {args : List (List UInt8)} (h : ∀ arg ∈ args, wideSize toWide arg < 2 ^ 31)
    (dstLen tempBufferLen : ℕ) :
    ∃ longest, countArgs toWide args dstLen tempBufferLen =
        some (dstLen + (args.map (wideSize toWide)).sum, longest) ∧
      tempBufferLen ≤ longest ∧ ∀ arg ∈ args, wideSize toWide arg ≤ longest := by
  induction args generalizing dstLen tempBufferLen with
  | nil => exact ⟨tempBufferLen, rfl, le_rfl, List.forall_mem_nil _⟩
  | cons arg args ih =>
    obtain ⟨hfirst, hrest⟩ := List.forall_mem_cons.mp h
    have hcount : countWide toWide arg = some (wideSize toWide arg) := if_neg (by omega)
    obtain ⟨longest, hsum, hkept, hlongest⟩ := ih hrest (dstLen + wideSize toWide arg)
      (if wideSize toWide arg > tempBufferLen then wideSize toWide arg else tempBufferLen)
    refine ⟨longest, ?_, ?_, List.forall_mem_cons.mpr ⟨?_, hlongest⟩⟩
    · rw [countArgs, hcount, List.map_cons, List.sum_cons, ← Nat.add_assoc]
      exact hsum
    · split at hkept <;> omega
    · split at hkept <;> omega

/-- An argument whose wide form is too long makes the count fail. -/
theorem countArgs_none {args : List (List UInt8)} (h : ∃ arg ∈ args, 2 ^ 31 ≤ wideSize toWide arg)
    (dstLen tempBufferLen : ℕ) : countArgs toWide args dstLen tempBufferLen = none := by
  induction args generalizing dstLen tempBufferLen with
  | nil =>
    obtain ⟨arg, hmem, -⟩ := h
    exact absurd hmem List.not_mem_nil
  | cons first args ih =>
    obtain ⟨arg, hmem, hlong⟩ := h
    rw [countArgs]
    by_cases hfirst : 2 ^ 31 ≤ wideSize toWide first
    · rw [countWide, if_pos hfirst]
    · rw [countWide, if_neg hfirst]
      rcases List.mem_cons.mp hmem with rfl | hmem
      · contradiction
      · exact ih ⟨arg, hmem, hlong⟩ _ _

/-- A bound for the sum of the sizes from a bound for each. -/
theorem sum_wideSize_le {args : List (List UInt8)}
    (h : ∀ arg ∈ args, wideSize toWide arg < 2 ^ 31) :
    (args.map (wideSize toWide)).sum ≤ args.length * 2 ^ 31 := by
  induction args with
  | nil => exact Nat.zero_le _
  | cons arg args ih =>
    obtain ⟨hfirst, hrest⟩ := List.forall_mem_cons.mp h
    have hsum := ih hrest
    rw [List.map_cons, List.sum_cons, List.length_cons]
    omega

/-- The allocated size is the worst case exactly if twice the number of arguments is an `int`. -/
theorem commandLineLen_eq_iff {args : List (List UInt8)} (hlength : args.length < 2 ^ 31)
    (h : ∀ arg ∈ args, wideSize toWide arg < 2 ^ 31) :
    commandLineLen (args.map (wideSize toWide)).sum args.length = worstCase toWide args ↔
      args.length < 2 ^ 30 := by
  have hsum := sum_wideSize_le h
  unfold commandLineLen worstCase
  rw [Int.bmod_def]
  split <;> omega

/-- What the function returns, if it allocates the buffers. The temporary buffer has room for every
conversion. -/
theorem makeProgramArgs_some (verbatimArguments : Bool) {args : List (List UInt8)}
    (hlength : args.length < 2 ^ 31) (h : ∀ arg ∈ args, wideSize toWide arg < 2 ^ 31)
    (fresh : WString) :
    ∃ line, makeProgramArgs toWide verbatimArguments args fresh = some line ∧
      line.dstLen = commandLineLen (args.map (wideSize toWide)).sum args.length ∧
      line.writes = (copyArgs toWide verbatimArguments line.dstLen 0 fresh args).1 ∧
      line.ok = (copyArgs toWide verbatimArguments line.dstLen 0 fresh args).2 ∧
      ∀ arg ∈ args, wideSize toWide arg ≤ line.tempBufferLen := by
  obtain ⟨longest, hcount, -, hlongest⟩ := countArgs_some h 0 0
  rw [makeProgramArgs, if_neg (Nat.not_le_of_lt hlength), hcount, Nat.zero_add]
  refine ⟨_, rfl, ?_⟩
  dsimp only
  exact ⟨rfl, rfl, rfl, hlongest⟩

/-- The buffer has the size of the worst case, and everything is written to it. -/
def StaysWithin (toWide : List UInt8 → WString) (verbatimArguments : Bool)
    (args : List (List UInt8)) (fresh : WString) : Prop :=
  ∀ line, makeProgramArgs toWide verbatimArguments args fresh = some line →
    line.dstLen = worstCase toWide args ∧ Writes.Within 0 line.dstLen line.writes

/-- There is nothing to allocate, or twice the number of arguments is an `int` and the first
conversion has a room that is not zero as an `int`. -/
def CommandLineFits (toWide : List UInt8 → WString) (args : List (List UInt8)) : Prop :=
  2 ^ 31 ≤ args.length ∨ (∃ arg ∈ args, 2 ^ 31 ≤ wideSize toWide arg) ∨
    args.length < 2 ^ 30 ∧
      (args = [] ∨ ¬2 ^ 31 ∣ (args.map (wideSize toWide)).sum + args.length)

/-- A text of letters. -/
def letters (n : ℕ) : WString := ⟨List.replicate n 97, fun h => by
  have hzero : (0 : WChar) = 97 := List.eq_of_mem_replicate h
  exact absurd hzero (by decide)⟩

/-- If the first conversion only counts then a text in the memory of the temporary buffer that is
as long as the command line is written over its end. -/
theorem not_staysWithin (verbatimArguments : Bool) {args : List (List UInt8)} (hne : args ≠ [])
    (hlength : args.length < 2 ^ 30) (h : ∀ arg ∈ args, wideSize toWide arg < 2 ^ 31)
    (hdvd : 2 ^ 31 ∣ (args.map (wideSize toWide)).sum + args.length) :
    ¬StaysWithin toWide verbatimArguments args (letters (worstCase toWide args)) := by
  intro hstays
  obtain ⟨line, hline, -, hwrites, -, -⟩ := makeProgramArgs_some verbatimArguments
    (hlength.trans (by decide)) h (letters (worstCase toWide args))
  obtain ⟨hsize, hwithin⟩ := hstays line hline
  have hzero : roomAt line.dstLen 0 = 0 := by
    obtain ⟨k, hleft, hlow, hhigh⟩ := roomAt_spec line.dstLen 0
    unfold worstCase at hsize
    omega
  obtain ⟨arg, rest, rfl⟩ := List.exists_cons_of_ne_nil hne
  have hcount : countWide toWide arg = some (wideSize toWide arg) :=
    if_neg (Nat.not_le_of_lt (h arg List.mem_cons_self))
  have hconvert : convertArg toWide arg (letters (worstCase toWide (arg :: rest)))
      (roomAt line.dstLen 0) =
        some (wideSize toWide arg, letters (worstCase toWide (arg :: rest))) := by
    rw [convertArg, hcount]
    exact if_pos hzero
  rw [copyArgs_of_some rest hconvert] at hwrites
  rw [hwrites, Writes.within_append, Writes.within_cons] at hwithin
  obtain ⟨hcopied, ⟨-, hbehind⟩, -⟩ := hwithin
  have hletters : (letters (worstCase toWide (arg :: rest))).val.length = line.dstLen := by
    rw [hsize]
    exact List.length_replicate
  cases verbatimArguments with
  | true =>
    -- the terminator
    have hterminator : ((letters (worstCase toWide (arg :: rest))).val ++ [0])[line.dstLen]? =
        some 0 := by
      rw [← hletters, List.getElem?_concat_length]
    have hlt := (hcopied _ (Writes.mem_text hterminator)).2
    omega
  | false =>
    -- the character behind the argument
    have hpiece := (length_argPiece false (letters (worstCase toWide (arg :: rest))).val).1
    rw [(copyArg_spec _ _ _ _).2.1, if_neg Bool.false_ne_true] at hbehind
    omega

/-- **The buffer of the command line.** Whatever the memory of the temporary buffer holds at first,
the buffer has the size of the worst case and everything is written to it, exactly if the numbers
fit. -/
theorem staysWithin_iff (toWide : List UInt8 → WString) (verbatimArguments : Bool)
    (args : List (List UInt8)) :
    (∀ fresh, StaysWithin toWide verbatimArguments args fresh) ↔ CommandLineFits toWide args := by
  unfold CommandLineFits
  by_cases hlength : 2 ^ 31 ≤ args.length
  · refine iff_of_true (fun fresh line hline => ?_) (.inl hlength)
    rw [makeProgramArgs, if_pos hlength] at hline
    cases hline
  by_cases hlong : ∃ arg ∈ args, 2 ^ 31 ≤ wideSize toWide arg
  · refine iff_of_true (fun fresh line hline => ?_) (.inr (.inl hlong))
    rw [makeProgramArgs, if_neg hlength, countArgs_none hlong] at hline
    cases hline
  rw [Nat.not_le] at hlength
  have hint : ∀ arg ∈ args, wideSize toWide arg < 2 ^ 31 := by
    simpa using hlong
  have hsize := commandLineLen_eq_iff hlength hint
  rw [or_iff_right (Nat.not_le_of_lt hlength), or_iff_right hlong]
  constructor
  · intro hstays
    obtain ⟨line, hline, hdstLen, -⟩ :=
      makeProgramArgs_some verbatimArguments hlength hint (letters 0)
    have hshort := hsize.mp (hdstLen ▸ (hstays _ line hline).1)
    refine ⟨hshort, or_iff_not_imp_left.mpr fun hne hdvd => ?_⟩
    exact not_staysWithin verbatimArguments hne hshort hint hdvd (hstays _)
  · rintro ⟨hshort, hroom⟩ fresh line hline
    obtain ⟨line', hline', hdstLen, hwrites, -, -⟩ :=
      makeProgramArgs_some verbatimArguments hlength hint fresh
    obtain rfl : line' = line := Option.some.inj (hline' ▸ hline)
    have hworst := hdstLen.trans (hsize.mpr hshort)
    refine ⟨hworst, ?_⟩
    rw [hwrites]
    rcases hroom with rfl | hroom
    · exact Writes.within_nil _ _
    refine copyArgs_within verbatimArguments fresh (by omega) fun hzero => ?_
    -- the first conversion is not one that only counts
    obtain ⟨k, hleft, -⟩ := roomAt_spec line'.dstLen 0
    unfold worstCase at hworst
    omega

/-- What Windows makes of a text in ASCII. -/
def asciiWide (text : List UInt8) : WString :=
  ⟨(text.takeWhile (· ≠ 0)).map UInt8.toUInt16, fun h => by
    obtain ⟨b, hmem, hzero⟩ := List.mem_map.mp h
    have hne : b ≠ 0 := by simpa using List.mem_takeWhile_imp hmem
    exact hne (UInt8.toUInt16_inj.mp hzero)⟩

/-- A text of `n` letters takes `n + 1` wide characters. -/
theorem wideSize_replicate (n : ℕ) : wideSize asciiWide (List.replicate n 97) = n + 1 := by
  show (((List.replicate n 97).takeWhile (· ≠ 0)).map UInt8.toUInt16).length + 1 = n + 1
  rw [List.takeWhile_replicate_eq_filter, List.length_map,
    List.filter_replicate_of_pos (by decide), List.length_replicate]

/-- A single argument of `2 ^ 31 - 2` letters gets a buffer of `2 ^ 32` characters. -/
theorem staysWithin_long :
    ¬StaysWithin asciiWide true [List.replicate (2 ^ 31 - 2) 97] (letters (2 ^ 32)) := by
  have hgeneral (n : ℕ) (hn : n + 2 = 2 ^ 31) :
      ¬StaysWithin asciiWide true [List.replicate n 97] (letters (2 ^ 32)) := by
    have hsize := wideSize_replicate n
    have hworst : worstCase asciiWide [List.replicate n 97] = 2 ^ 32 := by
      simp only [worstCase, List.map_cons, List.map_nil, List.sum_singleton, hsize,
        List.length_singleton]
      omega
    have hint : ∀ arg ∈ [List.replicate n 97], wideSize asciiWide arg < 2 ^ 31 := by
      rw [List.forall_mem_singleton, hsize]
      omega
    have hdvd : 2 ^ 31 ∣ ([List.replicate n 97].map (wideSize asciiWide)).sum +
        [List.replicate n 97].length := by
      rw [List.map_cons, List.map_nil, List.sum_singleton, hsize, List.length_singleton]
      exact ⟨1, by omega⟩
    have hfails := not_staysWithin true (List.cons_ne_nil _ _) (by simp) hint hdvd
    rwa [hworst] at hfails
  exact hgeneral _ (by decide)

/-- The command line of the first argument and of the others behind it. -/
theorem programArgsText_cons (verbatimArguments : Bool) (arg : WString) (args : List WString) :
    programArgsText verbatimArguments (arg :: args) = argPiece verbatimArguments arg.val ++
      (if args = [] then 0 else wSpace) :: programArgsText verbatimArguments args := by
  cases args <;> rfl

/-- A loop whose room is an `int` at each argument writes the rest of the command line. -/
theorem copyArgs_text (verbatimArguments : Bool) {dstLen pos : ℕ} (temp : WString)
    {args : List (List UInt8)} (hint : dstLen < 2 ^ 31)
    (hroom : pos + worstCase toWide args ≤ dstLen) :
    (copyArgs toWide verbatimArguments dstLen pos temp args).2 = true ∧
      Writes.Within pos dstLen (copyArgs toWide verbatimArguments dstLen pos temp args).1 ∧
      ∀ memory, Writes.Holds
        (Writes.apply (copyArgs toWide verbatimArguments dstLen pos temp args).1 memory) pos
        (programArgsText verbatimArguments (args.map toWide)) := by
  induction args generalizing pos temp with
  | nil => exact ⟨rfl, Writes.within_nil _ _, fun _ => Writes.holds_nil _ _⟩
  | cons arg args ih =>
    rw [worstCase_cons] at hroom
    have hsize : wideSize toWide arg = (toWide arg).val.length + 1 := rfl
    have hconvert : convertArg toWide arg temp (roomAt dstLen pos) =
        some (wideSize toWide arg, toWide arg) := by
      obtain ⟨k, hleft, hlow, hhigh⟩ := roomAt_spec dstLen pos
      have hcount : countWide toWide arg = some (wideSize toWide arg) := if_neg (by omega)
      rw [convertArg, hcount]
      dsimp only
      rw [if_neg (by omega), if_neg (by omega)]
    obtain ⟨hcopied, -, hholds⟩ :=
      copyArg_spec verbatimArguments (toWide arg) (wideSize toWide arg) pos
    have hpiece := (length_argPiece verbatimArguments (toWide arg).val).2
    rw [copyArgs_of_some args hconvert, copyArg_converted, List.map_cons, programArgsText_cons]
    generalize (copyArg verbatimArguments (toWide arg) (wideSize toWide arg) pos).1 = copied at *
    have hleft : pos + (argPiece verbatimArguments (toWide arg).val).length + 1 +
        worstCase toWide args ≤ dstLen := by omega
    obtain ⟨hok, hwithin, hrest⟩ := ih (toWide arg) hleft
    refine ⟨hok, ?_, fun memory => ?_⟩
    · rw [Writes.within_append, Writes.within_cons]
      exact ⟨hcopied.mono le_rfl (by omega), ⟨by omega, by omega⟩, hwithin.mono (by omega) le_rfl⟩
    · -- the piece, the character behind it, and what is behind that
      rw [Writes.apply_append, Writes.apply, Writes.holds_append, Writes.holds_cons]
      refine ⟨?_, ?_, ?_⟩
      · refine Writes.Holds.keeps ?_ hwithin (.inl (by omega))
        intro i c hc
        have hlt := (List.getElem?_eq_some_iff.mp hc).1
        rw [Function.update_of_ne (by omega)]
        exact hholds memory i c hc
      · rw [hwithin.apply_eq (.inl (by omega)), Function.update_self]
        simp
      · exact hrest _

/-- If the worst case is an `int` then the function succeeds, and the buffer holds the text of the
arguments. -/
theorem makeProgramArgs_text (verbatimArguments : Bool) {args : List (List UInt8)}
    (h : worstCase toWide args < 2 ^ 31) (fresh : WString) :
    ∃ line, makeProgramArgs toWide verbatimArguments args fresh = some line ∧ line.ok = true ∧
      ∀ memory, Writes.Holds (Writes.apply line.writes memory) 0
        (programArgsText verbatimArguments (args.map toWide)) := by
  have hworst : 2 * (args.map (wideSize toWide)).sum + 2 * args.length < 2 ^ 31 := h
  have hint : ∀ arg ∈ args, wideSize toWide arg < 2 ^ 31 := fun arg hmem => by
    have hle : wideSize toWide arg ≤ (args.map (wideSize toWide)).sum :=
      List.single_le_sum (fun _ _ => Nat.zero_le _) _ (List.mem_map_of_mem hmem)
    omega
  obtain ⟨line, hline, hdstLen, hwrites, hok, -⟩ :=
    makeProgramArgs_some verbatimArguments (by omega) hint fresh
  have hsize := hdstLen.trans ((commandLineLen_eq_iff (by omega) hint).mpr (by omega))
  have hroom : 0 + worstCase toWide args ≤ line.dstLen := by omega
  obtain ⟨hends, -, hholds⟩ := copyArgs_text verbatimArguments fresh (by omega) hroom
  refine ⟨line, hline, hok.trans hends, fun memory => ?_⟩
  rw [hwrites]
  exact hholds memory

end Processx
