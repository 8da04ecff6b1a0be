import Processx.Supervisor.Commands

/-!
# What the session writes to the supervisor

The R session writes one line at a time into a named pipe: a process id, a negated process id, or
`kill`. The supervisor reads the lines with `fgets()`. On such lines it does what they ask for,
whatever came before: their numbers are never out of range.
-/

namespace Processx

open Textual

/-- A process id that R has got from the operating system: a positive `int`. -/
abbrev WatchedPid := { pid : ℤ // 0 < pid ∧ pid ≤ intMax }

/-- What the session asks the supervisor for. -/
inductive Request
  | watch (pid : WatchedPid)
  | unwatch (pid : WatchedPid)
  | kill
  deriving DecidableEq

/-- A digit as a character. -/
def digitByte (n : ℕ) : UInt8 := UInt8.ofNat (48 + n % 10)

/-- The digits of a number in front of some text, for as many rounds as there may be digits. -/
def decimalLoop : ℕ → ℕ → Bytes → Bytes
  | 0, _, text => text
  | rounds + 1, n, text =>
    if n < 10 then digitByte n :: text else decimalLoop rounds (n / 10) (digitByte n :: text)

/-- `as.character()` of an integer. -/
def asCharacter (n : ℤ) : Bytes :=
  if n < 0 then 45 :: decimalLoop n.natAbs.succ n.natAbs []
  else decimalLoop n.natAbs.succ n.natAbs []

/-- The text of `supervisor_watch_pid()`, `supervisor_unwatch_pid()` and `supervisor_kill2()`. -/
def Request.text : Request → Bytes
  | .watch pid => asCharacter pid.val
  | .unwatch pid => asCharacter (-pid.val)
  | .kill => [107, 105, 108, 108]

/-- What `write_lines_named_pipe()` writes. -/
def Request.line (request : Request) : Bytes := request.text ++ [lineFeed]

/-- What it means to the supervisor. -/
def Request.command : Request → Command
  | .watch pid => .watch pid.val
  | .unwatch pid => .unwatch pid.val
  | .kill => .kill

/-- The number on its line. -/
def Request.number : Request → ℤ
  | .watch pid => pid.val
  | .unwatch pid => -pid.val
  | .kill => 0

/-- `fgets()` on what is in the pipe: a line with its end, or as much as there is room for. The
result is `none` when nothing can be read, and the file is not blocking. -/
def fgets (size : ℕ) (pipe : Bytes) : Option (Bytes × Bytes) :=
  let front := pipe.take (size - 1)
  let line := front.takeWhile fun c => c ≠ lineFeed
  let line := if line.length < front.length then line ++ [lineFeed] else line
  if pipe.isEmpty then none else some (line, pipe.drop line.length)

/-- The value of some digits behind others. -/
def digitsValue (value : ℤ) (digits : Bytes) : ℤ :=
  digits.foldl (fun n c => 10 * n + (c.toNat - 48 : ℤ)) value

/-- A digit byte is a digit, with its value. -/
theorem digitByte_spec (n : ℕ) :
    isDigitByte (digitByte n) = true ∧ (digitByte n).toNat = 48 + n % 10 := by
  have hall : ∀ k < 10, isDigitByte (UInt8.ofNat (48 + k)) = true ∧
      (UInt8.ofNat (48 + k)).toNat = 48 + k := by decide
  exact hall (n % 10) (Nat.mod_lt n (by decide))

/-- The loop puts the digits of the number in front. -/
theorem decimalLoop_spec {rounds n : ℕ} (h : n < rounds) (text : Bytes) :
    ∃ digits, decimalLoop rounds n text = digits ++ text ∧ digits ≠ [] ∧
      digits.all isDigitByte = true ∧ digitsValue 0 digits = n ∧
      ∀ k, n < 10 ^ (k + 1) → digits.length ≤ k + 1 := by
  induction rounds generalizing n text with
  | zero => omega
  | succ rounds ih =>
    obtain ⟨hdigit, hvalue⟩ := digitByte_spec n
    rw [decimalLoop]
    by_cases hsmall : n < 10
    · rw [if_pos hsmall]
      refine ⟨[digitByte n], rfl, by simp, by simp [hdigit], ?_, fun k _ => by simp⟩
      simp only [digitsValue, List.foldl_cons, List.foldl_nil, hvalue]
      omega
    · rw [if_neg hsmall]
      obtain ⟨digits, heq, -, hall, hrest, hlength⟩ := @ih (n / 10) (by omega) (digitByte n :: text)
      refine ⟨digits ++ [digitByte n], by rw [heq]; simp, by simp, ?_, ?_, fun k hk => ?_⟩
      · simp [List.all_append, hall, hdigit]
      · unfold digitsValue at hrest ⊢
        rw [List.foldl_append, hrest, List.foldl_cons, List.foldl_nil, hvalue]
        omega
      · rw [List.length_append, List.length_singleton]
        cases k with
        | zero => omega
        | succ k =>
          rw [pow_succ] at hk
          have := hlength k (Nat.div_lt_of_lt_mul (by omega))
          omega

/-- The text of a number is a number, with its value. -/
theorem isNumber_asCharacter (n : ℤ) :
    isNumber (asCharacter n) = true ∧ numberValue (asCharacter n) = n := by
  obtain ⟨digits, heq, hne, hall, hvalue, -⟩ := decimalLoop_spec (Nat.lt_succ_self n.natAbs) []
  rw [List.append_nil] at heq
  have hminus : digits.head? ≠ some 45 := by
    intro hhead
    have hmem := List.mem_of_head? hhead
    have := List.all_eq_true.mp hall _ hmem
    revert this
    decide
  have hempty : digits.isEmpty = false := by simpa using hne
  unfold digitsValue at hvalue
  unfold asCharacter
  rw [heq]
  by_cases hneg : n < 0
  · rw [if_pos hneg]
    unfold isNumber numberValue unsignedPart
    simp only [List.head?_cons, if_true, List.tail_cons, hempty, hall, hvalue]
    refine ⟨rfl, ?_⟩
    omega
  · rw [if_neg hneg]
    unfold isNumber numberValue unsignedPart
    simp only [if_neg hminus, hempty, hall, hvalue]
    refine ⟨rfl, ?_⟩
    omega

/-- It is made of digits and a sign, and it is short if the number is an `int`. -/
theorem asCharacter_short {n : ℤ} (h : n.natAbs ≤ intMax) :
    (∀ c ∈ asCharacter n, isDigitByte c = true ∨ c = 45) ∧ (asCharacter n).length ≤ 11 := by
  obtain ⟨digits, heq, -, hall, -, hlength⟩ := decimalLoop_spec (Nat.lt_succ_self n.natAbs) []
  have hten : digits.length ≤ 10 := by
    refine hlength 9 ?_
    unfold intMax at h
    omega
  rw [List.append_nil] at heq
  have hdigits : ∀ c ∈ digits, isDigitByte c = true ∨ c = 45 :=
    fun c hc => Or.inl (List.all_eq_true.mp hall c hc)
  unfold asCharacter
  rw [heq]
  split_ifs
  · exact ⟨List.forall_mem_cons.mpr ⟨Or.inr rfl, hdigits⟩, by rw [List.length_cons]; omega⟩
  · exact ⟨hdigits, by omega⟩

/-- The text of a request has no line end and fits into the buffer. -/
theorem Request.text_short (request : Request) :
    lineFeed ∉ request.text ∧ request.text.length ≤ 11 := by
  have hnumber : ∀ n : ℤ, n.natAbs ≤ intMax → lineFeed ∉ asCharacter n ∧
      (asCharacter n).length ≤ 11 := by
    intro n hn
    obtain ⟨hbytes, hlength⟩ := asCharacter_short hn
    refine ⟨fun hfeed => ?_, hlength⟩
    rcases hbytes _ hfeed with h | h <;> revert h <;> decide
  cases request with
  | watch pid => exact hnumber _ (by have := pid.property; omega)
  | unwatch pid => exact hnumber _ (by have := pid.property; omega)
  | kill => decide

/-- `fgets()` takes one line of the session at a time. -/
theorem fgets_line (request : Request) (rest : Bytes) :
    fgets 1024 (request.line ++ rest) = some (request.line, rest) := by
  obtain ⟨hfeed, hlength⟩ := request.text_short
  unfold Request.line
  generalize request.text = text at hfeed hlength ⊢
  have hfront : (text ++ [lineFeed] ++ rest).take 1023 =
      text ++ lineFeed :: rest.take (1022 - text.length) := by
    rw [List.append_assoc, List.take_append, List.take_of_length_le (by omega),
      List.singleton_append, show 1023 - text.length = 1022 - text.length + 1 by omega,
      List.take_succ_cons]
  have hline : (text ++ lineFeed :: rest.take (1022 - text.length)).takeWhile
      (fun c => decide (c ≠ lineFeed)) = text := by
    rw [List.takeWhile_append_of_pos fun c hc => by
      simpa using fun heq : c = lineFeed => hfeed (heq ▸ hc)]
    simp
  unfold fgets
  simp only [show 1024 - 1 = 1023 from rfl, hfront, hline]
  rw [if_neg (by simp), if_pos (by simp), List.drop_left]

/-- What the supervisor takes the line of a number for. -/
theorem lineCommand_asCharacter (long : LongRange) {n : ℤ} (h : n.natAbs ≤ intMax) :
    lineCommand long (asCharacter n ++ [lineFeed]) = numberCommand n ∧
      (asCharacter n ++ [lineFeed]).take 4 ≠ [107, 105, 108, 108] ∧
      strtol long (asCharacter n ++ [lineFeed]) = (n, false) := by
  obtain ⟨hnumber, hvalue⟩ := isNumber_asCharacter n
  obtain ⟨hbytes, -⟩ := asCharacter_short h
  have hmin := long.min_le
  have hmax := long.le_max
  have hintMin : intMin = -intMax - 1 := rfl
  have htext : lineText (asCharacter n ++ [lineFeed]) = asCharacter n := by
    unfold lineText chomp
    rw [if_pos (by simp), List.dropLast_concat, if_neg]
    intro hreturn
    rcases hbytes _ (List.mem_of_getLast? hreturn) with h | h <;> revert h <;> decide
  have hstrtol : strtol long (asCharacter n ++ [lineFeed]) = (n, false) := by
    rw [strtol_of_isNumber long (by rwa [htext]), htext, hvalue, if_neg (by omega),
      if_neg (by omega)]
  have hkill : (asCharacter n ++ [lineFeed]).take 4 ≠ [107, 105, 108, 108] := by
    intro hkill
    have hmem : (107 : UInt8) ∈ asCharacter n ++ [lineFeed] :=
      List.mem_of_mem_take (hkill ▸ List.mem_cons_self)
    rcases List.mem_append.mp hmem with h | h
    · rcases hbytes _ h with h | h <;> revert h <;> decide
    · revert h
      decide
  refine ⟨?_, hkill, hstrtol⟩
  unfold lineCommand
  rw [hstrtol]
  dsimp only
  rw [if_neg hkill, if_neg]
  simp only [Bool.false_eq_true, false_or]
  omega

/-- What the supervisor takes the line of a request for. No number of it is out of range. -/
theorem Request.lineCommand_line (long : LongRange) (request : Request) :
    lineCommand long request.line = request.command ∧
      (request.line.take 4 = [107, 105, 108, 108] ↔ request = .kill) ∧
      (request ≠ .kill → strtol long request.line = (request.number, false)) := by
  cases request with
  | watch pid =>
    have hpid := pid.property
    obtain ⟨hcommand, hkill, hrange⟩ := lineCommand_asCharacter long (n := pid.val) (by omega)
    refine ⟨hcommand.trans ?_, iff_of_false hkill (by simp), fun _ => hrange⟩
    exact if_pos hpid.1
  | unwatch pid =>
    have hpid := pid.property
    obtain ⟨hcommand, hkill, hrange⟩ := lineCommand_asCharacter long (n := -pid.val) (by omega)
    refine ⟨hcommand.trans ?_, iff_of_false hkill (by simp), fun _ => hrange⟩
    unfold numberCommand
    rw [if_neg (by omega), if_pos (by omega), neg_neg]
    rfl
  | kill =>
    refine ⟨?_, iff_of_true rfl rfl, fun hne => absurd rfl hne⟩
    unfold lineCommand
    exact if_pos rfl

/-- A request that the supervisor reads while `errno` is not `ERANGE` has the effect that it asks
for, unless there is no room for one more child. -/
structure Supervisor.Heeds (s after : Supervisor) (request : Request) : Prop where
  keeps : after.Keeps
  erange : after.erange = false
  exiting : after.exiting = true ↔ request = .kill
  watch : ∀ pid, request = .watch pid → s.children.count ≠ maxChildren →
    ∀ other, other ∈ after.children.entries ↔ other = pid.val ∨ other ∈ s.children.entries
  unwatch : ∀ pid, request = .unwatch pid →
    ∀ other, other ∈ after.children.entries ↔ other ∈ s.children.entries ∧ other ≠ pid.val
  kill : request = .kill → after.children = s.children

/-- The supervisor does what the line of a request says. -/
theorem Supervisor.Keeps.readLine_request (long : LongRange) {s : Supervisor} (h : s.Keeps)
    (herange : s.erange = false) (hrunning : s.exiting = false) (request : Request) :
    s.Heeds (s.readLine long request.line) request := by
  obtain ⟨hcommand, hkill, hrange⟩ := request.lineCommand_line long
  have hagrees : s.Agrees ⟨s.children.toFinset, s.exiting⟩ := ⟨rfl, rfl⟩
  obtain ⟨hset, hexiting⟩ := (hagrees.readLine long h request.line hrunning).mpr
    fun _ hset => by rw [herange] at hset; cases hset
  rw [hcommand] at hset hexiting
  have hcard : s.children.toFinset.card = s.children.count := SwapArray.card_toFinset h.nodup
  refine ⟨h.readLine long _, ?_, ?_, ?_, ?_, ?_⟩
  · unfold Supervisor.readLine
    by_cases hend : request.line.take 4 = [107, 105, 108, 108]
    · rw [if_pos hend]
      exact herange
    · rw [if_neg hend]
      have hfits := hrange fun heq => hend (hkill.mpr heq)
      unfold extractPid Supervisor.watchPid
      rw [hfits, herange]
      dsimp only
      split_ifs <;> rfl
  · rw [hexiting]
    cases request with
    | watch pid =>
      unfold Request.command Command.apply
      dsimp only
      rw [hcard]
      split_ifs <;> simp [hrunning]
    | unwatch pid => simp [Request.command, Command.apply, hrunning]
    | kill => simp [Request.command, Command.apply]
  · rintro pid rfl hroom other
    unfold Request.command Command.apply at hset
    dsimp only at hset
    rw [hcard, if_neg hroom] at hset
    rw [← SwapArray.mem_toFinset, hset, Finset.mem_insert, SwapArray.mem_toFinset]
  · rintro pid rfl other
    rw [← SwapArray.mem_toFinset, hset]
    show other ∈ s.children.toFinset.erase pid.val ↔ _
    rw [Finset.mem_erase, SwapArray.mem_toFinset, and_comm]
  · intro heq
    unfold Supervisor.readLine
    rw [if_pos (hkill.mpr heq)]

end Processx
