import Processx.RunManage.Input

/-!
# Writing to a descriptor

`write_fd()` of the client library writes a raw vector to a descriptor that may take a part of it,
or nothing. What is left to write, and how much that is, are two variables, and the first one is
changed only if something was written.
-/

namespace Processx

/-- `processx_write()`: the number of bytes written, and all the bytes that the descriptor has
taken. `LENGTH()` refuses a long vector. -/
def processxWrite (windows : Bool) (answer : WriteAnswer) (data wire : Bytes) :
    Except String (ℕ × Bytes) :=
  if 2 ^ 31 ≤ data.length then .error "long vectors not supported yet"
  else
    match answer.written windows with
    | none => .error "Cannot write to fd"
    | some bytes => .ok (min bytes data.length, wire ++ data.take bytes)

/-- The variables of `write_fd()`, with what the descriptor has taken, in how many calls. -/
structure WriteFd where
  data : Bytes
  len : ℤ
  wire : Bytes := []
  calls : ℕ := 0

/-- Where the loop is: it goes on, or has returned, or has thrown an error. -/
inductive WriteStatus
  | running
  | returned
  | thrown (msg : String)
  deriving DecidableEq

/-- The data is trimmed only if something was written. -/
def WriteFd.trimmed (s : WriteFd) (written : ℕ) : WriteFd :=
  if written ≠ 0 then { s with data := s.data.drop written } else s

/-- The loop of `write_fd()`, for at most some calls. -/
def writeFdLoop (windows : Bool) (answers : ℕ → WriteAnswer) : ℕ → WriteFd → WriteStatus × WriteFd
  | 0, s => (.running, s)
  | calls + 1, s =>
    match processxWrite windows (answers s.calls) s.data s.wire with
    | .error msg => (.thrown msg, s)
    | .ok (written, wire) =>
      let s := { s with len := s.len - written, wire := wire, calls := s.calls + 1 }
      if s.len = 0 then (.returned, s)
      else writeFdLoop windows answers calls (s.trimmed written)

/-- `write_fd()` -/
def writeFd (windows : Bool) (answers : ℕ → WriteAnswer) (calls : ℕ) (data : Bytes) :
    WriteStatus × WriteFd :=
  writeFdLoop windows answers calls { data := data, len := data.length }

/-- How many of `size` bytes the descriptor has taken after some calls, if each call offers all
that is left. -/
def takenAfter (windows : Bool) (answers : ℕ → WriteAnswer) (size : ℕ) : ℕ → ℕ
  | 0 => 0
  | calls + 1 =>
    let taken := takenAfter windows answers size calls
    taken + min (((answers calls).written windows).getD 0) (size - taken)

/-- After at most some calls the descriptor has taken a part of the data from its start, and this is
all that it got. The loop has returned after the first call with which everything was taken; if
there is none then it goes on. -/
structure WritesExactly (windows : Bool) (answers : ℕ → WriteAnswer) (data : Bytes) (calls : ℕ)
    (result : WriteStatus × WriteFd) : Prop where
  wire : result.2.wire = data.take (takenAfter windows answers data.length result.2.calls)
  earlier : ∀ call, 0 < call → call < result.2.calls →
    takenAfter windows answers data.length call ≠ data.length
  ended : result.1 = .returned ∧ 0 < result.2.calls ∧ result.2.wire = data ∨
    result.1 = .running ∧ result.2.calls = calls ∧
      (0 < calls → takenAfter windows answers data.length calls ≠ data.length)

variable {windows : Bool} {answers : ℕ → WriteAnswer} {data : Bytes}

/-- `write()` never takes more than there is. -/
theorem takenAfter_le (windows : Bool) (answers : ℕ → WriteAnswer) (size calls : ℕ) :
    takenAfter windows answers size calls ≤ size := by
  induction calls with
  | zero => exact Nat.zero_le _
  | succ calls ih =>
    rw [takenAfter]
    omega

/-- The variables are in step after `taken` bytes: what is left is behind them, and `len` is its
length. -/
structure WriteFd.InStep (data : Bytes) (taken : ℕ) (s : WriteFd) : Prop where
  left : s.data = data.drop taken
  length : s.len = data.length - taken
  sent : s.wire = data.take taken

/-- A call writes the next bytes, and the variables stay in step. -/
theorem WriteFd.InStep.write {taken : ℕ} {s : WriteFd} (h : s.InStep data taken)
    (hlen : data.length < 2 ^ 31) {answer : WriteAnswer} {bytes : ℕ}
    (hanswer : answer.written windows = some bytes) :
    processxWrite windows answer s.data s.wire = .ok (min bytes (data.length - taken),
      data.take (taken + min bytes (data.length - taken))) := by
  have hleft : s.data.length = data.length - taken := by rw [h.left, List.length_drop]
  have hpart : s.data.take bytes = (data.drop taken).take (min bytes (data.length - taken)) := by
    rw [h.left, List.take_eq_take_min, List.length_drop]
  have hshort : ¬2 ^ 31 ≤ s.data.length := by omega
  rw [processxWrite, if_neg hshort, hanswer]
  dsimp only
  rw [hleft, hpart, h.sent, ← List.take_add]

/-- To trim the data of nothing would change nothing. -/
theorem WriteFd.trimmed_eq (s : WriteFd) (written : ℕ) :
    s.trimmed written = { s with data := s.data.drop written } := by
  unfold WriteFd.trimmed
  split
  · rfl
  · rename_i hzero
    rw [not_not.mp hzero, List.drop_zero]

/-- A run from a state in which the variables are in step. -/
theorem writeFdLoop_exact (hlen : data.length < 2 ^ 31)
    (hanswers : ∀ i, (answers i).written windows ≠ none) (calls : ℕ) {s : WriteFd}
    (h : s.InStep data (takenAfter windows answers data.length s.calls))
    (hearlier : ∀ call, 0 < call → call ≤ s.calls →
      takenAfter windows answers data.length call ≠ data.length) :
    WritesExactly windows answers data (s.calls + calls)
      (writeFdLoop windows answers calls s) := by
  induction calls generalizing s with
  | zero =>
    exact ⟨h.sent, fun call hpos hlt => hearlier call hpos hlt.le,
      .inr ⟨rfl, rfl, fun hpos => hearlier _ hpos le_rfl⟩⟩
  | succ calls ih =>
    obtain ⟨bytes, hbytes⟩ := Option.ne_none_iff_exists'.mp (hanswers s.calls)
    have hle := takenAfter_le windows answers data.length s.calls
    have hnext : takenAfter windows answers data.length (s.calls + 1) =
        takenAfter windows answers data.length s.calls +
          min bytes (data.length - takenAfter windows answers data.length s.calls) := by
      rw [takenAfter, hbytes, Option.getD_some]
    have hlength := h.length
    rw [writeFdLoop, h.write hlen hbytes, ← hnext]
    generalize min bytes (data.length - takenAfter windows answers data.length s.calls) =
      written at hnext ⊢
    dsimp only
    by_cases hdone : takenAfter windows answers data.length (s.calls + 1) = data.length
    · -- everything was taken with this call
      rw [if_pos (by omega)]
      exact ⟨rfl, fun call hpos hlt => hearlier call hpos (Nat.le_of_lt_succ hlt),
        .inl ⟨rfl, Nat.succ_pos _, by rw [hdone, List.take_length]⟩⟩
    · have hmore : s.len - (written : ℤ) ≠ 0 := by omega
      rw [if_neg hmore, WriteFd.trimmed_eq, Nat.add_comm calls, ← Nat.add_assoc]
      refine ih (s := ⟨s.data.drop written, s.len - written, _, s.calls + 1⟩) ⟨?_, ?_, rfl⟩ ?_
      · dsimp only
        rw [h.left, List.drop_drop, hnext]
      · dsimp only
        omega
      · intro call hpos hle
        rcases Nat.le_succ_iff.mp hle with hle | rfl
        · exact hearlier call hpos hle
        · exact hdone

/-- A long vector is refused by the first call. -/
theorem writeFd_refused (windows : Bool) (answers : ℕ → WriteAnswer) (calls : ℕ)
    (hlen : 2 ^ 31 ≤ data.length) : writeFd windows answers (calls + 1) data =
      (.thrown "long vectors not supported yet", { data := data, len := data.length }) := by
  rw [writeFd, writeFdLoop, processxWrite, if_pos hlen]

/-- So it is not written. -/
theorem not_writesExactly_of_long (windows : Bool) (answers : ℕ → WriteAnswer) (calls : ℕ)
    (hlen : 2 ^ 31 ≤ data.length) : ¬WritesExactly windows answers data (calls + 1)
      (writeFd windows answers (calls + 1) data) := by
  intro h
  rw [writeFd_refused windows answers calls hlen] at h
  rcases h.ended with ⟨hstatus, _⟩ | ⟨hstatus, _⟩ <;> cases hstatus

/-- `write_fd()` hands a vector of fewer than 2^31 bytes to the descriptor, each byte once and in
order, and returns as soon as all of them were taken. A long vector is refused before anything is
written. -/
theorem writeFd_exact (windows : Bool) (answers : ℕ → WriteAnswer) (data : Bytes) (calls : ℕ)
    (hanswers : ∀ i, (answers i).written windows ≠ none) :
    (data.length < 2 ^ 31 →
      WritesExactly windows answers data calls (writeFd windows answers calls data)) ∧
    (2 ^ 31 ≤ data.length → 0 < calls → writeFd windows answers calls data =
      (.thrown "long vectors not supported yet", { data := data, len := data.length })) := by
  constructor
  · intro hlen
    have hrun := writeFdLoop_exact hlen hanswers calls
      (s := { data := data, len := data.length }) ⟨rfl, (Int.sub_zero _).symm, rfl⟩
      (fun call hpos hle => absurd hpos (Nat.not_lt_of_le hle))
    rwa [Nat.zero_add] at hrun
  · intro hlen hpos
    cases calls with
    | zero => exact absurd hpos (Nat.lt_irrefl 0)
    | succ calls => exact writeFd_refused windows answers calls hlen

/-- Five bytes, of which the descriptor takes two, nothing, one, nothing and the rest. -/
theorem writeFd_exact_five :
    let answers : ℕ → WriteAnswer :=
      fun i => [.wrote 2, .again, .wrote 1, .wrote 0].getD i (.wrote 9)
    (∀ i, (answers i).written false ≠ none) ∧
      WritesExactly false answers [1, 2, 3, 4, 5] 7 (writeFd false answers 7 [1, 2, 3, 4, 5]) ∧
      (writeFd false answers 7 [1, 2, 3, 4, 5]).1 = .returned ∧
      (writeFd false answers 7 [1, 2, 3, 4, 5]).2.calls = 5 := by
  intro answers
  have hanswers : ∀ i, (answers i).written false ≠ none := by
    intro i
    match i with
    | 0 | 1 | 2 | 3 => decide
    | i + 4 => exact Option.some_ne_none 9
  exact ⟨hanswers, (writeFd_exact false answers [1, 2, 3, 4, 5] 7 hanswers).1 (by decide), rfl, rfl⟩

/-- A vector of 2^31 bytes is not written, although the descriptor would take all of it. -/
theorem writeFd_long :
    ¬∃ calls, WritesExactly false (fun _ => .wrote (2 ^ 31)) (List.replicate (2 ^ 31) 0) (calls + 1)
      (writeFd false (fun _ => .wrote (2 ^ 31)) (calls + 1) (List.replicate (2 ^ 31) 0)) := by
  rintro ⟨calls, h⟩
  exact not_writesExactly_of_long false _ calls (by rw [List.length_replicate]) h

end Processx
