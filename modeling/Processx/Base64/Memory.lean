import Processx.Base64

/-!
# What the decoder has written

`processx_base64_decode()` returns freshly allocated memory. The bytes its loop stores are a
first part of that memory, which grows with every character. The exits differ: at padding, or at
the end, no more than this part is returned, but the exits for a bad length and for an invalid
byte return the whole allocation.
-/

namespace Processx

/-- Does the loop go on after a byte, with `behind` in the memory that follows the table? -/
def decodes (behind : ℕ → UInt8) (c : UInt8) : Bool :=
  c != base64Pad && base64de.getD c.toNat (behind c.toNat) != 255

/-- How many bytes of the result are set after `i` characters. -/
def writtenBy (i : ℕ) : ℕ := i / 4 * 3 + i % 4

/-- Does the call return only bytes that it has set? Either there are none to return, or the
length is a multiple of four, and the first byte that ends the loop, if there is one, is padding
or the last byte. -/
def ReturnsWritten (behind : ℕ → UInt8) (array : Bytes) : Prop :=
  2 ^ 31 ≤ array.length ∨ array.length < 4 ∨
    array.length % 4 = 0 ∧ ∀ c ∈ (array.dropWhile (decodes behind)).head?,
      c = base64Pad ∨ (array.takeWhile (decodes behind)).length + 1 = array.length

/-- What the loop does with a byte that does not end it. -/
theorem decodeTraced_of_decodes {behind : ℕ → UInt8} {c : UInt8} (h : decodes behind c = true)
    (rest : Bytes) (i j : ℕ) (out : ℕ → UInt8) :
    (decodeTraced behind (c :: rest) i j out).2 =
      (decodeTraced behind rest (i + 1)
        (decodeSwitch i j (base64de.getD c.toNat (behind c.toNat)) out).2.1
        (decodeSwitch i j (base64de.getD c.toNat (behind c.toNat)) out).2.2).2 := by
  simp only [decodes, Bool.and_eq_true, bne_iff_ne] at h
  rw [decodeTraced, if_neg h.1, if_neg UInt8.not_lt_zero]
  dsimp only
  rw [if_neg h.2]

/-- What it does with one that ends it. -/
theorem decodeTraced_of_not_decodes {behind : ℕ → UInt8} {c : UInt8}
    (h : ¬decodes behind c = true) (rest : Bytes) (i j : ℕ) (out : ℕ → UInt8) :
    (decodeTraced behind (c :: rest) i j out).2 =
      (if c = base64Pad then some j else none, out) := by
  simp only [decodes, Bool.and_eq_true, bne_iff_ne, not_and, not_not] at h
  rw [decodeTraced]
  by_cases hpad : c = base64Pad
  · rw [if_pos hpad, if_pos hpad]
  · rw [if_neg hpad, if_neg UInt8.not_lt_zero, if_neg hpad]
    dsimp only
    rw [if_pos (h hpad)]

/-- One character makes the next byte of the result independent of what the memory held, and
leaves alone the bytes behind it. -/
theorem decodeSwitch_agree {i j : ℕ} (hj : j = i / 4 * 3 + (i % 4 - 1)) (v : UInt8)
    {out out' : ℕ → UInt8} (hout : ∀ k < writtenBy i, out k = out' k) :
    (∀ k < writtenBy (i + 1), (decodeSwitch i j v out).2.2 k = (decodeSwitch i j v out').2.2 k) ∧
      ∀ k, writtenBy (i + 1) ≤ k → (decodeSwitch i j v out).2.2 k = out k := by
  unfold writtenBy at *
  obtain h | h | h | h : i % 4 = 0 ∨ i % 4 = 1 ∨ i % 4 = 2 ∨ i % 4 = 3 := by omega
  · simp only [decodeSwitch, h, store]
    refine ⟨fun k hk => ?_, fun k hk => if_neg (by omega)⟩
    split_ifs with hkj
    · rfl
    · exact hout k (by omega)
  all_goals
    have hlast : out j = out' j := hout j (by omega)
    simp only [decodeSwitch, h, store, hlast]
    constructor
    · intro k hk
      split_ifs <;> first | rfl | exact hout k (by omega)
    · intro k hk
      split_ifs <;> first | rfl | omega

/-- Where the loop stops and how: the number of the byte that ended it, and whether that was
padding or the end of the input. -/
def decodeStop (behind : ℕ → UInt8) (array : Bytes) : ℕ × Bool :=
  ((array.takeWhile (decodes behind)).length,
    (array.dropWhile (decodes behind)).head?.all fun c => c == base64Pad)

/-- The loop in full: what it has set when it stops does not depend on what the memory held, and
the rest of the memory is as it was. -/
theorem decodeTraced_agree (behind : ℕ → UInt8) (rest : Bytes) {i j : ℕ}
    (hj : j = i / 4 * 3 + (i % 4 - 1)) (out out' : ℕ → UInt8)
    (hout : ∀ k < writtenBy i, out k = out' k) :
    (decodeTraced behind rest i j out).2.1 = (if (decodeStop behind rest).2 = true then
        some ((i + (decodeStop behind rest).1) / 4 * 3 + ((i + (decodeStop behind rest).1) % 4 - 1))
        else none) ∧
      (∀ k < writtenBy (i + (decodeStop behind rest).1),
        (decodeTraced behind rest i j out).2.2 k = (decodeTraced behind rest i j out').2.2 k) ∧
      ∀ k, writtenBy (i + (decodeStop behind rest).1) ≤ k →
        (decodeTraced behind rest i j out).2.2 k = out k := by
  induction rest generalizing i j out out' with
  | nil => exact ⟨congrArg some hj, hout, fun _ _ => rfl⟩
  | cons c rest ih =>
    by_cases hc : decodes behind c = true
    · have hstop : decodeStop behind (c :: rest) =
          ((decodeStop behind rest).1 + 1, (decodeStop behind rest).2) := by
        simp [decodeStop, hc]
      have hnext (memory : ℕ → UInt8) :=
        (decodeSwitch_inBounds (n := 4 * (i + 1)) (by omega) (by omega) hj
          (base64de.getD c.toNat (behind c.toNat)) memory).2
      obtain ⟨hset, hkept⟩ := decodeSwitch_agree hj (base64de.getD c.toNat (behind c.toNat)) hout
      obtain ⟨hexit, hagree, huntouched⟩ := ih (hnext out) _ _ hset
      have hlarger : writtenBy (i + 1) ≤ writtenBy (i + 1 + (decodeStop behind rest).1) := by
        unfold writtenBy
        omega
      rw [decodeTraced_of_decodes hc, decodeTraced_of_decodes hc, hstop, hnext out', ← hnext out,
        ← Nat.add_assoc, Nat.add_right_comm]
      refine ⟨hexit, hagree, fun k hk => ?_⟩
      rw [huntouched k hk]
      exact hkept k (Nat.le_trans hlarger hk)
    · have hstop : decodeStop behind (c :: rest) = (0, c == base64Pad) := by
        simp [decodeStop, hc]
      rw [decodeTraced_of_not_decodes hc, decodeTraced_of_not_decodes hc, hstop]
      refine ⟨?_, hout, fun _ _ => rfl⟩
      simp [hj]

/-- Two vectors are equal when their bytes are. -/
theorem rawVector_inj {memory memory' : ℕ → UInt8} {n : ℕ} :
    rawVector memory n = rawVector memory' n ↔ ∀ k < n, memory k = memory' k := by
  simp [rawVector]

/-- How many bytes the call returns after the loop. -/
def returnedLength (behind : ℕ → UInt8) (array : Bytes) : ℕ :=
  let p := (decodeStop behind array).1
  let j := p / 4 * 3 + (p % 4 - 1)
  if (decodeStop behind array).2 = true ∧ j + 1 < array.length / 4 * 3 then j
  else array.length / 4 * 3

/-- What the call returns: the memory as it was for a bad length, else the memory after the
loop. -/
theorem base64DecodeTraced_result (behind memory : ℕ → UInt8) {array : Bytes}
    (hlong : array.length < 2 ^ 31) :
    (base64DecodeTraced behind memory array).map Prod.snd =
      .ok (if array.length % 4 ≠ 0 then rawVector memory (array.length / 4 * 3)
        else rawVector (decodeTraced behind array 0 0 memory).2.2
          (returnedLength behind array)) := by
  have hexit := (decodeTraced_agree behind array (i := 0) (j := 0) rfl memory memory
    fun _ _ => rfl).1
  rw [Nat.zero_add] at hexit
  unfold base64DecodeTraced rLength returnedLength
  rw [if_pos hlong]
  dsimp only [bind, Except.bind]
  by_cases hmod : array.length % 4 ≠ 0
  · rw [if_pos hmod, if_pos hmod]
    rfl
  · rw [if_neg hmod, if_neg hmod]
    rcases hloop : decodeTraced behind array 0 0 memory with ⟨accesses, j, out⟩
    rw [hloop] at hexit
    by_cases hstop : (decodeStop behind array).2 = true
    · rw [if_pos hstop] at hexit
      rw [show j = _ from hexit]
      dsimp only
      simp only [hstop, true_and]
      split_ifs <;> rfl
    · rw [if_neg hstop] at hexit
      rw [show j = _ from hexit]
      simp only [hstop]
      rfl

/-- The bytes returned after the loop are set exactly if the loop was not ended by an invalid
byte, or only by the last one. -/
theorem returnedLength_le_iff (behind : ℕ → UInt8) {array : Bytes} (hmod : array.length % 4 = 0) :
    returnedLength behind array ≤ writtenBy (decodeStop behind array).1 ↔
      ∀ c ∈ (array.dropWhile (decodes behind)).head?,
        c = base64Pad ∨ (array.takeWhile (decodes behind)).length + 1 = array.length := by
  have hsplit := congrArg List.length
    (List.takeWhile_append_dropWhile (p := decodes behind) (l := array))
  rw [List.length_append] at hsplit
  unfold returnedLength writtenBy decodeStop
  rcases hrest : array.dropWhile (decodes behind) with _ | ⟨c, rest⟩
  all_goals rw [hrest] at hsplit
  · refine iff_of_true ?_ (by simp)
    simp only [List.length_nil] at hsplit
    simp only [List.head?_nil, Option.all_none, true_and]
    split_ifs <;> omega
  · simp only [List.length_cons] at hsplit
    simp only [List.head?_cons, Option.all_some, beq_iff_eq, Option.mem_def, Option.some.injEq,
      forall_eq']
    by_cases hpad : c = base64Pad
    · refine iff_of_true ?_ (Or.inl hpad)
      simp only [hpad, true_and]
      split_ifs <;> omega
    · simp only [hpad, false_and, if_false, false_or]
      omega

/-- **The result does not depend on what the new vector held** exactly if the loop gets to
padding, to the end or to the last byte, or there is nothing to return. -/
theorem base64DecodeTraced_memory_iff (behind : ℕ → UInt8) (array : Bytes) :
    (∀ memory memory', (base64DecodeTraced behind memory array).map Prod.snd =
        (base64DecodeTraced behind memory' array).map Prod.snd) ↔
      ReturnsWritten behind array := by
  unfold ReturnsWritten
  by_cases hlong : array.length < 2 ^ 31
  · simp only [base64DecodeTraced_result behind _ hlong, Except.ok.injEq]
    by_cases hmod : array.length % 4 = 0
    · -- the byte before the end of what is returned is set, or keeps the memory's value
      simp only [hmod, ne_eq, not_true_eq_false, if_false, rawVector_inj, true_and,
        ← returnedLength_le_iff behind hmod]
      constructor
      · intro hall
        by_contra hnone
        obtain ⟨-, -, hzero⟩ := decodeTraced_agree behind array (i := 0) (j := 0) rfl
          (fun _ => 0) (fun _ => 0) fun _ _ => rfl
        obtain ⟨-, -, hone⟩ := decodeTraced_agree behind array (i := 0) (j := 0) rfl
          (fun _ => 1) (fun _ => 1) fun _ _ => rfl
        rw [Nat.zero_add] at hzero hone
        have hlast := hall (fun _ => 0) (fun _ => 1) (returnedLength behind array - 1) (by omega)
        rw [hzero _ (by omega), hone _ (by omega)] at hlast
        exact absurd hlast (by decide)
      · intro hwritten memory memory' k hk
        obtain ⟨-, hagree, -⟩ := decodeTraced_agree behind array (i := 0) (j := 0) rfl memory
          memory' fun k hk => absurd hk (Nat.not_lt_zero k)
        rw [Nat.zero_add] at hagree
        have hend : returnedLength behind array ≤ array.length / 4 * 3 := by
          unfold returnedLength
          dsimp only
          split_ifs <;> omega
        exact hagree k (by omega)
    · simp only [hmod, ne_eq, not_false_eq_true, if_true, rawVector_inj, false_and, or_false]
      constructor
      · intro hall
        by_contra hnone
        have hfirst := hall (fun _ => 0) (fun _ => 1) 0 (by omega)
        exact absurd hfirst (by decide)
      · intro hshort memory memory' k hk
        omega
  · refine iff_of_true (fun memory memory' => ?_) (Or.inl (by omega))
    rw [base64DecodeTraced, base64DecodeTraced, rLength, if_neg hlong]
    rfl

/-- An invalid byte in front: the three bytes of the result are those the memory held. -/
theorem base64DecodeTraced_exposes :
    ¬∀ behind array memory memory', (base64DecodeTraced behind memory array).map Prod.snd =
      (base64DecodeTraced behind memory' array).map Prod.snd := by
  intro hall
  have h := hall (fun _ => 255) [33, 65, 65, 65] (fun _ => 0) fun _ => 115
  revert h
  decide +kernel

end Processx
