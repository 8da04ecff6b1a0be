import Processx.Connection.Utf8
import Mathlib.Tactic.Common

/-!
# Base64

`base64.c`. The encoder is a machine over the position modulo three, the decoder one over the
position modulo four. The decoder makes its result as long as it could be at most, and cuts it
only when two bytes or more are left over. So a raw vector comes back as it was, unless its
length is two modulo three.
-/

namespace Processx

/-- `base64en` -/
def base64en : List UInt8 :=
  ['A', 'B', 'C', 'D', 'E', 'F', 'G', 'H',
   'I', 'J', 'K', 'L', 'M', 'N', 'O', 'P',
   'Q', 'R', 'S', 'T', 'U', 'V', 'W', 'X',
   'Y', 'Z', 'a', 'b', 'c', 'd', 'e', 'f',
   'g', 'h', 'i', 'j', 'k', 'l', 'm', 'n',
   'o', 'p', 'q', 'r', 's', 't', 'u', 'v',
   'w', 'x', 'y', 'z', '0', '1', '2', '3',
   '4', '5', '6', '7', '8', '9', '+', '/'].map fun ch => UInt8.ofNat ch.toNat

/-- `base64de` -/
def base64de : List UInt8 :=
  [255, 255, 255, 255, 255, 255, 255, 255,
   255, 255, 255, 255, 255, 255, 255, 255,
   255, 255, 255, 255, 255, 255, 255, 255,
   255, 255, 255, 255, 255, 255, 255, 255,
   255, 255, 255, 255, 255, 255, 255, 255,
   255, 255, 255, 62, 255, 255, 255, 63,
   52, 53, 54, 55, 56, 57, 58, 59,
   60, 61, 255, 255, 255, 255, 255, 255,
   255, 0, 1, 2, 3, 4, 5, 6,
   7, 8, 9, 10, 11, 12, 13, 14,
   15, 16, 17, 18, 19, 20, 21, 22,
   23, 24, 25, 255, 255, 255, 255, 255,
   255, 26, 27, 28, 29, 30, 31, 32,
   33, 34, 35, 36, 37, 38, 39, 40,
   41, 42, 43, 44, 45, 46, 47, 48,
   49, 50, 51, 255, 255, 255, 255, 255]

/-- `BASE64_PAD` -/
def base64Pad : UInt8 := 61

/-- `base64en[v]` -/
def encodeSix (v : UInt8) : UInt8 := base64en.getD v.toNat 0

/-- `base64de[c]`. The source reads behind the table for a byte from 128 on. -/
def decodeSix (c : UInt8) : UInt8 := base64de.getD c.toNat 255

/-- `LENGTH()` of a raw vector. -/
def rLength (array : Bytes) : Except String ℕ :=
  if array.length < 2 ^ 31 then .ok array.length else .error "long vectors not supported yet"

/-- The first `n` bytes of a piece of memory as a raw vector. -/
def rawVector (memory : ℕ → UInt8) (n : ℕ) : Bytes := (List.range n).map memory

/-- `out[j] = v` -/
def store (memory : ℕ → UInt8) (j : ℕ) (v : UInt8) : ℕ → UInt8 :=
  fun n => if n = j then v else memory n

/-- The loop of `processx_base64_encode()` and the padding: what is stored, byte by byte. -/
def encodeLoop : Bytes → ℕ → UInt8 → Bytes
  | [], 1, l => [encodeSix ((l &&& 0x3) <<< 4), base64Pad, base64Pad]
  | [], 2, l => [encodeSix ((l &&& 0xF) <<< 2), base64Pad]
  | [], _, _ => []
  | c :: rest, 0, _ => encodeSix ((c >>> 2) &&& 0x3F) :: encodeLoop rest 1 c
  | c :: rest, 1, l =>
    encodeSix (((l &&& 0x3) <<< 4) ||| ((c >>> 4) &&& 0xF)) :: encodeLoop rest 2 c
  | c :: rest, _, l =>
    encodeSix (((l &&& 0xF) <<< 2) ||| ((c >>> 6) &&& 0x3)) :: encodeSix (c &&& 0x3F) ::
      encodeLoop rest 0 c

/-- `processx_base64_encode()`. The new vector holds whatever is in `memory` where nothing is
stored. An `unsigned int` holds the lengths, as `LENGTH()` is less than `2^31`. -/
def base64Encode (memory : ℕ → UInt8) (array : Bytes) : Except String Bytes := do
  let inlen ← rLength array
  let stored := encodeLoop array 0 0
  .ok (rawVector (fun n => stored.getD n (memory n)) ((inlen + 2) / 3 * 4))

/-- The loop of `processx_base64_decode()` from the position `i` of the input and `j` of the
output on. It ends with `j` and the memory, or with `none` at an invalid byte. -/
def decodeLoop : Bytes → ℕ → ℕ → (ℕ → UInt8) → Option ℕ × (ℕ → UInt8)
  | [], _, j, out => (some j, out)
  | c :: rest, i, j, out =>
    if c = base64Pad then (some j, out)
    else
      let v := decodeSix c
      if v = 255 then (none, out)
      else
        match i % 4 with
        | 0 => decodeLoop rest (i + 1) j (store out j ((v <<< 2) &&& 0xFF))
        | 1 =>
          let out := store out j (out j ||| ((v >>> 4) &&& 0x3))
          decodeLoop rest (i + 1) (j + 1) (store out (j + 1) ((v &&& 0xF) <<< 4))
        | 2 =>
          let out := store out j (out j ||| ((v >>> 2) &&& 0xF))
          decodeLoop rest (i + 1) (j + 1) (store out (j + 1) ((v &&& 0x3) <<< 6))
        | _ => decodeLoop rest (i + 1) (j + 1) (store out j (out j ||| v))

/-- `processx_base64_decode()`. -/
def base64Decode (memory : ℕ → UInt8) (array : Bytes) : Except String Bytes := do
  let inlen ← rLength array
  let outlen := inlen / 4 * 3
  if inlen % 4 ≠ 0 then .ok (rawVector memory outlen)
  else
    match decodeLoop array 0 0 memory with
    | (none, out) => .ok (rawVector out outlen)
    | (some j, out) =>
      if j + 1 < outlen then .ok (rawVector out j) else .ok (rawVector out outlen)

/-- Masking is distributive. -/
theorem or_and_byte (x y z : UInt8) : (x ||| y) &&& z = (x &&& z) ||| (y &&& z) :=
  UInt8.eq_of_toBitVec_eq BitVec.and_or_distrib_right

/-- The decoding table undoes the encoding table. -/
theorem decodeSix_encodeSix (v : UInt8) : v < 64 →
    encodeSix v ≠ base64Pad ∧ decodeSix (encodeSix v) = v ∧ v ≠ 255 :=
  forall_byte (P := fun v => v < 64 → encodeSix v ≠ base64Pad ∧ decodeSix (encodeSix v) = v ∧
    v ≠ 255) (by decide +kernel) v

/-- The first six bits of a group. -/
def six0 (a : UInt8) : UInt8 := (a >>> 2) &&& 0x3F

/-- The second six bits. -/
def six1 (a b : UInt8) : UInt8 := ((a &&& 0x3) <<< 4) ||| ((b >>> 4) &&& 0xF)

/-- The third six bits. -/
def six2 (b c : UInt8) : UInt8 := ((b &&& 0xF) <<< 2) ||| ((c >>> 6) &&& 0x3)

/-- The last six bits. -/
def six3 (c : UInt8) : UInt8 := c &&& 0x3F

/-- A byte below 64 is one without its two high bits. -/
theorem lt_64 (a : UInt8) : (a < 64 ↔ a &&& 0xC0 = 0) ∧ six0 a < 64 ∧ six3 a < 64 :=
  forall_byte (P := fun a => (a < 64 ↔ a &&& 0xC0 = 0) ∧ six0 a < 64 ∧ six3 a < 64)
    (by decide +kernel) a

/-- The parts of a byte that go to two groups of six bits: none has the two high bits, and none
has the bits of the other part of its group. -/
theorem parts_apart (a : UInt8) :
    (((a &&& 0x3) <<< 4) &&& 0xC0 = 0 ∧ ((a >>> 4) &&& 0xF) &&& 0xC0 = 0 ∧
      ((a &&& 0xF) <<< 2) &&& 0xC0 = 0 ∧ ((a >>> 6) &&& 0x3) &&& 0xC0 = 0) ∧
    (((a >>> 4) &&& 0xF) >>> 4) &&& 0x3 = 0 ∧ ((a &&& 0x3) <<< 4) &&& 0xF = 0 ∧
      (((a >>> 6) &&& 0x3) >>> 2) &&& 0xF = 0 ∧ ((a &&& 0xF) <<< 2) &&& 0x3 = 0 :=
  forall_byte (P := fun a =>
    (((a &&& 0x3) <<< 4) &&& 0xC0 = 0 ∧ ((a >>> 4) &&& 0xF) &&& 0xC0 = 0 ∧
      ((a &&& 0xF) <<< 2) &&& 0xC0 = 0 ∧ ((a >>> 6) &&& 0x3) &&& 0xC0 = 0) ∧
    (((a >>> 4) &&& 0xF) >>> 4) &&& 0x3 = 0 ∧ ((a &&& 0x3) <<< 4) &&& 0xF = 0 ∧
      (((a >>> 6) &&& 0x3) >>> 2) &&& 0xF = 0 ∧ ((a &&& 0xF) <<< 2) &&& 0x3 = 0)
    (by decide +kernel) a

/-- The parts of a byte make it up again, wherever it stands in its group of three. -/
theorem parts_join (a : UInt8) :
    (((a &&& 0x3) <<< 4) >>> 4) &&& 0x3 = a &&& 0x3 ∧
      ((six0 a <<< 2) &&& 0xFF) ||| (a &&& 0x3) = a ∧
      ((((a >>> 4) &&& 0xF) &&& 0xF) <<< 4) ||| ((((a &&& 0xF) <<< 2) >>> 2) &&& 0xF) = a ∧
      ((((a >>> 6) &&& 0x3) &&& 0x3) <<< 6) ||| six3 a = a :=
  forall_byte (P := fun a =>
    (((a &&& 0x3) <<< 4) >>> 4) &&& 0x3 = a &&& 0x3 ∧
      ((six0 a <<< 2) &&& 0xFF) ||| (a &&& 0x3) = a ∧
      ((((a >>> 4) &&& 0xF) &&& 0xF) <<< 4) ||| ((((a &&& 0xF) <<< 2) >>> 2) &&& 0xF) = a ∧
      ((((a >>> 6) &&& 0x3) &&& 0x3) <<< 6) ||| six3 a = a) (by decide +kernel) a

/-- The first six bits. -/
theorem six0_lt (a : UInt8) : six0 a < 64 := (lt_64 a).2.1

/-- The second six bits. -/
theorem six1_lt (a b : UInt8) : six1 a b < 64 := by
  obtain ⟨⟨ha, _⟩, _⟩ := parts_apart a
  obtain ⟨⟨_, hb, _⟩, _⟩ := parts_apart b
  rw [(lt_64 _).1, six1, or_and_byte, ha, hb]
  rfl

/-- The third six bits. -/
theorem six2_lt (b c : UInt8) : six2 b c < 64 := by
  obtain ⟨⟨_, _, hb, _⟩, _⟩ := parts_apart b
  obtain ⟨⟨_, _, _, hc⟩, _⟩ := parts_apart c
  rw [(lt_64 _).1, six2, or_and_byte, hb, hc]
  rfl

/-- The last six bits. -/
theorem six3_lt (c : UInt8) : six3 c < 64 := (lt_64 c).2.2

/-- The first byte of a group comes back. -/
theorem join_first (a b : UInt8) :
    ((six0 a <<< 2) &&& (0xFF : UInt8)) ||| ((six1 a b >>> 4) &&& (0x3 : UInt8)) = a := by
  obtain ⟨ha, hjoin, _⟩ := parts_join a
  obtain ⟨_, hb, _⟩ := parts_apart b
  have h : (six1 a b >>> 4) &&& (0x3 : UInt8) = a &&& 0x3 := by
    rw [six1, UInt8.shiftRight_or, or_and_byte, ha, hb, UInt8.or_zero]
  rw [h]
  exact hjoin

/-- The second byte of a group comes back. -/
theorem join_second (a b c : UInt8) :
    ((six1 a b &&& (0xF : UInt8)) <<< 4) ||| ((six2 b c >>> 2) &&& (0xF : UInt8)) = b := by
  obtain ⟨_, _, ha, _⟩ := parts_apart a
  obtain ⟨_, _, _, hc, _⟩ := parts_apart c
  obtain ⟨_, _, hjoin, _⟩ := parts_join b
  have h1 : six1 a b &&& (0xF : UInt8) = ((b >>> 4) &&& 0xF) &&& 0xF := by
    rw [six1, or_and_byte, ha, UInt8.zero_or]
  have h2 : (six2 b c >>> 2) &&& (0xF : UInt8) = (((b &&& 0xF) <<< 2) >>> 2) &&& 0xF := by
    rw [six2, UInt8.shiftRight_or, or_and_byte, hc, UInt8.or_zero]
  rw [h1, h2]
  exact hjoin

/-- The third byte of a group comes back. -/
theorem join_third (b c : UInt8) : ((six2 b c &&& (0x3 : UInt8)) <<< 6) ||| six3 c = c := by
  obtain ⟨_, _, _, _, hb⟩ := parts_apart b
  obtain ⟨_, _, _, hjoin⟩ := parts_join c
  have h : six2 b c &&& (0x3 : UInt8) = ((c >>> 6) &&& 0x3) &&& 0x3 := by
    rw [six2, or_and_byte, hb, UInt8.zero_or]
  rw [h]
  exact hjoin

/-- What is stored can be read. -/
@[simp] theorem store_self (memory : ℕ → UInt8) (j : ℕ) (v : UInt8) : store memory j v j = v := by
  simp [store]

/-- What the decoder does with six bits, by the position. -/
theorem decodeLoop_six {v : UInt8} (hv : v < 64) (rest : Bytes) (i j : ℕ) (out : ℕ → UInt8) :
    decodeLoop (encodeSix v :: rest) i j out =
      match i % 4 with
      | 0 => decodeLoop rest (i + 1) j (store out j ((v <<< 2) &&& 0xFF))
      | 1 => decodeLoop rest (i + 1) (j + 1)
          (store (store out j (out j ||| ((v >>> 4) &&& 0x3))) (j + 1) ((v &&& 0xF) <<< 4))
      | 2 => decodeLoop rest (i + 1) (j + 1)
          (store (store out j (out j ||| ((v >>> 2) &&& 0xF))) (j + 1) ((v &&& 0x3) <<< 6))
      | _ => decodeLoop rest (i + 1) (j + 1) (store out j (out j ||| v)) := by
  obtain ⟨hpad, hde, h255⟩ := decodeSix_encodeSix v hv
  rw [decodeLoop, if_neg hpad]
  dsimp only
  rw [hde, if_neg h255]

/-- The memory after the first two characters of a group. -/
def storeTwo (out : ℕ → UInt8) (j : ℕ) (a b : UInt8) : ℕ → UInt8 :=
  store (store (store out j ((six0 a <<< 2) &&& 0xFF)) j a) (j + 1) ((six1 a b &&& 0xF) <<< 4)

/-- The memory after the first three. -/
def storeThree (out : ℕ → UInt8) (j : ℕ) (a b c : UInt8) : ℕ → UInt8 :=
  store (store (storeTwo out j a b) (j + 1) b) (j + 1 + 1) ((six2 b c &&& 0x3) <<< 6)

/-- The memory after a whole group. -/
def storeFour (out : ℕ → UInt8) (j : ℕ) (a b c : UInt8) : ℕ → UInt8 :=
  store (storeThree out j a b c) (j + 1 + 1) c

/-- Two letters at the start of a group store one byte, and a part of the next one. -/
theorem decodeLoop_two (a b : UInt8) (rest : Bytes) {i : ℕ} (hi : i % 4 = 0) (j : ℕ)
    (out : ℕ → UInt8) :
    decodeLoop (encodeSix (six0 a) :: encodeSix (six1 a b) :: rest) i j out =
      decodeLoop rest (i + 1 + 1) (j + 1) (storeTwo out j a b) := by
  have hi1 : (i + 1) % 4 = 1 := by omega
  rw [decodeLoop_six (six0_lt a), hi]
  show decodeLoop (encodeSix (six1 a b) :: rest) (i + 1) j
    (store out j ((six0 a <<< 2) &&& 0xFF)) = _
  rw [decodeLoop_six (six1_lt a b), hi1]
  rw [store_self, join_first]
  rfl

/-- Three letters store two bytes, and a part of the next one. -/
theorem decodeLoop_three (a b c : UInt8) (rest : Bytes) {i : ℕ} (hi : i % 4 = 0) (j : ℕ)
    (out : ℕ → UInt8) :
    decodeLoop (encodeSix (six0 a) :: encodeSix (six1 a b) :: encodeSix (six2 b c) :: rest) i j
        out =
      decodeLoop rest (i + 1 + 1 + 1) (j + 1 + 1) (storeThree out j a b c) := by
  have hi2 : (i + 1 + 1) % 4 = 2 := by omega
  have hlast : storeTwo out j a b (j + 1) = (six1 a b &&& 0xF) <<< 4 := by simp [storeTwo]
  rw [decodeLoop_two a b _ hi, decodeLoop_six (six2_lt b c), hi2]
  rw [hlast, join_second]
  rfl

/-- Four letters store three bytes. -/
theorem decodeLoop_four (a b c : UInt8) (rest : Bytes) {i : ℕ} (hi : i % 4 = 0) (j : ℕ)
    (out : ℕ → UInt8) :
    decodeLoop (encodeSix (six0 a) :: encodeSix (six1 a b) :: encodeSix (six2 b c) ::
        encodeSix (six3 c) :: rest) i j out =
      decodeLoop rest (i + 4) (j + 3) (storeFour out j a b c) := by
  have hi3 : (i + 1 + 1 + 1) % 4 = 3 := by omega
  have hlast : storeThree out j a b c (j + 1 + 1) = (six2 b c &&& 0x3) <<< 6 := by
    simp [storeThree]
  rw [decodeLoop_three a b c _ hi, decodeLoop_six (six3_lt c), hi3]
  rw [hlast, join_third]
  rfl

/-- A group is stored where it belongs, and nothing before it changes. -/
theorem storeFour_get (out : ℕ → UInt8) (j : ℕ) (a b c : UInt8) :
    (∀ k < j, storeFour out j a b c k = out k) ∧ storeFour out j a b c j = a ∧
      storeFour out j a b c (j + 1) = b ∧ storeFour out j a b c (j + 1 + 1) = c := by
  refine ⟨fun k hk => ?_, ?_, ?_, ?_⟩
  · have hne : k ≠ j ∧ k ≠ j + 1 ∧ k ≠ j + 1 + 1 := by omega
    simp [storeFour, storeThree, storeTwo, store, hne]
  · have hne : j ≠ j + 1 ∧ j ≠ j + 1 + 1 := by omega
    simp [storeFour, storeThree, storeTwo, store, hne]
  · simp [storeFour, storeThree, store]
  · simp [storeFour]

/-- What two letters have stored. -/
theorem storeTwo_get (out : ℕ → UInt8) (j : ℕ) (a b : UInt8) :
    (∀ k < j, storeTwo out j a b k = out k) ∧ storeTwo out j a b j = a := by
  refine ⟨fun k hk => ?_, ?_⟩
  · have hne : k ≠ j ∧ k ≠ j + 1 := by omega
    simp [storeTwo, store, hne]
  · simp [storeTwo, store]

/-- What three letters have stored. -/
theorem storeThree_get (out : ℕ → UInt8) (j : ℕ) (a b c : UInt8) :
    (∀ k < j, storeThree out j a b c k = out k) ∧ storeThree out j a b c j = a ∧
      storeThree out j a b c (j + 1) = b := by
  refine ⟨fun k hk => ?_, ?_, ?_⟩
  · have hne : k ≠ j ∧ k ≠ j + 1 ∧ k ≠ j + 1 + 1 := by omega
    simp [storeThree, storeTwo, store, hne]
  · have hne : j ≠ j + 1 ∧ j ≠ j + 1 + 1 := by omega
    simp [storeThree, storeTwo, store, hne]
  · simp [storeThree, store]

/-- Three bytes give four letters. -/
theorem encodeLoop_group (a b c : UInt8) (rest : Bytes) (l : UInt8) :
    encodeLoop (a :: b :: c :: rest) 0 l =
      encodeSix (six0 a) :: encodeSix (six1 a b) :: encodeSix (six2 b c) :: encodeSix (six3 c) ::
        encodeLoop rest 0 c := rfl

/-- A single byte at the end gives two letters and two pads. -/
theorem encodeLoop_one (a l : UInt8) :
    encodeLoop [a] 0 l = [encodeSix (six0 a), encodeSix (six1 a 0), base64Pad, base64Pad] := by
  simp [encodeLoop, six0, six1]

/-- Two bytes at the end give three letters and a pad. -/
theorem encodeLoop_two (a b l : UInt8) :
    encodeLoop [a, b] 0 l =
      [encodeSix (six0 a), encodeSix (six1 a b), encodeSix (six2 b 0), base64Pad] := by
  simp [encodeLoop, six0, six1, six2]

/-- The encoding fills the vector made for it. -/
theorem encodeLoop_length : ∀ (x : Bytes) (l : UInt8),
    (encodeLoop x 0 l).length = (x.length + 2) / 3 * 4
  | [], _ => rfl
  | [a], l => by simp [encodeLoop_one]
  | [a, b], l => by simp [encodeLoop_two]
  | a :: b :: c :: rest, l => by
    have ih := encodeLoop_length rest c
    rw [encodeLoop_group]
    simp only [List.length_cons, ih]
    omega

/-- The decoder stops behind the bytes of the original vector, has stored exactly them, and has
left alone what was before them. -/
theorem decodeLoop_encodeLoop : ∀ (x : Bytes) (l : UInt8) (i j : ℕ) (out : ℕ → UInt8),
    i % 4 = 0 → ∃ out', decodeLoop (encodeLoop x 0 l) i j out = (some (j + x.length), out') ∧
      (∀ k < j, out' k = out k) ∧ ∀ k (h : k < x.length), out' (j + k) = x[k]
  | [], _, i, j, out, _ =>
    ⟨out, rfl, fun _ _ => rfl, fun _ h => absurd h (Nat.not_lt_zero _)⟩
  | [a], l, i, j, out, hi => by
    obtain ⟨hbefore, hfirst⟩ := storeTwo_get out j a 0
    refine ⟨storeTwo out j a 0, ?_, hbefore, ?_⟩
    · rw [encodeLoop_one, decodeLoop_two a 0 _ hi, decodeLoop, if_pos rfl]
      rfl
    · rintro (_ | k) h
      · exact hfirst
      · simp at h
  | [a, b], l, i, j, out, hi => by
    obtain ⟨hbefore, hfirst, hsecond⟩ := storeThree_get out j a b 0
    refine ⟨storeThree out j a b 0, ?_, hbefore, ?_⟩
    · rw [encodeLoop_two, decodeLoop_three a b 0 _ hi, decodeLoop, if_pos rfl]
      rfl
    · rintro (_ | _ | k) h
      · exact hfirst
      · exact hsecond
      · simp only [List.length_cons, List.length_nil] at h
        omega
  | a :: b :: c :: rest, l, i, j, out, hi => by
    obtain ⟨hbefore, hfirst, hsecond, hthird⟩ := storeFour_get out j a b c
    obtain ⟨out', hdecode, hkeep, hrest⟩ := decodeLoop_encodeLoop rest c (i + 4) (j + 3)
      (storeFour out j a b c) (by omega)
    refine ⟨out', ?_, fun k hk => ?_, ?_⟩
    · rw [encodeLoop_group, decodeLoop_four a b c _ hi, hdecode]
      simp only [List.length_cons, Prod.mk.injEq, Option.some.injEq, and_true]
      omega
    · rw [hkeep k (by omega), hbefore k hk]
    · rintro (_ | _ | _ | k) h
      · rw [hkeep _ (by omega)]
        exact hfirst
      · rw [hkeep _ (by omega)]
        exact hsecond
      · rw [hkeep _ (by omega)]
        exact hthird
      · have hk := hrest k (by simpa using h)
        rw [show j + (k + 1 + 1 + 1) = j + 3 + k by omega, hk]
        rfl

/-- The length of a vector is that of its memory. -/
theorem rawVector_length (memory : ℕ → UInt8) (n : ℕ) : (rawVector memory n).length = n := by
  simp [rawVector]

/-- A vector read back from the memory that holds it. -/
theorem rawVector_eq {memory : ℕ → UInt8} {x : Bytes}
    (h : ∀ k (hk : k < x.length), memory k = x[k]) : rawVector memory x.length = x := by
  refine List.ext_getElem (rawVector_length _ _) fun k _ hk => ?_
  simp [rawVector, h k hk]

/-- A raw vector that is not long is encoded, whatever the memory held. -/
theorem base64Encode_eq (memory : ℕ → UInt8) {x : Bytes} (h : x.length < 2 ^ 31) :
    base64Encode memory x = .ok (encodeLoop x 0 0) := by
  have hlen := encodeLoop_length x 0
  have hvector : rawVector (fun n => (encodeLoop x 0 0).getD n (memory n))
      ((x.length + 2) / 3 * 4) = encodeLoop x 0 0 := by
    rw [← hlen]
    exact rawVector_eq fun k hk => by simp [hk]
  simp only [base64Encode, rLength, if_pos h]
  exact congrArg Except.ok hvector

/-- What the decoder makes of an encoded vector: the vector itself, or, for a length of two
modulo three, the vector and one more byte. -/
theorem base64Decode_encodeLoop (memory : ℕ → UInt8) {x : Bytes}
    (h : (x.length + 2) / 3 * 4 < 2 ^ 31) :
    ∃ out', (∀ k (hk : k < x.length), out' k = x[k]) ∧
      base64Decode memory (encodeLoop x 0 0) =
        .ok (rawVector out' (if x.length % 3 = 2 then x.length + 1 else x.length)) := by
  obtain ⟨out', hdecode, -, hstored⟩ := decodeLoop_encodeLoop x 0 0 0 memory rfl
  refine ⟨out', fun k hk => by simpa using hstored k hk, ?_⟩
  have hlen := encodeLoop_length x 0
  have hmod : (x.length + 2) / 3 * 4 % 4 = 0 := by omega
  have hout : (x.length + 2) / 3 * 4 / 4 * 3 = (x.length + 2) / 3 * 3 := by omega
  rw [Nat.zero_add] at hdecode
  simp only [base64Decode, rLength, hlen, if_pos h]
  show (if (x.length + 2) / 3 * 4 % 4 ≠ 0 then _ else _) = _
  rw [if_neg (by omega), hdecode, hout]
  dsimp only
  split_ifs with hshort htwo htwo
  · omega
  · rfl
  · rw [show (x.length + 2) / 3 * 3 = x.length + 1 by omega]
  · rw [show (x.length + 2) / 3 * 3 = x.length by omega]

/-- Encoding and decoding give a raw vector back exactly if its length is not two modulo three
and its encoding is not a long vector. -/
theorem base64_roundTrip_iff (memory memory' : ℕ → UInt8) (x : Bytes) :
    (base64Encode memory x >>= base64Decode memory') = .ok x ↔
      x.length % 3 ≠ 2 ∧ x.length ≤ 1610612733 := by
  by_cases hlong : x.length < 2 ^ 31
  · rw [base64Encode_eq memory hlong]
    show base64Decode memory' (encodeLoop x 0 0) = _ ↔ _
    by_cases hdecode : (x.length + 2) / 3 * 4 < 2 ^ 31
    · obtain ⟨out', hstored, hresult⟩ := base64Decode_encodeLoop memory' hdecode
      rw [hresult]
      constructor
      · intro heq
        have hlen := congrArg List.length (Except.ok.inj heq)
        rw [rawVector_length] at hlen
        split_ifs at hlen with htwo
        · omega
        · exact ⟨htwo, by omega⟩
      · rintro ⟨htwo, -⟩
        rw [if_neg htwo, rawVector_eq hstored]
    · have herror : base64Decode memory' (encodeLoop x 0 0) =
          .error "long vectors not supported yet" := by
        rw [base64Decode, rLength, encodeLoop_length, if_neg hdecode]
        rfl
      rw [herror]
      refine ⟨fun h => ?_, fun ⟨_, _⟩ => by omega⟩
      cases h
  · have herror : base64Encode memory x = .error "long vectors not supported yet" := by
      rw [base64Encode, rLength, if_neg hlong]
      rfl
    rw [herror]
    refine ⟨fun h => ?_, fun ⟨_, _⟩ => by omega⟩
    cases h

/-- `fo` comes back with a third byte. -/
theorem fo_not_roundTrip :
    (base64Encode (fun _ => 0) [102, 111] >>= base64Decode fun _ => 0) = .ok [102, 111, 0] ∧
      (base64Encode (fun _ => 0) [102, 111] >>= base64Decode fun _ => 0) ≠ .ok [102, 111] := by
  decide +kernel

/-- An access of `processx_base64_decode()` to its table or to its result. -/
inductive Base64Access
  | table (index : ℕ)
  | output (index : ℕ)
  deriving DecidableEq

/-- Is an access inside the table, or inside a result of `outlen` bytes? -/
def Base64Access.InBounds (outlen : ℕ) : Base64Access → Prop
  | .table index => index < base64de.length
  | .output index => index < outlen

instance (outlen : ℕ) (access : Base64Access) : Decidable (access.InBounds outlen) :=
  match access with
  | .table index => inferInstanceAs (Decidable (index < base64de.length))
  | .output index => inferInstanceAs (Decidable (index < outlen))

/-- The `switch` of `processx_base64_decode()`: its accesses, the next `j` and the memory. -/
def decodeSwitch (i j : ℕ) (v : UInt8) (out : ℕ → UInt8) :
    List Base64Access × ℕ × (ℕ → UInt8) :=
  match i % 4 with
  | 0 => ([.output j], j, store out j ((v <<< 2) &&& 0xFF))
  | 1 =>
    let out := store out j (out j ||| ((v >>> 4) &&& 0x3))
    ([.output j, .output (j + 1)], j + 1, store out (j + 1) ((v &&& 0xF) <<< 4))
  | 2 =>
    let out := store out j (out j ||| ((v >>> 2) &&& 0xF))
    ([.output j, .output (j + 1)], j + 1, store out (j + 1) ((v &&& 0x3) <<< 6))
  | _ => ([.output j], j + 1, store out j (out j ||| v))

/-- The loop of `processx_base64_decode()` with every access it makes. An index past the
table finds what the memory `behind` it holds. -/
def decodeTraced (behind : ℕ → UInt8) :
    Bytes → ℕ → ℕ → (ℕ → UInt8) → List Base64Access × Option ℕ × (ℕ → UInt8)
  | [], _, j, out => ([], some j, out)
  | c :: rest, i, j, out =>
    if c = base64Pad then ([], some j, out)
    else if c < 0 then ([], none, out)
    else
      let v := base64de.getD c.toNat (behind c.toNat)
      if v = 255 then ([.table c.toNat], none, out)
      else
        let (written, j, out) := decodeSwitch i j v out
        let (later, result) := decodeTraced behind rest (i + 1) j out
        (.table c.toNat :: written ++ later, result)

/-- `processx_base64_decode()` with every access it makes. -/
def base64DecodeTraced (behind memory : ℕ → UInt8) (array : Bytes) :
    Except String (List Base64Access × Bytes) := do
  let inlen ← rLength array
  let outlen := inlen / 4 * 3
  if inlen % 4 ≠ 0 then .ok ([], rawVector memory outlen)
  else
    match decodeTraced behind array 0 0 memory with
    | (accesses, none, out) => .ok (accesses, rawVector out outlen)
    | (accesses, some j, out) =>
      if j + 1 < outlen then .ok (accesses, rawVector out j)
      else .ok (accesses, rawVector out outlen)

/-- Is a byte in the alphabet? -/
def inAlphabet (c : UInt8) : Bool := base64en.contains c

/-- With `255` behind the table the traced loop is the loop of the round trips. -/
theorem decodeTraced_eq (rest : Bytes) (i j : ℕ) (out : ℕ → UInt8) :
    (decodeTraced (fun _ => 255) rest i j out).2 = decodeLoop rest i j out := by
  induction rest generalizing i j out with
  | nil => rfl
  | cons c rest ih =>
    rw [decodeTraced, decodeLoop]
    by_cases hpad : c = base64Pad
    · rw [if_pos hpad, if_pos hpad]
    · rw [if_neg hpad, if_neg hpad, if_neg UInt8.not_lt_zero]
      dsimp only
      rw [decodeSix]
      by_cases hinvalid : base64de.getD c.toNat 255 = 255
      · rw [if_pos hinvalid, if_pos hinvalid]
      · rw [if_neg hinvalid, if_neg hinvalid, decodeSwitch]
        split <;> exact ih _ _ _

/-- So the traced decoder returns what the decoder returns. -/
theorem base64DecodeTraced_eq (memory : ℕ → UInt8) (array : Bytes) :
    (base64DecodeTraced (fun _ => 255) memory array).map Prod.snd = base64Decode memory array := by
  unfold base64DecodeTraced base64Decode
  cases rLength array with
  | error msg => rfl
  | ok inlen =>
    dsimp only [bind, Except.bind]
    by_cases hmod : inlen % 4 ≠ 0
    · rw [if_pos hmod, if_pos hmod]
      rfl
    · have hloop := decodeTraced_eq array 0 0 memory
      rw [if_neg hmod, if_neg hmod, ← hloop]
      rcases decodeTraced (fun _ => 255) array 0 0 memory with ⟨accesses, _ | j, out⟩
      · rfl
      · dsimp only
        split_ifs <;> rfl

/-- A byte in the alphabet has its six bits in the table. Any other byte ends the loop, unless
it is behind the table. -/
theorem inAlphabet_spec (c : UInt8) :
    if inAlphabet c = true then c < 128 ∧ c ≠ base64Pad ∧ decodeSix c ≠ 255
    else c < 128 → c = base64Pad ∨ decodeSix c = 255 :=
  forall_byte (P := fun c => if inAlphabet c = true then c < 128 ∧ c ≠ base64Pad ∧
    decodeSix c ≠ 255 else c < 128 → c = base64Pad ∨ decodeSix c = 255) (by decide +kernel) c

/-- The memory behind the table matters only to bytes from 128 on. -/
theorem getD_base64de {c : UInt8} (h : c < 128) (value : UInt8) :
    base64de.getD c.toNat value = decodeSix c := by
  have hlt : c.toNat < base64de.length := h
  simp [decodeSix, hlt]

/-- The `switch` at the position `i` of `n` characters writes inside the result, and leaves `j`
where the next position needs it. -/
theorem decodeSwitch_inBounds {n i j : ℕ} (hn : n % 4 = 0) (hi : i < n)
    (hj : j = i / 4 * 3 + (i % 4 - 1)) (v : UInt8) (out : ℕ → UInt8) :
    (∀ access ∈ (decodeSwitch i j v out).1, access.InBounds (n / 4 * 3)) ∧
      (decodeSwitch i j v out).2.1 = (i + 1) / 4 * 3 + ((i + 1) % 4 - 1) := by
  obtain h | h | h | h : i % 4 = 0 ∨ i % 4 = 1 ∨ i % 4 = 2 ∨ i % 4 = 3 := by omega
  all_goals
    simp [decodeSwitch, h, Base64Access.InBounds]
    omega

/-- From the position `i` of `n` characters on, every access is in bounds exactly if the first
byte that is not in the alphabet is below 128. -/
theorem decodeTraced_inBounds_iff (behind : ℕ → UInt8) {n : ℕ} (hn : n % 4 = 0) (rest : Bytes)
    {i j : ℕ} (out : ℕ → UInt8) (hi : i + rest.length = n)
    (hj : j = i / 4 * 3 + (i % 4 - 1)) :
    (∀ access ∈ (decodeTraced behind rest i j out).1, access.InBounds (n / 4 * 3)) ↔
      ∀ c ∈ (rest.dropWhile inAlphabet).head?, c < 128 := by
  induction rest generalizing i j out with
  | nil => simp [decodeTraced]
  | cons c rest ih =>
    rw [List.length_cons] at hi
    have hspec := inAlphabet_spec c
    by_cases halpha : inAlphabet c = true
    · rw [if_pos halpha] at hspec
      obtain ⟨hlow, hpad, hvalid⟩ := hspec
      have htable : (Base64Access.table c.toNat).InBounds (n / 4 * 3) := hlow
      obtain ⟨hwritten, hnext⟩ :=
        decodeSwitch_inBounds hn (by omega) hj (decodeSix c) out
      rw [List.dropWhile_cons, if_pos halpha,
        ← ih (decodeSwitch i j (decodeSix c) out).2.2 (by omega) hnext]
      rw [decodeTraced, if_neg hpad, if_neg UInt8.not_lt_zero]
      dsimp only
      rw [getD_base64de hlow, if_neg hvalid]
      dsimp only
      rw [List.cons_append, List.forall_mem_cons, List.forall_mem_append]
      exact ⟨fun h => h.2.2, fun h => ⟨htable, hwritten, h⟩⟩
    · rw [if_neg halpha] at hspec
      have hhead : (∀ b ∈ ((c :: rest).dropWhile inAlphabet).head?, b < 128) ↔ c < 128 := by
        simp [halpha]
      rw [hhead]
      by_cases hlow : c < 128
      · refine iff_of_true (fun access haccess => ?_) hlow
        rw [decodeTraced] at haccess
        rcases hspec hlow with hpad | hinvalid
        · rw [if_pos hpad] at haccess
          cases haccess
        · by_cases hpad : c = base64Pad
          · rw [if_pos hpad] at haccess
            cases haccess
          · rw [if_neg hpad, if_neg UInt8.not_lt_zero] at haccess
            dsimp only at haccess
            rw [getD_base64de hlow, if_pos hinvalid, List.mem_singleton] at haccess
            rw [haccess]
            exact hlow
      · -- the guard lets the byte through, and the table is read behind its end
        refine iff_of_false (fun h => ?_) hlow
        have hpad : c ≠ base64Pad := by
          intro heq
          rw [heq] at hlow
          exact hlow (by decide)
        refine hlow (h (.table c.toNat) ?_)
        rw [decodeTraced, if_neg hpad, if_neg UInt8.not_lt_zero]
        dsimp only
        split_ifs
        · exact List.mem_singleton_self _
        · exact List.mem_cons_self

/-- What the loop writes is inside the result, whatever it found behind the table. -/
theorem decodeTraced_output (behind : ℕ → UInt8) {n : ℕ} (hn : n % 4 = 0) (rest : Bytes)
    {i j : ℕ} (out : ℕ → UInt8) (hi : i + rest.length = n)
    (hj : j = i / 4 * 3 + (i % 4 - 1)) {index : ℕ}
    (h : .output index ∈ (decodeTraced behind rest i j out).1) : index < n / 4 * 3 := by
  induction rest generalizing i j out with
  | nil => cases h
  | cons c rest ih =>
    rw [List.length_cons] at hi
    rw [decodeTraced] at h
    by_cases hpad : c = base64Pad
    · rw [if_pos hpad] at h
      cases h
    rw [if_neg hpad, if_neg UInt8.not_lt_zero] at h
    dsimp only at h
    generalize base64de.getD c.toNat (behind c.toNat) = v at h
    by_cases hinvalid : v = 255
    · rw [if_pos hinvalid] at h
      simp at h
    obtain ⟨hwritten, hnext⟩ := decodeSwitch_inBounds hn (by omega) hj v out
    rw [if_neg hinvalid] at h
    dsimp only at h
    rw [List.cons_append, List.mem_cons, List.mem_append] at h
    rcases h with h | h | h
    · cases h
    · exact hwritten _ h
    · exact ih _ (by omega) hnext h

/-- The accesses of a whole call are those of the loop, if it gets there. -/
theorem base64DecodeTraced_cases (behind memory : ℕ → UInt8) (array : Bytes) :
    (array.length < 2 ^ 31 ∧ array.length % 4 = 0 ∧ ∃ result,
        base64DecodeTraced behind memory array =
          .ok ((decodeTraced behind array 0 0 memory).1, result)) ∨
      ((array.length < 2 ^ 31 → array.length % 4 ≠ 0) ∧ ∀ accesses result,
        base64DecodeTraced behind memory array = .ok (accesses, result) → accesses = []) := by
  unfold base64DecodeTraced rLength
  by_cases hlong : array.length < 2 ^ 31
  · rw [if_pos hlong]
    dsimp only [bind, Except.bind]
    by_cases hmod : array.length % 4 = 0
    · rw [if_neg (not_not.mpr hmod)]
      refine Or.inl ⟨hlong, hmod, ?_⟩
      rcases decodeTraced behind array 0 0 memory with ⟨accesses, _ | j, out⟩
      · exact ⟨_, rfl⟩
      · dsimp only
        split_ifs
        · exact ⟨_, rfl⟩
        · exact ⟨_, rfl⟩
    · rw [if_pos hmod]
      refine Or.inr ⟨fun _ => hmod, fun accesses result heq => ?_⟩
      exact (Prod.mk.inj (Except.ok.inj heq)).1.symm
  · rw [if_neg hlong]
    refine Or.inr ⟨fun h => absurd h hlong, fun accesses result heq => ?_⟩
    cases heq

/-- **Decoding stays inside its memory** exactly if the length is no multiple of four or the
first byte that is not in the alphabet is below 128. Only the table is at stake: every write is
inside the result. -/
theorem base64DecodeTraced_inBounds_iff (behind memory : ℕ → UInt8) (array : Bytes) :
    ((∀ accesses result, base64DecodeTraced behind memory array = .ok (accesses, result) →
        ∀ access ∈ accesses, access.InBounds (array.length / 4 * 3)) ↔
      (array.length < 2 ^ 31 → array.length % 4 = 0 →
        ∀ c ∈ (array.dropWhile inAlphabet).head?, c < 128)) ∧
    ∀ accesses result, base64DecodeTraced behind memory array = .ok (accesses, result) →
      ∀ index, .output index ∈ accesses → index < array.length / 4 * 3 := by
  obtain ⟨hlong, hmod, result, hresult⟩ | ⟨hmod, hnone⟩ :=
    base64DecodeTraced_cases behind memory array
  · have hiff := decodeTraced_inBounds_iff behind hmod array (i := 0) (j := 0) memory
      (Nat.zero_add _) rfl
    refine ⟨⟨fun hall _ _ => hiff.mp (hall _ _ hresult), ?_⟩, ?_⟩
    · intro hfirst accesses result' heq
      rw [hresult] at heq
      obtain ⟨rfl, -⟩ := Prod.mk.inj (Except.ok.inj heq)
      exact hiff.mpr (hfirst hlong hmod)
    · intro accesses result' heq index hindex
      rw [hresult] at heq
      obtain ⟨rfl, -⟩ := Prod.mk.inj (Except.ok.inj heq)
      exact decodeTraced_output behind hmod array memory (Nat.zero_add _) rfl hindex
  · refine ⟨iff_of_true ?_ fun hlong h => absurd h (hmod hlong), ?_⟩
    · intro accesses result heq
      rw [hnone accesses result heq]
      exact List.forall_mem_nil _
    · intro accesses result heq index hindex
      rw [hnone accesses result heq] at hindex
      cases hindex

/-- Four characters, the first of them `0x80`: the first index is one past the table. -/
theorem base64DecodeTraced_past_table :
    ∃ accesses result,
      base64DecodeTraced (fun _ => 255) (fun _ => 0) [0x80, 65, 65, 65] =
          .ok (accesses, result) ∧
        .table 128 ∈ accesses ∧ ¬∀ access ∈ accesses, access.InBounds 3 :=
  ⟨[.table 128], [0, 0, 0], by decide +kernel, by decide,
    by simp [Base64Access.InBounds, base64de]⟩

end Processx
