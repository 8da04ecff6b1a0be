import Processx.Base64
import Processx.Library.Radix64

/-!
# The encoder and the standard

The loop of `processx_base64_encode()` emits the bits of the current byte and of the one before,
with a state of three values, and the last part of the text is emitted after the loop. Here it
is compared with the encoding of the standard, which goes by groups of three.
-/

namespace Processx

open Radix64

/-- The byte of a character. -/
def charByte (ch : Char) : UInt8 := UInt8.ofNat ch.toNat

/-- The text of RFC 4648 for a raw vector. -/
def base64Standard (array : Bytes) : Bytes :=
  encode (fun v => charByte (standardAlphabet v)) (charByte '=') (array.map UInt8.toNat)

/-- `BASE64_ENCODE_OUT_SIZE`, with the arithmetic of an `unsigned int`. -/
def base64EncodeOutSize (s : ℕ) : ℕ := (s + 2) % 2 ^ 32 / 3 * 4 % 2 ^ 32

/-- The table of the encoder is the alphabet of the standard. -/
theorem base64en_getD : ∀ v < 64, base64en.getD v 0 = charByte (standardAlphabet v) := by
  decide +kernel

/-- The table of the code is the alphabet of the standard. -/
theorem encodeSix_eq {v : UInt8} {n : ℕ} (hv : v.toNat = n) (hn : n < 64) :
    encodeSix v = charByte (standardAlphabet n) := by
  rw [encodeSix, hv, base64en_getD n hn]

/-- The parts of a byte that go to the groups of six bits, as numbers. -/
theorem parts_toNat (a : UInt8) :
    (six0 a).toNat = a.toNat / 4 ∧ ((a &&& 0x3) <<< 4).toNat = 2 ^ 4 * (a.toNat % 4) ∧
      ((a >>> 4) &&& 0xF).toNat = a.toNat / 16 ∧
      ((a &&& 0xF) <<< 2).toNat = 2 ^ 2 * (a.toNat % 16) ∧
      ((a >>> 6) &&& 0x3).toNat = a.toNat / 64 ∧ (six3 a).toNat = a.toNat % 64 :=
  forall_byte (P := fun a =>
    (six0 a).toNat = a.toNat / 4 ∧ ((a &&& 0x3) <<< 4).toNat = 2 ^ 4 * (a.toNat % 4) ∧
      ((a >>> 4) &&& 0xF).toNat = a.toNat / 16 ∧
      ((a &&& 0xF) <<< 2).toNat = 2 ^ 2 * (a.toNat % 16) ∧
      ((a >>> 6) &&& 0x3).toNat = a.toNat / 64 ∧ (six3 a).toNat = a.toNat % 64)
    (by decide +kernel) a

/-- The two parts of the second six bits share no bit, so that joining them is adding. -/
theorem six1_toNat (a b : UInt8) : (six1 a b).toNat = a.toNat % 4 * 16 + b.toNat / 16 := by
  obtain ⟨-, ha, -⟩ := parts_toNat a
  obtain ⟨-, -, hb, -⟩ := parts_toNat b
  have hlt := b.toNat_lt
  rw [six1, UInt8.toNat_or, ha, hb, ← Nat.two_pow_add_eq_or_of_lt (by omega)]
  omega

/-- The third six bits of a group: four of its second byte and two of its third. -/
theorem six2_toNat (b c : UInt8) : (six2 b c).toNat = b.toNat % 16 * 4 + c.toNat / 64 := by
  obtain ⟨-, -, -, hb, -⟩ := parts_toNat b
  obtain ⟨-, -, -, -, hc, -⟩ := parts_toNat c
  have hlt := c.toNat_lt
  rw [six2, UInt8.toNat_or, hb, hc, ← Nat.two_pow_add_eq_or_of_lt (by omega)]
  omega

/-- The digits of a group of three bytes are the groups of six bits of the source. -/
theorem encodeSix_digits (a b c : UInt8) :
    encodeSix (six0 a) = charByte (standardAlphabet (digit 3 (group a.toNat b.toNat c.toNat))) ∧
      encodeSix (six1 a b) =
        charByte (standardAlphabet (digit 2 (group a.toNat b.toNat c.toNat))) ∧
      encodeSix (six2 b c) =
        charByte (standardAlphabet (digit 1 (group a.toNat b.toNat c.toNat))) ∧
      encodeSix (six3 c) =
        charByte (standardAlphabet (digit 0 (group a.toNat b.toNat c.toNat))) := by
  have ha := a.toNat_lt
  have hb := b.toNat_lt
  have hc := c.toNat_lt
  obtain ⟨hfirst, -⟩ := parts_toNat a
  obtain ⟨-, -, -, -, -, hlast⟩ := parts_toNat c
  refine ⟨encodeSix_eq ?_ (digit_lt _ _), encodeSix_eq ?_ (digit_lt _ _),
    encodeSix_eq ?_ (digit_lt _ _), encodeSix_eq ?_ (digit_lt _ _)⟩
  · rw [hfirst, digit_three ha hb hc]
  · rw [six1_toNat, digit_two hb hc]
  · rw [six2_toNat, digit_one hc]
  · rw [hlast, digit_zero]

/-- What the loop stores is the text of the standard. -/
theorem encodeLoop_eq_standard : ∀ (x : Bytes) (l : UInt8), encodeLoop x 0 l = base64Standard x
  | [], _ => rfl
  | [a], l => by
    obtain ⟨h3, h2, -, -⟩ := encodeSix_digits a 0 0
    rw [encodeLoop_one, h3, h2]
    rfl
  | [a, b], l => by
    obtain ⟨h3, h2, h1, -⟩ := encodeSix_digits a b 0
    rw [encodeLoop_two, h3, h2, h1]
    rfl
  | a :: b :: c :: rest, l => by
    obtain ⟨h3, h2, h1, h0⟩ := encodeSix_digits a b c
    rw [encodeLoop_group, h3, h2, h1, h0, encodeLoop_eq_standard rest c]
    rfl

/-- **The encoder follows the standard** for every vector that is not long: it stores `4 ⌈n / 3⌉`
bytes, as many as the new vector has, and they are the text of RFC 4648. A long vector is an
error. -/
theorem base64Encode_standard (memory : ℕ → UInt8) (array : Bytes) :
    (array.length < 2 ^ 31 →
      (encodeLoop array 0 0).length = 4 * ((array.length + 2) / 3) ∧
        (encodeLoop array 0 0).length = base64EncodeOutSize array.length ∧
        base64Encode memory array = .ok (base64Standard array)) ∧
    (2 ^ 31 ≤ array.length →
      base64Encode memory array = .error "long vectors not supported yet") := by
  refine ⟨fun hlong => ⟨?_, ?_, ?_⟩, fun hlong => ?_⟩
  · rw [encodeLoop_length]
    omega
  · rw [encodeLoop_length, base64EncodeOutSize]
    omega
  · rw [base64Encode_eq memory hlong, encodeLoop_eq_standard]
  · rw [base64Encode, rLength, if_neg (by omega)]
    rfl

/-- `fo` is `Zm8=`, and `2^31` zero bytes are too many. -/
theorem base64Encode_standard_fo :
    base64Standard [102, 111] = "Zm8=".toList.map charByte ∧
      base64Encode (fun _ => 0) [102, 111] = .ok (base64Standard [102, 111]) ∧
      base64Encode (fun _ => 0) (List.replicate (2 ^ 31) 0) =
        .error "long vectors not supported yet" := by
  refine ⟨by decide, ((base64Encode_standard (fun _ => 0) [102, 111]).1 (by decide)).2.2, ?_⟩
  exact (base64Encode_standard (fun _ => 0) (List.replicate (2 ^ 31) 0)).2
    (List.length_replicate ▸ Nat.le_refl _)

/-- A long vector of zero bytes has a text, but the encoder refuses it. -/
theorem base64Encode_long :
    ¬∀ memory array, base64Encode memory array = .ok (base64Standard array) := by
  intro hall
  have h := hall (fun _ => 0) (List.replicate (2 ^ 31) 0)
  rw [base64Encode, rLength, if_neg (by rw [List.length_replicate]; decide)] at h
  cases h

end Processx
