import Mathlib.Algebra.Group.Nat.Defs
import Mathlib.Tactic.Common

/-!
# Base 64 texts

The encoding of RFC 4648 over any alphabet of 64 symbols and any padding symbol. Three octets are
one number of 24 bits, and its four digits to the base 64 are written from the highest one on. A
last group of one or two octets is filled up with zero bits, and the digits that hold none of its
bits are replaced by padding.
-/

namespace Radix64

variable {α : Type*}

/-- The 24 bits of three octets. -/
def group (a b c : ℕ) : ℕ := (a * 256 + b) * 256 + c

/-- The digit of `v` with the weight `64 ^ k`. -/
def digit (k v : ℕ) : ℕ := v / 64 ^ k % 64

/-- The text of some octets. -/
def encode (alphabet : ℕ → α) (pad : α) : List ℕ → List α
  | [] => []
  | [a] =>
    let v := group a 0 0
    [alphabet (digit 3 v), alphabet (digit 2 v), pad, pad]
  | [a, b] =>
    let v := group a b 0
    [alphabet (digit 3 v), alphabet (digit 2 v), alphabet (digit 1 v), pad]
  | a :: b :: c :: rest =>
    let v := group a b c
    alphabet (digit 3 v) :: alphabet (digit 2 v) :: alphabet (digit 1 v) ::
      alphabet (digit 0 v) :: encode alphabet pad rest

/-- The alphabet of the standard: capital letters, small letters, decimal digits, `+` and `/`. -/
def standardAlphabet (v : ℕ) : Char :=
  if v < 26 then Char.ofNat ('A'.toNat + v)
  else if v < 52 then Char.ofNat ('a'.toNat + (v - 26))
  else if v < 62 then Char.ofNat ('0'.toNat + (v - 52))
  else if v = 62 then '+'
  else '/'

/-- A digit is below the radix. -/
theorem digit_lt (k v : ℕ) : digit k v < 64 := Nat.mod_lt _ (by decide)

/-- The highest digit of a group has the first six bits of its first octet. -/
theorem digit_three {a b c : ℕ} (ha : a < 256) (hb : b < 256) (hc : c < 256) :
    digit 3 (group a b c) = a / 4 := by
  unfold digit group
  omega

/-- The next one has the other two bits of the first octet and four bits of the second. -/
theorem digit_two {a b c : ℕ} (hb : b < 256) (hc : c < 256) :
    digit 2 (group a b c) = a % 4 * 16 + b / 16 := by
  unfold digit group
  omega

/-- The next one has the other four bits of the second octet and two bits of the third. -/
theorem digit_one {a b c : ℕ} (hc : c < 256) :
    digit 1 (group a b c) = b % 16 * 4 + c / 64 := by
  unfold digit group
  omega

/-- The lowest digit has the last six bits of the third octet. -/
theorem digit_zero (a b c : ℕ) : digit 0 (group a b c) = c % 64 := by
  unfold digit group
  omega

end Radix64
