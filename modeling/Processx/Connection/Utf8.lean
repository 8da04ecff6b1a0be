import Processx.Connection.Model

/-!
# The UTF-8 decoder

The conversion of a connection with encoding UTF-8: characters are copied, and
what is not the start of a well-formed character is invalid. It is an instance of
the general decoders, and has the laws that reading in chunks relies on.
-/

namespace Processx

open Incremental

/-- A statement about every byte, by its two hexadecimal digits. -/
theorem forall_byte {P : UInt8 → Prop} (h : ∀ high low : Fin 16, P (UInt8.ofNat (16 * high + low)))
    (a : UInt8) : P a := by
  have hlt := a.toNat_lt
  have hdigits := h ⟨a.toNat / 16, by omega⟩ ⟨a.toNat % 16, by omega⟩
  rw [Nat.div_add_mod, UInt8.ofNat_toNat] at hdigits
  exact hdigits

/-- The ranges of the continuation bytes that a first byte asks for, if any
character starts with it. -/
def utf8Tails (b : UInt8) : Option (List (UInt8 × UInt8)) :=
  if b < 0x80 then some []
  else if 0xc2 ≤ b ∧ b ≤ 0xdf then some [(0x80, 0xbf)]
  else if b = 0xe0 then some [(0xa0, 0xbf), (0x80, 0xbf)]
  else if b = 0xed then some [(0x80, 0x9f), (0x80, 0xbf)]
  else if 0xe1 ≤ b ∧ b ≤ 0xef then some [(0x80, 0xbf), (0x80, 0xbf)]
  else if b = 0xf0 then some [(0x90, 0xbf), (0x80, 0xbf), (0x80, 0xbf)]
  else if 0xf1 ≤ b ∧ b ≤ 0xf3 then some [(0x80, 0xbf), (0x80, 0xbf), (0x80, 0xbf)]
  else if b = 0xf4 then some [(0x80, 0x8f), (0x80, 0xbf), (0x80, 0xbf)]
  else none

/-- Do the next bytes lie in the given ranges? `none` if there are too few of them
to tell. -/
def matchTails : List (UInt8 × UInt8) → Bytes → Option Bool
  | [], _ => some true
  | _ :: _, [] => none
  | range :: ranges, b :: inp =>
    if range.1 ≤ b ∧ b ≤ range.2 then matchTails ranges inp else some false

/-- The first character of some bytes. -/
def utf8Head : Bytes → Head Unit UInt8
  | [] => .incomplete
  | b :: inp =>
    match utf8Tails b with
    | none => .invalid
    | some ranges =>
      match matchTails ranges inp with
      | none => .incomplete
      | some false => .invalid
      | some true => .char (ranges.length + 1) (b :: inp.take ranges.length) ()

/-- A match is decided by the bytes it looks at. -/
theorem matchTails_append {ranges : List (UInt8 × UInt8)} {inp : Bytes} {answer : Bool}
    (h : matchTails ranges inp = some answer) (more : Bytes) :
    matchTails ranges (inp ++ more) = some answer := by
  induction ranges generalizing inp with
  | nil => simpa [matchTails] using h
  | cons range ranges ih =>
    cases inp with
    | nil => simp [matchTails] at h
    | cons b inp =>
      rw [matchTails] at h
      rw [List.cons_append, matchTails]
      split_ifs at h ⊢ with hrange
      · exact ih h
      · exact h

/-- A match needs a byte for each range. -/
theorem length_le_of_matchTails {ranges : List (UInt8 × UInt8)} {inp : Bytes}
    (h : matchTails ranges inp = some true) : ranges.length ≤ inp.length := by
  induction ranges generalizing inp with
  | nil => exact Nat.zero_le _
  | cons range ranges ih =>
    cases inp with
    | nil => simp [matchTails] at h
    | cons b inp =>
      rw [matchTails] at h
      split_ifs at h with hrange
      · exact Nat.succ_le_succ (ih h)
      · simp at h

/-- The UTF-8 decoder. -/
def utf8Decoder : Decoder Unit UInt8 UInt8 where
  head _ inp := utf8Head inp
  head_nil _ := rfl
  char_length := by
    intro _ inp len out next h
    cases inp with
    | nil => simp [utf8Head] at h
    | cons b inp =>
      unfold utf8Head at h
      cases htails : utf8Tails b with
      | none => simp [htails] at h
      | some ranges =>
        rcases hmatch : matchTails ranges inp with _ | _ | _
        · simp [htails, hmatch] at h
        · simp [htails, hmatch] at h
        · have hlen : ranges.length + 1 = len := by
            simp only [htails, hmatch, Head.char.injEq] at h
            exact h.1
          have hle := length_le_of_matchTails hmatch
          simp only [List.length_cons]
          omega
  char_append := by
    intro _ inp len out next more h
    cases inp with
    | nil => simp [utf8Head] at h
    | cons b inp =>
      rw [List.cons_append]
      unfold utf8Head at h ⊢
      cases htails : utf8Tails b with
      | none => simp [htails] at h
      | some ranges =>
        rcases hmatch : matchTails ranges inp with _ | _ | _
        · simp [htails, hmatch] at h
        · simp [htails, hmatch] at h
        · have hle := length_le_of_matchTails hmatch
          simpa only [htails, hmatch, matchTails_append hmatch more,
            List.take_append_of_le_length hle] using h
  invalid_append := by
    intro _ inp more h
    cases inp with
    | nil => simp [utf8Head] at h
    | cons b inp =>
      rw [List.cons_append]
      unfold utf8Head at h ⊢
      cases htails : utf8Tails b with
      | none => simp only [htails]
      | some ranges =>
        rcases hmatch : matchTails ranges inp with _ | _ | _
        · simp [htails, hmatch] at h
        · simp only [htails, matchTails_append hmatch more]
        · simp [htails, hmatch] at h

/-- `Riconv()` for a connection with encoding UTF-8. -/
def utf8Riconv : Riconv Unit where
  open_ := ()
  run st inbuf room := utf8Decoder.convert room st inbuf

/-- It follows the UTF-8 decoder by construction. -/
theorem utf8Riconv_follows : utf8Riconv.Follows utf8Decoder := fun _ _ _ => rfl

/-- The euro sign, an invalid byte, and an incomplete character at the end. -/
example : utf8Decoder.decode () [0xe2, 0x82, 0xac, 0xff, 0x41, 0xe2, 0x82] =
    [0xe2, 0x82, 0xac, 0x41] := by decide

end Processx
