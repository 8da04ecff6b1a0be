import Processx.Connection.ReadLine

/-!
# Whole characters

The UTF-8 buffer of a text-mode connection always starts and ends where a character does, if
`Riconv()` writes only whole ones: conversions append whole characters, the character readers
take whole characters, and the line readers cut in front of a line feed or behind it. So
`processx__connection_find_utf8_chars()` never meets anything it takes for an error.
-/

namespace Processx

open Incremental Textual

variable {σ : Type} {ic : Riconv σ}

/-- One complete character in UTF-8. -/
def IsCharacter (c : Bytes) : Prop := utf8Head c = .char c.length c ()

instance (c : Bytes) : Decidable (IsCharacter c) :=
  inferInstanceAs (Decidable (utf8Head c = .char c.length c ()))

/-- A text is spelled by its characters. -/
structure Spells (chars : List Bytes) (text : Bytes) : Prop where
  characters : ∀ c ∈ chars, IsCharacter c
  flatten : chars.flatten = text

/-- A text of whole characters. -/
def Whole (text : Bytes) : Prop := ∃ chars, Spells chars text

/-- `Riconv()` writes only complete valid UTF-8 characters. -/
def Riconv.WritesCharacters (ic : Riconv σ) : Prop :=
  ∀ st inbuf room, Whole (ic.run st inbuf room).out

/-- What `processx__utf8_length` says for the first bytes of longer characters. -/
theorem utf8Length_spec (b : UInt8) :
    (0xc0 ≤ b → b < 0xe0 → utf8Length b = 2) ∧ (0xe0 ≤ b → b < 0xf0 → utf8Length b = 3) ∧
      (0xf0 ≤ b → b < 0xf8 → utf8Length b = 4) :=
  forall_byte (P := fun b => (0xc0 ≤ b → b < 0xe0 → utf8Length b = 2) ∧
    (0xe0 ≤ b → b < 0xf0 → utf8Length b = 3) ∧ (0xf0 ≤ b → b < 0xf8 → utf8Length b = 4))
    (by decide +kernel) b

/-- What a first byte says about the bytes behind it, against `processx__utf8_length`. -/
theorem utf8Tails_spec (b : UInt8) : ∀ ranges ∈ utf8Tails b,
    (b < 128 ∧ ranges = []) ∨
      (¬b < 128 ∧ ¬b < 0xc0 ∧ ¬b ≥ 0xfe ∧ ranges.length + 1 = utf8Length b ∧
        utf8Length b ≤ 4 ∧ ∀ range ∈ ranges, 128 ≤ range.1) := by
  intro ranges h
  obtain ⟨htwo, hthree, hfour⟩ := utf8Length_spec b
  have hlong : ∀ n, 0xc0 ≤ b.toNat → b.toNat < 0xfe → utf8Length b = n + 1 → n ≤ 3 →
      ranges.length = n → (∀ range ∈ ranges, 128 ≤ range.1) →
      (¬b < 128 ∧ ¬b < 0xc0 ∧ ¬b ≥ 0xfe ∧ ranges.length + 1 = utf8Length b ∧
        utf8Length b ≤ 4 ∧ ∀ range ∈ ranges, 128 ≤ range.1) := by
    intro n hc0 hfe hlen hn hranges hall
    simp only [UInt8.lt_iff_toNat_lt, UInt8.le_iff_toNat_le, ge_iff_le, UInt8.reduceToNat]
    refine ⟨by omega, by omega, by omega, by omega, by omega, ?_⟩
    simpa only [UInt8.le_iff_toNat_le, UInt8.reduceToNat] using hall
  simp only [UInt8.lt_iff_toNat_lt, UInt8.le_iff_toNat_le, UInt8.reduceToNat] at htwo hthree hfour
  unfold utf8Tails at h
  simp only [UInt8.lt_iff_toNat_lt, UInt8.le_iff_toNat_le, ← UInt8.toNat_inj,
    UInt8.reduceToNat] at h
  split_ifs at h with h80 hc2 he0 hed he1 hf0 hf1 hf4
  · obtain rfl := Option.mem_some_iff.mp h
    exact Or.inl ⟨UInt8.lt_iff_toNat_lt.mpr h80, rfl⟩
  · obtain rfl := Option.mem_some_iff.mp h
    exact Or.inr (hlong 1 (by omega) (by omega) (by omega) (by omega) rfl (by simp))
  · obtain rfl := Option.mem_some_iff.mp h
    exact Or.inr (hlong 2 (by omega) (by omega) (by omega) (by omega) rfl (by simp))
  · obtain rfl := Option.mem_some_iff.mp h
    exact Or.inr (hlong 2 (by omega) (by omega) (by omega) (by omega) rfl (by simp))
  · obtain rfl := Option.mem_some_iff.mp h
    exact Or.inr (hlong 2 (by omega) (by omega) (by omega) (by omega) rfl (by simp))
  · obtain rfl := Option.mem_some_iff.mp h
    exact Or.inr (hlong 3 (by omega) (by omega) (by omega) (by omega) rfl (by simp))
  · obtain rfl := Option.mem_some_iff.mp h
    exact Or.inr (hlong 3 (by omega) (by omega) (by omega) (by omega) rfl (by simp))
  · obtain rfl := Option.mem_some_iff.mp h
    exact Or.inr (hlong 3 (by omega) (by omega) (by omega) (by omega) rfl (by simp))
  · cases h

/-- The bytes that match ranges from 128 on are from 128 on. -/
theorem le_of_matchTails {ranges : List (UInt8 × UInt8)} {inp : Bytes}
    (hranges : ∀ range ∈ ranges, 128 ≤ range.1) (h : matchTails ranges inp = some true) :
    ∀ x ∈ inp.take ranges.length, 128 ≤ x := by
  induction ranges generalizing inp with
  | nil => simp
  | cons range ranges ih =>
    rw [List.forall_mem_cons] at hranges
    cases inp with
    | nil => simp
    | cons b inp =>
      rw [matchTails] at h
      by_cases hrange : range.1 ≤ b ∧ b ≤ range.2
      · rw [if_pos hrange] at h
        rw [List.length_cons, List.take_succ_cons, List.forall_mem_cons]
        exact ⟨UInt8.le_trans hranges.1 hrange.1, ih hranges.2 h⟩
      · rw [if_neg hrange] at h
        cases h

/-- A character is one byte below 128, or as many bytes from 128 on as the table says. -/
theorem IsCharacter.cases {c : Bytes} (h : IsCharacter c) :
    (∃ b, c = [b] ∧ b < 128) ∨
      ∃ b tail, c = b :: tail ∧ ¬b < 128 ∧ ¬b < 0xc0 ∧ ¬b ≥ 0xfe ∧ c.length = utf8Length b ∧
        c.length ≤ 4 ∧ ∀ x ∈ c, 128 ≤ x := by
  unfold IsCharacter at h
  cases c with
  | nil => cases h
  | cons b tail =>
    unfold utf8Head at h
    cases htails : utf8Tails b with
    | none => simp [htails] at h
    | some ranges =>
      rcases hmatch : matchTails ranges tail with _ | _ | _
      · simp [htails, hmatch] at h
      · simp [htails, hmatch] at h
      · simp only [htails, hmatch, Head.char.injEq] at h
        obtain ⟨hlen, htake, _⟩ := h
        rcases utf8Tails_spec b ranges htails with ⟨hlow, rfl⟩ | ⟨hb, hc0, hfe, htable, hfour, hge⟩
        · have hnil : tail = [] := by simpa using hlen
          rw [hnil]
          exact Or.inl ⟨b, rfl, hlow⟩
        · rw [List.length_cons] at hlen
          have hall : tail.take ranges.length = tail := List.take_of_length_le (by omega)
          have htail := le_of_matchTails hge hmatch
          rw [hall] at htail
          refine Or.inr ⟨b, tail, rfl, hb, hc0, hfe, by rw [List.length_cons]; omega,
            by rw [List.length_cons]; omega, ?_⟩
          rw [List.forall_mem_cons]
          exact ⟨UInt8.not_lt.mp hb, htail⟩

/-- A character has at most four bytes, and at least one. -/
theorem IsCharacter.length_bounds {c : Bytes} (h : IsCharacter c) :
    0 < c.length ∧ c.length ≤ 4 := by
  rcases h.cases with ⟨b, rfl, _⟩ | ⟨b, tail, rfl, _, _, _, _, hle, _⟩
  · simp
  · exact ⟨Nat.succ_pos _, hle⟩

/-- A byte below 128 is a character of its own wherever it stands. -/
theorem IsCharacter.eq_singleton {c : Bytes} (h : IsCharacter c) {b : UInt8} (hb : b ∈ c)
    (hlow : b < 128) : c = [b] := by
  rcases h.cases with ⟨b', rfl, _⟩ | ⟨_, _, _, _, _, _, _, _, hge⟩
  · rw [List.mem_singleton.mp hb]
  · exact absurd hlow (UInt8.not_lt.mpr (hge b hb))

/-- An ASCII byte is a character. -/
theorem isCharacter_singleton {b : UInt8} (hlow : b < 128) : IsCharacter [b] := by
  have htails : utf8Tails b = some [] := if_pos hlow
  simp [IsCharacter, utf8Head, htails, matchTails]

/-- No text has more characters than bytes. -/
theorem Spells.length_le {chars : List Bytes} {text : Bytes} (h : Spells chars text) :
    chars.length ≤ text.length := by
  obtain ⟨hchars, rfl⟩ := h
  induction chars with
  | nil => exact Nat.zero_le _
  | cons c chars ih =>
    rw [List.forall_mem_cons] at hchars
    have hpos := hchars.1.length_bounds.1
    have hrest := ih hchars.2
    rw [List.flatten_cons, List.length_append, List.length_cons]
    omega

/-- The empty text is made of whole characters. -/
theorem Whole.nil : Whole [] := ⟨[], List.forall_mem_nil _, rfl⟩

/-- So are two such texts in a row. -/
theorem Whole.append {text more : Bytes} (h : Whole text) (hmore : Whole more) :
    Whole (text ++ more) := by
  obtain ⟨chars, hchars, rfl⟩ := h
  obtain ⟨chars', hchars', rfl⟩ := hmore
  exact ⟨chars ++ chars', List.forall_mem_append.mpr ⟨hchars, hchars'⟩, List.flatten_append⟩

/-- A text of whole characters can be cut at any byte below 128, on both sides. -/
theorem Whole.split {text : Bytes} (h : Whole text) {front behind : Bytes} {b : UInt8}
    (hlow : b < 128) (htext : text = front ++ b :: behind) : Whole front ∧ Whole behind := by
  obtain ⟨chars, hchars, rfl⟩ := h
  induction chars generalizing front with
  | nil => simp at htext
  | cons c chars ih =>
    rw [List.forall_mem_cons] at hchars
    obtain ⟨hc, hrest⟩ := hchars
    rw [List.flatten_cons] at htext
    rcases List.append_eq_append_iff.mp htext with ⟨front', rfl, hbehind⟩ | ⟨tail, hcfront, hrest'⟩
    · -- the byte stands behind the first character
      obtain ⟨hfront, hbehind'⟩ := ih hrest hbehind
      exact ⟨Whole.append ⟨[c], List.forall_mem_singleton.mpr hc, by simp⟩ hfront, hbehind'⟩
    · cases tail with
      | nil =>
        rw [List.append_nil] at hcfront
        rw [List.nil_append] at hrest'
        obtain ⟨_, hbehind'⟩ := @ih [] hrest hrest'.symm
        rw [← hcfront]
        exact ⟨⟨[c], List.forall_mem_singleton.mpr hc, by simp⟩, hbehind'⟩
      | cons x tail =>
        obtain ⟨rfl, hbehind'⟩ := List.cons.inj hrest'
        have hone := hc.eq_singleton (b := b) (by rw [hcfront]; simp) hlow
        rw [hcfront] at hone
        have hlength := congrArg List.length hone
        rw [List.length_append, List.length_cons, List.length_singleton] at hlength
        have hfront : front = [] := List.length_eq_zero_iff.mp (by omega)
        have htail : tail = [] := List.length_eq_zero_iff.mp (by omega)
        subst hfront htail
        rw [hbehind']
        exact ⟨Whole.nil, chars, hrest, rfl⟩

/-- Behind a byte below 128 a text of whole characters goes on with one. -/
theorem Whole.drop_of_getElem? {text : Bytes} (h : Whole text) {i : ℕ} {b : UInt8}
    (hget : text[i]? = some b) (hlow : b < 128) :
    Whole (text.drop (i + 1)) ∧ Whole (text.drop i) := by
  obtain ⟨hlt, heq⟩ := List.getElem?_eq_some_iff.mp hget
  have hdrop : text.drop i = b :: text.drop (i + 1) := by
    rw [← heq]
    exact (List.getElem_cons_drop hlt).symm
  have hsplit : text = text.take i ++ b :: text.drop (i + 1) := by
    rw [← hdrop, List.take_append_drop]
  have hbehind := (h.split hlow hsplit).2
  refine ⟨hbehind, ?_⟩
  rw [hdrop]
  have hfirst : Whole [b] :=
    ⟨[[b]], List.forall_mem_singleton.mpr (isCharacter_singleton hlow), rfl⟩
  exact hfirst.append hbehind

/-- A limit holds for a number, unless it is negative, which means no limit. -/
def Within (limit : ℤ) (n : ℕ) : Prop := limit < 0 ∨ (n : ℤ) ≤ limit

/-- `found` characters and bytes are the longest run of whole characters at the front of a text
that keeps within two limits. -/
def FindsLongest (text : Bytes) (maxchars maxbytes : ℤ) (found : ℕ × ℕ) : Prop :=
  ∃ chars, Spells chars text ∧ found.1 ≤ chars.length ∧
    found.2 = ((chars.take found.1).flatten).length ∧
    Within maxchars found.1 ∧ Within maxbytes found.2 ∧
    ∀ k ≤ chars.length, Within maxchars k → Within maxbytes ((chars.take k).flatten).length →
      k ≤ found.1

/-- A limit that was counted down leaves room for what is left of it. -/
theorem within_countDown_iff {limit : ℤ} (hlimit : limit ≠ 0) {by_ : ℕ}
    (hby : ¬(limit > 0 ∧ (by_ : ℤ) > limit)) (n : ℕ) :
    Within (countDown limit by_) n ↔ Within limit (by_ + n) := by
  unfold Within countDown
  split_ifs <;> omega

/-- The scanner on one character: it stops at a limit, or goes on behind the character. -/
theorem findUtf8CharsFrom_cons {c : Bytes} (h : IsCharacter c) (rest : Bytes) (fuel : ℕ)
    (maxchars maxbytes : ℤ) (chars bytes : ℕ) :
    findUtf8CharsFrom (fuel + 1) (c ++ rest) maxchars maxbytes chars bytes =
      if maxchars = 0 ∨ maxbytes = 0 then .ok (chars, bytes)
      else if maxbytes > 0 ∧ (c.length : ℤ) > maxbytes then .ok (chars, bytes)
      else findUtf8CharsFrom fuel rest (countDown maxchars 1) (countDown maxbytes c.length)
        (chars + 1) (bytes + c.length) := by
  rw [findUtf8CharsFrom.eq_def]
  dsimp only
  by_cases hlimit : maxchars = 0 ∨ maxbytes = 0
  · rw [if_pos hlimit, if_pos hlimit]
  rw [if_neg hlimit, if_neg hlimit]
  rcases h.cases with ⟨b, rfl, hlow⟩ | ⟨b, tail, rfl, hb, hc0, hfe, hlen, _, _⟩
  · have hroom : ¬(maxbytes > 0 ∧ (([b] : Bytes).length : ℤ) > maxbytes) := by
      rw [List.length_singleton]
      omega
    rw [if_neg hroom]
    dsimp only [List.cons_append]
    rw [if_pos hlow]
    rfl
  · have hlead : ¬(b < 0xc0 ∨ b ≥ 0xfe) := not_or.mpr ⟨hc0, hfe⟩
    dsimp only [List.cons_append]
    rw [if_neg hb, if_neg hlead, ← hlen]
    have hshort : ¬(b :: (tail ++ rest)).length < (b :: tail).length := by
      rw [List.length_cons, List.length_cons, List.length_append]
      omega
    rw [if_neg hshort, ← List.cons_append, List.drop_left]

/-- **The scanner.** On a text of whole characters it finds the longest run of them that keeps
within the limits. -/
theorem findUtf8CharsFrom_finds {chars : List Bytes} (hchars : ∀ c ∈ chars, IsCharacter c)
    {fuel : ℕ} (hfuel : chars.length ≤ fuel) (maxchars maxbytes : ℤ) (chars₀ bytes₀ : ℕ) :
    ∃ n ≤ chars.length, findUtf8CharsFrom fuel chars.flatten maxchars maxbytes chars₀ bytes₀ =
        .ok (chars₀ + n, bytes₀ + ((chars.take n).flatten).length) ∧
      Within maxchars n ∧ Within maxbytes ((chars.take n).flatten).length ∧
      ∀ k ≤ chars.length, Within maxchars k → Within maxbytes ((chars.take k).flatten).length →
        k ≤ n := by
  induction chars generalizing fuel maxchars maxbytes chars₀ bytes₀ with
  | nil =>
    refine ⟨0, le_refl _, ?_, ?_, ?_, fun k hk _ _ => hk⟩
    · cases fuel with
      | zero => rfl
      | succ fuel =>
        rw [findUtf8CharsFrom.eq_def]
        dsimp only [List.flatten_nil]
        split_ifs <;> rfl
    · unfold Within
      omega
    · unfold Within
      simp only [List.take_nil, List.flatten_nil, List.length_nil]
      omega
  | cons c chars ih =>
    rw [List.forall_mem_cons] at hchars
    obtain ⟨hc, hrest⟩ := hchars
    obtain ⟨fuel, rfl⟩ : ∃ left, fuel = left + 1 := ⟨fuel - 1, by
      rw [List.length_cons] at hfuel
      omega⟩
    have hfuel' : chars.length ≤ fuel := Nat.le_of_succ_le_succ hfuel
    have hpos := hc.length_bounds.1
    have hflat : ∀ k, (((c :: chars).take (k + 1)).flatten).length =
        c.length + ((chars.take k).flatten).length := by
      intro k
      rw [List.take_succ_cons, List.flatten_cons, List.length_append]
    rw [List.flatten_cons, findUtf8CharsFrom_cons hc]
    by_cases hstop : (maxchars = 0 ∨ maxbytes = 0) ∨
        (maxbytes > 0 ∧ (c.length : ℤ) > maxbytes)
    · -- no character fits any more
      refine ⟨0, Nat.zero_le _, ?_, ?_, ?_, fun k _ hk hbytes => ?_⟩
      · split_ifs with hlimit hroom
        · rfl
        · rfl
        · exact absurd hstop (not_or.mpr ⟨hlimit, hroom⟩)
      · unfold Within
        omega
      · unfold Within
        simp only [List.take_zero, List.flatten_nil, List.length_nil]
        omega
      · cases k with
        | zero => exact le_refl _
        | succ k =>
          rw [hflat] at hbytes
          unfold Within at hk hbytes
          omega
    · obtain ⟨hlimit, hroom⟩ := not_or.mp hstop
      obtain ⟨hmaxchars, hmaxbytes⟩ := not_or.mp hlimit
      have hone : ¬(maxchars > 0 ∧ ((1 : ℕ) : ℤ) > maxchars) := by omega
      rw [if_neg hlimit, if_neg hroom]
      obtain ⟨n, hn, hfind, hcharsn, hbytesn, hmax⟩ := ih hrest hfuel' (countDown maxchars 1)
        (countDown maxbytes c.length) (chars₀ + 1) (bytes₀ + c.length)
      refine ⟨n + 1, by rw [List.length_cons]; omega, ?_, ?_, ?_, fun k hk hkc hkb => ?_⟩
      · rw [hfind, hflat]
        have hsum : chars₀ + 1 + n = chars₀ + (n + 1) := by omega
        have hbytes : bytes₀ + c.length + ((chars.take n).flatten).length =
            bytes₀ + (c.length + ((chars.take n).flatten).length) := by omega
        rw [hsum, hbytes]
      · rw [within_countDown_iff hmaxchars hone, Nat.add_comm] at hcharsn
        exact hcharsn
      · rw [hflat]
        exact (within_countDown_iff hmaxbytes hroom _).mp hbytesn
      · cases k with
        | zero => exact Nat.zero_le _
        | succ k =>
          rw [List.length_cons] at hk
          rw [hflat] at hkb
          have hle := hmax k (by omega)
            ((within_countDown_iff hmaxchars hone k).mpr (by rwa [Nat.add_comm]))
            ((within_countDown_iff hmaxbytes hroom _).mpr hkb)
          omega

/-- On a buffer of whole characters, `processx__connection_find_utf8_chars()` does not throw. -/
theorem connectionFindUtf8Chars_finds {ccon : Connection σ} (h : Whole ccon.utf8)
    (maxchars maxbytes : ℤ) :
    ∃ found, connectionFindUtf8Chars ccon maxchars maxbytes = .ok found ∧
      FindsLongest ccon.utf8 maxchars maxbytes found := by
  obtain ⟨chars, hchars, htext⟩ := h
  have hfuel : chars.length ≤ ccon.utf8.length := Spells.length_le ⟨hchars, htext⟩
  obtain ⟨n, hn, hfind, hcharsn, hbytesn, hmax⟩ :=
    findUtf8CharsFrom_finds hchars hfuel maxchars maxbytes 0 0
  rw [htext, Nat.zero_add, Nat.zero_add] at hfind
  exact ⟨_, hfind, chars, ⟨hchars, htext⟩, hn, rfl, hcharsn, hbytesn, hmax⟩

/-- Behind what was found the text goes on with whole characters. -/
theorem FindsLongest.whole_drop {text : Bytes} {maxchars maxbytes : ℤ} {found : ℕ × ℕ}
    (h : FindsLongest text maxchars maxbytes found) : Whole (text.drop found.2) := by
  obtain ⟨chars, ⟨hchars, rfl⟩, _, hbytes, _⟩ := h
  refine ⟨chars.drop found.1, fun c hc => hchars c (List.mem_of_mem_drop hc), ?_⟩
  have hsplit : chars.flatten = (chars.take found.1).flatten ++ (chars.drop found.1).flatten := by
    rw [← List.flatten_append, List.take_append_drop]
  rw [hsplit, hbytes, List.drop_left]

/-- A scan with room for any character finds one in a text that is not empty. -/
theorem FindsLongest.pos {text : Bytes} {maxchars maxbytes : ℤ} {found : ℕ × ℕ}
    (h : FindsLongest text maxchars maxbytes found) (hne : text ≠ []) (hchars : maxchars ≠ 0)
    (hbytes : maxbytes < 0 ∨ 4 ≤ maxbytes) : 0 < found.1 ∧ 0 < found.2 := by
  obtain ⟨chars, ⟨hall, rfl⟩, hn, hm, _, _, hmax⟩ := h
  cases chars with
  | nil => exact absurd rfl hne
  | cons c chars =>
    have hc := (hall c List.mem_cons_self).length_bounds
    have hone : 1 ≤ found.1 := by
      refine hmax 1 (Nat.succ_pos _) ?_ ?_
      · unfold Within
        omega
      · have htake : (((c :: chars).take 1).flatten).length = c.length := by simp
        rw [htake]
        unfold Within
        omega
    obtain ⟨n, hn'⟩ : ∃ n, found.1 = n + 1 := ⟨found.1 - 1, by omega⟩
    rw [hm, hn', List.take_succ_cons, List.flatten_cons, List.length_append]
    omega

/-- The conversion loop appends whole characters. -/
theorem toUtf8Loop_whole (hic : ic.WritesCharacters) (isEofRaw : Bool) (rounds : ℕ) (st : σ)
    (inbuf : Bytes) (room : ℕ) {acc : Bytes} (h : Whole acc) :
    Whole (toUtf8Loop ic isEofRaw rounds st inbuf room acc).2.1 := by
  induction rounds generalizing st inbuf room acc with
  | zero => exact h
  | succ rounds ih =>
    have hout := h.append (hic st inbuf room)
    rw [toUtf8Loop]
    dsimp only
    cases (ic.run st inbuf room).stop with
    | done => exact hout
    | full => exact hout
    | incomplete =>
      dsimp only
      split_ifs
      · exact hout
      · exact hout
    | invalid =>
      dsimp only
      split_ifs
      · exact ih _ _ _ hout
      · exact hout

/-- So does a conversion. -/
theorem connectionToUtf8_whole (hic : ic.WritesCharacters) {ccon : Connection σ}
    (h : Whole ccon.utf8) : Whole (connectionToUtf8 ic ccon).2.utf8 := by
  unfold connectionToUtf8
  dsimp only
  split_ifs
  · exact h
  · exact h.append (toUtf8Loop_whole hic _ _ _ _ _ Whole.nil)

/-- Converting new bytes appends whole characters only. -/
theorem convertNew_whole (hic : ic.WritesCharacters) {ccon : Connection σ}
    (h : Whole ccon.utf8) : Whole (convertNew ic ccon).2.utf8 := by
  unfold convertNew
  split_ifs
  · exact connectionToUtf8_whole hic h
  · exact h

/-- A read leaves whole characters, also when it throws. -/
theorem connectionRead_whole (hic : ic.WritesCharacters) {ccon : Connection σ} (os : Os)
    (h : Whole ccon.utf8) : Whole (connectionRead ic ccon os).2.1.utf8 := by
  unfold connectionRead
  by_cases hdone : ccon.isEofRaw ∧ ccon.buffer.length = 0
  · rw [if_pos hdone]
    dsimp only
    split_ifs
    · exact h
    · exact h
  · rw [if_neg hdone]
    have halloc : Whole (if ccon.bufferAllocatedSize = 0 then connectionAlloc ccon
        else ccon).utf8 := by
      split_ifs
      · exact Whole.nil
      · exact h
    dsimp only
    generalize (if ccon.bufferAllocatedSize = 0 then connectionAlloc ccon else ccon) = ccon₁
      at halloc ⊢
    by_cases hfull : ccon₁.bufferAllocatedSize - ccon₁.buffer.length = 0
    · rw [if_pos hfull]
      exact connectionToUtf8_whole hic halloc
    · rw [if_neg hfull]
      obtain ⟨bytes | _ | _ | _, os'⟩ :=
        os.read (ccon₁.bufferAllocatedSize - ccon₁.buffer.length)
      · refine convertNew_whole hic ?_
        dsimp only
        split_ifs
        · exact halloc
        · exact halloc
      · exact convertNew_whole hic halloc
      · exact @convertNew_whole _ _ hic (markEofRaw ccon₁) halloc
      · exact halloc

/-- So does reading until there is a line feed. -/
theorem connectionReadUntilNewline_whole (hic : ic.WritesCharacters) {ccon : Connection σ}
    (os : Os) (h : Whole ccon.utf8) : Whole (connectionReadUntilNewline ic ccon os).2.1.utf8 := by
  refine connectionReadUntilNewline_keeps (P := fun ccon _ => Whole ccon.utf8)
    (fun _ _ h _ => connectionRead_whole hic _ h) (fun ccon' os' h => ?_) h
  refine connectionRead_whole hic _ ?_
  split_ifs
  · exact h
  · exact h

/-- The state `processx__connection_find_utf8_chars()` finds, if it is called: one read has
filled the UTF-8 buffer if it was empty. -/
def scannedState (ic : Riconv σ) (ccon : Connection σ) (os : Os) : Connection σ × Os :=
  if (!ccon.isEof) = true ∧ ccon.utf8.length = 0 then (connectionRead ic ccon os).2 else (ccon, os)

/-- The buffer that is scanned for characters holds whole ones. -/
theorem scannedState_whole (hic : ic.WritesCharacters) {ccon : Connection σ} (os : Os)
    (h : Whole ccon.utf8) : Whole (scannedState ic ccon os).1.utf8 := by
  unfold scannedState
  split_ifs
  · exact connectionRead_whole hic os h
  · exact h

/-- The only error of a read. -/
theorem connectionRead_error {ccon : Connection σ} {os : Os} {msg : String}
    (h : (connectionRead ic ccon os).1 = .error msg) :
    msg = "Cannot read from processx connection" := by
  unfold connectionRead at h
  by_cases hdone : ccon.isEofRaw ∧ ccon.buffer.length = 0
  · rw [if_pos hdone] at h
    cases h
  · rw [if_neg hdone] at h
    dsimp only at h
    generalize (if ccon.bufferAllocatedSize = 0 then connectionAlloc ccon else ccon) = ccon₁ at h
    by_cases hfull : ccon₁.bufferAllocatedSize - ccon₁.buffer.length = 0
    · rw [if_pos hfull] at h
      cases h
    · rw [if_neg hfull] at h
      generalize os.read (ccon₁.bufferAllocatedSize - ccon₁.buffer.length) = answer at h
      obtain ⟨bytes | _ | _ | _, os'⟩ := answer
      · cases h
      · cases h
      · cases h
      · exact (Except.error.inj h).symm

/-- Finding characters leaves whole characters, finds whole characters, and does not throw the
internal error. -/
theorem connectionFindChars_whole (hic : ic.WritesCharacters) {ccon : Connection σ} (os : Os)
    (h : Whole ccon.utf8) (maxchars maxbytes : ℤ) :
    Whole (connectionFindChars ic ccon os maxchars maxbytes).2.1.utf8 ∧
      (∀ bytes, (connectionFindChars ic ccon os maxchars maxbytes).1 = .ok bytes →
        Whole ((connectionFindChars ic ccon os maxchars maxbytes).2.1.utf8.drop bytes)) ∧
      (connectionFindChars ic ccon os maxchars maxbytes).1 ≠
        .error "Invalid UTF-8 string, internal error" := by
  have hthrow : (connectionRead ic ccon os).1 =
      .error "Invalid UTF-8 string, internal error" → _ := connectionRead_error
  have hread := connectionRead_whole hic os h
  unfold connectionFindChars
  cases hvalid : checkValidConn ccon with
  | error msg =>
    refine ⟨h, fun bytes hbytes => ?_, fun herror => ?_⟩
    · cases hbytes
    · have hmsg := Except.error.inj herror
      subst hmsg
      unfold checkValidConn at hvalid
      split_ifs at hvalid with hhandle
      exact absurd (Except.error.inj hvalid) (by decide)
  | ok _ =>
    dsimp only
    have hstate : Whole (if (!ccon.isEof) = true ∧ ccon.utf8.length = 0 then
        connectionRead ic ccon os else (.ok 0, ccon, os)).2.1.utf8 := by
      split_ifs
      · exact hread
      · exact h
    have herror : (if (!ccon.isEof) = true ∧ ccon.utf8.length = 0 then
        connectionRead ic ccon os else (.ok 0, ccon, os)).1 ≠
          .error "Invalid UTF-8 string, internal error" := by
      split_ifs
      · exact fun heq => absurd (hthrow heq) (by decide)
      · exact fun heq => by cases heq
    generalize (if (!ccon.isEof) = true ∧ ccon.utf8.length = 0 then connectionRead ic ccon os
      else (.ok 0, ccon, os)) = answer at hstate herror ⊢
    obtain ⟨msg | n, ccon', os'⟩ := answer
    · refine ⟨hstate, fun bytes hbytes => ?_, herror⟩
      cases hbytes
    · dsimp only at hstate ⊢
      by_cases hnone : ccon'.utf8.length = 0 ∨ maxchars = 0
      · rw [if_pos hnone]
        refine ⟨hstate, fun bytes hbytes => ?_, fun heq => by cases heq⟩
        rw [← Except.ok.inj hbytes]
        exact hstate
      · obtain ⟨found, hfound, hlongest⟩ := connectionFindUtf8Chars_finds hstate maxchars maxbytes
        rw [if_neg hnone, hfound]
        refine ⟨hstate, fun bytes hbytes => ?_, fun heq => by cases heq⟩
        have hbytes' : found.2 = bytes := Except.ok.inj hbytes
        rw [← hbytes']
        exact hlongest.whole_drop

/-- `processx_connection_read_chars()` leaves whole characters, and does not throw the internal
error. -/
theorem connectionReadChars_whole (hic : ic.WritesCharacters) {ccon : Connection σ} (os : Os)
    (h : Whole ccon.utf8) (nchars : ℤ) :
    Whole (connectionReadChars ic ccon os nchars).2.1.utf8 ∧
      (connectionReadChars ic ccon os nchars).1 ≠
        .error "Invalid UTF-8 string, internal error" := by
  obtain ⟨hstate, hdrop, herror⟩ := connectionFindChars_whole hic os h nchars (-1)
  unfold connectionReadChars
  generalize connectionFindChars ic ccon os nchars (-1) = answer at hstate hdrop herror ⊢
  obtain ⟨msg | bytes, ccon', os'⟩ := answer
  · refine ⟨hstate, fun heq => herror ?_⟩
    rw [Except.error.inj heq]
  · dsimp only
    cases hmk : mkCharLenCE ccon'.utf8 (toInt bytes) with
    | error msg =>
      refine ⟨hstate, fun heq => ?_⟩
      rw [Except.error.inj heq, mkCharLenCE] at hmk
      split_ifs at hmk
      · exact absurd (Except.error.inj hmk) (by decide)
      · exact absurd (Except.error.inj hmk) (by decide)
    | ok chars => exact ⟨hdrop bytes rfl, fun heq => by cases heq⟩

/-- So does `processx_c_connection_read_chars()`. -/
theorem cConnectionReadChars_whole (hic : ic.WritesCharacters) {ccon : Connection σ} (os : Os)
    (h : Whole ccon.utf8) (nbyte : ℕ) :
    Whole (cConnectionReadChars ic ccon os nbyte).2.1.utf8 ∧
      (cConnectionReadChars ic ccon os nbyte).1 ≠
        .error "Invalid UTF-8 string, internal error" := by
  obtain ⟨hstate, hdrop, herror⟩ := connectionFindChars_whole hic os h (-1) nbyte
  unfold cConnectionReadChars
  by_cases hsmall : nbyte < 4
  · rw [if_pos hsmall]
    exact ⟨h, fun heq => absurd (Except.error.inj heq) (by decide)⟩
  · rw [if_neg hsmall]
    generalize connectionFindChars ic ccon os (-1) nbyte = answer at hstate hdrop herror ⊢
    obtain ⟨msg | bytes, ccon', os'⟩ := answer
    · refine ⟨hstate, fun heq => herror ?_⟩
      rw [Except.error.inj heq]
    · exact ⟨hdrop bytes rfl, fun heq => by cases heq⟩

/-- Lines are taken up to the byte behind a line feed, or all at once. -/
theorem takeText_whole {utf8 : Bytes} (h : Whole utf8) {linesRead taken : ℕ} {eof : Bool}
    {strings : List Bytes} (hle : linesRead ≤ utf8.count lineFeed)
    (htake : takeText utf8 linesRead eof = .ok (strings, taken)) : Whole (utf8.drop taken) := by
  obtain ⟨complete, start, hlines, ⟨-, -, rfl⟩ | ⟨-, rfl, -⟩⟩ := takeText_cases htake
  · obtain ⟨_, _, _, hend, _⟩ := takeLines_behind [] 0 (by simpa using hle) (Or.inl rfl) hlines
    rcases hend with hzero | hlf
    · rw [hzero]
      exact h
    · cases taken with
      | zero => exact h
      | succ start => exact (h.drop_of_getElem? hlf (by decide)).1
  · rw [List.drop_length]
    exact Whole.nil

/-- `processx_connection_read_lines()` leaves whole characters. -/
theorem connectionReadLines_whole (hic : ic.WritesCharacters) {ccon : Connection σ} (os : Os)
    (h : Whole ccon.utf8) (nlines : ℤ) :
    Whole (connectionReadLines ic ccon os nlines).2.1.utf8 := by
  have hstate := connectionReadUntilNewline_whole hic os h
  have hnewline := fun newline => @connectionReadUntilNewline_newline σ ic ccon os newline
  unfold connectionReadLines connectionFindLines
  cases checkValidConn ccon with
  | error msg => exact h
  | ok _ =>
    dsimp only
    generalize connectionReadUntilNewline ic ccon os = answer at hstate hnewline ⊢
    obtain ⟨msg | newline, ccon', os'⟩ := answer
    · exact hstate
    · dsimp only at hstate hnewline ⊢
      rw [countLines_eq_min (hnewline newline rfl)]
      cases htake : takeText ccon'.utf8 (min (countable newline nlines)
          (ccon'.utf8.count lineFeed)) (unterminatedEnd ccon') with
      | error msg => exact hstate
      | ok found => exact takeText_whole hstate (Nat.min_le_right _ _) htake

/-- `processx_c_connection_read_line()` leaves whole characters: it takes a line with its line
feed, a line and a carriage return, or everything. -/
theorem cConnectionReadLine_whole (hic : ic.WritesCharacters) (before : UInt8)
    {ccon : Connection σ} (os : Os) (h : Whole ccon.utf8) (line : LineBuffer) :
    Whole (cConnectionReadLine ic before ccon os line).2.2.1.utf8 := by
  have hstate := connectionReadUntilNewline_whole hic os h
  have hnewline := fun newline => @connectionReadUntilNewline_newline σ ic ccon os newline
  obtain ⟨_ | linep, _ | linecapp⟩ := line
  · exact h
  · exact h
  · exact h
  · dsimp only [cConnectionReadLine]
    by_cases heof : ccon.isEof = true
    · rw [if_pos heof]
      exact h
    · rw [if_neg heof]
      generalize connectionReadUntilNewline ic ccon os = answer at hstate hnewline ⊢
      obtain ⟨msg | newline, ccon', os'⟩ := answer
      · exact hstate
      · dsimp only [serveLine] at hstate hnewline ⊢
        cases hend : unterminatedEnd ccon' with
        | true =>
          simp only [Bool.not_true, Bool.false_eq_true, and_false, if_false]
          split_ifs
          · exact hstate
          · exact Whole.nil
          · exact Whole.nil
        | false =>
          rcases hnewline newline rfl with hnone | hfind
          · simpa only [hnone, Bool.not_false, and_self, if_true] using hstate
          · cases newline with
            | none => simpa only [Bool.not_false, and_self, if_true] using hstate
            | some eol =>
              have hcut := hstate.drop_of_getElem? (getElem?_of_findNewline hfind.symm) (by decide)
              simp only [reduceCtorEq, false_and, if_false, Option.getD_some, Bool.not_false,
                if_true]
              split_ifs with hcrash hcr
              · exact hstate
              · -- the carriage return goes, and the line feed stays
                have hpos : eol - 1 + 1 = eol := by
                  have hne : eol ≠ 0 := fun hzero => hcrash ⟨hzero, hcr⟩
                  omega
                rw [hpos]
                exact hcut.2
              · exact hcut.1

/-- A poll at most converts. -/
theorem prePollConnection_whole (hic : ic.WritesCharacters) {ccon : Connection σ}
    (h : Whole ccon.utf8) : Whole (prePollConnection ic ccon).2.utf8 := by
  have hconv := connectionToUtf8_whole hic h
  unfold prePollConnection
  dsimp only
  split_ifs <;> first | exact h | exact hconv

/-- Every call leaves whole characters. -/
theorem TextOp.whole (hic : ic.WritesCharacters) (op : TextOp) {ccon : Connection σ} (os : Os)
    (h : Whole ccon.utf8) : Whole (op.run ic ccon os).1.utf8 := by
  cases op with
  | readChars nchars => exact (connectionReadChars_whole hic os h nchars).1
  | cReadChars nbyte => exact (cConnectionReadChars_whole hic os h nbyte).1
  | readLines nlines => exact connectionReadLines_whole hic os h nlines
  | readLine before line => exact cConnectionReadLine_whole hic before os h line
  | poll => exact prePollConnection_whole hic h

/-- In every reachable state the UTF-8 buffer holds whole characters. -/
theorem textRun_whole (hic : ic.WritesCharacters) (osHandle : ℤ) (os : Os) (ops : List TextOp) :
    Whole (textRun ic osHandle os ops).1.utf8 :=
  textRun_keeps (P := fun ccon _ => Whole ccon.utf8) (fun op _ os h => op.whole hic os h)
    Whole.nil ops

/-- **The scanner never fails.** In every reachable state, whatever the calls and the operating
system were, `processx__connection_find_utf8_chars()` finds the longest run of whole characters
within its limits, which is not empty if the buffer is not and the limits leave room; and the
functions that call it do not throw its internal error. -/
theorem findUtf8Chars_never_invalid (hic : ic.WritesCharacters) (osHandle : ℤ) (os : Os)
    (ops : List TextOp) :
    (∀ maxchars maxbytes, ∃ found,
      connectionFindUtf8Chars (scannedState ic (textRun ic osHandle os ops).1
        (textRun ic osHandle os ops).2).1 maxchars maxbytes = .ok found ∧
      FindsLongest (scannedState ic (textRun ic osHandle os ops).1
        (textRun ic osHandle os ops).2).1.utf8 maxchars maxbytes found ∧
      ((scannedState ic (textRun ic osHandle os ops).1
          (textRun ic osHandle os ops).2).1.utf8 ≠ [] → maxchars ≠ 0 →
        maxbytes < 0 ∨ 4 ≤ maxbytes → 0 < found.1 ∧ 0 < found.2)) ∧
    (∀ nchars, (connectionReadChars ic (textRun ic osHandle os ops).1
        (textRun ic osHandle os ops).2 nchars).1 ≠
      .error "Invalid UTF-8 string, internal error") ∧
    ∀ nbyte, (cConnectionReadChars ic (textRun ic osHandle os ops).1
        (textRun ic osHandle os ops).2 nbyte).1 ≠
      .error "Invalid UTF-8 string, internal error" := by
  have h := textRun_whole hic osHandle os ops
  generalize textRun ic osHandle os ops = s at h ⊢
  refine ⟨fun maxchars maxbytes => ?_, fun nchars => (connectionReadChars_whole hic s.2 h nchars).2,
    fun nbyte => (cConnectionReadChars_whole hic s.2 h nbyte).2⟩
  obtain ⟨found, hfound, hlongest⟩ :=
    connectionFindUtf8Chars_finds (scannedState_whole hic s.2 h) maxchars maxbytes
  exact ⟨found, hfound, hlongest, hlongest.pos⟩

/-- A decoder that yields whole characters writes whole characters, whatever the room. -/
theorem convertWithin_whole {d : Decoder σ UInt8 UInt8}
    (hd : ∀ st inp len out next, d.head st inp = .char len out next → Whole out) (n room : ℕ)
    (st : σ) (inp : Bytes) : Whole (d.convertWithin n room st inp).out := by
  induction n generalizing room st inp with
  | zero => exact Whole.nil
  | succ n ih =>
    simp only [Decoder.convertWithin]
    by_cases hempty : inp.isEmpty = true
    · rw [if_pos hempty]
      exact Whole.nil
    · rw [if_neg hempty]
      cases hhead : d.head st inp with
      | incomplete => exact Whole.nil
      | invalid => exact Whole.nil
      | char len out next =>
        dsimp only
        split_ifs
        · exact (hd st inp len out next hhead).append (ih _ _ _)
        · exact Whole.nil

/-- So does a `Riconv()` that follows it. -/
theorem Riconv.Follows.writesCharacters {d : Decoder σ UInt8 UInt8} (hic : ic.Follows d)
    (hd : ∀ st inp len out next, d.head st inp = .char len out next → Whole out) :
    ic.WritesCharacters := by
  intro st inbuf room
  rw [hic st inbuf room]
  exact convertWithin_whole hd _ _ _ _

/-- A match needs no more bytes than there are ranges. -/
theorem matchTails_take {ranges : List (UInt8 × UInt8)} {inp : Bytes}
    (h : matchTails ranges inp = some true) :
    matchTails ranges (inp.take ranges.length) = some true := by
  induction ranges generalizing inp with
  | nil => rfl
  | cons range ranges ih =>
    cases inp with
    | nil => cases h
    | cons b inp =>
      rw [List.length_cons, List.take_succ_cons]
      rw [matchTails] at h ⊢
      by_cases hrange : range.1 ≤ b ∧ b ≤ range.2
      · rw [if_pos hrange] at h ⊢
        exact ih h
      · rw [if_neg hrange] at h
        cases h

/-- The decoder of a connection with encoding UTF-8 yields one character at a time. -/
theorem utf8Decoder_character {st : Unit} {inp : Bytes} {len : ℕ} {out : Bytes} {next : Unit}
    (h : utf8Decoder.head st inp = .char len out next) : IsCharacter out := by
  have h' : utf8Head inp = .char len out next := h
  cases inp with
  | nil => cases h'
  | cons b inp =>
    unfold utf8Head at h'
    cases htails : utf8Tails b with
    | none => simp [htails] at h'
    | some ranges =>
      rcases hmatch : matchTails ranges inp with _ | _ | _
      · simp [htails, hmatch] at h'
      · simp [htails, hmatch] at h'
      · simp only [htails, hmatch, Head.char.injEq] at h'
        obtain ⟨_, rfl, _⟩ := h'
        have hlen := length_le_of_matchTails hmatch
        have htake := matchTails_take hmatch
        simp only [IsCharacter, utf8Head, htails, htake, Head.char.injEq, List.length_cons,
          List.length_take, List.take_take, Nat.min_self, and_true]
        omega

/-- The `Riconv()` of the examples writes whole characters. -/
theorem utf8Riconv_writesCharacters : utf8Riconv.WritesCharacters :=
  utf8Riconv_follows.writesCharacters fun _ _ _ out _ h =>
    ⟨[out], List.forall_mem_singleton.mpr (utf8Decoder_character h), by simp⟩

/-- A euro sign that arrives in two parts, behind a line that C code reads. -/
theorem findUtf8Chars_never_invalid_euro :
    let os : Os := ⟨[.data [97, 13, 10, 0xe2], .eagain, .data [0x82, 0xac, 98], .eof], false⟩
    let ops : List TextOp := [.readLine 0 ⟨some none, some 0⟩, .readLines 1, .readChars 1]
    let s := textRun utf8Riconv 3 os ops
    (∃ found, connectionFindUtf8Chars (scannedState utf8Riconv s.1 s.2).1 (-1) 4 = .ok found ∧
        FindsLongest (scannedState utf8Riconv s.1 s.2).1.utf8 (-1) 4 found ∧
        ((scannedState utf8Riconv s.1 s.2).1.utf8 ≠ [] → (-1 : ℤ) ≠ 0 → (4 : ℤ) < 0 ∨ (4 : ℤ) ≤ 4 →
          0 < found.1 ∧ 0 < found.2)) ∧
      (connectionReadChars utf8Riconv s.1 s.2 1).1 ≠
        .error "Invalid UTF-8 string, internal error" ∧
      (scannedState utf8Riconv s.1 s.2).1.utf8 = [0xe2, 0x82, 0xac, 98] := by
  obtain ⟨hfind, hread, _⟩ := findUtf8Chars_never_invalid utf8Riconv_writesCharacters 3
    ⟨[.data [97, 13, 10, 0xe2], .eagain, .data [0x82, 0xac, 98], .eof], false⟩
    [.readLine 0 ⟨some none, some 0⟩, .readLines 1, .readChars 1]
  exact ⟨hfind (-1) 4, hread 1, by decide⟩

end Processx
