import Processx.Win.CommandBuffer

/-!
# What the C runtime reads from the command line on Windows

`processx__make_program_args()` succeeds if each conversion finds room or only counts. So its text
is that of the arguments as the temporary buffer holds them, and quoting loses nothing: what the
new process gets is what was in the temporary buffer. A conversion that only counts leaves the
argument before it there. That is the last conversion, as none succeeds behind it, unless the
function starts without any room.
-/

namespace Processx

variable {toWide : List UInt8 → WString}

/-- What the C runtime makes of the memory from some place on, up to the first `NUL`. -/
def RuntimeFinds (memory : ℕ → WChar) (pos : ℕ) (args : List (List WChar)) : Prop :=
  ∃ text, 0 ∉ text ∧ Writes.Holds memory pos (text ++ [0]) ∧ runtimeArgs (text ++ [0]) = args

/-- If `processx__make_program_args()` succeeds then its command line is taken apart into the
arguments, whatever the buffer held at first. For no argument there is no command line: `dst` is
`NULL` then. -/
def ReadsBack (toWide : List UInt8 → WString) (args : List (List UInt8)) (fresh : WString) : Prop :=
  args ≠ [] → ∀ line, makeProgramArgs toWide false args fresh = some line → line.ok = true →
    ∀ memory, RuntimeFinds (Writes.apply line.writes memory) 0 (args.map fun arg => (toWide arg).val)

/-- What the temporary buffer holds as each of the arguments is quoted, if the second loop comes to
its end. -/
def tempTexts (toWide : List UInt8 → WString) (dstLen : ℕ) :
    ℕ → WString → List (List UInt8) → Option (List WString)
  | _, _, [] => some []
  | pos, temp, arg :: args =>
    match convertArg toWide arg temp (roomAt dstLen pos) with
    | none => none
    | some (_, temp) =>
      (tempTexts toWide dstLen (pos + (quoteCmdArg temp.val).length + 1) temp args).map (temp :: ·)

/-- The characters that an argument takes on the command line. -/
def quotedLength (source : List WChar) : ℕ :=
  if source = [] then 2
  else if source.all fun c => c ≠ wSpace ∧ c ≠ wTab ∧ c ≠ wQuote then source.length
  else (Argv.escape msRules source).length + 2

/-- The characters that some arguments take, with one more behind each of them. -/
def quotedSize (toWide : List UInt8 → WString) (args : List (List UInt8)) : ℕ :=
  (args.map fun arg => quotedLength (toWide arg).val + 1).sum

/-- The room of the first conversion: the worst case, as an `int`. -/
def firstRoom (toWide : List UInt8 → WString) (args : List (List UInt8)) : ℤ :=
  (worstCase toWide args : ℤ).bmod (2 ^ 32)

/-- The function gets no further than measuring, or the first conversion has room, and the last
one, if it has none left, is of the argument that is in the temporary buffer already. -/
def ConversionsHaveRoom (toWide : List UInt8 → WString) (args : List (List UInt8)) : Prop :=
  args = [] ∨ 2 ^ 31 ≤ args.length ∨ (∃ arg ∈ args, 2 ^ 31 ≤ wideSize toWide arg) ∨
    firstRoom toWide args ≠ 0 ∧
      ∀ before previous last, args = before ++ [previous, last] →
        firstRoom toWide args = quotedSize toWide (before ++ [previous]) →
          toWide previous = toWide last

/-- The memory holds one text up to its `NUL`, so the C runtime finds one list. -/
theorem RuntimeFinds.unique {memory : ℕ → WChar} {pos : ℕ} {args args' : List (List WChar)}
    (h : RuntimeFinds memory pos args) (h' : RuntimeFinds memory pos args') : args = args' := by
  obtain ⟨text, hzero, hholds, rfl⟩ := h
  obtain ⟨text', hzero', hholds', rfl⟩ := h'
  rw [hholds.eq_of_terminated hholds' hzero hzero']

/-- The text of a command line ends at its only `NUL`. -/
theorem programArgsText_terminated {args : List WString} (hne : args ≠ []) :
    ∃ text, 0 ∉ text ∧ programArgsText false args = text ++ [0] := by
  have hspace : (0 : WChar) ≠ wSpace := by decide
  induction args with
  | nil => exact absurd rfl hne
  | cons arg args ih =>
    have hpiece : 0 ∉ quoteCmdArg arg.val := zero_notMem_quoteCmdArg arg.property
    by_cases hlast : args = []
    · exact ⟨quoteCmdArg arg.val, hpiece, by rw [hlast]; rfl⟩
    · obtain ⟨text, hzero, htext⟩ := ih hlast
      refine ⟨quoteCmdArg arg.val ++ wSpace :: text, ?_, ?_⟩
      · simp [hpiece, hspace, hzero]
      · rw [programArgsText_cons, if_neg hlast, htext]
        simp [argPiece]

/-- Where the text of some arguments is, the C runtime finds them. -/
theorem runtimeFinds_programArgsText {memory : ℕ → WChar} {pos : ℕ} {args : List WString}
    (hne : args ≠ []) (h : Writes.Holds memory pos (programArgsText false args)) :
    RuntimeFinds memory pos (args.map Subtype.val) := by
  obtain ⟨text, hzero, htext⟩ := programArgsText_terminated hne
  refine ⟨text, hzero, htext ▸ h, ?_⟩
  rw [← htext]
  exact runtimeArgs_programArgsText args

/-- The second loop writes nothing in front of where it starts. -/
theorem copyArgs_behind (dstLen pos : ℕ) (temp : WString) (args : List (List UInt8)) :
    ∃ high, pos ≤ high ∧ Writes.Within pos high (copyArgs toWide false dstLen pos temp args).1 := by
  induction args generalizing pos temp with
  | nil => exact ⟨pos, le_rfl, Writes.within_nil _ _⟩
  | cons arg args ih =>
    cases hconvert : convertArg toWide arg temp (roomAt dstLen pos) with
    | none =>
      rw [copyArgs_of_none args hconvert]
      exact ⟨pos, le_rfl, Writes.within_nil _ _⟩
    | some converted =>
      obtain ⟨argLen, temp'⟩ := converted
      rw [copyArgs_of_some args hconvert]
      obtain ⟨hcopied, hbehind, -⟩ := copyArg_spec false temp' argLen pos
      rw [if_neg Bool.false_ne_true] at hbehind
      obtain ⟨high, hhigh, hrest⟩ := ih ((copyArg false temp' argLen pos).2 + 1) temp'
      refine ⟨high, by omega, ?_⟩
      rw [Writes.within_append, Writes.within_cons]
      exact ⟨hcopied.mono le_rfl (by omega), ⟨by omega, by omega⟩, hrest.mono (by omega) le_rfl⟩

/-- The temporary buffer holds something for each of the arguments. -/
theorem length_tempTexts {dstLen pos : ℕ} {temp : WString} {args : List (List UInt8)}
    {texts : List WString} (h : tempTexts toWide dstLen pos temp args = some texts) :
    texts.length = args.length := by
  induction args generalizing pos temp texts with
  | nil => cases h; rfl
  | cons arg args ih =>
    cases hconvert : convertArg toWide arg temp (roomAt dstLen pos) with
    | none =>
      rw [tempTexts, hconvert] at h
      cases h
    | some converted =>
      rw [tempTexts, hconvert] at h
      obtain ⟨rest, hsome, rfl⟩ := Option.map_eq_some_iff.mp h
      rw [List.length_cons, List.length_cons, ih hsome]

/-- **What the second loop writes.** It comes to its end if all conversions succeed, and then the
text is that of what the temporary buffer held. -/
theorem copyArgs_tempTexts (dstLen pos : ℕ) (temp : WString) (args : List (List UInt8)) :
    (copyArgs toWide false dstLen pos temp args).2 =
        (tempTexts toWide dstLen pos temp args).isSome ∧
      ∀ texts, tempTexts toWide dstLen pos temp args = some texts → ∀ memory,
        Writes.Holds (Writes.apply (copyArgs toWide false dstLen pos temp args).1 memory) pos
          (programArgsText false texts) := by
  induction args generalizing pos temp with
  | nil =>
    refine ⟨rfl, fun texts htexts memory => ?_⟩
    cases htexts
    exact Writes.holds_nil _ _
  | cons arg args ih =>
    cases hconvert : convertArg toWide arg temp (roomAt dstLen pos) with
    | none =>
      rw [copyArgs_of_none args hconvert, tempTexts, hconvert]
      refine ⟨rfl, fun texts htexts => ?_⟩
      cases htexts
    | some converted =>
      obtain ⟨argLen, temp'⟩ := converted
      rw [copyArgs_of_some args hconvert, tempTexts, hconvert]
      obtain ⟨hcopied, hbehind, hholds⟩ := copyArg_spec false temp' argLen pos
      rw [if_neg Bool.false_ne_true] at hbehind
      have hpiece : argPiece false temp'.val = quoteCmdArg temp'.val := rfl
      rw [hpiece] at hbehind hholds
      rw [hbehind]
      dsimp only
      obtain ⟨hok, hrest⟩ := ih (pos + (quoteCmdArg temp'.val).length + 1) temp'
      refine ⟨hok.trans Option.isSome_map.symm, fun texts htexts memory => ?_⟩
      obtain ⟨rest, hsome, rfl⟩ := Option.map_eq_some_iff.mp htexts
      obtain ⟨high, -, hwithin⟩ := @copyArgs_behind toWide dstLen
        (pos + (quoteCmdArg temp'.val).length + 1) temp' args
      have hempty : rest = [] ↔ args = [] := by
        rw [← List.length_eq_zero_iff, ← List.length_eq_zero_iff, length_tempTexts hsome]
      rw [programArgsText_cons, Writes.apply_append, Writes.apply, Writes.holds_append,
        Writes.holds_cons, hpiece]
      refine ⟨?_, ?_, hrest rest hsome _⟩
      · refine Writes.Holds.keeps ?_ hwithin (.inl (by omega))
        intro i c hc
        have hlt := (List.getElem?_eq_some_iff.mp hc).1
        rw [Function.update_of_ne (by omega)]
        exact hholds memory i c hc
      · rw [hwithin.apply_eq (.inl (by omega)), Function.update_self]
        simp [hempty]

/-- The characters of a quoted argument. -/
theorem length_quoteCmdArg (source : List WChar) :
    (quoteCmdArg source).length = quotedLength source := by
  unfold quoteCmdArg quotedLength
  by_cases hempty : source = []
  · simp [hempty]
  rw [if_neg (by simpa using hempty), if_neg hempty]
  have hall : (source.all fun c => c ≠ wSpace ∧ c ≠ wTab ∧ c ≠ wQuote) = true ↔
      ∀ c ∈ source, c ≠ wSpace ∧ c ≠ wTab ∧ c ≠ wQuote := by
    simp only [List.all_eq_true, decide_eq_true_eq]
  by_cases hplain : ∀ c ∈ source, c ≠ wSpace ∧ c ≠ wTab ∧ c ≠ wQuote
  · have hpbrk : wcspbrk source [wSpace, wTab, wQuote] = false := by
      rw [wcspbrk_eq_false]
      intro c hc
      simpa using hplain c hc
    rw [hpbrk, if_pos (hall.mpr hplain)]
    rfl
  · have hpbrk : wcspbrk source [wSpace, wTab, wQuote] = true := by
      by_contra hnone
      rw [Bool.not_eq_true, wcspbrk_eq_false] at hnone
      exact hplain fun c hc => by simpa using hnone c hc
    rw [hpbrk, if_neg fun h => hplain (hall.mp h), if_neg (by decide)]
    by_cases hwrap : wcspbrk source [wQuote, wBackslash] = false
    · have hself : Argv.escape msRules source = source := by
        refine Argv.escape_eq_self msRules fun c hc => ?_
        have hnot := wcspbrk_eq_false.mp hwrap c hc
        simp only [List.mem_cons, List.not_mem_nil, or_false, not_or] at hnot
        exact hnot
      rw [hwrap, hself]
      simp
    · rw [Bool.not_eq_false] at hwrap
      rw [hwrap, if_neg (by decide), quoteLoop_reverse]
      simp

/-- Behind some characters the room is that much smaller, as long as it is an `int`. -/
theorem roomAt_add {dstLen pos count : ℕ} (h : -2 ^ 31 ≤ roomAt dstLen pos - count) :
    roomAt dstLen (pos + count) = roomAt dstLen pos - count := by
  obtain ⟨k, hleft, hlow, hhigh⟩ := roomAt_spec dstLen pos
  obtain ⟨k', hleft', hlow', hhigh'⟩ := roomAt_spec dstLen (pos + count)
  omega

/-- The room of the first conversion does not depend on whether `arg_count * 2` overflows. -/
theorem roomAt_commandLineLen (toWide : List UInt8 → WString) (args : List (List UInt8)) :
    roomAt (commandLineLen (args.map (wideSize toWide)).sum args.length) 0 =
      firstRoom toWide args := by
  unfold roomAt commandLineLen firstRoom worstCase
  simp only [Int.bmod_def]
  split_ifs <;> omega

/-- A conversion with room for its argument fills the temporary buffer. -/
theorem convertArg_room {arg : List UInt8} {temp : WString} {room : ℤ}
    (hint : wideSize toWide arg < 2 ^ 31) (hroom : (wideSize toWide arg : ℤ) ≤ room) :
    convertArg toWide arg temp room = some (wideSize toWide arg, toWide arg) := by
  have hpos : 0 < wideSize toWide arg := Nat.succ_pos _
  have hcount : countWide toWide arg = some (wideSize toWide arg) := if_neg (by omega)
  rw [convertArg, hcount]
  dsimp only
  rw [if_neg (by omega), if_neg (by omega)]

/-- A conversion without any room only counts. -/
theorem convertArg_zero {arg : List UInt8} {temp : WString} (hint : wideSize toWide arg < 2 ^ 31) :
    convertArg toWide arg temp 0 = some (wideSize toWide arg, temp) := by
  rw [convertArg, countWide, if_neg (by omega)]
  rfl

/-- The size of one argument. -/
theorem quotedSize_single (arg : List UInt8) :
    quotedSize toWide ([] ++ [arg]) = quotedLength (toWide arg).val + 1 := rfl

/-- An argument takes at least its own characters and at most twice their number, with two
quotes. -/
theorem quotedLength_bounds (arg : List UInt8) :
    wideSize toWide arg ≤ quotedLength (toWide arg).val + 1 ∧
      quotedLength (toWide arg).val ≤ 2 * wideSize toWide arg := by
  have hpiece := length_argPiece false (toWide arg).val
  have hlength : (argPiece false (toWide arg).val).length = quotedLength (toWide arg).val :=
    length_quoteCmdArg _
  unfold wideSize
  omega

/-- The room behind an argument that was converted. -/
theorem roomAt_converted {dstLen pos : ℕ} {arg : List UInt8}
    (hroom : (wideSize toWide arg : ℤ) ≤ roomAt dstLen pos) :
    roomAt dstLen (pos + (quoteCmdArg (toWide arg).val).length + 1) =
      roomAt dstLen pos - (quotedLength (toWide arg).val + 1 : ℕ) := by
  have hbounds := @quotedLength_bounds toWide arg
  obtain ⟨k, -, -, hhigh⟩ := roomAt_spec dstLen pos
  rw [length_quoteCmdArg, Nat.add_assoc]
  exact roomAt_add (by omega)

/-- A loop that goes on has converted its next argument. -/
theorem tempTexts_cons {dstLen pos : ℕ} {temp : WString} {arg : List UInt8}
    {args : List (List UInt8)} {texts : List WString}
    (h : tempTexts toWide dstLen pos temp (arg :: args) = some texts) :
    ∃ temp' rest, texts = temp' :: rest ∧
      tempTexts toWide dstLen (pos + (quoteCmdArg temp'.val).length + 1) temp' args = some rest ∧
      (roomAt dstLen pos = 0 ∧ temp' = temp ∨
        (wideSize toWide arg : ℤ) ≤ roomAt dstLen pos ∧ temp' = toWide arg) := by
  rw [tempTexts] at h
  cases hconvert : convertArg toWide arg temp (roomAt dstLen pos) with
  | none =>
    rw [hconvert] at h
    cases h
  | some converted =>
    obtain ⟨argLen, temp'⟩ := converted
    rw [hconvert] at h
    obtain ⟨rest, hrest, rfl⟩ := Option.map_eq_some_iff.mp h
    exact ⟨temp', rest, rfl, hrest, (convertArg_some hconvert).2.2⟩

/-- A loop that starts without any room comes to its end only if a single argument is left, and
what was in the temporary buffer is written for it. -/
theorem tempTexts_zero {dstLen pos : ℕ} {temp : WString} {args : List (List UInt8)}
    {texts : List WString} (hzero : roomAt dstLen pos = 0)
    (hshort : (quoteCmdArg temp.val).length + 1 < 2 ^ 31)
    (h : tempTexts toWide dstLen pos temp args = some texts) :
    args = [] ∧ texts = [] ∨ ∃ last, args = [last] ∧ texts = [temp] := by
  cases args with
  | nil =>
    cases h
    exact .inl ⟨rfl, rfl⟩
  | cons last args =>
    have hlast : 0 < wideSize toWide last := Nat.succ_pos _
    obtain ⟨temp', rest, rfl, hrest, ⟨-, rfl⟩ | ⟨hroom, -⟩⟩ := tempTexts_cons h
    swap
    · omega
    -- behind the text that is written once more the room is negative
    have hnegative : roomAt dstLen (pos + (quoteCmdArg temp'.val).length + 1) < 0 := by
      rw [Nat.add_assoc, roomAt_add (by omega)]
      omega
    cases args with
    | nil =>
      cases hrest
      exact .inr ⟨last, rfl, rfl⟩
    | cons third args =>
      obtain ⟨-, -, -, -, ⟨hnone, -⟩ | ⟨hsome, -⟩⟩ := tempTexts_cons hrest <;> omega

/-- **The conversions of a loop that starts with some room.** If it comes to its end then each of
them has filled the temporary buffer, or the last one has counted and found there the argument
before it. -/
theorem tempTexts_cases {dstLen pos : ℕ} {temp : WString} {args : List (List UInt8)}
    {texts : List WString} (hroom : roomAt dstLen pos ≠ 0)
    (h : tempTexts toWide dstLen pos temp args = some texts) :
    texts = args.map toWide ∨ ∃ before previous last, args = before ++ [previous, last] ∧
      roomAt dstLen pos = quotedSize toWide (before ++ [previous]) ∧
      texts = (before ++ [previous, previous]).map toWide := by
  induction args generalizing pos temp texts with
  | nil =>
    cases h
    exact .inl rfl
  | cons arg args ih =>
    obtain ⟨temp', rest, rfl, hrest, ⟨hzero, -⟩ | ⟨hfits, rfl⟩⟩ := tempTexts_cons h
    · exact absurd hzero hroom
    have hnext := roomAt_converted hfits
    by_cases hzero : roomAt dstLen (pos + (quoteCmdArg (toWide arg).val).length + 1) = 0
    · -- the argument has taken all the room that there was
      obtain ⟨-, -, -, hhigh⟩ := roomAt_spec dstLen pos
      have hshort : (quoteCmdArg (toWide arg).val).length + 1 < 2 ^ 31 := by
        rw [length_quoteCmdArg]
        omega
      obtain ⟨rfl, rfl⟩ | ⟨last, rfl, rfl⟩ := tempTexts_zero hzero hshort hrest
      · exact .inl rfl
      · refine .inr ⟨[], arg, last, rfl, ?_, rfl⟩
        have hsingle := @quotedSize_single toWide arg
        omega
    · obtain rfl | ⟨before, previous, last, rfl, hsize, rfl⟩ := ih hzero hrest
      · exact .inl rfl
      · refine .inr ⟨arg :: before, previous, last, rfl, ?_, rfl⟩
        have hcons : quotedSize toWide (arg :: before ++ [previous]) =
            quotedLength (toWide arg).val + 1 + quotedSize toWide (before ++ [previous]) := rfl
        omega

/-- Where the arguments in front of the last one take all the room, the argument before it is
written once more in its place. -/
theorem tempTexts_again {dstLen pos : ℕ} {temp : WString} {before : List (List UInt8)}
    {previous last : List UInt8}
    (hint : ∀ arg ∈ before ++ [previous, last], wideSize toWide arg < 2 ^ 31)
    (hroom : roomAt dstLen pos = quotedSize toWide (before ++ [previous])) :
    tempTexts toWide dstLen pos temp (before ++ [previous, last]) =
      some ((before ++ [previous, previous]).map toWide) := by
  induction before generalizing pos temp with
  | nil =>
    have hsingle := @quotedSize_single toWide previous
    have hbounds := (@quotedLength_bounds toWide previous).1
    have hfits : (wideSize toWide previous : ℤ) ≤ roomAt dstLen pos := by omega
    have hzero : roomAt dstLen (pos + (quoteCmdArg (toWide previous).val).length + 1) = 0 := by
      rw [roomAt_converted hfits]
      omega
    rw [List.nil_append, tempTexts, convertArg_room (hint previous (by simp)) hfits]
    dsimp only
    rw [tempTexts, hzero, convertArg_zero (hint last (by simp))]
    rfl
  | cons arg before ih =>
    have hcons : quotedSize toWide (arg :: before ++ [previous]) =
        quotedLength (toWide arg).val + 1 + quotedSize toWide (before ++ [previous]) := rfl
    have hbounds := (@quotedLength_bounds toWide arg).1
    have hfits : (wideSize toWide arg : ℤ) ≤ roomAt dstLen pos := by omega
    have hnext : roomAt dstLen (pos + (quoteCmdArg (toWide arg).val).length + 1) =
        quotedSize toWide (before ++ [previous]) := by
      rw [roomAt_converted hfits]
      omega
    rw [List.cons_append, tempTexts, convertArg_room (hint arg (by simp)) hfits]
    dsimp only
    rw [ih (fun arg harg => hint arg (List.mem_cons_of_mem _ harg)) hnext]
    rfl

/-- Without any room at the start, a text of letters in the memory of the temporary buffer is
written for each of the arguments, if its length is chosen for that. -/
theorem tempTexts_letters {n dstLen pos : ℕ} (hn : n + 1 = 2 ^ 32)
    (hzero : roomAt dstLen pos = 0) {args : List (List UInt8)}
    (hint : ∀ arg ∈ args, wideSize toWide arg < 2 ^ 31) :
    tempTexts toWide dstLen pos (letters n) args = some (args.map fun _ => letters n) := by
  induction args generalizing pos with
  | nil => rfl
  | cons arg args ih =>
    obtain ⟨hfirst, hrest⟩ := List.forall_mem_cons.mp hint
    have hlength : (quoteCmdArg (letters n).val).length = n := by
      have hplain : ∀ c ∈ (letters n).val, c ≠ wSpace ∧ c ≠ wTab ∧ c ≠ wQuote := by
        intro c hc
        rw [List.eq_of_mem_replicate hc]
        decide
      have hne : (letters n).val ≠ [] := by
        rw [← List.length_pos_iff]
        exact (List.length_replicate (n := n) (a := (97 : WChar))).symm ▸ (by omega)
      rw [length_quoteCmdArg, quotedLength, if_neg hne, if_pos (by simpa using hplain)]
      exact List.length_replicate
    have hnext : roomAt dstLen (pos + (quoteCmdArg (letters n).val).length + 1) = 0 := by
      obtain ⟨k, hleft, hlow, hhigh⟩ := roomAt_spec dstLen pos
      obtain ⟨k', hleft', hlow', hhigh'⟩ := roomAt_spec dstLen (pos + n + 1)
      rw [hlength]
      omega
    rw [tempTexts, hzero, convertArg_zero hfirst]
    dsimp only
    rw [ih hnext hrest]
    rfl

/-- What is read back is what the temporary buffer held. -/
theorem readsBack_iff_tempTexts {args : List (List UInt8)} (hne : args ≠ [])
    (hlength : args.length < 2 ^ 31) (hint : ∀ arg ∈ args, wideSize toWide arg < 2 ^ 31)
    (fresh : WString) :
    ReadsBack toWide args fresh ↔ ∀ texts,
      tempTexts toWide (commandLineLen (args.map (wideSize toWide)).sum args.length) 0 fresh args =
        some texts → texts = args.map toWide := by
  obtain ⟨line, hline, hdstLen, hwrites, hok, -⟩ :=
    @makeProgramArgs_some toWide false _ hlength hint fresh
  rw [← hdstLen]
  obtain ⟨hends, hholds⟩ := @copyArgs_tempTexts toWide line.dstLen 0 fresh args
  have hfinds : ∀ texts, tempTexts toWide line.dstLen 0 fresh args = some texts → ∀ memory,
      RuntimeFinds (Writes.apply line.writes memory) 0 (texts.map Subtype.val) := by
    intro texts htexts memory
    have htextsne : texts ≠ [] := by
      rw [← List.length_pos_iff, length_tempTexts htexts]
      exact List.length_pos_iff.mpr hne
    rw [hwrites]
    exact runtimeFinds_programArgsText htextsne (hholds texts htexts memory)
  constructor
  · intro h texts htexts
    have hline_ok : line.ok = true := by rw [hok, hends, htexts]; rfl
    have hread := h hne line hline hline_ok fun _ => 0
    have hsame := (hfinds texts htexts fun _ => 0).unique hread
    refine List.map_injective_iff.mpr Subtype.val_injective ?_
    rw [hsame, List.map_map]
    rfl
  · intro h _ line' hline' hline_ok memory
    obtain rfl : line = line' := Option.some.inj (hline ▸ hline')
    rw [hok, hends] at hline_ok
    obtain ⟨texts, htexts⟩ := Option.isSome_iff_exists.mp hline_ok
    have hread := hfinds texts htexts memory
    rw [h texts htexts, List.map_map] at hread
    exact hread

/-- **The command line is read back.** Whatever the memory of the temporary buffer holds at first,
the C runtime finds the arguments in the command line that the function builds, exactly if the
conversions have room. -/
theorem readsBack_iff (toWide : List UInt8 → WString) (args : List (List UInt8)) :
    (∀ fresh, ReadsBack toWide args fresh) ↔ ConversionsHaveRoom toWide args := by
  unfold ConversionsHaveRoom
  by_cases hne : args = []
  · exact iff_of_true (fun fresh hnonempty => absurd hne hnonempty) (.inl hne)
  by_cases hlength : 2 ^ 31 ≤ args.length
  · refine iff_of_true (fun fresh _ line hline => ?_) (.inr (.inl hlength))
    rw [makeProgramArgs, if_pos hlength] at hline
    cases hline
  by_cases hlong : ∃ arg ∈ args, 2 ^ 31 ≤ wideSize toWide arg
  · refine iff_of_true (fun fresh _ line hline => ?_) (.inr (.inr (.inl hlong)))
    rw [makeProgramArgs, if_neg hlength, countArgs_none hlong] at hline
    cases hline
  rw [Nat.not_le] at hlength
  have hint : ∀ arg ∈ args, wideSize toWide arg < 2 ^ 31 := by
    simpa using hlong
  rw [or_iff_right hne, or_iff_right (Nat.not_le_of_lt hlength), or_iff_right hlong,
    ← roomAt_commandLineLen]
  simp only [readsBack_iff_tempTexts hne hlength hint]
  generalize commandLineLen (args.map (wideSize toWide)).sum args.length = dstLen
  constructor
  · refine fun h => ⟨fun hzero => ?_, fun before previous last hargs hroom => ?_⟩
    · -- the letters are longer than any argument
      obtain ⟨n, hn⟩ : ∃ n, n + 1 = 2 ^ 32 := ⟨2 ^ 32 - 1, by omega⟩
      have hsame := h (letters n) _ (tempTexts_letters hn hzero hint)
      obtain ⟨arg, rest, rfl⟩ := List.exists_cons_of_ne_nil hne
      have hfirst := congrArg (fun text => text.val.length) (List.cons.inj hsame).1
      have hshort := hint arg List.mem_cons_self
      have hletters : (letters n).val.length = n := List.length_replicate
      unfold wideSize at hshort
      dsimp only at hfirst
      omega
    · subst hargs
      have hsame := h (letters 0) _ (tempTexts_again hint hroom)
      simpa using hsame
  · rintro ⟨hroom, hlast⟩ fresh texts htexts
    obtain rfl | ⟨before, previous, last, rfl, hsize, rfl⟩ := tempTexts_cases hroom htexts
    · rfl
    · simp [hlast before previous last rfl hsize]

/-- Two different arguments at the end, without any room for the last one: the other one is there
twice. -/
theorem not_readsBack {before : List (List UInt8)} {previous last : List UInt8}
    (hlength : (before ++ [previous, last]).length < 2 ^ 31)
    (hint : ∀ arg ∈ before ++ [previous, last], wideSize toWide arg < 2 ^ 31)
    (hroom : firstRoom toWide (before ++ [previous, last]) =
      quotedSize toWide (before ++ [previous]))
    (hdiff : toWide previous ≠ toWide last) (fresh : WString) :
    ¬ReadsBack toWide (before ++ [previous, last]) fresh := by
  rw [readsBack_iff_tempTexts (by simp) hlength hint]
  intro h
  have hsame := h _ (tempTexts_again hint ((roomAt_commandLineLen toWide _).trans hroom))
  exact hdiff (by simpa using hsame)

/-- The argument `a` and `2 ^ 31 - 4` letters behind it: the command line is `a a`. -/
theorem readsBack_long :
    ¬ReadsBack asciiWide [[97], List.replicate (2 ^ 31 - 4) 97] (letters 0) := by
  have hgeneral (n : ℕ) (hn : n + 4 = 2 ^ 31) :
      ¬ReadsBack asciiWide ([] ++ [[97], List.replicate n 97]) (letters 0) := by
    have hsize := wideSize_replicate n
    have hone : wideSize asciiWide [97] = 2 := rfl
    have hworst : worstCase asciiWide ([] ++ [[97], List.replicate n 97]) = 2 ^ 32 + 2 := by
      simp only [worstCase, List.nil_append, List.map_cons, List.map_nil, List.sum_cons,
        List.sum_nil, hsize, hone, List.length_cons, List.length_nil]
      omega
    have hroom : firstRoom asciiWide ([] ++ [[97], List.replicate n 97]) =
        quotedSize asciiWide ([] ++ [[97]]) := by
      have hsingle : quotedSize asciiWide ([] ++ [[97]]) = 2 := by
        have hplain : quotedLength (asciiWide [97]).val = 1 := by
          have hword : (asciiWide [97]).val = [97] := rfl
          simp [hword, quotedLength, wSpace, wTab, wQuote]
        rw [quotedSize_single, hplain]
      have hbmod : ((2 ^ 32 + 2 : ℕ) : ℤ).bmod (2 ^ 32) = 2 := by simp [Int.bmod]
      calc firstRoom asciiWide ([] ++ [[97], List.replicate n 97])
          = ((2 ^ 32 + 2 : ℕ) : ℤ).bmod (2 ^ 32) :=
            congrArg (fun size : ℕ => (size : ℤ).bmod (2 ^ 32)) hworst
        _ = quotedSize asciiWide ([] ++ [[97]]) := hbmod.trans (congrArg Nat.cast hsingle).symm
    refine not_readsBack ?_ ?_ hroom ?_ _
    · rw [List.nil_append, List.length_cons, List.length_singleton]
      omega
    · simp only [List.nil_append, List.forall_mem_cons, hsize, hone]
      exact ⟨by omega, by omega, List.forall_mem_nil _⟩
    · intro hsame
      have hlength : wideSize asciiWide [97] = wideSize asciiWide (List.replicate n 97) :=
        congrArg (fun text => text.val.length + 1) hsame
      omega
  exact hgeneral _ (by decide)

end Processx
