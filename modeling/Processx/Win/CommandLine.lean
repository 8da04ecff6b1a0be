import Processx.Library.Argv

/-!
# The command line of a new process on Windows

A Windows process gets a single string, and its C runtime takes it apart again.
`processx__make_program_args()` quotes the arguments for that. The escaped text of an argument
is written backwards, as the end of a run of backslashes decides whether it is doubled.
-/

namespace Processx

/-- `WCHAR` -/
abbrev WChar := UInt16

/-- A wide string without its terminating `NUL`, which is the only one. -/
abbrev WString := { source : List WChar // 0 ∉ source }

/-- `L' '` -/
def wSpace : WChar := 32

/-- `L'\t'` -/
def wTab : WChar := 9

/-- `L'"'` -/
def wQuote : WChar := 34

/-- `L'\\'` -/
def wBackslash : WChar := 92

/-- `NULL != wcspbrk(source, accept)` -/
def wcspbrk (source accept : List WChar) : Bool := source.any (· ∈ accept)

/-- The loop of `processx__quote_cmd_arg()` over the source, whose last character comes first
here: what it writes from `start` on. -/
def quoteLoop : List WChar → Bool → List WChar
  | [], _ => []
  | c :: rest, quoteHit =>
    if quoteHit ∧ c = wBackslash then c :: wBackslash :: quoteLoop rest quoteHit
    else if c = wQuote then c :: wBackslash :: quoteLoop rest true
    else c :: quoteLoop rest false

/-- `processx__quote_cmd_arg()`: what it writes to the target. -/
def quoteCmdArg (source : List WChar) : List WChar :=
  if source.length = 0 then
    -- need double quotation for empty argument
    [wQuote, wQuote]
  else if !wcspbrk source [wSpace, wTab, wQuote] then
    -- no quotation needed
    source
  else if !wcspbrk source [wQuote, wBackslash] then
    -- no embedded double quotes or backslashes
    wQuote :: source ++ [wQuote]
  else wQuote :: (quoteLoop source.reverse true).reverse ++ [wQuote]

/-- The text of a command line, for what the temporary buffer of `processx__make_program_args()`
holds at each of the arguments: a blank or the terminating `NUL` is behind each of them. -/
def programArgsText (verbatimArguments : Bool) : List WString → List WChar
  | [] => []
  | [arg] => (if verbatimArguments then arg.val else quoteCmdArg arg.val) ++ [0]
  | arg :: args =>
    (if verbatimArguments then arg.val else quoteCmdArg arg.val) ++
      wSpace :: programArgsText verbatimArguments args

/-- The characters with a meaning for the C runtime. -/
def msRules : Argv.Rules WChar where
  quote := wQuote
  backslash := wBackslash
  isBlank c := c = wSpace ∨ c = wTab
  quote_ne_backslash := by decide
  not_blank_quote := by decide
  not_blank_backslash := by decide

/-- The arguments that a process gets from the command line, which ends at a `NUL`. -/
def runtimeArgs (commandLine : List WChar) : List (List WChar) :=
  Argv.split msRules (commandLine.takeWhile (· ≠ 0))

/-- The flag of the loop behind some text. -/
def quoteHitAfter : List WChar → Bool → Bool
  | [], quoteHit => quoteHit
  | c :: rest, quoteHit =>
    quoteHitAfter rest (if quoteHit ∧ c = wBackslash then quoteHit else decide (c = wQuote))

/-- What the loop writes for one character. -/
def quoteOne (c : WChar) (quoteHit : Bool) : List WChar :=
  if quoteHit ∧ c = wBackslash then [c, wBackslash]
  else if c = wQuote then [c, wBackslash]
  else [c]

/-- One more character at the end of the text, which the loop reaches first. -/
theorem quoteLoop_append (text : List WChar) (c : WChar) (quoteHit : Bool) :
    quoteLoop (text ++ [c]) quoteHit =
      quoteLoop text quoteHit ++ quoteOne c (quoteHitAfter text quoteHit) := by
  induction text generalizing quoteHit with
  | nil =>
    show quoteLoop [c] quoteHit = quoteOne c quoteHit
    by_cases hslash : quoteHit ∧ c = wBackslash
    · simp [quoteLoop, quoteOne, hslash]
    · by_cases hquote : c = wQuote
      · simp [quoteLoop, quoteOne, hquote]
      · simp [quoteLoop, quoteOne, hslash, hquote]
  | cons d text ih =>
    simp only [List.cons_append, quoteLoop, quoteHitAfter, ih]
    split_ifs with hslash hquote
    · rfl
    · simp [hquote]
    · simp [hquote]

/-- The flag behind a text with one more character at its end. -/
theorem quoteHitAfter_append (text : List WChar) (c : WChar) (quoteHit : Bool) :
    quoteHitAfter (text ++ [c]) quoteHit =
      if quoteHitAfter text quoteHit ∧ c = wBackslash then quoteHitAfter text quoteHit
      else decide (c = wQuote) := by
  induction text generalizing quoteHit with
  | nil => rfl
  | cons d text ih =>
    rw [List.cons_append, quoteHitAfter, ih]
    rfl

/-- The flag says whether the backslashes at hand come before a quote or before the end. -/
theorem quoteHitAfter_reverse (text : List WChar) :
    quoteHitAfter text.reverse true = Argv.slashesHit msRules text := by
  induction text with
  | nil => rfl
  | cons c text ih =>
    rw [List.reverse_cons, quoteHitAfter_append, ih, Argv.slashesHit]
    show _ = if c = wBackslash then _ else decide (c = wQuote)
    by_cases hslash : c = wBackslash
    · subst hslash
      have hne : wBackslash ≠ wQuote := by decide
      cases Argv.slashesHit msRules text <;> simp [hne]
    · simp [hslash]

/-- Written backwards and reversed, the text is escaped. -/
theorem quoteLoop_reverse (text : List WChar) :
    (quoteLoop text.reverse true).reverse = Argv.escape msRules text := by
  induction text with
  | nil => rfl
  | cons c text ih =>
    have hne : wBackslash ≠ wQuote := by decide
    rw [List.reverse_cons, quoteLoop_append, List.reverse_append, ih, quoteHitAfter_reverse,
      Argv.escape]
    show (quoteOne c (Argv.slashesHit msRules text)).reverse ++ _ =
      if c = wBackslash then (if Argv.slashesHit msRules text then wBackslash :: wBackslash :: _
        else wBackslash :: _) else if c = wQuote then wBackslash :: wQuote :: _ else c :: _
    by_cases hslash : c = wBackslash
    · subst hslash
      cases Argv.slashesHit msRules text <;> simp [quoteOne, hne]
    · by_cases hquote : c = wQuote
      · subst hquote
        simp [quoteOne, hne.symm]
      · simp [quoteOne, hslash, hquote]

/-- `wcspbrk()` finds nothing exactly if the two texts share no character. -/
theorem wcspbrk_eq_false {source accept : List WChar} :
    wcspbrk source accept = false ↔ ∀ c ∈ source, c ∉ accept := by
  simp [wcspbrk]

/-- A quoted argument is read as that argument. -/
theorem reads_quoteCmdArg (source : List WChar) :
    Argv.Reads msRules (quoteCmdArg source) source := by
  unfold quoteCmdArg
  split_ifs with hempty hplain hwrap
  · rw [List.length_eq_zero_iff.mp hempty]
    exact Argv.reads_escape msRules []
  · rw [Bool.not_eq_true', wcspbrk_eq_false] at hplain
    refine Argv.reads_plain msRules (fun hnil => hempty (by rw [hnil]; rfl)) fun c hc => ?_
    have hnot := hplain c hc
    simp only [List.mem_cons, List.not_mem_nil, or_false, not_or] at hnot
    exact ⟨hnot.2.2, by simp [msRules, hnot.1, hnot.2.1]⟩
  · rw [Bool.not_eq_true', wcspbrk_eq_false] at hwrap
    have hself : Argv.escape msRules source = source := by
      refine Argv.escape_eq_self msRules fun c hc => ?_
      have hnot := hwrap c hc
      simp only [List.mem_cons, List.not_mem_nil, or_false, not_or] at hnot
      exact hnot
    have hreads := Argv.reads_escape msRules source
    rwa [hself] at hreads
  · rw [quoteLoop_reverse]
    exact Argv.reads_escape msRules source

/-- Quoting writes no `NUL`. -/
theorem zero_notMem_quoteCmdArg {source : List WChar} (h : 0 ∉ source) :
    0 ∉ quoteCmdArg source := by
  have hquote : (0 : WChar) ≠ wQuote := by decide
  have hslash : (0 : WChar) ≠ wBackslash := by decide
  have hloop : ∀ (text : List WChar) (quoteHit : Bool), 0 ∉ text → 0 ∉ quoteLoop text quoteHit := by
    intro text
    induction text with
    | nil => simp [quoteLoop]
    | cons c text ih =>
      intro quoteHit hnot
      obtain ⟨hc, htext⟩ := List.ne_and_not_mem_of_not_mem_cons hnot
      rw [quoteLoop]
      split_ifs
      · simp [hc, hslash, ih _ htext]
      · simp [hc, hslash, ih _ htext]
      · simp [hc, ih _ htext]
  unfold quoteCmdArg
  split_ifs
  · simp [hquote]
  · exact h
  · simp [hquote, h]
  · simpa [hquote] using hloop source.reverse true (by simpa using h)

/-- The command line up to its `NUL`: the quoted arguments with blanks between them. -/
theorem takeWhile_programArgsText (args : List WString) :
    (programArgsText false args).takeWhile (· ≠ 0) =
      [wSpace].intercalate (args.map fun arg => quoteCmdArg arg.val) := by
  have hpiece : ∀ (arg : WString) (rest : List WChar),
      (quoteCmdArg arg.val ++ rest).takeWhile (· ≠ 0) =
        quoteCmdArg arg.val ++ rest.takeWhile (· ≠ 0) := by
    intro arg rest
    refine List.takeWhile_append_of_pos fun c hc => ?_
    have hne : c ≠ 0 := by
      rintro rfl
      exact zero_notMem_quoteCmdArg arg.property hc
    simpa using hne
  induction args with
  | nil => rfl
  | cons arg args ih =>
    cases args with
    | nil =>
      rw [programArgsText, if_neg (by decide), hpiece]
      simp
    | cons arg' args =>
      have hspace : wSpace ≠ 0 := by decide
      rw [programArgsText, if_neg (by decide), hpiece,
        List.takeWhile_cons_of_pos (by simpa using hspace), ih]
      · simp [List.intercalate]
      · simp

/-- Whatever the arguments are, the C runtime finds them in the command line. -/
theorem runtimeArgs_programArgsText (args : List WString) :
    runtimeArgs (programArgsText false args) = args.map Subtype.val := by
  rw [runtimeArgs, takeWhile_programArgsText]
  refine Argv.split_intercalate msRules ?_ (by decide)
  rw [List.forall₂_map_left_iff, List.forall₂_map_right_iff]
  exact List.forall₂_same.mpr fun arg _ => reads_quoteCmdArg arg.val

end Processx
