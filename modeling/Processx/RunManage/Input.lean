import Processx.RunManage

/-!
# Feeding the input of a pty

A file for the standard input of a pty is written by the main loop of `run_manage()`, a part in
each round, because the pty takes what fits and the output has to be drained in between. What it
did not take is kept for the next round. The end-of-file bytes are written in the same way, but
only once: what the pty did not take of them is dropped.
-/

namespace Processx

/-- What a write meets: some bytes are taken, the pty is full, or there is an error. -/
inductive WriteAnswer
  | wrote (bytes : ℕ)
  | again
  | failed
  deriving DecidableEq

/-- What `processx_c_connection_write_bytes()` makes of an answer, `none` for an error.
`WriteFile()` has no `EAGAIN`. -/
def WriteAnswer.written (windows : Bool) : WriteAnswer → Option ℕ
  | .wrote bytes => some bytes
  | .again => if windows then none else some 0
  | .failed => none

/-- `processx_c_connection_write_bytes()`, for a connection that is not a socket: the number of
bytes written, and all the bytes the pty has accepted. -/
def cConnectionWriteBytes (windows : Bool) (handle : ℤ) (answer : WriteAnswer)
    (buffer accepted : Bytes) : Except String (ℕ × Bytes) :=
  if handle < 0 then .error "Invalid (uninitialized or closed?) connection object"
  else
    match answer.written windows with
    | none => .error "Cannot write connection"
    | some bytes => .ok (min bytes buffer.length, accepted ++ buffer.take bytes)

/-- `processx_connection_write_bytes()`: the bytes that are left, and all the bytes the pty has
accepted. -/
def connectionWriteBytes (windows : Bool) (handle : ℤ) (answer : WriteAnswer)
    (bytes accepted : Bytes) : Except String (Bytes × Bytes) :=
  match cConnectionWriteBytes windows handle answer bytes accepted with
  | .error msg => .error msg
  | .ok (written, accepted) => .ok (bytes.drop written, accepted)

/-- The variables of `run_manage()` for the input, the bytes the pty has accepted, and the output
streams. -/
structure Feed where
  stdinRemaining : Bytes
  stdinEofSent : Bool
  accepted : Bytes := []
  streams : Streams

/-- Before the main loop. Without a file for the standard input there is nothing to send. -/
def Feed.start (stdinBytes : Option Bytes) (streams : Streams) : Feed :=
  { stdinRemaining := stdinBytes.getD [], stdinEofSent := stdinBytes.isNone, streams := streams }

/-- `eof_bytes`: Ctrl+Z on Windows, Ctrl+D twice elsewhere. -/
def eofBytes (windows : Bool) : Bytes := if windows then [0x1a] else [0x04, 0x04]

/-- What is left of the content is written. -/
def Feed.writeContent (windows : Bool) (handle : ℤ) (answer : WriteAnswer) (s : Feed) :
    Except String Feed :=
  if s.stdinRemaining.length > 0 then
    match connectionWriteBytes windows handle answer s.stdinRemaining s.accepted with
    | .error msg => .error msg
    | .ok (left, accepted) => .ok { s with stdinRemaining := left, accepted := accepted }
  else .ok s

/-- If nothing is left, the end-of-file bytes are written. -/
def Feed.writeEof (windows : Bool) (handle : ℤ) (answer : WriteAnswer) (s : Feed) :
    Except String Feed :=
  if s.stdinRemaining.length = 0 then
    match connectionWriteBytes windows handle answer (eofBytes windows) s.accepted with
    | .error msg => .error msg
    | .ok (_, accepted) => .ok { s with stdinEofSent := true, accepted := accepted }
  else .ok s

/-- The part of a round that feeds the pty. -/
def Feed.feed (windows : Bool) (handle : ℤ) (content eof : WriteAnswer) (s : Feed) :
    Except String Feed :=
  if s.stdinEofSent then .ok s
  else
    match s.writeContent windows handle content with
    | .error msg => .error msg
    | .ok s => s.writeEof windows handle eof

/-- A round of the main loop: the time is up, or it feeds the pty and polls. It has the handle of
the pty (a callback may have closed it), the answers to the two writes it can make, and whether a
stream is ready after the poll. -/
inductive FeedRound
  | timeout
  | polled (handle : ℤ) (content eof : WriteAnswer) (ready : Bool)
  deriving DecidableEq

/-- The round, for the output. -/
def FeedRound.round : FeedRound → Round
  | .timeout => .timeout
  | .polled _ _ _ ready => .polled ready

/-- The main loop, over the rounds while the process is alive. -/
def feedLoop (windows : Bool) : List FeedRound → Feed → Except String Feed
  | [], s => .ok s
  | .timeout :: _, s => .ok s
  | .polled handle content eof ready :: rounds, s =>
    match s.feed windows handle content eof with
    | .error msg => .error msg
    | .ok s =>
      feedLoop windows rounds (if ready then { s with streams := s.streams.doOutput.2 } else s)

/-- Once `stdin_eof_sent` is set, the pty has accepted the content and the whole end-of-file
sequence. -/
def Feed.Complete (windows : Bool) (content : Bytes) (s : Feed) : Prop :=
  s.stdinEofSent = true → s.accepted = content ++ eofBytes windows

/-- What the write of the end-of-file bytes returns, if it is made and does not fail: it is made in
the first round that leaves nothing of the content. -/
def eofWritten (windows : Bool) : List FeedRound → Bytes → Option ℕ
  | [], _ => none
  | .timeout :: _, _ => none
  | .polled handle content eof _ :: rounds, remaining =>
    if handle < 0 then none
    else if remaining = [] then eof.written windows
    else
      match content.written windows with
      | none => none
      | some bytes =>
        if remaining.length ≤ bytes then eof.written windows
        else eofWritten windows rounds (remaining.drop bytes)

/-- What is accepted and what is left of the content are the whole content. -/
def Feed.Feeding (content : Bytes) (s : Feed) : Prop :=
  s.stdinEofSent = false ∧ s.accepted ++ s.stdinRemaining = content

/-- A write splits the bytes: the accepted ones come in order behind those before. -/
theorem connectionWriteBytes_eq (windows : Bool) {handle : ℤ} (h : ¬ handle < 0)
    (answer : WriteAnswer) (bytes accepted : Bytes) :
    connectionWriteBytes windows handle answer bytes accepted =
      (answer.written windows).elim (.error "Cannot write connection")
        fun n => .ok (bytes.drop n, accepted ++ bytes.take n) := by
  unfold connectionWriteBytes cConnectionWriteBytes
  rw [if_neg h]
  cases answer.written windows with
  | none => rfl
  | some n =>
    have hdrop : bytes.drop (min n bytes.length) = bytes.drop n := by
      rcases Nat.le_total n bytes.length with hle | hle
      · rw [Nat.min_eq_left hle]
      · rw [Nat.min_eq_right hle, List.drop_length, List.drop_eq_nil_of_le hle]
    show Except.ok (bytes.drop (min n bytes.length), _) = _
    rw [hdrop]
    rfl

/-- The end-of-file bytes, when nothing of the content is left. -/
theorem Feed.writeEof_nil (windows : Bool) {handle : ℤ} (h : ¬ handle < 0) (answer : WriteAnswer)
    {s : Feed} (hnil : s.stdinRemaining = []) :
    s.writeEof windows handle answer =
      (answer.written windows).elim (.error "Cannot write connection") fun n =>
        .ok { s with
          stdinEofSent := true
          accepted := s.accepted ++ (eofBytes windows).take n } := by
  unfold Feed.writeEof
  rw [if_pos (by rw [hnil]; rfl), connectionWriteBytes_eq windows h]
  cases answer.written windows <;> rfl

/-- The content, when some of it is left. -/
theorem Feed.writeContent_ne (windows : Bool) {handle : ℤ} (h : ¬ handle < 0) (answer : WriteAnswer)
    {s : Feed} (hne : s.stdinRemaining ≠ []) :
    s.writeContent windows handle answer =
      (answer.written windows).elim (.error "Cannot write connection") fun n =>
        .ok { s with
          stdinRemaining := s.stdinRemaining.drop n
          accepted := s.accepted ++ s.stdinRemaining.take n } := by
  unfold Feed.writeContent
  rw [if_pos (List.length_pos_of_ne_nil hne), connectionWriteBytes_eq windows h]
  cases answer.written windows <;> rfl

/-- What a round can do while the pty is fed: it fails, it sends the end of the file, or it goes on
with less of the content. -/
theorem Feed.Feeding.feed {content : Bytes} {s : Feed} (h : s.Feeding content) (windows : Bool)
    (handle : ℤ) (answer eof : WriteAnswer) :
    (∃ msg, s.feed windows handle answer eof = .error msg ∧ ∀ ready rounds,
        eofWritten windows (.polled handle answer eof ready :: rounds) s.stdinRemaining = none) ∨
      (∃ n s', s.feed windows handle answer eof = .ok s' ∧ s'.stdinEofSent = true ∧
        s'.accepted = content ++ (eofBytes windows).take n ∧ ∀ ready rounds,
          eofWritten windows (.polled handle answer eof ready :: rounds) s.stdinRemaining =
            some n) ∨
      ∃ s', s.feed windows handle answer eof = .ok s' ∧ s'.Feeding content ∧ ∀ ready rounds,
        eofWritten windows (.polled handle answer eof ready :: rounds) s.stdinRemaining =
          eofWritten windows rounds s'.stdinRemaining := by
  obtain ⟨hopen, hcontent⟩ := h
  simp only [Feed.feed, hopen, eofWritten, Bool.false_eq_true, if_false]
  by_cases hclosed : handle < 0
  · -- the first write throws
    refine Or.inl ⟨"Invalid (uninitialized or closed?) connection object", ?_, ?_⟩
    · by_cases hnil : s.stdinRemaining = []
      · simp [Feed.writeContent, Feed.writeEof, connectionWriteBytes, cConnectionWriteBytes, hnil,
          hclosed]
      · have hpos := List.length_pos_of_ne_nil hnil
        simp [Feed.writeContent, connectionWriteBytes, cConnectionWriteBytes, hpos, hclosed]
    · intro ready rounds
      rw [if_pos hclosed]
  simp only [if_neg hclosed]
  -- the end-of-file bytes, behind the whole content
  have heof : ∀ t : Feed, t.stdinRemaining = [] → t.accepted = content →
      (t.writeEof windows handle eof = .error "Cannot write connection" ∧
          eof.written windows = none) ∨
        ∃ n s', t.writeEof windows handle eof = .ok s' ∧ s'.stdinEofSent = true ∧
          s'.accepted = content ++ (eofBytes windows).take n ∧ eof.written windows = some n := by
    intro t hnil haccepted
    rw [Feed.writeEof_nil windows hclosed eof hnil, haccepted]
    cases eof.written windows with
    | none => exact Or.inl ⟨rfl, rfl⟩
    | some n => exact Or.inr ⟨n, _, rfl, rfl, rfl, rfl⟩
  by_cases hnil : s.stdinRemaining = []
  · have hskip : s.writeContent windows handle answer = .ok s := by
      unfold Feed.writeContent
      rw [if_neg (by rw [hnil]; exact Nat.lt_irrefl 0)]
    have haccepted : s.accepted = content := by rw [← hcontent, hnil, List.append_nil]
    simp only [hskip, if_pos hnil]
    rcases heof s hnil haccepted with ⟨herror, hnone⟩ | ⟨n, s', hok, hsent, hbytes, hsome⟩
    · exact Or.inl ⟨_, herror, fun _ _ => hnone⟩
    · exact Or.inr (Or.inl ⟨n, s', hok, hsent, hbytes, fun _ _ => hsome⟩)
  · simp only [if_neg hnil]
    rw [Feed.writeContent_ne windows hclosed answer hnil]
    cases answer.written windows with
    | none => exact Or.inl ⟨_, rfl, fun _ _ => rfl⟩
    | some n =>
      have hsplit : s.accepted ++ s.stdinRemaining.take n ++ s.stdinRemaining.drop n = content := by
        rw [List.append_assoc, List.take_append_drop, hcontent]
      simp only [Option.elim_some]
      by_cases hall : s.stdinRemaining.length ≤ n
      · simp only [if_pos hall]
        have hdrop : s.stdinRemaining.drop n = [] := List.drop_eq_nil_of_le hall
        rw [hdrop, List.append_nil] at hsplit
        have hlast := heof { s with
          stdinRemaining := s.stdinRemaining.drop n
          accepted := s.accepted ++ s.stdinRemaining.take n } hdrop hsplit
        rcases hlast with ⟨herror, hnone⟩ | ⟨m, s', hok, hsent, hbytes, hsome⟩
        · exact Or.inl ⟨_, herror, fun _ _ => hnone⟩
        · exact Or.inr (Or.inl ⟨m, s', hok, hsent, hbytes, fun _ _ => hsome⟩)
      · simp only [if_neg hall]
        refine Or.inr (Or.inr ⟨{ s with
            stdinRemaining := s.stdinRemaining.drop n
            accepted := s.accepted ++ s.stdinRemaining.take n }, ?_, ⟨hopen, hsplit⟩,
          fun _ _ => rfl⟩)
        unfold Feed.writeEof
        rw [if_neg (by simp only [List.length_drop]; omega)]

/-- Once the end of the file is sent, nothing is written any more. -/
theorem feedLoop_sent (windows : Bool) (rounds : List FeedRound) {s : Feed}
    (h : s.stdinEofSent = true) :
    ∃ s', feedLoop windows rounds s = .ok s' ∧ s'.stdinEofSent = true ∧
      s'.accepted = s.accepted := by
  induction rounds generalizing s with
  | nil => exact ⟨s, rfl, h, rfl⟩
  | cons round rounds ih =>
    cases round with
    | timeout => exact ⟨s, rfl, h, rfl⟩
    | polled handle content eof ready =>
      have hskip : s.feed windows handle content eof = .ok s := by rw [Feed.feed, if_pos h]
      simp only [feedLoop, hskip]
      cases ready with
      | false => exact ih h
      | true => exact ih (s := { s with streams := s.streams.doOutput.2 }) h

/-- While the pty is fed, the loop either sends the end of the file behind the whole content, in the
round that says so, or it never sets `stdin_eof_sent`. -/
theorem Feed.Feeding.run (windows : Bool) (rounds : List FeedRound) {content : Bytes} {s : Feed}
    (h : s.Feeding content) :
    (∀ n, eofWritten windows rounds s.stdinRemaining = some n →
        ∃ s', feedLoop windows rounds s = .ok s' ∧ s'.stdinEofSent = true ∧
          s'.accepted = content ++ (eofBytes windows).take n) ∧
      (eofWritten windows rounds s.stdinRemaining = none →
        ∀ s', feedLoop windows rounds s = .ok s' → s'.Feeding content) := by
  induction rounds generalizing s with
  | nil =>
    refine ⟨fun n hn => (nomatch hn), fun _ s' hs' => ?_⟩
    cases hs'
    exact h
  | cons round rounds ih =>
    cases round with
    | timeout =>
      refine ⟨fun n hn => (nomatch hn), fun _ s' hs' => ?_⟩
      cases hs'
      exact h
    | polled handle answer eof ready =>
      rcases h.feed windows handle answer eof with ⟨msg, herror, hnone⟩ |
        ⟨n, s₁, hok, hsent, hbytes, hsome⟩ | ⟨s₁, hok, hfeeding, hnext⟩
      · rw [hnone, feedLoop, herror]
        exact ⟨fun n hn => (nomatch hn), fun _ s' hs' => nomatch hs'⟩
      · rw [hsome, feedLoop, hok]
        refine ⟨fun m hm => ?_, fun hnone => nomatch hnone⟩
        obtain rfl : n = m := Option.some.inj hm
        obtain ⟨s', hloop, hsent', haccepted⟩ := feedLoop_sent windows rounds
          (s := if ready then { s₁ with streams := s₁.streams.doOutput.2 } else s₁)
          (by cases ready <;> exact hsent)
        refine ⟨s', hloop, hsent', haccepted.trans ?_⟩
        cases ready <;> exact hbytes
      · rw [hnext, feedLoop, hok]
        cases ready with
        | false => exact ih hfeeding
        | true => exact ih (s := { s₁ with streams := s₁.streams.doOutput.2 }) hfeeding

/-- The end-of-file bytes are written at most once, so a write in the first rounds is the write. -/
theorem eofWritten_take (windows : Bool) (rounds : List FeedRound) (k : ℕ) (remaining : Bytes)
    {n : ℕ} (h : eofWritten windows (rounds.take k) remaining = some n) :
    eofWritten windows rounds remaining = some n := by
  induction rounds generalizing k remaining with
  | nil => rw [List.take_nil] at h; exact h
  | cons round rounds ih =>
    cases k with
    | zero => exact nomatch h
    | succ k =>
      rw [List.take_succ_cons] at h
      cases round with
      | timeout => exact h
      | polled handle answer eof ready =>
        unfold eofWritten at h ⊢
        by_cases hclosed : handle < 0
        · rw [if_pos hclosed] at h
          cases h
        rw [if_neg hclosed] at h ⊢
        by_cases hnil : remaining = []
        · rw [if_pos hnil] at h ⊢
          exact h
        rw [if_neg hnil] at h ⊢
        cases hwritten : answer.written windows with
        | none =>
          rw [hwritten] at h
          cases h
        | some m =>
          rw [hwritten] at h
          simp only at h ⊢
          by_cases hall : remaining.length ≤ m
          · rw [if_pos hall] at h ⊢
            exact h
          · rw [if_neg hall] at h ⊢
            exact ih k _ h

/-- Feeding the pty leaves the output alone. -/
theorem Feed.feed_streams {windows : Bool} {handle : ℤ} {content eof : WriteAnswer} {s s' : Feed}
    (h : s.feed windows handle content eof = .ok s') : s'.streams = s.streams := by
  have heof : ∀ {t t' : Feed}, t.writeEof windows handle eof = .ok t' →
      t'.streams = t.streams := by
    intro t t' ht
    unfold Feed.writeEof at ht
    split at ht
    · cases hw : connectionWriteBytes windows handle eof (eofBytes windows) t.accepted with
      | error msg => rw [hw] at ht; cases ht
      | ok answer => rw [hw] at ht; cases ht; rfl
    · cases ht
      rfl
  unfold Feed.feed at h
  split at h
  · cases h
    rfl
  · cases hcontent : s.writeContent windows handle content with
    | error msg => rw [hcontent] at h; cases h
    | ok t =>
      rw [hcontent] at h
      refine (heof h).trans ?_
      unfold Feed.writeContent at hcontent
      split at hcontent
      · cases hw : connectionWriteBytes windows handle content s.stdinRemaining s.accepted with
        | error msg => rw [hw] at hcontent; cases hcontent
        | ok answer => rw [hw] at hcontent; cases hcontent; rfl
      · cases hcontent
        rfl

/-- The output is read as in the loop without an input. -/
theorem feedLoop_streams {windows : Bool} {rounds : List FeedRound} {s s' : Feed}
    (h : feedLoop windows rounds s = .ok s') :
    s'.streams = mainLoop (rounds.map FeedRound.round) s.streams := by
  induction rounds generalizing s with
  | nil =>
    cases h
    rfl
  | cons round rounds ih =>
    cases round with
    | timeout =>
      cases h
      rfl
    | polled handle content eof ready =>
      rw [feedLoop] at h
      cases hfeed : s.feed windows handle content eof with
      | error msg =>
        rw [hfeed] at h
        cases h
      | ok t =>
        rw [hfeed] at h
        rw [ih h, ← Feed.feed_streams hfeed]
        cases ready <;> rfl

/-- Once `stdin_eof_sent` is set, the pty has accepted exactly the content and the end-of-file
sequence, if and only if the write of the end-of-file bytes takes all of them or fails. -/
theorem feedLoop_complete_iff (windows : Bool) (content : Bytes) (streams : Streams)
    (rounds : List FeedRound) :
    (∀ k s, feedLoop windows (rounds.take k) (.start (some content) streams) = .ok s →
        s.Complete windows content) ↔
      ∀ n, eofWritten windows rounds content = some n → (eofBytes windows).length ≤ n := by
  have hstart : (Feed.start (some content) streams).Feeding content := ⟨rfl, rfl⟩
  constructor
  · intro hcomplete n hn
    obtain ⟨s', hloop, hsent, haccepted⟩ := (hstart.run windows rounds).1 n hn
    have hwhole := hcomplete rounds.length s' (by rw [List.take_length]; exact hloop) hsent
    rw [haccepted, List.append_cancel_left_eq] at hwhole
    have hlength := congrArg List.length hwhole
    rw [List.length_take] at hlength
    omega
  · intro hall k s hloop hsent
    cases hn : eofWritten windows (rounds.take k) content with
    | none =>
      have hopen := ((hstart.run windows _).2 hn s hloop).1
      rw [hsent] at hopen
      cases hopen
    | some n =>
      obtain ⟨s', hloop', -, haccepted⟩ := (hstart.run windows _).1 n hn
      obtain rfl : s = s' := by
        rw [hloop] at hloop'
        exact Except.ok.inj hloop'
      rw [haccepted, List.take_of_length_le (hall n (eofWritten_take windows rounds k content hn))]

/-- The content `a`, and a pty that is full then: no end-of-file byte is accepted, and none is sent
again. -/
theorem feedLoop_incomplete :
    ∃ s, feedLoop false (List.take 1 [.polled 3 (.wrote 1) .again false])
        (.start (some [97]) ⟨.start true false [], .start false false []⟩) = .ok s ∧
      s.stdinEofSent = true ∧ s.accepted = [97] ∧ ¬ s.Complete false [97] :=
  ⟨_, rfl, rfl, rfl, by unfold Feed.Complete; decide⟩

end Processx
