import Processx.Win.Pending
import Processx.Connection.Utf8

/-!
# Waiting for a packet

A poll waits for the packets of the connections that have nothing to report yet. It ends only if
something is outstanding for them. Starting a read may set `read_pending` although nothing is:
the result of the second `ConnectNamedPipe()` is ignored, and handles that do not belong to the
completion port queue no packets. And the end of a file that is found while the poll begins is
not reported if there were bytes left that make no character.
-/

namespace Processx.Win

open SharedQueue

variable {σ : Type} {ic : Riconv σ}

/-- A packet is queued for the connection, or will be. -/
def Outstanding (b : Box σ) : Prop :=
  b.waiting ≠ [] ∨ b.state.outstanding.isSome = true ∧ b.state.associated = true

instance (b : Box σ) : Decidable (Outstanding b) := inferInstanceAs (Decidable (_ ∨ _ ∧ _))

/-- Whatever the operation brings, its packet is queued when it is over. -/
theorem Outstanding.complete {b : Box σ} (h : Outstanding b) (bytes : Bytes) :
    (b.step (machine ic) (.act (.complete bytes))).waiting ≠ [] := by
  obtain ⟨c, waiting⟩ := b
  show waiting ++ (Win.complete bytes c).2 ≠ []
  rcases h with hwaiting | ⟨hsome, hassociated⟩
  · exact List.append_ne_nil_of_left_ne_nil hwaiting _
  · refine List.append_ne_nil_of_right_ne_nil _ ?_
    obtain ⟨op, hop⟩ := Option.isSome_iff_exists.mp hsome
    dsimp only at hop hassociated
    unfold Win.complete
    rw [hop]
    cases op <;> simp [hassociated]

/-- Without a pending read nothing is outstanding. -/
theorem Paired.not_outstanding {b : Box σ} (h : Paired b) (hpending : b.state.readPending = false) :
    ¬ Outstanding b := by
  obtain ⟨hidle, hwaiting⟩ := h.idle hpending
  simp [Outstanding, hidle, hwaiting]

/-- The move is a poll that is going to wait for the connection. -/
def PollsHandle (ic : Riconv σ) (b : Box σ) (mv : Move) : Prop :=
  match mv with
  | .act (.prePoll start) => (prePollFuncConnection ic start b.state).1 = .ok .handle
  | _ => False

/-- After the move, something is outstanding if a read is pending, or if the move is a poll that
is going to wait for the connection. -/
def WaitsForPacket (ic : Riconv σ) (b : Box σ) (mv : Move) : Prop :=
  (b.step (machine ic) mv).state.readPending = true ∨ PollsHandle ic b mv →
    Outstanding (b.step (machine ic) mv)

instance (ic : Riconv σ) (b : Box σ) (mv : Move) : Decidable (PollsHandle ic b mv) :=
  match mv with
  | .act (.prePoll start) =>
    inferInstanceAs (Decidable ((prePollFuncConnection ic start b.state).1 = .ok .handle))
  | .act (.readStart _) | .act (.takeUtf8 _) | .act .growUtf8 | .act .setRaw | .act (.takeRaw _)
  | .act .accept | .act (.complete _) | .take _ => isFalse id

instance (ic : Riconv σ) (b : Box σ) (mv : Move) : Decidable (WaitsForPacket ic b mv) :=
  inferInstanceAs (Decidable (_ ∨ _ → _))

/-- If `read_pending` is set, the handle belongs to the completion port, and if `ReadFile()` finds
no client, `ConnectNamedPipe()` does not find one either. -/
def StartsSomething (start : Start) (c : Connection σ) : Prop :=
  (threadSetup start.setup c).1 = true →
    if c.listening then
      start.connectNamedPipe = .ioPending → (threadSetup start.setup c).2.associated = true
    else
      match start.readFile with
      | .success _ | .ioPending => (threadSetup start.setup c).2.associated = true
      | .pipeListening => c.type = .asyncPipe ∨ c.type = .socket →
        start.connectNamedPipe = .ioPending ∧ (threadSetup start.setup c).2.associated = true
      | _ => True

/-- Would everything in the raw buffer be dropped at the end of the file? -/
def Connection.vanishes (ic : Riconv σ) (c : Connection σ) : Bool :=
  let room := c.utf8AllocatedSize - c.utf8.length
  let (inbuf, out, _) :=
    toUtf8Loop ic true c.bufferDataSize (c.iconvCtx.getD ic.open_) c.buffer room []
  decide (c.bufferDataSize ≠ 0 ∧ room ≠ 0 ∧ inbuf = [] ∧ out = [])

/-- If `ReadFile()` reports the end of the file, there is something to report to the caller: the
end itself, or what comes of the bytes that are left. -/
def ReportsSomething (ic : Riconv σ) (start : Start) (c : Connection σ) : Prop :=
  (threadSetup start.setup c).1 = true → ¬ c.listening →
    start.readFile = .brokenPipe ∨ start.readFile = .handleEof →
      if c.rawMode then c.utf8 = [] else c.vanishes ic = false

/-- A move that starts a read really starts something, or reports something. -/
def StartsOrReports (ic : Riconv σ) (b : Box σ) (mv : Move) : Prop :=
  match mv with
  | .act (.prePoll start) =>
    (preReady ic b.state).1 = none → (preReady ic b.state).2.pipeReady = false →
      b.state.readPending = false →
        StartsSomething start (preReady ic b.state).2 ∧
          ReportsSomething ic start (preReady ic b.state).2
  | .act (.readStart start) =>
    b.state.readPending = false → ¬ b.state.unaccepted →
      ¬ (b.state.isEofRaw = true ∧ b.state.bufferDataSize = 0) → ¬ b.state.full →
        StartsSomething start b.state
  | _ => True

/-- The setup does not look at the buffers. -/
theorem threadSetup_allocated (answer : Setup) (c : Connection σ) :
    (threadSetup answer c.allocated).1 = (threadSetup answer c).1 ∧
      (threadSetup answer c.allocated).2.associated = (threadSetup answer c).2.associated := by
  unfold Connection.allocated
  split_ifs
  · unfold threadSetup connectionAlloc
    cases answer <;> dsimp only <;> split_ifs <;> exact ⟨rfl, rfl⟩
  · exact ⟨rfl, rfl⟩

/-- Allocating the buffer does not decide whether a read starts something. -/
theorem startsSomething_allocated (start : Start) (c : Connection σ) :
    StartsSomething start c.allocated ↔ StartsSomething start c := by
  obtain ⟨hok, hassociated⟩ := threadSetup_allocated start.setup c
  unfold StartsSomething
  rw [hok, hassociated, c.allocated_type]
  simp only [Connection.allocated_listening]

/-- Starting a read keeps its word exactly if something is started, or nothing is promised. -/
theorem Started.iff_startsSomething {start : Start} {c : Connection σ} {msg : Option String}
    {c' : Connection σ} {queued : List Completion} (hpending : c.readPending = false)
    (hidle : c.outstanding = none) (h : Started ic start c (msg, c', queued)) :
    (c'.readPending = true → Outstanding ⟨c', queued⟩) ↔ StartsSomething start c := by
  cases h with
  | connectPending hlisten hset hanswer =>
    simp [Outstanding, StartsSomething, hset, hlisten, hanswer]
  | connected hlisten hset hanswer =>
    simp [StartsSomething, hset, hlisten, hanswer]
  | @read e a o bytes hreading hset hanswer =>
    cases a <;> simp [Outstanding, StartsSomething, hset, hreading, hanswer, Connection.fill, hidle]
  | readPending hreading hset hanswer =>
    simp [Outstanding, StartsSomething, hset, hreading, hanswer]
  | @ended e a o c'' hreading hset hanswer hmarked =>
    refine iff_of_true (fun hset' => ?_) ?_
    · have hsame : c''.readPending = c.readPending := by
        rw [hmarked]
        rfl
      have hnever : ¬ c''.readPending = true := by
        rw [hsame, hpending]
        exact Bool.false_ne_true
      split_ifs at hset'
      · exact absurd ((connectionToUtf8_converted ic c'').readPending.symm.trans hset') hnever
      · exact absurd hset' hnever
    · unfold StartsSomething
      rw [if_neg hreading]
      rcases hanswer with hanswer | hanswer <;> rw [hanswer] <;> exact fun _ => trivial
  | pipeListening hreading hset hanswer htype =>
    by_cases hconnect : start.connectNamedPipe = .ioPending
    · simp [Outstanding, StartsSomething, hset, hreading, hanswer, htype, hconnect]
    · simp [Outstanding, StartsSomething, hset, hreading, hanswer, htype, hconnect, hidle]
  | thrown hfailed =>
    refine iff_of_true (fun hset => ?_) fun hok => ?_
    · exact absurd hset Bool.false_ne_true
    rcases hfailed hok with ⟨hlisten, hanswer⟩ | ⟨hreading, hanswer⟩
    · rw [if_pos hlisten, hanswer]
      rintro ⟨⟩
    · rw [if_neg hreading]
      rcases hanswer with hanswer | ⟨hanswer, htype⟩
      · rw [hanswer]
        trivial
      · rw [hanswer]
        exact fun hfifo => absurd hfifo htype

/-- Starting a read from a state in which nothing is going on. -/
theorem startRead_iff {start : Start} {c : Connection σ} {waiting : List Completion}
    {msg : Option String} {c' : Connection σ} {queued : List Completion}
    (hpaired : Paired ⟨c, waiting⟩) (hpending : c.readPending = false)
    (hstart : connectionStartRead ic start c = (msg, c', queued)) :
    (c'.readPending = true → Outstanding ⟨c', waiting ++ queued⟩) ↔ StartsSomething start c := by
  obtain ⟨hidle, hwaiting⟩ := hpaired.idle hpending
  have hstarted := connectionStartRead_started ic start hpaired.handle_ne hpending
  rw [hstart] at hstarted
  dsimp only at hwaiting hidle
  subst hwaiting
  rw [← startsSomething_allocated]
  exact hstarted.iff_startsSomething (c.allocated_readPending.trans hpending)
    (c.allocated_outstanding.trans hidle)

/-- A conversion changes nothing about what is outstanding. -/
theorem Converted.outstanding_iff {c c' : Connection σ} (h : Converted c c')
    (waiting : List Completion) :
    (c'.readPending = true → Outstanding ⟨c', waiting⟩) ↔
      (c.readPending = true → Outstanding ⟨c, waiting⟩) := by
  obtain ⟨_, _, _, _, _, _, rfl⟩ := h
  exact Iff.rfl

/-- What the macro has found out when it finds nothing to report. -/
theorem preReady_none {c : Connection σ} (h : (preReady ic c).1 = none) :
    (preReady ic c).2.isClosed = false ∧ (preReady ic c).2.isEof = false ∧
      ((preReady ic c).2.rawMode = true → (preReady ic c).2.bufferDataSize = 0) ∧
      ((preReady ic c).2.rawMode = false → (preReady ic c).2.utf8 = []) := by
  obtain ⟨ctx, memory, size, text, hsize, hnone, heq⟩ := preReady_converted ic c
  unfold preReady at h heq ⊢
  by_cases hclosed : c.isClosed = true
  · rw [if_pos hclosed] at h
    cases h
  by_cases heof : c.isEof = true
  · rw [if_neg hclosed, if_pos heof] at h
    cases h
  rw [if_neg hclosed, if_neg heof] at h heq ⊢
  by_cases hraw : c.rawMode = true
  · rw [if_pos hraw] at h ⊢
    dsimp only at h ⊢
    refine ⟨by simpa using hclosed, by simpa using heof, fun _ => ?_, ?_⟩
    · by_contra hsome
      rw [if_pos (Nat.pos_of_ne_zero hsome)] at h
      cases h
    · rw [hraw]
      nofun
  rw [if_neg hraw] at h heq ⊢
  by_cases htext : c.utf8.length > 0
  · rw [if_pos htext] at h
    cases h
  rw [if_neg htext] at h heq ⊢
  have hempty : c.utf8 = [] := by simpa using htext
  by_cases hended : c.bufferDataSize > 0 ∧ c.isEofRaw = true
  · rw [if_pos hended] at h
    cases h
  rw [if_neg hended] at h heq ⊢
  by_cases hsome : c.bufferDataSize > 0
  · rw [if_pos hsome] at h heq ⊢
    dsimp only at h heq ⊢
    rw [heq] at h ⊢
    refine ⟨by simpa using hclosed, by simpa using heof, fun hset => absurd hset hraw, fun _ => ?_⟩
    by_contra hne
    rw [if_pos (List.length_pos_of_ne_nil hne)] at h
    cases h
  · rw [if_neg hsome]
    exact ⟨by simpa using hclosed, by simpa using heof,
      fun hset => absurd hset hraw, fun _ => hempty⟩

/-- Nor does it decide whether there is something to report. -/
theorem reportsSomething_allocated (start : Start) {c : Connection σ}
    (hun : c.bufferAllocatedSize = 0 → c.bufferDataSize = 0 ∧ c.utf8 = []) :
    ReportsSomething ic start c.allocated ↔ ReportsSomething ic start c := by
  by_cases hnone : c.bufferAllocatedSize = 0
  · obtain ⟨hsize, htext⟩ := hun hnone
    obtain ⟨hok, _⟩ := threadSetup_allocated start.setup c
    have hallocated : c.allocated = connectionAlloc c := if_pos hnone
    rw [hallocated] at hok ⊢
    unfold ReportsSomething
    rw [hok]
    have hvanishes : (connectionAlloc c).vanishes ic = c.vanishes ic := by
      simp [Connection.vanishes, connectionAlloc, hsize]
    have hsame : (connectionAlloc c).utf8 = c.utf8 := htext.symm
    rw [hvanishes, hsame]
    exact Iff.rfl
  · rw [Connection.allocated, if_neg hnone]

/-- At the end of the file the macro finds nothing exactly if there is nothing to report. -/
theorem preReady_ended (ic : Riconv σ) {c c' : Connection σ} (hopen : c.isClosed = false)
    (heof : c.isEof = false) (hraw : c.rawMode = true → c.bufferDataSize = 0)
    (htext : c.rawMode = false → c.utf8 = []) {e a : Bool} {o : ℕ}
    (hc' : c' = markEofRaw { c with hEvent := e, associated := a, overlappedOffset := o }) :
    (preReady ic (if c.bufferDataSize ≠ 0 then (connectionToUtf8 ic c').2 else c')).1 = none ↔
      ¬ (if c.rawMode then c.utf8 = [] else c.vanishes ic = false) := by
  by_cases hnone : c.bufferDataSize = 0
  · -- the end itself is reported if nothing is left in the UTF-8 buffer either
    rw [if_neg (not_not.mpr hnone)]
    have hvanishes : c.vanishes ic = false := by simp [Connection.vanishes, hnone]
    rw [hvanishes, hc']
    cases hmode : c.rawMode with
    | true =>
      by_cases hempty : c.utf8 = []
      · simp [preReady, markEofRaw, hopen, heof, hempty, hnone]
      · simp [preReady, markEofRaw, hopen, heof, hempty, hnone]
    | false => simp [preReady, markEofRaw, hopen, heof, htext hmode, hnone]
  · have hmode : c.rawMode = false := by
      by_contra hset
      exact hnone (hraw (by simpa using hset))
    have hempty := htext hmode
    rw [if_pos hnone, hmode, hc']
    by_cases hroom : c.utf8AllocatedSize = 0
    · have hvanishes : c.vanishes ic = false := by simp [Connection.vanishes, hroom]
      rw [hvanishes]
      simp [preReady, connectionToUtf8, markEofRaw, hopen, heof, hempty, hnone, hmode, hroom,
        Nat.pos_of_ne_zero hnone]
    · obtain ⟨inbuf, out, ctx, hloop⟩ : ∃ inbuf out ctx, toUtf8Loop ic true c.bufferDataSize
          (c.iconvCtx.getD ic.open_) c.buffer c.utf8AllocatedSize [] = (inbuf, out, ctx) :=
        ⟨_, _, _, rfl⟩
      have hconv := connectionToUtf8_of_loop
        (c := markEofRaw { c with hEvent := e, associated := a, overlappedOffset := o })
        hnone hempty hroom hloop
      have hvanishes : c.vanishes ic = decide (inbuf = [] ∧ out = []) := by
        unfold Connection.vanishes
        dsimp only
        rw [hempty, List.length_nil, Nat.sub_zero, hloop]
        simp [hnone, hroom]
      rw [hconv, hvanishes]
      by_cases hout : out = []
      · by_cases hrest : inbuf = []
        · simp [preReady, markEofRaw, Connection.shift, hopen, heof, hempty, hnone, hmode, hout,
            hrest]
        · have hleft : 0 < c.bufferDataSize - (c.bufferDataSize - inbuf.length) := by
            have hpos := List.length_pos_of_ne_nil hrest
            omega
          simp [preReady, markEofRaw, Connection.shift, hopen, heof, hempty, hnone, hmode, hout,
            hrest, hleft]
      · simp [preReady, markEofRaw, Connection.shift, hopen, heof, hempty, hnone, hmode, hout,
          List.length_pos_of_ne_nil hout]

/-- Starting a read that leaves none pending has something to report exactly if the end of the
file has. -/
theorem Started.iff_reportsSomething {start : Start} {c : Connection σ} {msg : Option String}
    {c' : Connection σ} {queued : List Completion} (hopen : c.isClosed = false)
    (heof : c.isEof = false) (hraw : c.rawMode = true → c.bufferDataSize = 0)
    (htext : c.rawMode = false → c.utf8 = []) (hpending : c.readPending = false)
    (hunready : c.pipeReady = false) (h : Started ic start c (msg, c', queued)) :
    (msg = none → c'.readPending = false → (preReady ic c').1 = none → c'.pipeReady = true) ↔
      ReportsSomething ic start c := by
  have hother : start.readFile ≠ .brokenPipe → start.readFile ≠ .handleEof →
      ReportsSomething ic start c := by
    intro hpipe hfile _ _ hended
    rcases hended with hended | hended
    · exact absurd hended hpipe
    · exact absurd hended hfile
  cases h with
  | connectPending hlisten => exact iff_of_true nofun fun _ hreading => absurd hlisten hreading
  | connected hlisten =>
    refine iff_of_true (fun _ _ _ => ?_) fun _ hreading => absurd hlisten hreading
    simp [Connection.pipeReady, hlisten.1]
  | read _ _ hanswer => exact iff_of_true nofun (hother (by simp [hanswer]) (by simp [hanswer]))
  | readPending _ _ hanswer =>
    exact iff_of_true nofun (hother (by simp [hanswer]) (by simp [hanswer]))
  | pipeListening _ _ hanswer =>
    exact iff_of_true nofun (hother (by simp [hanswer]) (by simp [hanswer]))
  | @ended e a o c'' hreading hset hanswer hmarked =>
    have hok : (threadSetup start.setup c).1 = true := by rw [hset]
    have hnone := preReady_ended ic hopen heof hraw htext hmarked
    have hsame : (if c.bufferDataSize ≠ 0 then (connectionToUtf8 ic c'').2 else c'').readPending =
          c.readPending ∧
        (if c.bufferDataSize ≠ 0 then (connectionToUtf8 ic c'').2 else c'').pipeReady =
          c.pipeReady := by
      have hconv := connectionToUtf8_converted ic c''
      split_ifs
      · rw [hconv.readPending, hconv.pipeReady, hmarked]
        exact ⟨rfl, rfl⟩
      · rw [hmarked]
        exact ⟨rfl, rfl⟩
    constructor
    · intro hreport _ _ _
      by_contra hsilent
      have hready := hreport rfl (hsame.1.trans hpending) (hnone.mpr hsilent)
      rw [hsame.2, hunready] at hready
      cases hready
    · intro hreport _ _ hfound
      exact absurd (hreport hok hreading hanswer) (hnone.mp hfound)
  | thrown hfailed =>
    refine iff_of_true nofun fun hok hreading hended => ?_
    rcases hfailed hok with ⟨hlisten, _⟩ | ⟨_, hanswer⟩
    · exact absurd hlisten hreading
    · rcases hanswer with hanswer | ⟨hanswer, _⟩ <;> simp [hanswer] at hended

/-- Starting a read leaves something to wait for or to report exactly if it starts or reports
something. -/
theorem startRead_reports_iff {start : Start} {c : Connection σ} {waiting : List Completion}
    {msg : Option String} {c' : Connection σ} {queued : List Completion}
    (hpaired : Paired ⟨c, waiting⟩) (hopen : c.isClosed = false)
    (heof : c.isEof = false) (hraw : c.rawMode = true → c.bufferDataSize = 0)
    (htext : c.rawMode = false → c.utf8 = []) (hpending : c.readPending = false)
    (hunready : c.pipeReady = false)
    (hstart : connectionStartRead ic start c = (msg, c', queued)) :
    (msg = none → c'.readPending = false → (preReady ic c').1 = none → c'.pipeReady = true) ↔
      ReportsSomething ic start c := by
  have hstarted := connectionStartRead_started ic start hpaired.handle_ne hpending
  rw [hstart] at hstarted
  rw [← reportsSomething_allocated start hpaired.unallocated]
  by_cases hnone : c.bufferAllocatedSize = 0
  · have hallocated : c.allocated = connectionAlloc c := if_pos hnone
    rw [hallocated] at hstarted ⊢
    exact hstarted.iff_reportsSomething hopen heof (fun _ => rfl) (fun _ => rfl) hpending hunready
  · have hallocated : c.allocated = c := if_neg hnone
    rw [hallocated] at hstarted ⊢
    exact hstarted.iff_reportsSomething hopen heof hraw htext hpending hunready

/-- A poll waits for something exactly if it has started something, or reports something. -/
theorem prePoll_waitsForPacket_iff (ic : Riconv σ) {b : Box σ} (hpaired : Paired b)
    (hout : b.state.readPending = true → Outstanding b) (start : Start) :
    WaitsForPacket ic b (.act (.prePoll start)) ↔ StartsOrReports ic b (.act (.prePoll start)) := by
  obtain ⟨c, waiting⟩ := b
  have hpolled := prePollFuncConnection_prePolled ic start c
  have hconv := preReady_converted ic c
  have hpaired₁ := hpaired.converted hconv
  have hout₁ := (hconv.outstanding_iff waiting).mpr hout
  have hpending₁ := hconv.readPending
  have hwaits : WaitsForPacket ic ⟨c, waiting⟩ (.act (.prePoll start)) ↔
      ((prePollFuncConnection ic start c).2.1.readPending = true →
        Outstanding ⟨(prePollFuncConnection ic start c).2.1,
          waiting ++ (prePollFuncConnection ic start c).2.2⟩) ∧
      ((prePollFuncConnection ic start c).1 = .ok .handle →
        Outstanding ⟨(prePollFuncConnection ic start c).2.1,
          waiting ++ (prePollFuncConnection ic start c).2.2⟩) := or_imp
  rw [hwaits]
  generalize prePollFuncConnection ic start c = result at hpolled
  cases hpolled with
  | @found e hready hne =>
    rw [List.append_nil]
    refine iff_of_true ⟨hout₁, fun heq => absurd (Except.ok.inj heq) hne⟩
      fun hunready hunconnected => ?_
    rcases hready with hready | hready
    · exact absurd hunready hready
    · rw [show (preReady ic c).2.pipeReady = false from hunconnected] at hready
      cases hready
  | @thrown msg c' queued hunready hunconnected hstart =>
    have hidle : c.readPending = false := by
      by_contra hset
      rw [connectionStartRead_of_pending ic start (hpending₁.trans (by simpa using hset))] at hstart
      cases hstart
    obtain ⟨hopen, heof, hraw, htext⟩ := preReady_none hunready
    have hstarts := startRead_iff hpaired₁ (hpending₁.trans hidle) hstart
    have hreports := (startRead_reports_iff hpaired₁ hopen heof hraw htext (hpending₁.trans hidle)
      hunconnected hstart).mp nofun
    constructor
    · exact fun h _ _ _ => ⟨hstarts.mp h.1, hreports⟩
    · exact fun h => ⟨hstarts.mpr (h hunready hunconnected hidle).1, nofun⟩
  | @started e c' queued hunready hunconnected hstart hhandle =>
    have hconv' := preReady_converted ic c'
    -- what the second run of the macro does not change
    have hsame : Outstanding ⟨(preReady ic c').2, waiting ++ queued⟩ ↔
        Outstanding ⟨c', waiting ++ queued⟩ := by
      obtain ⟨_, _, _, _, _, _, heq⟩ := hconv'
      rw [heq]
      exact Iff.rfl
    dsimp only
    rw [hconv'.readPending, hsame]
    cases hidle : c.readPending with
    | true =>
      have hpending : (preReady ic c).2.readPending = true := hpending₁.trans hidle
      rw [connectionStartRead_of_pending ic start hpending] at hstart
      obtain ⟨_, rfl, rfl⟩ := by simpa only [Prod.mk.injEq] using hstart
      rw [List.append_nil]
      refine iff_of_true ⟨hout₁, fun _ => hout₁ hpending⟩ fun _ _ hnot => ?_
      rw [show c.readPending = false from hnot] at hidle
      cases hidle
    | false =>
      obtain ⟨hopen, heof, hraw, htext⟩ := preReady_none hunready
      have hstarts := startRead_iff hpaired₁ (hpending₁.trans hidle) hstart
      have hreports := startRead_reports_iff hpaired₁ hopen heof hraw htext
        (hpending₁.trans hidle) hunconnected hstart
      constructor
      · rintro ⟨hpend, hpoll⟩ _ _ _
        refine ⟨hstarts.mp hpend, hreports.mp fun _ hnot hnone => ?_⟩
        by_contra hready
        have hnever := (hpaired₁.startRead hstart).not_outstanding hnot
        exact hnever (hpoll (congrArg Except.ok (hhandle.mpr ⟨hnone, by simpa using hready⟩)))
      · intro h
        obtain ⟨hstart', hreport⟩ := h hunready hunconnected hidle
        refine ⟨hstarts.mpr hstart', fun heq => ?_⟩
        obtain ⟨hnone, hready⟩ := hhandle.mp (Except.ok.inj heq)
        cases hnot : c'.readPending with
        | true => exact hstarts.mpr hstart' hnot
        | false =>
          rw [hreports.mpr hreport rfl hnot hnone] at hready
          cases hready

/-- A read starts something, if it starts anything. -/
theorem readStart_waitsForPacket_iff (ic : Riconv σ) {b : Box σ} (hpaired : Paired b)
    (hout : b.state.readPending = true → Outstanding b) (start : Start) :
    WaitsForPacket ic b (.act (.readStart start)) ↔
      StartsOrReports ic b (.act (.readStart start)) := by
  obtain ⟨c, waiting⟩ := b
  have hread := connectionReadStart_readStarted ic start c
  have hwaits : WaitsForPacket ic ⟨c, waiting⟩ (.act (.readStart start)) ↔
      ((connectionReadStart ic start c).2.1.readPending = true →
        Outstanding ⟨(connectionReadStart ic start c).2.1,
          waiting ++ (connectionReadStart ic start c).2.2⟩) :=
    ⟨fun h hset => h (Or.inl hset), fun h hset => h (hset.resolve_right id)⟩
  rw [hwaits]
  generalize connectionReadStart ic start c = result at hread
  cases hread with
  | unaccepted hunaccepted =>
    rw [List.append_nil]
    exact iff_of_true hout fun _ haccepted => absurd hunaccepted haccepted
  | ended hended =>
    rw [List.append_nil]
    exact iff_of_true hout fun _ _ hunended => absurd hended hunended
  | full hfull =>
    rw [List.append_nil]
    exact iff_of_true hout fun _ _ _ hroom => absurd hfull hroom
  | converted hfull =>
    rw [List.append_nil]
    exact iff_of_true (((connectionToUtf8_converted ic c).outstanding_iff waiting).mpr hout)
      fun _ _ _ hroom => absurd hfull hroom
  | started haccepted hunended hroom hstart =>
    have hpending := c.allocated_readPending
    cases hidle : c.readPending with
    | true =>
      rw [connectionStartRead_of_pending ic start (hpending.trans hidle)] at hstart
      obtain ⟨_, rfl, rfl⟩ := by simpa only [Prod.mk.injEq] using hstart
      rw [List.append_nil]
      refine iff_of_true (fun _ => ?_) fun hnot => ?_
      · have hsome := hout hidle
        unfold Outstanding at hsome ⊢
        rwa [c.allocated_outstanding, c.allocated_associated]
      · rw [show c.readPending = false from hnot] at hidle
        cases hidle
    | false =>
      have hstarts := startRead_iff hpaired.allocated (hpending.trans hidle) hstart
      rw [startsSomething_allocated] at hstarts
      rw [hstarts]
      exact ⟨fun h _ _ _ _ => h, fun h => h hidle haccepted hunended hroom⟩

/-- A move waits for something exactly if it has started something, or reports something. -/
theorem waitsForPacket_iff (ic : Riconv σ) {b : Box σ} (hpaired : Paired b)
    (hout : b.state.readPending = true → Outstanding b) (mv : Move) :
    WaitsForPacket ic b mv ↔ StartsOrReports ic b mv := by
  obtain ⟨c, waiting⟩ := b
  cases mv with
  | act a =>
    cases a with
    | prePoll start => exact prePoll_waitsForPacket_iff ic hpaired hout start
    | readStart start => exact readStart_waitsForPacket_iff ic hpaired hout start
    | complete bytes =>
      refine iff_of_true (or_imp.mpr ⟨fun hpending => ?_, False.elim⟩) trivial
      have hsame : (complete bytes c).1.readPending = c.readPending := by
        unfold complete
        rcases c.outstanding with _ | ⟨offset, todo⟩ | _ <;> rfl
      exact Or.inl ((hout (hsame.symm.trans hpending)).complete bytes)
    | _ =>
      refine iff_of_true (or_imp.mpr ⟨?_, False.elim⟩) trivial
      refine step_of_local ic (I := fun b => b.state.readPending = true → Outstanding b) trivial ?_
      intro c' hlocal hpending
      have hsome := hout (hlocal.reads.1.symm.trans hpending)
      unfold Outstanding at hsome ⊢
      rwa [hlocal.reads.2, hlocal.associated]
  | take handler =>
    refine iff_of_true (or_imp.mpr ⟨?_, False.elim⟩) trivial
    cases waiting with
    | nil => exact hout
    | cons p rest =>
      obtain ⟨ended, _, _, _, hpending, _⟩ := handlePacket_handled ic handler p c
      intro hset
      rw [show (handlePacket ic handler p c).readPending = true from hset] at hpending
      cases hpending

/-- **A poll waits for something**, in every state and at every poll of exactly the runs in which
every call that starts a read really starts something or reports something. -/
theorem waits_for_packet_iff (ic : Riconv σ) (opened : ℕ → Opened) (events : List Event) :
    System.Along (machine ic) (System.Each (WaitsForPacket ic)) (World.create opened) events ↔
      System.Along (machine ic) (System.Each (StartsOrReports ic))
        (World.create opened) events := by
  refine System.along_iff_of_each
    (I := fun b => Paired b ∧ (b.state.readPending = true → Outstanding b)) ?_ events ?_
  · rintro b mv ⟨hpaired, hout⟩
    have hiff := waitsForPacket_iff ic hpaired hout mv
    exact ⟨hiff, fun hstarts => ⟨hpaired.step ic mv, fun hset => hiff.mpr hstarts (Or.inl hset)⟩⟩
  · exact fun k => ⟨paired_create opened k, nofun⟩

/-- A client connects to a FIFO between two system calls of a poll, and a pipe ends within a
character while a poll begins: both polls wait, and nothing is outstanding. -/
theorem waits_for_nothing :
    let opened : ℕ → Opened := fun _ => { handle := 1, handle_ne := by decide }
    let client : List Event :=
      [.act 0 (.prePoll { readFile := .pipeListening, connectNamedPipe := .pipeConnected })]
    let ended : List Event :=
      [.act 0 (.prePoll {}), .act 0 (.complete [0xc3]), .take (.poll true),
        .act 0 (.prePoll { readFile := .brokenPipe })]
    (((World.create opened).run (machine utf8Riconv) client).state 0).readPending = true ∧
      (((World.create opened).run (machine utf8Riconv) client).state 0).outstanding = none ∧
      ((World.create opened).run (machine utf8Riconv) client).queue = [] ∧
      ¬ System.Along (machine utf8Riconv) (System.Each (WaitsForPacket utf8Riconv))
        (World.create opened) client ∧
      (((World.create opened).run (machine utf8Riconv) ended).state 0).readPending = false ∧
      ¬ System.Along (machine utf8Riconv) (System.Each (WaitsForPacket utf8Riconv))
        (World.create opened) ended := by
  decide +kernel

end Processx.Win
