import Processx.Library.LastWord
import Processx.Supervisor.Requests
import Processx.Supervisor.Shutdown
import Processx.Supervisor.WinInput

/-!
# The session and one supervisor

The R session and the supervisor on Unix run side by side. The session writes requests into the
pipe, and it can die at any moment. The supervisor goes round its loop: it looks for signals, reads
lines until there are none, sweeps its children, and looks whether the session is still there. In
every order of these steps the children are what the session has asked for last, as far as the lines
have been read, and in the end signals go to them and to nobody else.
-/

namespace Processx

/-- The processes that a line puts in or out. -/
def Command.words : Command → LastWord.Words ℤ
  | .watch pid => [(pid, true)]
  | .unwatch pid => [(pid, false)]
  | .kill => []
  | .other => []

/-- The same for a request. -/
def Request.words (request : Request) : LastWord.Words ℤ := request.command.words

/-- Whether the loop over the lines prints that the limit of children is exceeded. -/
def Supervisor.printsLimit (long : LongRange) (s : Supervisor) (readbuf : Bytes) : Bool :=
  readbuf.take 4 ≠ [107, 105, 108, 108] && decide ((extractPid long readbuf s.erange).1 > 0) &&
    decide (s.children.count = maxChildren)

/-- Where `main()` is in its polling loop: before it looks at the signals, before it reads a line,
before the sweep, before it looks at the parent, in `kill_children()`, or at its end. -/
inductive LoopPlace
  | signals
  | lines
  | children
  | parent
  | killing
  | ended
  deriving DecidableEq

/-- The session and its supervisor. Of the session there is whether it lives, of the pipe what is
in it, of the supervisor its globals, its place, whether a signal was received and what
`kill_children()` did. The rest is history: what was sent, what was read, whether a line was refused
for want of room, which processes the sweeps found stopped, and what the supervisor was told in this
way about each process. -/
structure Link where
  parentAlive : Bool
  pipe : Bytes
  supervisor : Supervisor
  place : LoopPlace
  signalled : Bool
  shutdown : Option Shutdown
  sent : List Request
  heard : List Command
  exceeded : Bool
  swept : List ℤ
  words : LastWord.Words ℤ

/-- At the start of the polling loop. -/
def Link.start (cells : ℕ → ℤ) : Link where
  parentAlive := true
  pipe := []
  supervisor := .start cells
  place := .signals
  signalled := false
  shutdown := none
  sent := []
  heard := []
  exceeded := false
  swept := []
  words := []

/-- What the operating system answers in one step: to a read, that this is the end of the file; to
`kill(pid, 0)` for the children, by place, and for the parent; and to `kill_children()`. -/
structure LoopAnswers where
  eof : Bool
  status : ℕ → KillZero
  parent : KillZero
  now : ℤ
  rounds : List WaitRound
  final : ℕ → StatusAnswer

/-- One step of `main()`, on Unix. A call of `kill_children()` that has not come to its end is no
step. -/
def Link.turn (long : LongRange) (s : Link) (answers : LoopAnswers) : Link :=
  match s.place with
  | .signals => { s with place := if s.signalled then .killing else .lines }
  | .lines =>
    match fgets inputBufLen s.pipe with
    | none =>
      -- without the end of the file `errno` is `EAGAIN`
      let supervisor := if answers.eof then s.supervisor else (s.supervisor.step long .errno).1
      { s with supervisor := supervisor, place := .children }
    | some (readbuf, pipe) =>
      let supervisor := s.supervisor.readLine long readbuf
      { s with
        pipe := pipe
        supervisor := supervisor
        place := if supervisor.exiting then .killing else .lines
        heard := s.heard ++ [lineCommand long readbuf]
        exceeded := s.exceeded || s.supervisor.printsLimit long readbuf
        words := s.words ++ (lineCommand long readbuf).words }
  | .children =>
    let (supervisor, removed) := s.supervisor.sweep answers.status
    { s with
      supervisor := supervisor
      place := .parent
      swept := s.swept ++ removed
      words := s.words ++ removed.map fun pid => (pid, false) }
  | .parent =>
    if s.parentAlive || pidIsRunning answers.parent then { s with place := .signals }
    else { s with place := .killing }
  | .killing =>
    match killChildren .unix answers.now answers.rounds answers.final s.supervisor.children with
    | none => s
    | some shutdown => { s with place := .ended, shutdown := some shutdown }
  | .ended => s

/-- What can happen: the session writes a request, which gets into the pipe as a whole, or it dies;
the supervisor receives `SIGINT` or `SIGTERM`, or makes a step. -/
inductive LinkEvent
  | write (request : Request)
  | die
  | signal
  | turn (answers : LoopAnswers)

def Link.next (long : LongRange) (s : Link) : LinkEvent → Link
  | .write request =>
    if s.parentAlive then
      { s with pipe := s.pipe ++ request.line, sent := s.sent ++ [request] }
    else s
  | .die => { s with parentAlive := false }
  | .signal => { s with signalled := true }
  | .turn answers => s.turn long answers

/-- A sequence of events. -/
def Link.run (long : LongRange) (s : Link) (events : List LinkEvent) : Link :=
  events.foldl (Link.next long) s

/-- A run in two parts is one part after the other. -/
theorem Link.run_append (long : LongRange) (s : Link) (before after : List LinkEvent) :
    s.run long (before ++ after) = (s.run long before).run long after :=
  List.foldl_append

/-- What every event keeps, every run keeps. -/
theorem Link.run_keeps {long : LongRange} {P : Link → Prop}
    (hnext : ∀ s event, P s → P (s.next long event)) {s : Link} (h : P s)
    (events : List LinkEvent) : P (s.run long events) := by
  induction events generalizing s with
  | nil => exact h
  | cons event events ih => exact ih (hnext s event h)

/-- What holds at every moment. What was sent is what was read and what is in the pipe. The children
are those of which the supervisor was told last that they are in, and it was told what was sent,
except about the processes that it has found stopped. -/
structure Link.Sound (s : Link) : Prop where
  keeps : s.supervisor.Keeps
  erange : s.supervisor.erange = false
  running : s.place ≠ .killing → s.place ≠ .ended → s.supervisor.exiting = false
  inOrder : ∃ done pending, s.sent = done ++ pending ∧ s.heard = done.map Request.command ∧
    s.pipe = pending.flatMap Request.line
  tracks : s.exceeded = false → LastWord.Follows s.words s.supervisor.children.entries
  asked : ∀ pid, LastWord.holds s.words pid = true →
    LastWord.holds (s.heard.flatMap Command.words) pid = true
  told : ∀ pid, pid ∉ s.swept → LastWord.holds (s.heard.flatMap Command.words) pid = true →
    LastWord.holds s.words pid = true
  reason : s.parentAlive = true → s.place = .killing ∨ s.place = .ended →
    s.signalled = true ∨ s.heard.getLast? = some .kill
  done : s.place = .ended →
    ∃ shutdown, s.shutdown = some shutdown ∧ shutdown.Done .unix s.supervisor.children

/-- The invariant holds at the start. -/
theorem Link.sound_start (cells : ℕ → ℤ) : (Link.start cells).Sound where
  keeps := Supervisor.keeps_start cells
  erange := rfl
  running := fun _ _ => rfl
  inOrder := ⟨[], [], rfl, rfl, rfl⟩
  tracks := fun _ => LastWord.Follows.nil
  asked := fun _ h => h
  told := fun _ _ h => h
  reason := fun _ h => by rcases h with h | h <;> cases h
  done := fun h => by cases h

/-- `fgets()` in terms of the requests. -/
theorem Link.Sound.fgets_cases {s : Link} (h : s.Sound) :
    (fgets inputBufLen s.pipe = none ∧ s.pipe = []) ∨
      ∃ done request pending, s.sent = done ++ request :: pending ∧
        s.heard = done.map Request.command ∧
        fgets inputBufLen s.pipe = some (request.line, pending.flatMap Request.line) ∧
        s.pipe = request.line ++ pending.flatMap Request.line := by
  obtain ⟨done, pending, hsent, hheard, hpipe⟩ := h.inOrder
  cases pending with
  | nil =>
    rw [List.flatMap_nil] at hpipe
    rw [hpipe]
    exact Or.inl ⟨rfl, rfl⟩
  | cons request pending =>
    rw [List.flatMap_cons] at hpipe
    refine Or.inr ⟨done, request, pending, hsent, hheard, ?_, hpipe⟩
    rw [hpipe]
    exact fgets_line request _

/-- The state after one more line. -/
theorem Link.Sound.heardLine (long : LongRange) {s : Link} (h : s.Sound) (hplace : s.place = .lines)
    {done pending : List Request} {request : Request} (hsent : s.sent = done ++ request :: pending)
    (hheard : s.heard = done.map Request.command) : Link.Sound { s with
      pipe := pending.flatMap Request.line
      supervisor := s.supervisor.readLine long request.line
      place := if (s.supervisor.readLine long request.line).exiting then .killing else .lines
      heard := s.heard ++ [lineCommand long request.line]
      exceeded := s.exceeded || s.supervisor.printsLimit long request.line
      words := s.words ++ (lineCommand long request.line).words } := by
  have hrunning := h.running (by rw [hplace]; decide) (by rw [hplace]; decide)
  have hheeds := h.keeps.readLine_request long h.erange hrunning request
  obtain ⟨hcommand, hkill, hrange⟩ := request.lineCommand_line long
  refine ⟨hheeds.keeps, hheeds.erange, fun hnot _ => ?_, ⟨done ++ [request], pending, ?_, ?_, rfl⟩,
    fun hexceeded => ?_, fun pid hholds => ?_, fun pid hpid hholds => ?_, fun _ hend => Or.inr ?_,
    fun hended => ?_⟩
  · dsimp only at hnot ⊢
    by_contra hexit
    exact hnot (if_pos (by simpa using hexit))
  · rw [hsent, List.append_assoc, List.singleton_append]
  · rw [hheard, hcommand, List.map_append, List.map_singleton]
  · dsimp only at hexceeded ⊢
    rw [Bool.or_eq_false_iff] at hexceeded
    have hold := h.tracks hexceeded.1
    rw [hcommand]
    cases request with
    | watch pid =>
      refine hold.put (hheeds.watch pid rfl fun hfull => ?_)
      have hpid := pid.property
      have hprints := hexceeded.2
      unfold Supervisor.printsLimit extractPid at hprints
      rw [hrange (by simp), h.erange] at hprints
      simp only [Request.number, Bool.or_false, Bool.false_eq_true, false_or] at hprints
      rw [if_neg (by unfold intMin; omega)] at hprints
      simp [hfull, hpid.1, hkill] at hprints
    | unwatch pid =>
      have hout : LastWord.Follows (s.words ++ [pid.val].map fun pid => (pid, false))
          (s.supervisor.readLine long (Request.unwatch pid).line).children.entries :=
        hold.takeOut fun other => by rw [hheeds.unwatch pid rfl, List.mem_singleton]
      exact hout
    | kill =>
      rw [hheeds.kill rfl]
      simpa [Request.command, Command.words] using hold
  · dsimp only
    rw [List.flatMap_append, List.flatMap_singleton]
    exact LastWord.holds_append_mono (h.asked pid) _ hholds
  · dsimp only at hholds
    rw [List.flatMap_append, List.flatMap_singleton] at hholds
    exact LastWord.holds_append_mono (h.told pid hpid) _ hholds
  · dsimp only at hend ⊢
    rw [List.getLast?_concat, hcommand]
    by_cases hexit : (s.supervisor.readLine long request.line).exiting = true
    · rw [hheeds.exiting.mp hexit]
      rfl
    · rw [if_neg hexit] at hend
      rcases hend with h | h <;> cases h
  · dsimp only at hended
    split_ifs at hended

/-- A sweep does not set `errno` to `ERANGE`. -/
theorem sweepLoop_erange (answer : ℕ → KillZero) (rounds i : ℕ) {s : Supervisor}
    (h : s.erange = false) : (sweepLoop answer rounds i s).1.erange = false := by
  induction rounds generalizing i s with
  | zero => exact h
  | succ rounds ih =>
    rw [sweepLoop]
    dsimp only
    split_ifs
    · exact ih _ (by rw [h]; rfl)
    · exact ih _ (by rw [h]; rfl)
    · exact h

/-- The state after a sweep. -/
theorem Link.Sound.sweep {s : Link} (h : s.Sound) (hplace : s.place = .children)
    (status : ℕ → KillZero) : Link.Sound { s with
      supervisor := (s.supervisor.sweep status).1
      place := .parent
      swept := s.swept ++ (s.supervisor.sweep status).2
      words := s.words ++ (s.supervisor.sweep status).2.map fun pid => (pid, false) } := by
  have hrunning := h.running (by rw [hplace]; decide) (by rw [hplace]; decide)
  have hswept := sweepLoop_swept status s.supervisor.children.count 0 h.keeps.nodup
  have hexiting := sweepLoop_exiting status s.supervisor.children.count 0 s.supervisor
  refine ⟨h.keeps.step long64 (.sweep status), ?_, fun _ _ => hexiting.trans hrunning, h.inOrder,
    fun hexceeded => (h.tracks hexceeded).takeOut fun pid => ?_, fun pid hholds => ?_,
    fun pid hpid hholds => ?_, fun _ hend => ?_, fun hended => ?_⟩
  · exact sweepLoop_erange status _ 0 h.erange
  · dsimp only
    rw [← SwapArray.mem_toFinset, ← SwapArray.mem_toFinset]
    show pid ∈ (sweepLoop _ _ _ _).1.children.toFinset ↔ _
    rw [hswept.pids, Finset.mem_sdiff, List.mem_toFinset]
    rfl
  · dsimp only at hholds
    rw [LastWord.holds_append_out, Bool.and_eq_true] at hholds
    exact h.asked pid hholds.1
  · dsimp only at hpid ⊢
    rw [List.mem_append, not_or] at hpid
    rw [LastWord.holds_append_out, h.told pid hpid.1 hholds, decide_eq_false hpid.2]
    rfl
  · rcases hend with h | h <;> cases h
  · cases hended

/-- **One step of the supervisor** keeps the invariant. -/
theorem Link.Sound.turn (long : LongRange) {s : Link} (h : s.Sound) (answers : LoopAnswers) :
    (s.turn long answers).Sound := by
  have hsame : ∀ place, s.supervisor.exiting = false → place ≠ .ended →
      (s.parentAlive = true → place = .killing → s.signalled = true) →
      Link.Sound { s with place := place } := fun place hrunning hplace hkilling =>
    ⟨h.keeps, h.erange, fun _ _ => hrunning, h.inOrder, h.tracks, h.asked, h.told,
      fun halive hend => Or.inl (hkilling halive (hend.resolve_right hplace)),
      fun hended => absurd hended hplace⟩
  unfold Link.turn
  cases hplace : s.place with
  | signals =>
    have hrunning := h.running (by rw [hplace]; decide) (by rw [hplace]; decide)
    dsimp only
    split_ifs with hsignalled
    · exact hsame .killing hrunning (by decide) fun _ _ => hsignalled
    · exact hsame .lines hrunning (by decide) fun _ h => by cases h
  | lines =>
    have hrunning := h.running (by rw [hplace]; decide) (by rw [hplace]; decide)
    dsimp only
    rcases h.fgets_cases with ⟨hnone, -⟩ | ⟨done, request, pending, hsent, hheard, hsome, -⟩
    · rw [hnone]
      dsimp only
      split_ifs
      · exact hsame .children hrunning (by decide) fun _ h => by cases h
      · exact ⟨h.keeps.step long .errno, rfl, fun _ _ => hrunning, h.inOrder, h.tracks, h.asked,
          h.told, fun _ hend => absurd hend (by simp), fun hended => absurd hended (by simp)⟩
    · rw [hsome]
      exact h.heardLine long hplace hsent hheard
  | children => exact h.sweep hplace answers.status
  | parent =>
    have hrunning := h.running (by rw [hplace]; decide) (by rw [hplace]; decide)
    dsimp only
    split_ifs with hparent
    · exact hsame .signals hrunning (by decide) fun _ h => by cases h
    · refine hsame .killing hrunning (by decide) fun halive _ => absurd ?_ hparent
      rw [halive]
      rfl
  | killing =>
    dsimp only
    cases hkill : killChildren .unix answers.now answers.rounds answers.final
      s.supervisor.children with
    | none => exact h
    | some shutdown =>
      exact ⟨h.keeps, h.erange, fun _ hnot => absurd rfl hnot, h.inOrder, h.tracks, h.asked, h.told,
        fun halive _ => h.reason halive (Or.inl hplace),
        fun _ => ⟨shutdown, rfl, Shutdown.done hkill⟩⟩
  | ended => exact h

/-- **One event** keeps the invariant. -/
theorem Link.Sound.next (long : LongRange) {s : Link} (h : s.Sound) (event : LinkEvent) :
    (s.next long event).Sound := by
  cases event with
  | write request =>
    unfold Link.next
    dsimp only
    split_ifs
    · obtain ⟨done, pending, hsent, hheard, hpipe⟩ := h.inOrder
      refine ⟨h.keeps, h.erange, h.running, ⟨done, pending ++ [request], ?_, hheard, ?_⟩, h.tracks,
        h.asked, h.told, h.reason, h.done⟩
      · rw [hsent, List.append_assoc]
      · rw [hpipe, List.flatMap_append, List.flatMap_singleton]
    · exact h
  | die =>
    exact ⟨h.keeps, h.erange, h.running, h.inOrder, h.tracks, h.asked, h.told,
      fun halive => absurd halive Bool.false_ne_true, h.done⟩
  | signal =>
    exact ⟨h.keeps, h.erange, h.running, h.inOrder, h.tracks, h.asked, h.told,
      fun _ _ => Or.inl rfl, h.done⟩
  | turn answers => exact h.turn long answers

/-- Every run keeps it. -/
theorem Link.sound_run (long : LongRange) (cells : ℕ → ℤ) (events : List LinkEvent) :
    ((Link.start cells).run long events).Sound :=
  Link.run_keeps (fun _ event h => h.next long event) (Link.sound_start cells) events

/-- **The protocol keeps its order and its set**, at every moment of every run. The lines that were
read are the first ones that were sent, and the others are in the pipe. Unless a line was refused for
want of room, a process is a child exactly if the last that the supervisor was told of it, by a line or
by a sweep, is that it is to be watched. So the last request about each child that was read is to
watch it, and each process for which this is so is a child, if no sweep has found it stopped. -/
theorem link_tracks (long : LongRange) (cells : ℕ → ℤ) (events : List LinkEvent) :
    let s := (Link.start cells).run long events
    (∃ done pending, s.sent = done ++ pending ∧ s.heard = done.map Request.command ∧
        s.pipe = pending.flatMap Request.line) ∧
      (s.exceeded = false → ∀ pid,
        (pid ∈ s.supervisor.children.entries ↔ LastWord.holds s.words pid = true) ∧
        (pid ∈ s.supervisor.children.entries →
          LastWord.holds (s.heard.flatMap Command.words) pid = true) ∧
        (LastWord.holds (s.heard.flatMap Command.words) pid = true → pid ∉ s.swept →
          pid ∈ s.supervisor.children.entries)) := by
  intro s
  have h : s.Sound := Link.sound_run long cells events
  refine ⟨h.inOrder, fun hexceeded pid => ?_⟩
  have htracks := h.tracks hexceeded pid
  exact ⟨htracks, fun hchild => h.asked pid (htracks.mp hchild),
    fun hholds hswept => htracks.mpr (h.told pid hswept hholds)⟩

/-- What `kill_children()` does to a process: `SIGTERM` is sent to it, and then it is found to have
stopped, or it is looked at once more in the end, and `SIGKILL` is sent to it if it is still
running. -/
def Shutdown.Settles (shutdown : Shutdown) (pid : ℤ) : Prop :=
  ⟨.sigterm, pid⟩ ∈ shutdown.soft ∧
    (pid ∈ stoppedPids shutdown.waiting ∨ ∃ checked ∈ shutdown.final, checked.pid = pid ∧
      (checked.running = true → ⟨.sigkill, pid⟩ ∈ shutdown.hard))

/-- It does this to all the children. -/
theorem Shutdown.Done.settles {children : SwapArray ℤ} {shutdown : Shutdown}
    (h : shutdown.Done .unix children) {pid : ℤ} (hpid : pid ∈ children.entries) :
    shutdown.Settles pid := by
  refine ⟨?_, or_iff_not_imp_left.mpr fun hrunning => h.killed hpid hrunning⟩
  rw [h.soft_unix]
  exact List.mem_map_of_mem hpid

/-- And no signal of it goes to anybody else. -/
theorem Shutdown.Done.tracked {children : SwapArray ℤ} {shutdown : Shutdown}
    (h : shutdown.Done .unix children) {signal : SentSignal}
    (hsignal : signal ∈ shutdown.soft ++ shutdown.hard) : signal.pid ∈ children.entries := by
  rcases List.mem_append.mp hsignal with hfirst | hlast
  · rw [h.soft_unix] at hfirst
    obtain ⟨pid, hpid, rfl⟩ := List.mem_map.mp hfirst
    exact hpid
  · exact h.hard_tracked hlast

/-- **The end settles what was watched and nothing else.** Whatever ended the supervisor, if no line
was refused for want of room: the processes that it was told last to watch are settled, and no signal
goes to any other process. -/
theorem link_settles (long : LongRange) (cells : ℕ → ℤ) (events : List LinkEvent)
    (hended : ((Link.start cells).run long events).place = .ended)
    (hexceeded : ((Link.start cells).run long events).exceeded = false) :
    ∃ shutdown, ((Link.start cells).run long events).shutdown = some shutdown ∧
      (∀ pid, LastWord.holds ((Link.start cells).run long events).words pid = true →
        shutdown.Settles pid) ∧
      ∀ signal ∈ shutdown.soft ++ shutdown.hard,
        LastWord.holds ((Link.start cells).run long events).words signal.pid = true := by
  have h := Link.sound_run long cells events
  generalize (Link.start cells).run long events = s at h hended hexceeded ⊢
  obtain ⟨shutdown, hshutdown, hdone⟩ := h.done hended
  refine ⟨shutdown, hshutdown, fun pid hholds => ?_, fun signal hsignal => ?_⟩
  · exact hdone.settles ((h.tracks hexceeded pid).mpr hholds)
  · exact (h.tracks hexceeded _).mp (hdone.tracked hsignal)

/-- A process that was unwatched before the `kill` gets no signal. -/
theorem link_settles_kill :
    let answers : LoopAnswers := ⟨false, fun _ => .ok, .ok, 0, [⟨fun _ => .kill .ok, 5⟩],
      fun _ => .kill .ok⟩
    let events : List LinkEvent := [.write (.watch ⟨42, by decide⟩), .write (.watch ⟨43, by decide⟩),
      .write (.unwatch ⟨42, by decide⟩), .write .kill] ++ List.replicate 6 (.turn answers)
    ∃ shutdown, ((Link.start fun _ => 0).run long64 events).shutdown = some shutdown ∧
      shutdown.Settles 43 ∧ ∀ signal ∈ shutdown.soft ++ shutdown.hard, signal.pid ≠ 42 := by
  intro answers events
  obtain ⟨shutdown, hshutdown, hsettles, honly⟩ := link_settles long64 (fun _ => 0) events
    (by decide +kernel) (by decide +kernel)
  refine ⟨shutdown, hshutdown, hsettles 43 (by decide +kernel), fun signal hsignal heq => ?_⟩
  have hholds := honly signal hsignal
  rw [heq] at hholds
  revert hholds
  decide +kernel

end Processx
