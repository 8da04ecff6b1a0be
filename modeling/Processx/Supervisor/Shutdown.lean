import Processx.Supervisor.Children

/-!
# The end of the supervisor

Before it ends, the supervisor sends a soft signal to its children, gives them five seconds, and
kills those that still run. While it waits it takes the children that have stopped out of its
list, with the same loop as the sweeps: the last child is moved to the place of the one removed.
-/

namespace Processx

/-- What Windows has for a process that is asked to close: the other processes that share its console,
`none` if the supervisor cannot attach to one, and the number of its windows. -/
structure SoftTarget where
  console : Option (List ℤ)
  windows : ℕ

/-- The two versions of the supervisor. On Windows, with its own process id and what there is for the
children, by their places, when they are asked to close. -/
inductive SupervisorPlatform
  | unix
  | windows (self : ℤ) (target : ℕ → SoftTarget)

/-- What is sent to a process: a signal on Unix; on Windows the event of a Ctrl-C, a message to one of
its windows, or its end. -/
inductive SignalKind
  | sigterm
  | ctrlC
  | wmClose (window : ℕ)
  | sigkill
  | terminate
  deriving DecidableEq

/-- A signal, and the process id it is sent to. -/
structure SentSignal where
  kind : SignalKind
  pid : ℤ
  deriving DecidableEq

/-- `sendCtrlC()`: the supervisor attaches to the console of the process. The event for group 0 goes
to all processes that share the console, and then the supervisor is one of them. -/
def sendCtrlC (self : ℤ) : Option (List ℤ) → List SentSignal
  | none => []
  | some others => (self :: others).map fun pid => ⟨.ctrlC, pid⟩

/-- `sendWmClose()`: a message to each window of the process. -/
def sendWmClose (pid : ℤ) (windows : ℕ) : List SentSignal :=
  (List.range windows).map fun window => ⟨.wmClose window, pid⟩

/-- What is sent first, for the child at a place. -/
def sendSoft (i : ℕ) (pid : ℤ) : SupervisorPlatform → List SentSignal
  | .unix => [⟨.sigterm, pid⟩]
  | .windows self target =>
    sendCtrlC self (target i).console ++ sendWmClose pid (target i).windows

/-- What a child is sent in the end. -/
def hardKind : SupervisorPlatform → SignalKind
  | .unix => .sigkill
  | .windows _ _ => .terminate

/-- What the operating system answers to `pid_is_running()`: to `kill(pid, 0)` on Unix; on Windows
that the process cannot be opened, that it has no exit code, or its exit code. -/
inductive StatusAnswer
  | kill (answer : KillZero)
  | notOpened
  | noExitCode
  | exitCode (code : ℕ)
  deriving DecidableEq

/-- `STILL_ACTIVE` -/
def stillActive : ℕ := 259

/-- `pid_is_running()`, in both versions. -/
def StatusAnswer.isRunning : StatusAnswer → Bool
  | .kill answer => pidIsRunning answer
  | .notOpened => false
  | .noExitCode => false
  | .exitCode code => code = stillActive

/-- A process that was checked, and what was found. -/
structure PidCheck where
  pid : ℤ
  running : Bool
  deriving DecidableEq

/-- The loop over the children that removes those that have stopped, from place `i` on, with the
checks that it makes. Each round looks at one place, so the entries bound the rounds. -/
def statusLoop (answer : ℕ → StatusAnswer) : ℕ → ℕ → SwapArray ℤ → SwapArray ℤ × List PidCheck
  | 0, _, children => (children, [])
  | rounds + 1, i, children =>
    if i < children.count then
      let checked := ⟨children.cells i, (answer i).isRunning⟩
      let children := if checked.running then children else children.removeAt i
      let (children, later) := statusLoop answer rounds (i + 1) children
      (children, checked :: later)
    else (children, [])

/-- A round of the waiting loop: the answers by the places of the children, and `time(NULL)` at
its end. -/
structure WaitRound where
  answer : ℕ → StatusAnswer
  time : ℤ

/-- The waiting loop of `kill_children()`, for the rounds to come. The result is `none` while it is
still going on. -/
def graceLoop (stopTime : ℤ) : List WaitRound → SwapArray ℤ → Option (SwapArray ℤ × List PidCheck)
  | [], _ => none
  | round :: later, children =>
    let (children, checks) := statusLoop round.answer children.count 0 children
    if children.count = 0 then some (children, checks)
    else if round.time < stopTime then
      (graceLoop stopTime later children).map fun (children, more) => (children, checks ++ more)
    else some (children, checks)

/-- The last loop of `kill_children()`, from place `i` on: the checks that it makes, and the
signals that it sends. -/
def hardKillLoop (platform : SupervisorPlatform) (answer : ℕ → StatusAnswer)
    (children : SwapArray ℤ) : ℕ → ℕ → List PidCheck × List SentSignal
  | 0, _ => ([], [])
  | rounds + 1, i =>
    let pid := children.cells i
    let (checks, signals) := hardKillLoop platform answer children rounds (i + 1)
    (⟨pid, (answer i).isRunning⟩ :: checks,
      if (answer i).isRunning then ⟨hardKind platform, pid⟩ :: signals else signals)

/-- What `kill_children()` has done: the soft signals, the checks while it waits, the children
that are left then, and the checks and the signals at the end. -/
structure Shutdown where
  soft : List SentSignal
  waiting : List PidCheck
  left : SwapArray ℤ
  final : List PidCheck
  hard : List SentSignal

/-- `kill_children()`, where `now` is `time(NULL)` at its start. -/
def killChildren (platform : SupervisorPlatform) (now : ℤ) (rounds : List WaitRound)
    (answer : ℕ → StatusAnswer) (children : SwapArray ℤ) : Option Shutdown :=
  if children.count = 0 then some ⟨[], [], children, [], []⟩
  else
    let soft := (List.range children.count).flatMap fun i =>
      sendSoft i (children.cells i) platform
    match graceLoop (now + 5) rounds children with
    | none => none
    | some (left, waiting) =>
      if left.count = 0 then some ⟨soft, waiting, left, [], []⟩
      else
        let (final, hard) := hardKillLoop platform answer left left.count 0
        some ⟨soft, waiting, left, final, hard⟩

/-- The processes that were found to have stopped. -/
def stoppedPids (checks : List PidCheck) : List ℤ :=
  (checks.filter fun checked => !checked.running).map PidCheck.pid

/-- The list after some checks: it has lost the processes that were found to have stopped, each as
often as that was found, and no others; and only processes of the list were checked. -/
structure Dropped (before after : SwapArray ℤ) (checks : List PidCheck) : Prop where
  perm : (stoppedPids checks ++ after.entries).Perm before.entries
  checked : ∀ checked ∈ checks, checked.pid ∈ before.entries

/-- Without checks the list stays as it is. -/
theorem Dropped.refl (children : SwapArray ℤ) : Dropped children children [] :=
  ⟨.refl _, fun _ h => absurd h List.not_mem_nil⟩

/-- What is in the list later was in it before. -/
theorem Dropped.mem {before after : SwapArray ℤ} {checks : List PidCheck}
    (h : Dropped before after checks) {pid : ℤ} (hpid : pid ∈ after.entries) :
    pid ∈ before.entries :=
  h.perm.subset (List.mem_append_right _ hpid)

/-- Checks in two groups are checks in a row. -/
theorem Dropped.trans {before between after : SwapArray ℤ} {checks more : List PidCheck}
    (h : Dropped before between checks) (hmore : Dropped between after more) :
    Dropped before after (checks ++ more) := by
  constructor
  · have hsplit : stoppedPids (checks ++ more) = stoppedPids checks ++ stoppedPids more := by
      simp [stoppedPids]
    rw [hsplit, List.append_assoc]
    exact (hmore.perm.append_left _).trans h.perm
  · intro checked hchecked
    rcases List.mem_append.mp hchecked with hfirst | hsecond
    · exact h.checked checked hfirst
    · exact h.mem (hmore.checked checked hsecond)

/-- One check. -/
theorem dropped_check {children : SwapArray ℤ} {i : ℕ} (hi : i < children.count) (running : Bool) :
    Dropped children (if running then children else children.removeAt i)
      [⟨children.cells i, running⟩] := by
  refine ⟨?_, ?_⟩
  · cases running with
    | true => exact .refl _
    | false => exact children.perm_removeAt hi
  · intro checked hchecked
    rw [List.mem_singleton.mp hchecked]
    exact SwapArray.mem_entries.mpr ⟨i, hi, rfl⟩

/-- The loop that asks for the status of the children drops those that have stopped. -/
theorem statusLoop_dropped (answer : ℕ → StatusAnswer) (rounds i : ℕ) (children : SwapArray ℤ) :
    Dropped children (statusLoop answer rounds i children).1
      (statusLoop answer rounds i children).2 := by
  induction rounds generalizing i children with
  | zero => exact .refl children
  | succ rounds ih =>
    rw [statusLoop]
    by_cases hi : i < children.count
    · rw [if_pos hi]
      exact (dropped_check hi _).trans (ih (i + 1) _)
    · rw [if_neg hi]
      exact .refl children

/-- So does the loop of the grace period, whenever it ends. -/
theorem graceLoop_dropped {stopTime : ℤ} {rounds : List WaitRound} {children left : SwapArray ℤ}
    {checks : List PidCheck} (h : graceLoop stopTime rounds children = some (left, checks)) :
    Dropped children left checks := by
  induction rounds generalizing children checks with
  | nil => cases h
  | cons round later ih =>
    have hround := statusLoop_dropped round.answer children.count 0 children
    rw [graceLoop] at h
    generalize statusLoop round.answer children.count 0 children = result at h hround
    obtain ⟨between, found⟩ := result
    dsimp only at h hround
    split_ifs at h with hnone htime
    · obtain ⟨rfl, rfl⟩ := Prod.mk.inj (Option.some.inj h)
      exact hround
    · obtain ⟨⟨after, more⟩, hlater, heq⟩ := Option.map_eq_some_iff.mp h
      obtain ⟨rfl, rfl⟩ := Prod.mk.inj heq
      exact hround.trans (ih hlater)
    · obtain ⟨rfl, rfl⟩ := Prod.mk.inj (Option.some.inj h)
      exact hround

/-- The loop ends after the first round in which the time is up. -/
theorem graceLoop_isSome {stopTime : ℤ} {rounds : List WaitRound} (children : SwapArray ℤ)
    (h : ∃ round ∈ rounds, stopTime ≤ round.time) :
    (graceLoop stopTime rounds children).isSome = true := by
  induction rounds generalizing children with
  | nil =>
    obtain ⟨_, hmem, _⟩ := h
    cases hmem
  | cons round later ih =>
    rw [graceLoop]
    generalize statusLoop round.answer children.count 0 children = result
    obtain ⟨between, found⟩ := result
    dsimp only
    split_ifs with hnone htime
    · rfl
    · rw [Option.isSome_map]
      refine ih between ?_
      obtain ⟨late, hmem, hlate⟩ := h
      rcases List.mem_cons.mp hmem with rfl | hlater
      · omega
      · exact ⟨late, hlater, hlate⟩
    · rfl

/-- The last loop checks all the places, and it sends a signal exactly to those it finds
running. -/
theorem hardKillLoop_spec (platform : SupervisorPlatform) (answer : ℕ → StatusAnswer)
    (children : SwapArray ℤ) (rounds i : ℕ) :
    (hardKillLoop platform answer children rounds i).1.map PidCheck.pid =
        (List.range rounds).map (fun k => children.cells (i + k)) ∧
      (hardKillLoop platform answer children rounds i).2 =
        ((hardKillLoop platform answer children rounds i).1.filter PidCheck.running).map
          fun checked => ⟨hardKind platform, checked.pid⟩ := by
  induction rounds generalizing i with
  | zero => exact ⟨rfl, rfl⟩
  | succ rounds ih =>
    obtain ⟨hchecks, hsignals⟩ := ih (i + 1)
    rw [hardKillLoop]
    generalize hardKillLoop platform answer children rounds (i + 1) = result at hchecks hsignals
    obtain ⟨checks, signals⟩ := result
    dsimp only at hchecks hsignals ⊢
    constructor
    · rw [List.map_cons, hchecks, List.range_succ_eq_map, List.map_cons, List.map_map, Nat.add_zero]
      refine congrArg _ (List.map_congr_left fun k _ => ?_)
      show children.cells (i + 1 + k) = children.cells (i + (k + 1))
      congr 1
      omega
    · rw [hsignals]
      cases (answer i).isRunning <;> simp

/-- What `kill_children()` has done. While the supervisor waits, its list loses the processes that it
has found to have stopped, and no others. All those that are left are checked at the end, and those
that are found running then are killed. -/
structure Shutdown.Done (platform : SupervisorPlatform) (children : SwapArray ℤ) (s : Shutdown) :
    Prop where
  soft : s.soft = (List.range children.count).flatMap fun i =>
    sendSoft i (children.cells i) platform
  dropped : (stoppedPids s.waiting ++ s.left.entries).Perm children.entries
  final : s.final.map PidCheck.pid = s.left.entries
  hard : s.hard = (s.final.filter PidCheck.running).map fun checked =>
    ⟨hardKind platform, checked.pid⟩

/-- So each child is found to have stopped, or checked at the end and killed if it still runs. -/
theorem Shutdown.Done.killed {platform : SupervisorPlatform} {children : SwapArray ℤ}
    {s : Shutdown} (h : s.Done platform children) {pid : ℤ} (hpid : pid ∈ children.entries)
    (hrunning : pid ∉ stoppedPids s.waiting) :
    ∃ checked ∈ s.final, checked.pid = pid ∧
      (checked.running = true → ⟨hardKind platform, pid⟩ ∈ s.hard) := by
  have hleft : pid ∈ s.left.entries :=
    (List.mem_append.mp (h.dropped.mem_iff.mpr hpid)).resolve_left hrunning
  rw [← h.final] at hleft
  obtain ⟨checked, hchecked, rfl⟩ := List.mem_map.mp hleft
  refine ⟨checked, hchecked, rfl, fun hfound => ?_⟩
  rw [h.hard]
  exact List.mem_map.mpr ⟨checked, List.mem_filter.mpr ⟨hchecked, hfound⟩, rfl⟩

/-- Nobody but a child is killed. -/
theorem Shutdown.Done.hard_tracked {platform : SupervisorPlatform} {children : SwapArray ℤ}
    {s : Shutdown} (h : s.Done platform children) {signal : SentSignal} (hsignal : signal ∈ s.hard) :
    signal.pid ∈ children.entries := by
  rw [h.hard] at hsignal
  obtain ⟨checked, hchecked, rfl⟩ := List.mem_map.mp hsignal
  refine h.dropped.subset (List.mem_append_right _ ?_)
  rw [← h.final]
  exact List.mem_map_of_mem (List.mem_of_mem_filter hchecked)

/-- On Unix the first signals are a `SIGTERM` for each child. -/
theorem Shutdown.Done.soft_unix {children : SwapArray ℤ} {s : Shutdown}
    (h : s.Done .unix children) : s.soft = children.entries.map fun pid => ⟨.sigterm, pid⟩ := by
  rw [h.soft, SwapArray.entries, List.map_map, List.map_eq_flatMap]
  rfl

/-- This is what it does, whenever it comes to its end. -/
theorem Shutdown.done {platform : SupervisorPlatform} {now : ℤ} {rounds : List WaitRound}
    {answer : ℕ → StatusAnswer} {children : SwapArray ℤ} {s : Shutdown}
    (h : killChildren platform now rounds answer children = some s) : s.Done platform children := by
  unfold killChildren at h
  by_cases hnone : children.count = 0
  · rw [if_pos hnone] at h
    obtain rfl := Option.some.inj h
    have hentries : children.entries = [] := by simp [SwapArray.entries, hnone]
    refine ⟨?_, .refl _, hentries.symm, rfl⟩
    rw [hnone]
    rfl
  rw [if_neg hnone] at h
  dsimp only at h
  cases hgrace : graceLoop (now + 5) rounds children with
  | none =>
    rw [hgrace] at h
    cases h
  | some result =>
    obtain ⟨left, waiting⟩ := result
    have hdropped := graceLoop_dropped hgrace
    rw [hgrace] at h
    dsimp only at h
    by_cases hgone : left.count = 0
    · rw [if_pos hgone] at h
      obtain rfl := Option.some.inj h
      refine ⟨rfl, hdropped.perm, ?_, rfl⟩
      simp [SwapArray.entries, hgone]
    · rw [if_neg hgone] at h
      obtain ⟨hchecks, hsignals⟩ := hardKillLoop_spec platform answer left left.count 0
      generalize hardKillLoop platform answer left left.count 0 = ending at h hchecks hsignals
      obtain ⟨final, hard⟩ := ending
      obtain rfl := Option.some.inj h
      refine ⟨rfl, hdropped.perm, hchecks.trans ?_, hsignals⟩
      simp [SwapArray.entries]

/-- It comes to its end when the time is up. -/
theorem killChildren_isSome {platform : SupervisorPlatform} {now : ℤ} {rounds : List WaitRound}
    (answer : ℕ → StatusAnswer) (children : SwapArray ℤ)
    (h : ∃ round ∈ rounds, now + 5 ≤ round.time) :
    (killChildren platform now rounds answer children).isSome = true := by
  obtain ⟨⟨left, waiting⟩, hgrace⟩ := Option.isSome_iff_exists.mp (graceLoop_isSome children h)
  unfold killChildren
  rw [hgrace]
  dsimp only
  split_ifs <;> rfl

/-- No child is missed, and nobody else is hit. Each child is sent a soft signal, and no soft signal is
sent twice. While the supervisor waits, its list loses the processes that it has found to have
stopped, and no others. All those that are left are checked at the end, and those that are found
running then are killed. No signal goes to a process that is not a child. -/
structure Shutdown.MissesNone (platform : SupervisorPlatform) (children : SwapArray ℤ)
    (s : Shutdown) : Prop where
  soft : ∀ pid ∈ children.entries, ∃ signal ∈ s.soft, signal.pid = pid
  once : s.soft.Nodup
  dropped : (stoppedPids s.waiting ++ s.left.entries).Perm children.entries
  final : s.final.map PidCheck.pid = s.left.entries
  killed : ∀ pid ∈ children.entries, pid ∉ stoppedPids s.waiting →
    ∃ checked ∈ s.final, checked.pid = pid ∧
      (checked.running = true → ⟨hardKind platform, pid⟩ ∈ s.hard)
  tracked : ∀ signal ∈ s.soft ++ s.hard, signal.pid ∈ children.entries

/-- Soft signals reach the children one by one: on Windows no child has a console, and each has a
window. -/
def SupervisorPlatform.OneByOne (children : SwapArray ℤ) : SupervisorPlatform → Prop
  | .unix => True
  | .windows _ target => ∀ i < children.count, (target i).console = none ∧ 0 < (target i).windows

/-- Without a console there are only the messages to the windows. -/
theorem sendSoft_windows {i : ℕ} {self : ℤ} {target : ℕ → SoftTarget}
    (h : (target i).console = none) (pid : ℤ) :
    sendSoft i pid (.windows self target) = sendWmClose pid (target i).windows := by
  show sendCtrlC self (target i).console ++ _ = _
  rw [h]
  rfl

/-- Without a console, what is sent for a child is sent to it. -/
theorem pid_of_mem_sendSoft {platform : SupervisorPlatform} {children : SwapArray ℤ}
    (h : platform.OneByOne children) {i : ℕ} (hi : i < children.count) {signal : SentSignal}
    (hsignal : signal ∈ sendSoft i (children.cells i) platform) :
    signal.pid = children.cells i := by
  cases platform with
  | unix =>
    rw [List.mem_singleton.mp hsignal]
  | windows self target =>
    rw [sendSoft_windows (h i hi).1] at hsignal
    obtain ⟨window, -, rfl⟩ := List.mem_map.mp hsignal
    rfl

/-- Then something is sent to it, and nothing twice. -/
theorem sendSoft_once {platform : SupervisorPlatform} {children : SwapArray ℤ}
    (h : platform.OneByOne children) {i : ℕ} (hi : i < children.count) :
    sendSoft i (children.cells i) platform ≠ [] ∧
      (sendSoft i (children.cells i) platform).Nodup := by
  cases platform with
  | unix => exact ⟨List.cons_ne_nil _ _, List.nodup_singleton _⟩
  | windows self target =>
    obtain ⟨hconsole, hwindows⟩ := h i hi
    rw [sendSoft_windows hconsole, sendWmClose]
    refine ⟨?_, List.nodup_range.map fun window other heq => ?_⟩
    · rw [ne_eq, List.map_eq_nil_iff, List.range_eq_nil]
      omega
    · exact SignalKind.wmClose.inj (SentSignal.mk.inj heq).1

/-- If the soft signals reach the children one by one then no child is missed. -/
theorem Shutdown.Done.missesNone {platform : SupervisorPlatform} {children : SwapArray ℤ}
    {s : Shutdown} (h : s.Done platform children) (hnodup : children.entries.Nodup)
    (hone : platform.OneByOne children) : s.MissesNone platform children := by
  refine ⟨fun pid hpid => ?_, ?_, h.dropped, h.final, fun _ => h.killed, fun signal hsignal => ?_⟩
  · obtain ⟨i, hi, rfl⟩ := SwapArray.mem_entries.mp hpid
    obtain ⟨signal, hsignal⟩ := List.exists_mem_of_ne_nil _ (sendSoft_once hone hi).1
    refine ⟨signal, ?_, pid_of_mem_sendSoft hone hi hsignal⟩
    rw [h.soft]
    exact List.mem_flatMap.mpr ⟨i, List.mem_range.mpr hi, hsignal⟩
  · rw [h.soft]
    refine List.nodup_flatMap.mpr ⟨fun i hi => (sendSoft_once hone (List.mem_range.mp hi)).2, ?_⟩
    -- signals for two places go to two processes
    refine List.nodup_range.imp_of_mem fun {i j} hi hj hne => ?_
    intro signal hfirst hsecond
    rw [List.mem_range] at hi hj
    have hsame := (pid_of_mem_sendSoft hone hi hfirst).symm.trans
      (pid_of_mem_sendSoft hone hj hsecond)
    exact hne (List.inj_on_of_nodup_map hnodup (List.mem_range.mpr hi) (List.mem_range.mpr hj) hsame)
  · rcases List.mem_append.mp hsignal with hfirst | hlast
    · rw [h.soft] at hfirst
      obtain ⟨i, hi, hmem⟩ := List.mem_flatMap.mp hfirst
      rw [List.mem_range] at hi
      exact SwapArray.mem_entries.mpr ⟨i, hi, (pid_of_mem_sendSoft hone hi hmem).symm⟩
    · exact h.hard_tracked hlast

/-- The other way round: an attached console brings the event to the supervisor itself, and without
consoles a child is reached through its own windows only. -/
theorem Shutdown.Done.oneByOne {platform : SupervisorPlatform} {children : SwapArray ℤ}
    {s : Shutdown} (h : s.Done platform children) (hnodup : children.entries.Nodup)
    (hself : ∀ self target, platform = .windows self target → self ∉ children.entries)
    (hmisses : s.MissesNone platform children) : platform.OneByOne children := by
  cases platform with
  | unix => trivial
  | windows self target =>
    have hsoft : ∀ i < children.count, ∀ signal ∈ sendSoft i (children.cells i)
        (.windows self target), signal ∈ s.soft := by
      intro i hi signal hsignal
      rw [h.soft]
      exact List.mem_flatMap.mpr ⟨i, List.mem_range.mpr hi, hsignal⟩
    have hconsole : ∀ i < children.count, (target i).console = none := by
      intro i hi
      by_contra hsome
      obtain ⟨others, hothers⟩ := Option.ne_none_iff_exists'.mp hsome
      have hsent : ⟨.ctrlC, self⟩ ∈ sendSoft i (children.cells i) (.windows self target) := by
        show _ ∈ sendCtrlC self (target i).console ++ _
        rw [hothers]
        exact List.mem_append_left _ List.mem_cons_self
      exact hself self target rfl
        (hmisses.tracked _ (List.mem_append_left _ (hsoft i hi _ hsent)))
    intro i hi
    refine ⟨hconsole i hi, Nat.pos_of_ne_zero fun hzero => ?_⟩
    obtain ⟨signal, hsignal, hpid⟩ :=
      hmisses.soft (children.cells i) (SwapArray.mem_entries.mpr ⟨i, hi, rfl⟩)
    rw [h.soft] at hsignal
    obtain ⟨j, hj, hmem⟩ := List.mem_flatMap.mp hsignal
    rw [List.mem_range] at hj
    rw [sendSoft_windows (hconsole j hj)] at hmem
    obtain ⟨window, hwindow, rfl⟩ := List.mem_map.mp hmem
    obtain rfl : j = i := List.inj_on_of_nodup_map hnodup (List.mem_range.mpr hj)
      (List.mem_range.mpr hi) hpid
    rw [hzero] at hwindow
    cases hwindow

/-- **The end of the supervisor** comes when the time is up. For any list of different children without
the supervisor itself, any answers about them and any times at which the rounds end, it misses no child
and hits nobody else exactly on Unix, and on Windows if no child has a console and each has a window. -/
theorem killChildren_missesNone_iff (platform : SupervisorPlatform) (now : ℤ)
    (rounds : List WaitRound) (answer : ℕ → StatusAnswer) {children : SwapArray ℤ}
    (hnodup : children.entries.Nodup)
    (hself : ∀ self target, platform = .windows self target → self ∉ children.entries) :
    ((∃ round ∈ rounds, now + 5 ≤ round.time) →
        (killChildren platform now rounds answer children).isSome = true) ∧
      ∀ s, killChildren platform now rounds answer children = some s →
        (s.MissesNone platform children ↔ platform.OneByOne children) :=
  ⟨killChildren_isSome answer children, fun _ hs =>
    ⟨(Shutdown.done hs).oneByOne hnodup hself, (Shutdown.done hs).missesNone hnodup⟩⟩

/-- Two children on Unix, of which the first one stops in time. -/
theorem killChildren_missesNone_two :
    let rounds : List WaitRound :=
      [⟨fun i => if i = 0 then .kill .esrch else .kill .ok, 3⟩, ⟨fun _ => .kill .ok, 5⟩]
    ∃ s, killChildren .unix 0 rounds (fun _ => .kill .ok) ⟨fun i => 100 + i, 2⟩ = some s ∧
      s.MissesNone .unix ⟨fun i => 100 + i, 2⟩ ∧ s.hard = [⟨.sigkill, 101⟩] := by
  intro rounds
  obtain ⟨hends, hmisses⟩ := @killChildren_missesNone_iff .unix 0 rounds (fun _ => .kill .ok)
    ⟨fun i => 100 + i, 2⟩ (by decide) (fun _ _ h => by cases h)
  obtain ⟨s, hs⟩ := Option.isSome_iff_exists.mp
    (hends ⟨_, List.mem_cons_of_mem _ List.mem_cons_self, by decide⟩)
  refine ⟨s, hs, (hmisses s hs).mpr trivial, ?_⟩
  obtain rfl := Option.some.inj hs
  decide

/-- Two children on the console of the session, which is process 50, and process 60 is the supervisor:
the session and the supervisor get a Ctrl-C for each child, and so does each of the children. -/
theorem killChildren_console :
    let platform : SupervisorPlatform := .windows 60 fun _ => ⟨some [50, 100, 101], 0⟩
    ∃ s, killChildren platform 0 [⟨fun _ => .notOpened, 1⟩, ⟨fun _ => .notOpened, 2⟩]
        (fun _ => .notOpened) ⟨fun i => 100 + i, 2⟩ = some s ∧
      ¬s.MissesNone platform ⟨fun i => 100 + i, 2⟩ ∧
      s.soft.count ⟨.ctrlC, 100⟩ = 2 ∧ s.soft.count ⟨.ctrlC, 50⟩ = 2 := by
  intro platform
  obtain ⟨s, hs⟩ : ∃ s, killChildren platform 0 [⟨fun _ => .notOpened, 1⟩, ⟨fun _ => .notOpened, 2⟩]
      (fun _ => .notOpened) ⟨fun i => 100 + i, 2⟩ = some s := ⟨_, rfl⟩
  refine ⟨s, hs, ?_⟩
  obtain rfl := Option.some.inj hs
  refine ⟨fun hmisses => ?_, by decide, by decide⟩
  exact absurd hmisses.once (by decide)

end Processx
