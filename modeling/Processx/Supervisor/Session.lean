import Processx.Supervisor.Death

/-!
# The session and its supervisors

The R session keeps in `supervisor_info` which supervisor it talks to, and in each process object
whether the process is supervised. A supervisor that was told to end is never written to again, and
the next process to be watched gets a new one. So a process that its object calls supervised need not be
known to the present supervisor, but some supervisor was told to watch it, and not told otherwise.
-/

namespace Processx

/-- `supervisor_info`: `pid` and `stdin`, by the number of the supervisor, whose pipe is made for
it. -/
structure SupervisorInfo where
  pid : Option ℕ
  stdin : Option ℕ
  deriving DecidableEq

/-- What the session knows: `supervisor_info`, how many supervisors it has tried to start, which of
them were ready in time, which pipes are open, and `private$supervised` of each process object. The
history is what was written to each supervisor. -/
structure Session where
  info : SupervisorInfo
  created : ℕ
  started : ℕ → Bool
  isOpen : ℕ → Bool
  supervised : ℕ → Bool
  sent : ℕ → List Request

/-- A session that has just loaded the package. -/
def Session.start : Session where
  info := ⟨none, none⟩
  created := 0
  started := fun _ => false
  isOpen := fun _ => false
  supervised := fun _ => false
  sent := fun _ => []

/-- A line in an open pipe. -/
def Session.post (s : Session) (n : ℕ) (request : Request) : Session :=
  { s with sent := fun m => if m = n then s.sent m ++ [request] else s.sent m }

/-- `write_lines_named_pipe()` -/
def writeLinesNamedPipe (s : Session) (pipe : Option ℕ) (request : Request) :
    Except String Unit × Session :=
  match pipe with
  | none => (.error "no applicable method for 'write_lines_named_pipe'", s)
  | some n => if s.isOpen n then (.ok (), s.post n request) else (.error "invalid connection", s)

/-- `supervisor_kill2()` -/
def supervisorKill2 (s : Session) : Session :=
  match s.info.pid with
  | none => s
  | some _ =>
    let s :=
      match s.info.stdin with
      | none => s
      | some n =>
        if s.isOpen n then
          { s.post n .kill with isOpen := fun m => if m = n then false else s.isOpen m }
        else s
    { s with info := { s.info with pid := none } }

/-- `supervisor_reset()` -/
def supervisorReset (s : Session) : Session :=
  let s := if s.info.pid.isSome then supervisorKill2 s else s
  { s with info := ⟨none, none⟩ }

/-- `supervisor_start()`, where `ready` tells whether the supervisor is ready within five seconds. -/
def supervisorStart (s : Session) (ready : Bool) : Except String Unit × Session :=
  let n := s.created
  let s := { s with
    info := { s.info with stdin := some n }
    created := n + 1
    isOpen := fun m => if m = n then true else s.isOpen m }
  if ready then (.ok (), { s with
    info := { s.info with pid := some n }
    started := fun m => if m = n then true else s.started m })
  else (.error "processx supervisor was not ready after 5 seconds.", s)

/-- `supervisor_ensure_running()` -/
def supervisorEnsureRunning (s : Session) (ready : Bool) : Except String Unit × Session :=
  if s.info.pid.isSome then (.ok (), s) else supervisorStart s ready

/-- `supervisor_watch_pid()` -/
def supervisorWatchPid (s : Session) (ready : Bool) (pid : WatchedPid) :
    Except String Unit × Session :=
  match supervisorEnsureRunning s ready with
  | (.ok _, s) => writeLinesNamedPipe s s.info.stdin (.watch pid)
  | (.error msg, s) => (.error msg, s)

/-- `supervisor_unwatch_pid()` -/
def supervisorUnwatchPid (s : Session) (pid : WatchedPid) : Except String Unit × Session :=
  writeLinesNamedPipe s s.info.stdin (.unwatch pid)

/-- `private$supervised <- status`, unless there was an error. -/
def setSupervised (object : ℕ) (status : Bool) :
    Except String Unit × Session → Except String Unit × Session
  | (.ok _, s) => (.ok (), { s with
      supervised := fun other => if other = object then status else s.supervised other })
  | (.error msg, s) => (.error msg, s)

/-- `process_supervise()` for an object with some process id. -/
def processSupervise (pid : ℕ → WatchedPid) (s : Session) (object : ℕ) (status ready : Bool) :
    Except String Unit × Session :=
  if status && !s.supervised object then
    setSupervised object true (supervisorWatchPid s ready (pid object))
  else if !status && s.supervised object then
    setSupervised object false (supervisorUnwatchPid s (pid object))
  else (.ok (), s)

/-- The end of `process_initialize()`, with `supervise = TRUE`. -/
def initializeSupervised (pid : ℕ → WatchedPid) (s : Session) (object : ℕ) (ready : Bool) :
    Except String Unit × Session :=
  setSupervised object true (supervisorWatchPid s ready (pid object))

/-- What the user can call: `process$new()` with `supervise = TRUE`, `process$supervise()`,
`supervisor_kill()`, which is also the finalizer of `supervisor_info`, and loading or unloading the
package. -/
inductive SessionCall
  | new (object : ℕ) (ready : Bool)
  | supervise (object : ℕ) (status ready : Bool)
  | kill
  | reset

/-- The session after a call, whether it throws or not. -/
def Session.call (pid : ℕ → WatchedPid) (s : Session) : SessionCall → Session
  | .new object ready => (initializeSupervised pid s object ready).2
  | .supervise object status ready => (processSupervise pid s object status ready).2
  | .kill => supervisorKill2 s
  | .reset => supervisorReset s

/-- The last word to a supervisor about a process. -/
def Session.wants (s : Session) (n : ℕ) (pid : WatchedPid) : Bool :=
  LastWord.holds ((s.sent n).flatMap Request.words) pid.val

/-- The pipes after every sequence of calls. The supervisor that the session talks to was ready in time
and has an open pipe. A pipe is closed behind a `kill`. A supervisor that was not ready in time was told
not to watch some processes, and nothing else. -/
structure Session.Piped (s : Session) : Prop where
  current : ∀ n, s.info.pid = some n →
    s.info.stdin = some n ∧ s.isOpen n = true ∧ s.started n = true
  opened : ∀ n, s.isOpen n = true → n < s.created ∧ .kill ∉ s.sent n
  closed : ∀ n done pending, s.sent n = done ++ pending → done.getLast? = some .kill → pending = []
  unborn : ∀ n, s.created ≤ n → s.sent n = []
  born : ∀ n, s.started n = true → n < s.created
  failed : ∀ n, s.started n = false → ∀ request ∈ s.sent n, ∃ p, request = .unwatch p

/-- What holds besides. A process whose object calls it supervised is wanted by some supervisor that was
ready in time, if no other object has its id. What the present supervisor wants is supervised. -/
structure Session.Right (pid : ℕ → WatchedPid) (s : Session) : Prop extends s.Piped where
  wanted : ∀ object, s.supervised object = true → (∀ other, pid other = pid object → other = object) →
    ∃ n, s.started n = true ∧ s.wants n (pid object) = true
  flagged : ∀ n p, s.info.pid = some n → s.wants n p = true →
    ∃ object, pid object = p ∧ s.supervised object = true

variable {pid : ℕ → WatchedPid} {s : Session}

/-- The invariant holds at the start. -/
theorem Session.right_start (pid : ℕ → WatchedPid) : Session.start.Right pid where
  current := fun _ h => by cases h
  opened := fun _ h => by cases h
  closed := fun n done pending h hlast => by
    obtain ⟨rfl, -⟩ := List.append_eq_nil_iff.mp h.symm
    cases hlast
  unborn := fun _ _ => rfl
  born := fun _ h => by cases h
  failed := fun _ _ _ h => absurd h List.not_mem_nil
  wanted := fun _ h => by cases h
  flagged := fun _ _ h => by cases h

/-- What one more line makes a supervisor want. -/
theorem Session.wants_post (s : Session) (n m : ℕ) (request : Request) (p : WatchedPid) :
    (s.post n request).wants m p =
      if m = n ∧ request = .watch p then true
      else if m = n ∧ request = .unwatch p then false
      else s.wants m p := by
  unfold Session.wants Session.post
  by_cases hm : m = n
  · subst hm
    simp only [if_true, true_and, List.flatMap_append, List.flatMap_singleton]
    cases request with
    | watch q =>
      show LastWord.holds (_ ++ [(q.val, true)]) p.val = _
      rw [LastWord.holds_snoc]
      simp [Subtype.ext_iff]
    | unwatch q =>
      show LastWord.holds (_ ++ [(q.val, false)]) p.val = _
      rw [LastWord.holds_snoc]
      simp [Subtype.ext_iff]
    | kill =>
      show LastWord.holds (_ ++ []) p.val = _
      simp
  · simp [hm]

/-- A list that ends with something new has no `kill` before that. -/
theorem getLast?_prefix {sent done pending : List Request} {request : Request}
    (hkill : .kill ∉ sent) (h : sent ++ [request] = done ++ pending)
    (hlast : done.getLast? = some .kill) : pending = [] := by
  rcases pending.eq_nil_or_concat' with hnil | ⟨front, last, rfl⟩
  · exact hnil
  · rw [← List.append_assoc] at h
    have hfront := (List.append_inj_left' h rfl)
    rw [hfront] at hkill
    exact absurd (List.mem_append_left _ (List.mem_of_getLast? hlast)) hkill

/-- A line in an open pipe. -/
theorem Session.Piped.post (h : s.Piped) {n : ℕ} (hopen : s.isOpen n = true) {request : Request}
    (hrequest : request ≠ .kill) (hto : s.started n = true ∨ ∃ p, request = .unwatch p) :
    (s.post n request).Piped := by
  obtain ⟨hborn, hkill⟩ := h.opened n hopen
  refine ⟨h.current, fun m hm => ⟨(h.opened m hm).1, ?_⟩, fun m done pending heq hlast => ?_,
    fun m hm => ?_, h.born, fun m hm other hother => ?_⟩
  · have hold := (h.opened m hm).2
    unfold Session.post
    dsimp only
    split_ifs
    · simpa [hold] using hrequest.symm
    · exact hold
  · unfold Session.post at heq
    dsimp only at heq
    split_ifs at heq with hmn
    · subst hmn
      exact getLast?_prefix hkill heq hlast
    · exact h.closed m done pending heq hlast
  · unfold Session.post at hm ⊢
    dsimp only at hm ⊢
    rw [if_neg (by omega)]
    exact h.unborn m hm
  · have hm : s.started m = false := hm
    unfold Session.post at hother
    dsimp only at hother
    split_ifs at hother with hmn
    · rcases List.mem_append.mp hother with hold | hnew
      · exact h.failed m hm other hold
      · -- a request of its own, which is not for a supervisor that failed to start
        obtain rfl := List.mem_singleton.mp hnew
        rcases hto with hstarted | hunwatch
        · rw [← hmn] at hstarted
          exact absurd (hstarted.symm.trans hm) (by simp)
        · exact hunwatch
    · exact h.failed m hm other hother

/-- `supervisor_kill2()` writes `kill` to the present supervisor, closes the pipe and forgets it. -/
theorem Session.Right.kill2 (h : s.Right pid) : (supervisorKill2 s).Right pid := by
  unfold supervisorKill2
  cases hpid : s.info.pid with
  | none => exact h
  | some n =>
    obtain ⟨hstdin, hopen, hstarted⟩ := h.current n hpid
    obtain ⟨hborn, hkill⟩ := h.opened n hopen
    dsimp only
    rw [hstdin]
    dsimp only
    rw [if_pos hopen]
    refine ⟨⟨fun m hm => ?_, fun m hm => ?_, fun m done pending heq hlast => ?_,
      fun m hm => ?_, h.born, fun m hm other hother => ?_⟩, fun object hobject hunique => ?_,
      fun m p hm => ?_⟩
    · cases hm
    · dsimp only [Session.post] at hm ⊢
      split_ifs at hm with hmn
      rw [if_neg hmn]
      exact h.opened m hm
    · dsimp only [Session.post] at heq
      split_ifs at heq with hmn
      · subst hmn
        exact getLast?_prefix hkill heq hlast
      · exact h.closed m done pending heq hlast
    · dsimp only [Session.post] at hm ⊢
      rw [if_neg (by omega)]
      exact h.unborn m hm
    · have hm : s.started m = false := hm
      dsimp only [Session.post] at hother
      rw [if_neg (fun hmn => by rw [hmn, hstarted] at hm; cases hm)] at hother
      exact h.failed m hm other hother
    · obtain ⟨m, hready, hwants⟩ := h.wanted object hobject hunique
      refine ⟨m, hready, ?_⟩
      show (s.post n .kill).wants m (pid object) = true
      rw [s.wants_post]
      simpa using hwants
    · cases hm

/-- A new supervisor. -/
theorem Session.Right.start (h : s.Right pid) (hnone : s.info.pid = none) (ready : Bool) :
    (supervisorStart s ready).2.Right pid ∧
      ((supervisorStart s ready).1 = .ok () → (supervisorStart s ready).2.info.pid = some s.created) := by
  have hopened : ∀ m, (if m = s.created then true else s.isOpen m) = true →
      m < s.created + 1 ∧ .kill ∉ s.sent m := by
    intro m hm
    split_ifs at hm with hmn
    · rw [hmn, h.unborn s.created (Nat.le_refl _)]
      exact ⟨Nat.lt_succ_self _, List.not_mem_nil⟩
    · obtain ⟨hborn, hkill⟩ := h.opened m hm
      exact ⟨by omega, hkill⟩
  unfold supervisorStart
  cases ready with
  | false =>
    simp only [Bool.false_eq_true, if_false]
    have hnobody : ∀ n, s.info.pid ≠ some n := fun n => by simp [hnone]
    exact ⟨⟨⟨fun n hn => absurd hn (hnobody n), hopened, h.closed,
      fun m hm => h.unborn m (Nat.le_of_succ_le hm), fun m hm => Nat.lt_succ_of_lt (h.born m hm),
      h.failed⟩, h.wanted, fun n p hn => absurd hn (hnobody n)⟩, nofun⟩
  | true =>
    simp only [if_true]
    refine ⟨⟨⟨fun n hn => ?_, hopened, h.closed, fun m hm => h.unborn m (Nat.le_of_succ_le hm),
      fun m hm => ?_, fun m hm => ?_⟩, fun object hobject hunique => ?_, fun m p hm hwants => ?_⟩,
      fun _ => trivial⟩
    · obtain rfl := Option.some.inj hn
      exact ⟨rfl, if_pos rfl, if_pos rfl⟩
    · dsimp only at hm ⊢
      split_ifs at hm with hmn
      · omega
      · exact Nat.lt_succ_of_lt (h.born m hm)
    · dsimp only at hm
      split_ifs at hm
      exact h.failed m hm
    · obtain ⟨m, hready, hwants⟩ := h.wanted object hobject hunique
      refine ⟨m, ?_, hwants⟩
      dsimp only
      split_ifs
      · rfl
      · exact hready
    · -- the new one has not been told anything yet
      obtain rfl := Option.some.inj hm
      unfold Session.wants at hwants
      rw [h.unborn _ (Nat.le_refl _)] at hwants
      cases hwants

/-- `supervisor_ensure_running()` -/
theorem Session.Right.ensureRunning (h : s.Right pid) (ready : Bool) :
    (supervisorEnsureRunning s ready).2.Right pid ∧
      ((supervisorEnsureRunning s ready).1 = .ok () →
        ∃ n, (supervisorEnsureRunning s ready).2.info.pid = some n) := by
  unfold supervisorEnsureRunning
  cases hpid : s.info.pid with
  | none =>
    obtain ⟨hright, hok⟩ := h.start hpid ready
    exact ⟨hright, fun h => ⟨_, hok h⟩⟩
  | some n => exact ⟨h, fun _ => ⟨n, hpid⟩⟩

/-- Watching the process of an object, and the flag. -/
theorem Session.Right.watch (h : s.Right pid) (object : ℕ) (ready : Bool) :
    (setSupervised object true (supervisorWatchPid s ready (pid object))).2.Right pid := by
  obtain ⟨hright, hok⟩ := h.ensureRunning ready
  unfold supervisorWatchPid
  generalize supervisorEnsureRunning s ready = answer at hright hok ⊢
  obtain ⟨msg | _, s⟩ := answer
  · exact hright
  obtain ⟨n, hpid⟩ := hok rfl
  dsimp only at hright hpid ⊢
  obtain ⟨hstdin, hopen, hstarted⟩ := hright.current n hpid
  unfold writeLinesNamedPipe
  rw [hstdin]
  dsimp only
  rw [if_pos hopen]
  have hpiped := hright.toPiped.post hopen
    (fun heq : Request.watch (pid object) = .kill => by cases heq) (Or.inl hstarted)
  refine ⟨⟨hpiped.current, hpiped.opened, hpiped.closed, hpiped.unborn, hpiped.born, hpiped.failed⟩,
    fun other hother hunique => ?_, fun m p hm hwants => ?_⟩
  · by_cases hsame : other = object
    · subst hsame
      refine ⟨n, hstarted, ?_⟩
      show (s.post n (.watch (pid other))).wants n (pid other) = true
      rw [s.wants_post, if_pos ⟨rfl, rfl⟩]
    · have hold : s.supervised other = true := by simpa [setSupervised, Session.post, hsame] using hother
      obtain ⟨m, hready, hwants⟩ := hright.wanted other hold hunique
      refine ⟨m, hready, ?_⟩
      show (s.post n (.watch (pid object))).wants m (pid other) = true
      rw [s.wants_post]
      simp [hwants]
  · have hwants : (s.post n (.watch (pid object))).wants m p = true := hwants
    rw [s.wants_post] at hwants
    by_cases hsame : pid object = p
    · exact ⟨object, hsame, if_pos rfl⟩
    · obtain ⟨other, hother, hflag⟩ := hright.flagged m p hm (by simpa [hsame] using hwants)
      refine ⟨other, hother, ?_⟩
      simp [setSupervised, Session.post, hflag]

/-- Unwatching the process of an object, and the flag. -/
theorem Session.Right.unwatch (h : s.Right pid) (object : ℕ) :
    (setSupervised object false (supervisorUnwatchPid s (pid object))).2.Right pid := by
  unfold supervisorUnwatchPid writeLinesNamedPipe
  cases hstdin : s.info.stdin with
  | none => exact h
  | some n =>
    dsimp only
    by_cases hopen : s.isOpen n = true
    · rw [if_pos hopen]
      have hpiped := h.toPiped.post hopen
        (fun heq : Request.unwatch (pid object) = .kill => by cases heq) (Or.inr ⟨_, rfl⟩)
      refine ⟨⟨hpiped.current, hpiped.opened, hpiped.closed, hpiped.unborn, hpiped.born,
        hpiped.failed⟩,
        fun other hother hunique => ?_, fun m p hm hwants => ?_⟩
      · have hother : other ≠ object ∧ s.supervised other = true := by
          simpa [setSupervised, Session.post] using hother
        obtain ⟨m, hready, hwants⟩ := h.wanted other hother.2 hunique
        refine ⟨m, hready, ?_⟩
        show (s.post n (.unwatch (pid object))).wants m (pid other) = true
        have hne : pid object ≠ pid other := fun heq => hother.1 (hunique object heq).symm
        rw [s.wants_post]
        simp [hne, hwants]
      · have hwants : (s.post n (.unwatch (pid object))).wants m p = true := hwants
        rw [s.wants_post] at hwants
        obtain ⟨hstill, hlast⟩ : (m = n → pid object ≠ p) ∧ s.wants m p = true := by
          simpa [imp_iff_not_or] using hwants
        obtain ⟨other, hother, hflag⟩ := h.flagged m p hm hlast
        -- the present supervisor is the one that was told
        have hmn : m = n := Option.some.inj ((h.current m hm).1.symm.trans hstdin)
        refine ⟨other, hother, ?_⟩
        have hne : other ≠ object := by
          rintro rfl
          exact hstill hmn hother
        simp [setSupervised, Session.post, hflag, hne]
    · rw [if_neg hopen]
      exact h

/-- **One call** keeps it, whether it throws or not. -/
theorem Session.Right.call (h : s.Right pid) (call : SessionCall) : (s.call pid call).Right pid := by
  cases call with
  | new object ready => exact h.watch object ready
  | supervise object status ready =>
    unfold Session.call processSupervise
    dsimp only
    split_ifs
    · exact h.watch object ready
    · exact h.unwatch object
    · exact h
  | kill => exact h.kill2
  | reset =>
    have hforget : ∀ s : Session, s.Right pid → Session.Right pid { s with info := ⟨none, none⟩ } :=
      fun s h => ⟨⟨fun _ hm => absurd hm (by simp), h.opened, h.closed, h.unborn, h.born, h.failed⟩,
        h.wanted, fun _ _ hm => absurd hm (by simp)⟩
    unfold Session.call supervisorReset
    dsimp only
    split_ifs
    · exact hforget _ h.kill2
    · exact hforget _ h

/-- What was written stays written. -/
theorem Session.sent_call (pid : ℕ → WatchedPid) (s : Session) (call : SessionCall) (n : ℕ) :
    s.sent n <+: (s.call pid call).sent n := by
  have hpost : ∀ (s : Session) m request, s.sent n <+: (s.post m request).sent n := by
    intro s m request
    unfold Session.post
    dsimp only
    split_ifs
    · exact List.prefix_append _ _
    · exact List.prefix_rfl
  have hwrite : ∀ (s : Session) pipe request,
      s.sent n <+: (writeLinesNamedPipe s pipe request).2.sent n := by
    intro s pipe request
    unfold writeLinesNamedPipe
    cases pipe with
    | none => exact List.prefix_rfl
    | some m =>
      dsimp only
      split_ifs
      · exact hpost s m request
      · exact List.prefix_rfl
  have hkill : s.sent n <+: (supervisorKill2 s).sent n := by
    unfold supervisorKill2
    cases s.info.pid with
    | none => exact List.prefix_rfl
    | some _ =>
      cases s.info.stdin with
      | none => exact List.prefix_rfl
      | some m =>
        dsimp only
        split_ifs
        · exact hpost s m .kill
        · exact List.prefix_rfl
  have hset : ∀ object status (answer : Except String Unit × Session),
      (setSupervised object status answer).2.sent = answer.2.sent := by
    rintro object status ⟨_ | _, s⟩ <;> rfl
  have hwatch : ∀ ready p, s.sent n <+: (supervisorWatchPid s ready p).2.sent n := by
    intro ready p
    have hensure : (supervisorEnsureRunning s ready).2.sent = s.sent := by
      unfold supervisorEnsureRunning supervisorStart
      split_ifs <;> rfl
    unfold supervisorWatchPid
    generalize supervisorEnsureRunning s ready = answer at hensure ⊢
    obtain ⟨_ | _, s'⟩ := answer
    · exact hensure ▸ List.prefix_rfl
    · exact hensure ▸ hwrite s' _ _
  unfold Session.call
  cases call with
  | new object ready =>
    unfold initializeSupervised
    dsimp only
    rw [hset]
    exact hwatch ready _
  | supervise object status ready =>
    unfold processSupervise
    dsimp only
    split_ifs
    · rw [hset]
      exact hwatch ready _
    · rw [hset]
      exact hwrite s _ _
    · exact List.prefix_rfl
  | kill => exact hkill
  | reset =>
    unfold supervisorReset
    dsimp only
    split_ifs
    · exact hkill
    · exact List.prefix_rfl

/-- Every sequence of calls. -/
theorem supervisorInfo_right (pid : ℕ → WatchedPid) (calls : List SessionCall) :
    (calls.foldl (Session.call pid) .start).Right pid := by
  suffices hfold : ∀ s : Session, s.Right pid → (calls.foldl (Session.call pid) s).Right pid from
    hfold _ (Session.right_start pid)
  induction calls with
  | nil => exact fun s h => h
  | cons call calls ih => exact fun s h => ih _ (h.call call)

end Processx
