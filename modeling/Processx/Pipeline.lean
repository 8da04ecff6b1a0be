import Processx.Library.Descriptors
import Processx.Library.Programs
import Processx.Unix.ChildInit

/-!
# Pipelines

`pipeline$new()` starts the commands in turn. Before it starts one it makes the pipe to the next
one, and afterwards it closes the two ends that the new process has got. So while a process is
started no other write end is open, and none stays open in the end.
-/

namespace Processx.Pipeline

open Interruptible Posix

/-- What a descriptor refers to: an end of the pipe behind the process with a number, or something
else. -/
inductive PipeFile
  | read (i : ℕ)
  | write (i : ℕ)
  | other
  deriving DecidableEq

/-- The `stdin` and `stdout` arguments of `process$new()`: what the caller of `pipeline$new()` has
passed, or an end of a pipe. -/
inductive Stdio
  | passed (output : Output)
  | pipe (fd : ℕ)
  deriving DecidableEq

/-- A process when it is started, with the descriptors of the parent. -/
structure Spawn where
  command : String
  args : List String
  stdin : Stdio
  stdout : Stdio
  stderr : Output
  table : Table PipeFile

/-- The descriptors, and the processes that were started. -/
structure World where
  table : Table PipeFile
  spawned : List Spawn := []

/-- Before the call. -/
def World.start (table : Table Unit) : World where
  table := table.map fun _ => .other

/-- What happens to other descriptors: a file is opened, or one is closed that is no end of these
pipes. `process$new()` does nothing else to its own descriptors. -/
inductive Move
  | openOther
  | closeOther (fd : ℕ)

/-- One of these. -/
def World.move (w : World) : Move → Option World
  | .openOther => some { w with table := (w.table.openFile .other).2 }
  | .closeOther fd =>
    match w.table.entry fd with
    | some ⟨.other, _⟩ => some { w with table := w.table.close fd }
    | _ => none

/-- What `pipeline$new()` throws for. -/
inductive Failure
  | cmds
  | cmd (i : ℕ)
  | pipe
  | connection
  | arguments
  | pollPipe
  | start
  deriving DecidableEq

/-- The texts of its own errors. -/
def Failure.message : Failure → Option String
  | .cmds => some "`cmds` must be a non-empty list of character vectors"
  | .cmd i => some s!"`cmds[[{i}]]` must be a non-empty character vector"
  | _ => none

/-- Programs; the choice says if a call succeeds. -/
abbrev Call (α : Type) := Prog World Bool Failure α

/-- Actions on the world. -/
abbrev Act (ρ : Type) := Action World Bool ρ

/-- A call that opens and closes nothing. -/
def sysCall : Act Bool := fun w ok => some (ok, w)

/-- `pipe()`, with the read end first. -/
def pipe (i : ℕ) : Act (Option (ℕ × ℕ)) := fun w ok =>
  if ok then
    let (readFd, table) := w.table.openFile (.read i)
    let (writeFd, table) := table.openFile (.write i)
    some (some (readFd, writeFd), { w with table := table })
  else some (none, w)

/-- `processx__cloexec_fcntl()`, which may fail. -/
def cloexec (fd : ℕ) : Act Unit := fun w ok =>
  some ((), if ok then { w with table := w.table.setCloexec fd true } else w)

/-- `close()` -/
def close (fd : ℕ) : Act Unit := fun w _ => some ((), { w with table := w.table.close fd })

/-- `socketpair()` -/
def socketpair : Act (Option (ℕ × ℕ)) := fun w ok =>
  if ok then
    let (fd, table) := w.table.openFile .other
    let (fd', table) := table.openFile .other
    some (some (fd, fd'), { w with table := table })
  else some (none, w)

/-- `fork()` -/
def fork (command : String) (args : List String) (stdin stdout : Stdio) (stderr : Output) :
    Act Bool := fun w ok =>
  some (ok, if ok then
    { w with spawned := w.spawned ++ [⟨command, args, stdin, stdout, stderr, w.table⟩] } else w)

/-- Throw if a call does not succeed. -/
def check (call : Act Bool) (failure : Failure) : Call Unit := do
  let ok ← Prog.lift call
  if ok then .ret () else .throw failure

/-- `conn_create_proc_pipepair()`: the write end and the read end. -/
def connCreateProcPipepair (i : ℕ) : Call (ℕ × ℕ) := do
  let fds ← Prog.lift (pipe i)
  match fds with
  | none => .throw .pipe
  | some (readFd, writeFd) => do
    Prog.lift (cloexec readFd)
    Prog.lift (cloexec writeFd)
    check sysCall .connection
    check sysCall .connection
    .ret (writeFd, readFd)

/-- `conn_create_pipepair()` -/
def connCreatePipepair : Call (ℕ × ℕ) := do
  let fds ← Prog.lift socketpair
  match fds with
  | none => .throw .pollPipe
  | some (fd, fd') => do
    check sysCall .pollPipe
    check sysCall .pollPipe
    .ret (fd, fd')

/-- Make the pipe for polling, if there is one. -/
def pollPipe : Bool → Call (Option (ℕ × ℕ))
  | false => .ret none
  | true => do
    let pair ← connCreatePipepair
    .ret (some pair)

/-- `close(con)`, unless `con` is `NULL`. -/
def closeEnd : Option ℕ → Call Unit
  | none => .ret ()
  | some fd => Prog.lift (close fd)

/-- `process$new()`. The descriptors that `c_processx_exec` opens and closes are its own. -/
def processNew (command : String) (args : List String) (stdin stdout : Stdio) (stderr : Output)
    (pollConnection : Option Bool) : Call Unit := do
  check sysCall .arguments
  let poll := pollConnection.getD
    (decide (stdout ≠ .passed (.str "|")) && decide (stderr ≠ .str "|"))
  let pair ← pollPipe poll
  check (fork command args stdin stdout stderr) .start
  check sysCall .start
  closeEnd (pair.map Prod.snd)

/-- The pipe to the next process, unless there is none. -/
def nextPipe (n i : ℕ) : Call (Option (ℕ × ℕ)) :=
  if i < n then do
    let pair ← connCreateProcPipepair i
    .ret (some pair)
  else .ret none

/-- `proc_stdout` -/
def procStdout (stdout : Output) : Option (ℕ × ℕ) → Stdio
  | some (writeEnd, _) => .pipe writeEnd
  | none => .passed stdout

/-- `proc_stdin` -/
def procStdin (stdin : Output) (i : ℕ) (prevRead : Option ℕ) : Stdio :=
  if i = 1 then .passed stdin else prevRead.elim (.passed .null) .pipe

/-- The loop of `pipeline$new()` from process `i` of `n` on. A command comes with its arguments. -/
def spawnAll (n : ℕ) (stdin stdout stderr : Output) :
    ℕ → List (String × List String) → Option ℕ → Call Unit
  | _, [], _ => .ret ()
  | i, (command, args) :: cmds, prevRead => do
    let next ← nextPipe n i
    let procPoll := if i < n then some false else none
    processNew command args (procStdin stdin i prevRead) (procStdout stdout next) stderr procPoll
    closeEnd (next.map Prod.fst)
    closeEnd prevRead
    spawnAll n stdin stdout stderr (i + 1) cmds (next.map Prod.snd)

/-- The check of the commands from number `i` on. What is no character vector is `none`. -/
def checkCmds : ℕ → List (Option (List String)) → Except Failure (List (String × List String))
  | _, [] => .ok []
  | i, some (command :: args) :: cmds =>
    match checkCmds (i + 1) cmds with
    | .ok rest => .ok ((command, args) :: rest)
    | .error failure => .error failure
  | i, _ :: _ => .error (.cmd i)

/-- `pipeline$new()` -/
def pipelineInitialize (cmds : List (Option (List String))) (stdin stdout stderr : Output) :
    Call Unit :=
  if cmds = [] then .throw .cmds
  else
    match checkCmds 1 cmds with
    | .error failure => .throw failure
    | .ok cmds => spawnAll cmds.length stdin stdout stderr 1 cmds none

/-- The ends of pipes that are open, with their numbers. -/
def Ends (table : Table PipeFile) (ends : List (ℕ × PipeFile)) : Prop :=
  ∀ fd file, file ≠ .other →
    ((table.entry fd).map Entry.file = some file ↔ (fd, file) ∈ ends)

variable {table : Table PipeFile} {ends ends' : List (ℕ × PipeFile)}

/-- Two ends have two numbers. -/
theorem Ends.fd_ne (h : Ends table ends) {fd fd' : ℕ} {file file' : PipeFile}
    (hmem : (fd, file) ∈ ends) (hmem' : (fd', file') ∈ ends) (hfile : file ≠ .other)
    (hfile' : file' ≠ .other) (hne : file ≠ file') : fd ≠ fd' := by
  rintro rfl
  have hentry := (h fd file hfile).mpr hmem
  rw [(h fd file' hfile').mpr hmem'] at hentry
  exact hne (Option.some.inj hentry).symm

/-- The list of ends matters only as a set. -/
theorem Ends.congr (h : Ends table ends) (hmem : ∀ p, p ∈ ends ↔ p ∈ ends') :
    Ends table ends' :=
  fun fd file hfile => (h fd file hfile).trans (hmem _)

/-- A new descriptor. -/
theorem Ends.openFile (h : Ends table ends) (file : PipeFile) :
    Ends (table.openFile file).2 ((table.lowestFree 0, file) :: ends) := by
  intro fd file' hfile'
  rw [List.mem_cons, Prod.mk.injEq]
  unfold Table.openFile
  by_cases hfd : fd = table.lowestFree 0
  · have hfree : (fd, file') ∉ ends := fun hmem => by
      have hentry := (h fd file' hfile').mpr hmem
      rw [hfd, table.entry_lowestFree] at hentry
      cases hentry
    rw [hfd, Table.entry_set_self, ← hfd, or_iff_left hfree]
    simp only [Option.map_some, Option.some.injEq, true_and]
    exact eq_comm
  · rw [Table.entry_set_of_ne _ hfd, h fd file' hfile']
    simp [hfd]

/-- Another file. -/
theorem Ends.openOther (h : Ends table ends) : Ends (table.openFile .other).2 ends := by
  intro fd file hfile
  rw [h.openFile .other fd file hfile, List.mem_cons, Prod.mk.injEq]
  exact or_iff_right fun heq => hfile heq.2

/-- A descriptor that is closed. -/
theorem Ends.close (h : Ends table ends) (fd : ℕ) :
    Ends (table.close fd) (ends.filter fun p => p.1 ≠ fd) := by
  intro fd' file hfile
  rw [List.mem_filter]
  by_cases hfd : fd' = fd
  · simp [hfd]
  · rw [Table.entry_close_of_ne _ hfd, h fd' file hfile]
    simp [hfd]

/-- A number that is no end. -/
def Unlisted (ends : List (ℕ × PipeFile)) (fd : ℕ) : Prop :=
  ∀ file, file ≠ .other → (fd, file) ∉ ends

/-- A descriptor that is no end of a pipe is not in the list. -/
theorem Ends.unlisted (h : Ends table ends) {fd : ℕ}
    (hentry : ∀ file, file ≠ .other → (table.entry fd).map Entry.file ≠ some file) :
    Unlisted ends fd :=
  fun file hfile hmem => hentry file hfile ((h fd file hfile).mpr hmem)

/-- Closing such a descriptor leaves the ends as they are. -/
theorem Ends.closeOther (h : Ends table ends) {fd : ℕ} (hfd : Unlisted ends fd) :
    Ends (table.close fd) ends := by
  intro fd' file hfile
  by_cases heq : fd' = fd
  · rw [heq, Table.entry_close_self]
    exact iff_of_false (fun h => by cases h) (hfd file hfile)
  · rw [Table.entry_close_of_ne _ heq]
    exact h fd' file hfile

/-- The close-on-exec flags do not matter either. -/
theorem Ends.setCloexec (h : Ends table ends) (fd : ℕ) (flag : Bool) :
    Ends (table.setCloexec fd flag) ends := by
  intro fd' file hfile
  rw [← h fd' file hfile]
  unfold Table.setCloexec
  cases hentry : table.entry fd with
  | none => rfl
  | some e =>
    dsimp only
    by_cases hfd : fd' = fd
    · rw [hfd, Table.entry_set_self, hentry]
      rfl
    · rw [Table.entry_set_of_ne _ hfd]

/-- There is no pipe at the start. -/
theorem ends_start (table : Table Unit) : Ends (World.start table).table [] := by
  intro fd file hfile
  rw [World.start, Table.entry_map]
  cases table.entry fd with
  | none => simp
  | some e => simp [hfile.symm]

/-- Process `i` of `n` when it is started: no write end is open but that of its own standard output,
its standard output is the pipe to the next process, and its standard input is the read end of the
pipe of the process before. -/
structure Spawn.Placed (n : ℕ) (stdin stdout : Output) (i : ℕ) (s : Spawn) : Prop where
  onlyWrite : ∀ fd k, (s.table.entry fd).map Entry.file = some (.write k) ↔
    i < n ∧ k = i ∧ s.stdout = .pipe fd
  stdout : if i < n then ∃ fd, s.stdout = .pipe fd else s.stdout = .passed stdout
  stdin : if i = 1 then s.stdin = .passed stdin else
    ∃ fd, s.stdin = .pipe fd ∧ (s.table.entry fd).map Entry.file = some (.read (i - 1))

/-- Every process that was started is placed. -/
def AllPlaced (n : ℕ) (stdin stdout : Output) (log : List Spawn) : Prop :=
  ∀ (i : ℕ) (s : Spawn), log[i]? = some s → s.Placed n stdin stdout (i + 1)

/-- One more command in its place. -/
theorem AllPlaced.append {n : ℕ} {stdin stdout : Output} {log : List Spawn}
    (h : AllPlaced n stdin stdout log) {s : Spawn}
    (hs : s.Placed n stdin stdout (log.length + 1)) : AllPlaced n stdin stdout (log ++ [s]) := by
  intro i s' hget
  by_cases hi : i < log.length
  · rw [List.getElem?_append_left hi] at hget
    exact h i s' hget
  · rw [List.getElem?_append_right (Nat.le_of_not_lt hi)] at hget
    obtain ⟨hlt, rfl⟩ := List.getElem?_eq_some_iff.mp hget
    have hlast : i = log.length := by
      rw [List.length_singleton] at hlt
      omega
    subst hlast
    simpa using hs

/-- The ends that are open, and the processes that were started. -/
structure At (ends : List (ℕ × PipeFile)) (log : List Spawn) (w : World) : Prop where
  ends : Ends w.table ends
  log : w.spawned = log

/-- A triple for all runs, also for those that are cut off. -/
abbrev Spec (n : ℕ) (stdin stdout : Output) {α : Type} (P : World → Prop) (p : Call α)
    (Q : Except Failure α → World → Prop) : Prop :=
  Ensures World.move (fun w => AllPlaced n stdin stdout w.spawned) P p Q

variable {n : ℕ} {stdin stdout stderr : Output} {log : List Spawn}

/-- What happens to other descriptors changes nothing. -/
theorem kept_at (hlog : AllPlaced n stdin stdout log) :
    Kept World.move (fun w => AllPlaced n stdin stdout w.spawned) (At ends log) where
  move := by
    intro w m w' hw hmove
    cases m with
    | openOther =>
      obtain rfl := Option.some.inj hmove
      exact ⟨hw.ends.openOther, hw.log⟩
    | closeOther fd =>
      rw [World.move] at hmove
      split at hmove
      · next hentry =>
        obtain rfl := Option.some.inj hmove
        refine ⟨hw.ends.closeOther (hw.ends.unlisted fun file hfile => ?_), hw.log⟩
        rw [hentry]
        exact fun h => hfile (Option.some.inj h).symm
      · cases hmove
  safe w hw := hw.log ▸ hlog

section Parts

variable (hlog : AllPlaced n stdin stdout log)
include hlog

variable {α : Type} {Q : Except Failure α → World → Prop}

/-- The rule for a call that is checked. -/
theorem check_spec {failure : Failure} {f : Unit → Call α}
    (hthrow : ∀ w, At ends log w → Q (.error failure) w)
    (hnext : Spec n stdin stdout (At ends log) (f ()) Q) :
    Spec n stdin stdout (At ends log) (check sysCall failure >>= f) Q := by
  apply Ensures.act (kept_at hlog) (fun _ => At ends log)
  · rintro w ok r w' hw ⟨⟩
    exact hw
  · intro ok
    cases ok with
    | true => exact hnext
    | false => exact .throw (kept_at hlog) hthrow

/-- A pipe to the next process, or nothing if it throws. -/
theorem connCreateProcPipepair_spec (i : ℕ) :
    Spec n stdin stdout (At ends log) (connCreateProcPipepair i) fun r w =>
      ∀ pair, r = .ok pair → At ((pair.1, .write i) :: (pair.2, .read i) :: ends) log w := by
  apply Ensures.step (kept_at hlog) fun made => made.elim (At ends log)
    fun pair => At ((pair.2, .write i) :: (pair.1, .read i) :: ends) log
  · intro w ok made w' hw h
    cases ok <;> cases h
    · exact hw
    · exact ⟨(hw.ends.openFile (.read i)).openFile (.write i), hw.log⟩
  rintro (_ | ⟨readFd, writeFd⟩)
  · exact .throw (kept_at hlog) fun w hw pair h => by cases h
  · have hcloexec : ∀ (fd : ℕ) ends, ∀ w ok r w', At ends log w → cloexec fd w ok = some (r, w') →
        At ends log w' := by
      rintro fd ends w ok r w' hw ⟨⟩
      cases ok
      · exact hw
      · exact ⟨hw.ends.setCloexec fd true, hw.log⟩
    apply Ensures.step (kept_at hlog) (fun _ => At _ log) (hcloexec readFd _)
    intro _
    apply Ensures.step (kept_at hlog) (fun _ => At _ log) (hcloexec writeFd _)
    intro _
    apply check_spec hlog fun w hw pair h => by cases h
    apply check_spec hlog fun w hw pair h => by cases h
    apply Ensures.ret (kept_at hlog)
    rintro w hw pair ⟨⟩
    exact hw

/-- The pipe to the next process, unless there is none. -/
theorem nextPipe_spec (i : ℕ) :
    Spec n stdin stdout (At ends log) (nextPipe n i) fun r w =>
      ∀ next, r = .ok next → next.isSome = decide (i < n) ∧
        At (next.elim ends fun pair => (pair.1, .write i) :: (pair.2, .read i) :: ends) log w := by
  unfold nextPipe
  by_cases hi : i < n
  · rw [if_pos hi]
    apply Ensures.bind (connCreateProcPipepair_spec hlog i)
    · intro pair
      apply Ensures.conseq (R := At _ log) _ (fun w hw => hw pair rfl) fun _ _ h => h
      apply Ensures.ret (kept_at hlog)
      rintro w hw next ⟨⟩
      exact ⟨by simp [hi], hw⟩
    · intro failure w _ next h
      cases h
  · rw [if_neg hi]
    apply Ensures.ret (kept_at hlog)
    rintro w hw next ⟨⟩
    exact ⟨by simp [hi], hw⟩

/-- The pipe for polling is no end of the pipes. -/
theorem pollPipe_spec (poll : Bool) :
    Spec n stdin stdout (At ends log) (pollPipe poll) fun r w =>
      ∀ pair, r = .ok pair → (∀ fd ∈ pair.map Prod.snd, Unlisted ends fd) ∧ At ends log w := by
  cases poll with
  | false =>
    apply Ensures.ret (kept_at hlog)
    rintro w hw pair ⟨⟩
    refine ⟨fun fd hfd => ?_, hw⟩
    cases hfd
  | true =>
    have hpair : Spec n stdin stdout (At ends log) connCreatePipepair fun r w =>
        ∀ pair, r = .ok pair → Unlisted ends pair.2 ∧ At ends log w := by
      apply Ensures.step (kept_at hlog) fun made w =>
        (∀ pair, made = some pair → Unlisted ends pair.2) ∧ At ends log w
      · intro w ok made w' hw h
        have hfirst := hw.ends.openOther
        cases ok <;> cases h
        · refine ⟨?_, hw⟩
          rintro pair ⟨⟩
        · refine ⟨?_, hfirst.openOther, hw.log⟩
          rintro pair ⟨⟩
          apply hfirst.unlisted
          intro file hfile
          have hfree := (w.table.openFile .other).2.entry_lowestFree 0
          unfold Table.openFile at hfree ⊢
          rw [hfree]
          exact fun h => by cases h
      intro made
      apply Ensures.of_fact
      intro hunlisted
      rcases made with _ | pair
      · exact .throw (kept_at hlog) fun w hw pair h => by cases h
      · apply check_spec hlog fun w hw pair h => by cases h
        apply check_spec hlog fun w hw pair h => by cases h
        apply Ensures.ret (kept_at hlog)
        rintro w hw pair ⟨⟩
        exact ⟨hunlisted _ rfl, hw⟩
    apply Ensures.bind hpair
    · intro pair
      apply Ensures.conseq (R := fun w => Unlisted ends pair.2 ∧ At ends log w) _
        (fun w hw => hw pair rfl) fun _ _ h => h
      apply Ensures.of_fact
      intro hunlisted
      apply Ensures.ret (kept_at hlog)
      rintro w hw pair ⟨⟩
      refine ⟨?_, hw⟩
      rintro fd ⟨⟩
      exact hunlisted
    · intro failure w _ pair h
      cases h

/-- `close(con)` for an end. -/
theorem closeEnd_spec (fd : Option ℕ) {f : Unit → Call α}
    (hnext : Spec n stdin stdout
      (At (ends.filter fun p => fd ≠ some p.1) log) (f ()) Q) :
    Spec n stdin stdout (At ends log) (closeEnd fd >>= f) Q := by
  cases fd with
  | none =>
    rw [List.filter_eq_self.mpr fun p _ => by simp] at hnext
    exact hnext
  | some fd =>
    apply Ensures.step (kept_at hlog) (fun _ => At (ends.filter fun p => some fd ≠ some p.1) log)
    · rintro w ok r w' hw ⟨⟩
      refine ⟨(hw.ends.close fd).congr fun p => ?_, hw.log⟩
      have hne : p.1 ≠ fd ↔ some fd ≠ some p.1 :=
        not_congr ⟨fun h => congrArg some h.symm, fun h => (Option.some.inj h).symm⟩
      simp only [List.mem_filter, decide_eq_true_eq, hne]
    · exact fun _ => hnext

/-- A process is started, or something is thrown. -/
theorem processNew_spec {i : ℕ} (hi : log.length + 1 = i) (command : String) (args : List String)
    (stdin' stdout' : Stdio) (poll : Option Bool)
    (hplaced : ∀ table, Ends table ends →
      Spawn.Placed n stdin stdout i ⟨command, args, stdin', stdout', stderr, table⟩) :
    Spec n stdin stdout (At ends log)
      (processNew command args stdin' stdout' stderr poll) fun r w =>
        ∀ u, r = .ok u → ∃ s : Spawn, (s.Placed n stdin stdout i ∧
          (s.command, s.args) = (command, args)) ∧ At ends (log ++ [s]) w := by
  unfold processNew
  apply check_spec hlog fun w hw u h => by cases h
  apply Ensures.bind (pollPipe_spec hlog _)
  · intro pair
    apply Ensures.conseq
      (R := fun w => (∀ fd ∈ pair.map Prod.snd, Unlisted ends fd) ∧ At ends log w) _
      (fun w hw => hw pair rfl) fun _ _ h => h
    apply Ensures.of_fact
    intro hunlisted
    apply Ensures.act (kept_at hlog) fun (ok : Bool) w => if ok then
      ∃ s : Spawn, (s.Placed n stdin stdout i ∧ (s.command, s.args) = (command, args)) ∧
        At ends (log ++ [s]) w else At ends log w
    · rintro w ok r w' hw ⟨⟩
      cases ok
      · exact hw
      · exact ⟨_, ⟨hplaced w.table hw.ends, rfl⟩, hw.ends, by rw [← hw.log]; rfl⟩
    · rintro (_ | _)
      · apply Ensures.throw (kept_at hlog)
        intro w hw u h
        cases h
      · apply Ensures.of_exists
        intro s
        apply Ensures.of_fact
        intro hs
        have hlog' : AllPlaced n stdin stdout (log ++ [s]) := hlog.append (hi ▸ hs.1)
        apply check_spec hlog' fun w hw u h => by cases h
        cases pair with
        | none => exact .ret (kept_at hlog') fun w hw u _ => ⟨s, hs, hw⟩
        | some pair =>
          apply Ensures.act (kept_at hlog') fun _ => At ends (log ++ [s])
          · rintro w ok r w' hw ⟨⟩
            exact ⟨hw.ends.closeOther (hunlisted _ rfl), hw.log⟩
          · exact fun _ => .ret (kept_at hlog') fun w hw u _ => ⟨s, hs, hw⟩
  · intro failure w _ u h
    cases h

end Parts

/-- The read end of the pipe before process `i`. -/
def prevEnds (i : ℕ) (prevRead : Option ℕ) : List (ℕ × PipeFile) :=
  prevRead.toList.map fun fd => (fd, .read (i - 1))

/-- With the pipe to the next process. -/
def endsWith (i : ℕ) (prevRead : Option ℕ) (next : Option (ℕ × ℕ)) : List (ℕ × PipeFile) :=
  next.elim (prevEnds i prevRead) fun pair =>
    (pair.1, .write i) :: (pair.2, .read i) :: prevEnds i prevRead

/-- Process `i` is where it belongs. -/
theorem placed_of_ends {i : ℕ} {prevRead : Option ℕ} {next : Option (ℕ × ℕ)}
    (hprev : prevRead.isSome = decide (i ≠ 1)) (hnext : next.isSome = decide (i < n))
    {table : Table PipeFile} (h : Ends table (endsWith i prevRead next)) (command : String)
    (args : List String) :
    Spawn.Placed n stdin stdout i ⟨command, args, procStdin stdin i prevRead,
      procStdout stdout next, stderr, table⟩ where
  onlyWrite fd k := by
    have hread : (fd, PipeFile.write k) ∉ prevEnds i prevRead := by simp [prevEnds]
    rw [h fd (.write k) (by simp)]
    cases next with
    | none =>
      have hi : ¬ i < n := by simpa using hnext.symm
      exact iff_of_false hread fun hright => hi hright.1
    | some pair =>
      have hi : i < n := by simpa using hnext.symm
      simp only [endsWith, Option.elim_some, List.mem_cons, Prod.mk.injEq, reduceCtorEq, and_false,
        hread, or_false, PipeFile.write.injEq, procStdout, Stdio.pipe.injEq]
      exact ⟨fun heq => ⟨hi, heq.2, heq.1.symm⟩, fun heq => ⟨heq.2.2.symm, heq.2.1⟩⟩
  stdout := by
    by_cases hi : i < n
    · rw [if_pos hi]
      obtain ⟨pair, rfl⟩ := Option.isSome_iff_exists.mp (hnext.trans (decide_eq_true hi))
      exact ⟨pair.1, rfl⟩
    · rw [if_neg hi]
      obtain rfl : next = none := by simpa [hi] using hnext
      rfl
  stdin := by
    unfold procStdin
    by_cases hi : i = 1
    · rw [if_pos hi, if_pos hi]
    · rw [if_neg hi, if_neg hi]
      rw [decide_eq_true hi] at hprev
      obtain ⟨fd, rfl⟩ := Option.isSome_iff_exists.mp hprev
      refine ⟨fd, rfl, (h fd _ (by simp)).mpr ?_⟩
      have hmem : (fd, PipeFile.read (i - 1)) ∈ prevEnds i (some fd) := by simp [prevEnds]
      cases next with
      | none => exact hmem
      | some pair => exact List.mem_cons_of_mem _ (List.mem_cons_of_mem _ hmem)

/-- What is left when the ends are closed that the process has got. -/
theorem mem_closed_iff {i : ℕ} {prevRead : Option ℕ} {next : Option (ℕ × ℕ)} (hi : 1 ≤ i)
    {table : Table PipeFile} (h : Ends table (endsWith i prevRead next)) (p : ℕ × PipeFile) :
    p ∈ ((endsWith i prevRead next).filter fun p => next.map Prod.fst ≠ some p.1).filter
        (fun p => prevRead ≠ some p.1) ↔ p ∈ prevEnds (i + 1) (next.map Prod.snd) := by
  have hprev : ∀ p ∈ prevEnds i prevRead, prevRead = some p.1 := by
    intro p hp
    cases prevRead with
    | none => cases hp
    | some fd => rw [List.mem_singleton.mp hp]
  cases next with
  | none =>
    simp only [List.mem_filter, decide_eq_true_eq]
    exact iff_of_false (fun hp => hp.2 (hprev p hp.1.1)) List.not_mem_nil
  | some pair =>
    have hwrite : (pair.1, PipeFile.write i) ∈ endsWith i prevRead (some pair) :=
      List.mem_cons_self
    have hread : (pair.2, PipeFile.read i) ∈ endsWith i prevRead (some pair) :=
      List.mem_cons_of_mem _ List.mem_cons_self
    have hne : pair.1 ≠ pair.2 := h.fd_ne hwrite hread (by simp) (by simp) (by simp)
    have hkept : prevRead ≠ some pair.2 := by
      rintro rfl
      have hbefore : (pair.2, PipeFile.read (i - 1)) ∈ endsWith i (some pair.2) (some pair) := by
        simp [endsWith, prevEnds]
      refine h.fd_ne hbefore hread (by simp) (by simp) ?_ rfl
      simp only [ne_eq, PipeFile.read.injEq]
      omega
    simp only [List.mem_filter, decide_eq_true_eq, endsWith, Option.elim_some, List.mem_cons,
      Option.map_some]
    constructor
    · rintro ⟨⟨rfl | rfl | hp, hfirst⟩, hsecond⟩
      · exact absurd rfl hfirst
      · exact List.mem_singleton.mpr rfl
      · exact absurd (hprev p hp) hsecond
    · intro hp
      rw [List.mem_singleton.mp hp]
      exact ⟨⟨Or.inr (Or.inl rfl), fun heq => hne (Option.some.inj heq)⟩, hkept⟩

/-- **The loop.** Before process `i` is started the read end of the pipe before it is the only end
that is open. -/
theorem spawnAll_spec {all cmds : List (String × List String)} {i : ℕ} {prevRead : Option ℕ}
    (hlog : AllPlaced n stdin stdout log) (hi : log.length + 1 = i) (hn : i + cmds.length = n + 1)
    (hprev : prevRead.isSome = decide (i ≠ 1 ∧ i ≤ n))
    (hall : log.map (fun s => (s.command, s.args)) ++ cmds = all) :
    Spec n stdin stdout (At (prevEnds i prevRead) log)
      (spawnAll n stdin stdout stderr i cmds prevRead) fun r w => ∀ u, r = .ok u → Ends w.table [] ∧
        w.spawned.map (fun s => (s.command, s.args)) = all := by
  induction cmds generalizing i log prevRead with
  | nil =>
    have hnone : prevRead = none := by
      rw [List.length_nil] at hn
      have hfalse : prevRead.isSome = false := hprev.trans (decide_eq_false (by omega))
      simpa using hfalse
    subst hnone
    apply Ensures.ret (kept_at hlog)
    rintro w hw u ⟨⟩
    refine ⟨hw.ends, ?_⟩
    rw [hw.log, ← hall, List.append_nil]
  | cons cmd cmds ih =>
    obtain ⟨command, args⟩ := cmd
    rw [List.length_cons] at hn
    have hprev' : prevRead.isSome = decide (i ≠ 1) := hprev.trans (by simp; omega)
    unfold spawnAll
    apply Ensures.bind (nextPipe_spec hlog i)
    · intro next
      apply Ensures.conseq (R := fun w => next.isSome = decide (i < n) ∧
        At (endsWith i prevRead next) log w) _ (fun w hw => hw next rfl) fun _ _ h => h
      apply Ensures.of_fact
      intro hnext
      apply Ensures.bind (processNew_spec hlog hi command args _ _ _
        fun table hends => placed_of_ends hprev' hnext hends command args)
      · intro _
        apply Ensures.conseq (R := fun w => ∃ s : Spawn, (s.Placed n stdin stdout i ∧
          (s.command, s.args) = (command, args) ∧
            ∀ p, p ∈ ((endsWith i prevRead next).filter
              fun p => next.map Prod.fst ≠ some p.1).filter (fun p => prevRead ≠ some p.1) ↔
              p ∈ prevEnds (i + 1) (next.map Prod.snd)) ∧
          At (endsWith i prevRead next) (log ++ [s]) w) _ _ fun _ _ h => h
        · apply Ensures.of_exists
          intro s
          apply Ensures.of_fact
          rintro ⟨hplaced, hcommand, hmem⟩
          have hlog' : AllPlaced n stdin stdout (log ++ [s]) := hlog.append (hi ▸ hplaced)
          apply closeEnd_spec hlog'
          apply closeEnd_spec hlog'
          apply Ensures.conseq (R := At (prevEnds (i + 1) (next.map Prod.snd)) (log ++ [s])) _
            (fun w hw => ⟨hw.ends.congr hmem, hw.log⟩) fun _ _ h => h
          apply ih hlog'
          · rw [List.length_append, List.length_singleton, hi]
          · omega
          · have hlater : i + 1 ≠ 1 := by omega
            rw [Option.isSome_map, hnext, decide_eq_decide, and_iff_right hlater]
            exact Nat.lt_iff_add_one_le
          · rw [← hall, List.map_append, List.append_assoc, List.map_singleton, hcommand,
              List.singleton_append]
        · intro w hw
          obtain ⟨s, ⟨hplaced, hcommand⟩, hat⟩ := hw () rfl
          exact ⟨s, ⟨hplaced, hcommand, mem_closed_iff (by omega) hat.ends⟩, hat⟩
      · intro failure w _ u h
        cases h
    · intro failure w _ u h
      cases h

/-- The commands that pass the check are all of them. -/
theorem checkCmds_eq {i : ℕ} {cmds : List (Option (List String))}
    {checked : List (String × List String)} (h : checkCmds i cmds = .ok checked) :
    checked.map (fun cmd => some (cmd.1 :: cmd.2)) = cmds := by
  induction cmds generalizing i checked with
  | nil =>
    cases h
    rfl
  | cons cmd cmds ih =>
    rcases cmd with _ | _ | ⟨command, args⟩
    · cases h
    · cases h
    · unfold checkCmds at h
      cases hrest : checkCmds (i + 1) cmds with
      | error failure =>
        rw [hrest] at h
        cases h
      | ok rest =>
        rw [hrest] at h
        cases h
        exact congrArg _ (ih hrest)

end Processx.Pipeline
