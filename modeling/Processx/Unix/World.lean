import Processx.Library.Programs
import Mathlib.Algebra.Group.Int.Defs
import Mathlib.Data.Int.Notation
import Mathlib.Tactic.Common

/-!
# The state shared with the SIGCHLD handler

The operating system's view of the child processes, the C state of the package (handles,
child list, free list, exit callbacks), and the SIGCHLD handler, which may run whenever
the signal is not blocked. A process identifier stands for one child process: the number
of a reaped child is not given to another one. As for `waitpid()`, the number 0 stands for
the children in R's own process group.
-/

namespace Processx

open Interruptible

/-- How a child terminated: it exited, or a signal killed it. -/
inductive WStat
  | exited (code : UInt8)
  | signaled (sig : Fin 128)
  deriving DecidableEq

/-- R's `NA_INTEGER`. -/
def naInteger : ℤ := -2 ^ 31

/-- `WEXITSTATUS`, or minus `WTERMSIG`. -/
def WStat.exitcode : WStat → ℤ
  | .exited code => code.toNat
  | .signaled sig => -sig

/-- A process identifier: unused, or a child that runs, has exited, or has exited and
been waited for. -/
inductive Proc
  | absent
  | running
  | zombie (stat : WStat)
  | reaped (stat : WStat)
  deriving DecidableEq

/-- Has the child been waited for? -/
def Proc.isReaped : Proc → Bool
  | .reaped _ => true
  | _ => false

/-- Has the child exited without having been waited for? -/
def Proc.isZombie : Proc → Bool
  | .zombie _ => true
  | _ => false

/-- The external pointer to a handle, as an R object. -/
abbrev Sexp := ℕ

/-- `processx_handle_t`: the fields that the functions below use. The descriptors are
`none` for `-1`, the grace period is in milliseconds. -/
structure Handle where
  exitcode : ℤ := 0
  collected : Bool := false
  pid : ℕ := 0
  waitpipe0 : Option ℕ := none
  waitpipe1 : Option ℕ := none
  cleanup : Bool := false
  cleanupGrace : ℤ := 0
  ptyChildFd : Option ℕ := none
  deriving DecidableEq

/-- `processx__child_list_t`. The key of the weak reference is gone when R has cleared it. -/
structure Node where
  pid : ℕ
  status : Sexp
  keyAlive : Bool := true
  deriving DecidableEq

/-- What a descriptor refers to: an end of a pipe that a wait has made, or something else. -/
inductive Fd
  | waitRead (pipe : ℕ)
  | waitWrite (pipe : ℕ)
  | other
  deriving DecidableEq

/-- The `waitpid()` calls, by the function they stand in. -/
inductive WaitSite
  | alive
  | exitStatus
  | signal
  | killCheck
  | killReap
  | exec
  | unload
  deriving DecidableEq

/-- The `kill()` calls, by the function they stand in. -/
inductive KillSite
  | signal
  | waitCheck
  | kill
  | unload
  deriving DecidableEq

/-- The `close()` calls on the ends of wait pipes and on a pty. -/
inductive CloseSite
  | handler
  | waitCleanup
  | pty
  deriving DecidableEq

/-- What `poll()` answers. -/
inductive PollAnswer
  | timeout
  | ready
  | error
  deriving DecidableEq

/-- What has happened, with the part of the state it happened in. -/
inductive Event
  | waitpid (site : WaitSite) (status : Sexp) (pid : ℕ) (before : Proc)
  | kill (site : KillSite) (status : Sexp) (target : ℤ) (sig : ℕ) (before : Proc)
  | close (site : CloseSite) (fd : ℕ) (before : Option Fd)
  | poll (status : Sexp) (collected hungup : Bool) (answer : PollAnswer)
  | handler (critical : Bool) (pids : List ℕ)
  | finalizers (critical : Bool) (dead : List Sexp)
  | forked (status : Sexp) (pid : ℕ)
  | linked (status : Sexp) (pid : ℕ)
  | stored (status : Sexp) (pid : ℕ)
  | unblocked
  | freelistFreed
  | startFailed
  | waitSetupFailed (blocked : Bool)
  | waitEnded (blocked : Bool) (answer : PollAnswer) (pid : ℕ) (before : Proc)
  | unloading (stale : List ℕ)
  deriving DecidableEq

/-- The state. The log has the newest event first; `critical` is set while
`processx_exec()` is between blocking the signal and linking the child, and the code
does not read it. -/
structure World where
  blocked : Bool := false
  installed : Bool := false
  procs : ℕ → Proc := fun _ => .absent
  handles : Sexp → Option Handle := fun _ => none
  sexps : ℕ := 0
  childList : List Node := []
  freeList : List Node := []
  fds : ℕ → Option Fd := fun _ => none
  waitPipes : ℕ := 0
  callbacks : List (List (Option (ℕ × ℕ))) := []
  critical : Bool := false
  log : List Event := []

namespace World

/-- Record an event. -/
def record (w : World) (e : Event) : World := { w with log := e :: w.log }

/-- Change the state of a process. -/
def setProc (w : World) (pid : ℕ) (p : Proc) : World :=
  { w with procs := fun n => if n = pid then p else w.procs n }

/-- Change a handle. -/
def setHandle (w : World) (status : Sexp) (h : Option Handle) : World :=
  { w with handles := fun s => if s = status then h else w.handles s }

/-- `close()`. -/
def close (w : World) (site : CloseSite) (fd : ℕ) : World :=
  { w with
    fds := fun n => if n = fd then none else w.fds n
    log := .close site fd (w.fds fd) :: w.log }

end World

/-- The result of `waitpid()`: no child has exited, this child has, there is no such
child (`ECHILD`), or another error. -/
inductive WaitResult
  | none
  | exited (stat : WStat)
  | echild
  | error
  deriving DecidableEq

/-- `waitpid(pid, &wstat, WNOHANG)` when it does not fail: a child that has exited is
reaped. -/
def World.waitNohang (w : World) (pid : ℕ) : WaitResult × World :=
  match w.procs pid with
  | .running => (.none, w)
  | .zombie stat => (.exited stat, w.setProc pid (.reaped stat))
  | .reaped _ | .absent => (.echild, w)

/-- `processx__collect_exit_status()` for an existing handle. -/
def World.collectExitStatus (w : World) (status : Sexp) (wp : WaitResult) : World :=
  match w.handles status with
  | none => w
  | some h =>
    if h.collected then w
    else
      let exitcode := match wp with
        | .exited stat => stat.exitcode
        | _ => naInteger
      let w := w.setHandle status (some
        { h with exitcode := exitcode, collected := true, ptyChildFd := none })
      match h.ptyChildFd with
      | none => w
      | some fd => w.close .pty fd

/-- The handle that the weak reference of a node leads to. -/
def World.nodeHandle (w : World) (node : Node) : Option Handle :=
  if node.keyAlive then w.handles node.status else none

/-- The part of `processx__sigchld_callback()` for a child that has exited. -/
def World.childExited (w : World) (node : Node) (wp : WaitResult) : World :=
  match w.nodeHandle node with
  | none => { w with freeList := node :: w.freeList }
  | some _ =>
    let w := w.collectExitStatus node.status wp
    let w := { w with freeList := node :: w.freeList }
    match w.handles node.status with
    | none => w
    | some h =>
      match h.waitpipe1 with
      | none => w
      | some fd => (w.close .handler fd).setHandle node.status (some { h with waitpipe1 := none })

/-- The loop of `processx__sigchld_callback()`: the nodes that stay in the list. -/
def World.reapChildren : List Node → World → List Node × World
  | [], w => ([], w)
  | node :: nodes, w =>
    match w.waitNohang node.pid with
    | (.none, w) =>
      let (kept, w) := w.reapChildren nodes
      (node :: kept, w)
    | (wp, w) => (w.childExited node wp).reapChildren nodes

/-- `processx__sigchld_callback()` on the main thread. -/
def World.sigchldCallback (w : World) : World :=
  let w := w.record (.handler w.critical (w.childList.map Node.pid))
  let (kept, w) := w.reapChildren w.childList
  { w with childList := kept }

/-- What happens outside of the main program: a child exits, or the handler runs. -/
inductive Move
  | exit (pid : ℕ) (stat : WStat)
  | sigchld
  deriving DecidableEq

/-- One such move, where it is possible. -/
def World.move (w : World) : Move → Option World
  | .exit pid stat =>
    if w.procs pid = .running then some (w.setProc pid (.zombie stat)) else none
  | .sigchld =>
    if !w.blocked && w.installed then some w.sigchldCallback else none

end Processx
