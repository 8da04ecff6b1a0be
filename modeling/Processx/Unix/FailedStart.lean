import Processx.Library.Descriptors
import Processx.Library.Programs
import Processx.Unix.ChildInit
import Mathlib.Data.List.Forall2

/-!
# The descriptors of a start that fails

`processx_exec()` opens the signal pipe, the pty and a socket pair for each `"|"`, one after
the other, and hands them over to the handle and to connection objects at its end. Each of its
errors in between closes descriptors of its own choice. What an exit leaves open without an
owner stays open: the finalizer of the handle closes the other side of the pty only.
-/

namespace Processx.FailedStart

open Interruptible Posix

/-- Who has opened a descriptor: the call, or anybody else in the R process. -/
inductive Origin
  | call
  | other
  deriving DecidableEq

/-- The fields of the handle with descriptors, `none` for `-1`. The numbers `fds 0`, `fds 1` and
`fds 2` are `fd0`, `fd1` and `fd2`. -/
structure Handle where
  fds : ℕ → Option ℕ
  ptyfd : Option ℕ
  ptyChildFd : Option ℕ

/-- The handle after `memset()`: every number is that of the standard input. -/
def Handle.cleared : Handle := ⟨fun _ => some 0, some 0, some 0⟩

/-- The descriptor table, the handle of the call once there is one, and the descriptors of the
connection objects that the call has made. -/
structure World where
  table : Table Origin
  handle : Option Handle := none
  connections : List ℕ := []

/-- Before a call: whatever is open belongs to others. -/
def World.start (table : Table Unit) : World where
  table := table.map fun _ => .other

/-- What others do meanwhile, a finalizer or another thread: they open a file, or close one of
theirs. -/
inductive Move
  | openOther
  | closeOther (fd : ℕ)

/-- A move of the others. -/
def World.move (w : World) : Move → Option World
  | .openOther => some { w with table := (w.table.openFile .other).2 }
  | .closeOther fd =>
    match w.table.entry fd with
    | some ⟨.other, _⟩ => some { w with table := w.table.close fd }
    | _ => none

/-- How a system call comes out. The child may report an `errno`. -/
inductive Choice
  | ok
  | fail
  | errno (n : ℤ)
  | epipe

/-- The calls of `processx__create_connection()`, in their order. -/
inductive Member
  | stdin
  | stdout
  | stderr
  | ptyStdin
  | ptyStdout
  deriving DecidableEq

/-- The steps of a start that may fail. A start throws at one of them. -/
inductive Step
  | pipe
  | handle
  | pty
  | socketpair (i : ℕ)
  | fork
  | childAdd
  | read
  | connection (member : Member)
  | exec
  deriving DecidableEq

/-- Programs that throw the step that has failed. -/
abbrev Call (α : Type) := Prog World Choice Step α

/-- Actions on the world. -/
abbrev Act (ρ : Type) := Action World Choice ρ

/-- A call that opens and closes nothing, and succeeds or does not. -/
def sysCall : Act Bool := fun w c =>
  match c with
  | .ok => some (true, w)
  | .fail => some (false, w)
  | _ => none

/-- The world with a new descriptor. -/
def World.opened (w : World) : World := { w with table := (w.table.openFile .call).2 }

/-- The number of that descriptor. -/
def World.newFd (w : World) : ℕ := (w.table.openFile .call).1

/-- `posix_openpt()`. -/
def openpt : Act (Option ℕ) := fun w c =>
  match c with
  | .ok => some (some w.newFd, w.opened)
  | .fail => some (none, w)
  | _ => none

/-- `pipe()` and `socketpair()`. -/
def openPair : Act (Option (ℕ × ℕ)) := fun w c =>
  match c with
  | .ok => some (some (w.newFd, w.opened.newFd), w.opened.opened)
  | .fail => some (none, w)
  | _ => none

/-- `close()`. -/
def close (fd : ℕ) : Act Unit := fun w _ => some ((), { w with table := w.table.close fd })

/-- `close()` on several descriptors. -/
def closeEach : List ℕ → Call Unit
  | [] => .ret ()
  | fd :: fds => do
    Prog.lift (close fd)
    closeEach fds

/-- `processx__make_handle()`. -/
def makeHandle : Act Bool := fun w c =>
  match c with
  | .ok => some (true, { w with handle := some .cleared })
  | .fail => some (false, w)
  | _ => none

/-- `grantpt()`, `unlockpt()`, `ptsname()` and the check of the name, as many of them as are
still to come: the pty is closed if one fails. -/
def prepareMain (fd : ℕ) : ℕ → Call (Option ℕ)
  | 0 => .ret (some fd)
  | calls + 1 => do
    let ok ← Prog.lift sysCall
    if !ok then do
      Prog.lift (close fd)
      .ret none
    else prepareMain fd calls

/-- `processx__pty_main_open()`. -/
def ptyMainOpen : Call (Option ℕ) := do
  let main ← Prog.lift openpt
  match main with
  | none => .ret none
  | some fd => prepareMain fd 4

/-- `if (cpty)`: the pty of the call. -/
def openMain (pty : Bool) : Call (Option ℕ) :=
  if pty then do
    let main ← ptyMainOpen
    match main with
    | none => .throw .pty
    | some fd => .ret (some fd)
  else .ret none

/-- `handle->fd0 = handle->fd1 = handle->fd2 = -1`. -/
def clearFds : Act Unit := fun w _ =>
  some ((), { w with handle := w.handle.map fun h => { h with fds := fun _ => none } })

/-- `handle->fd0 = fd` and the like for `fd1` and `fd2`. -/
def Handle.setFd (h : Handle) (i fd : ℕ) : Handle :=
  { h with fds := fun n => if n = i ∧ i < 3 then some fd else h.fds n }

/-- The same as an action. -/
def setFd (i fd : ℕ) : Act Unit := fun w _ =>
  some ((), { w with handle := w.handle.map fun h => h.setFd i fd })

/-- The loop over the connections from slot `i` on. The answer is `pipes`. The connection object of
a slot has the descriptor `filenos`. -/
def openSlots (filenos : ℕ → ℕ) : ℕ → List Output → Call (List Pipe)
  | _, [] => .ret []
  | i, output :: outputs => do
    let pipe ← match output with
      | .null => .ret ⟨none, none⟩
      | .str name =>
        if name = "|" then do
          let pair ← Prog.lift openPair
          match pair with
          | none => .throw (.socketpair i)
          | some (parent, child) => do
            Prog.lift (setFd i parent)
            .ret ⟨some parent, some child⟩
        else if i = 2 ∧ name = "2>&1" then .ret ⟨none, none⟩
        else if name = "" then .ret ⟨none, some i⟩
        else .ret ⟨none, none⟩
      | .connection => .ret ⟨none, some (filenos i)⟩
    let pipes ← openSlots filenos (i + 1) outputs
    .ret (pipe :: pipes)

/-- `handle->ptyfd` and `handle->pty_child_fd`, for which the other side of the pty is opened. -/
def openPtyChild (main : Option ℕ) : Act Unit := fun w c =>
  match main, c with
  | none, _ =>
    some ((), { w with handle := w.handle.map fun h => ⟨h.fds, none, none⟩ })
  | some fd, .ok =>
    some ((), { w.opened with handle := w.handle.map fun h => ⟨h.fds, some fd, some w.newFd⟩ })
  | some fd, .fail =>
    some ((), { w with handle := w.handle.map fun h => ⟨h.fds, some fd, none⟩ })
  | _, _ => none

/-- `read()` on the signal pipe: `exec_errorno` at its end, after a report of the child or after
`EPIPE`, and `none` for any other answer. -/
def readErrno : Act (Option ℤ) := fun w c =>
  match c with
  | .ok | .epipe => some (some 0, w)
  | .errno n => some (some n, w)
  | .fail => some (none, w)

/-- The loop that closes the ends of the child. -/
def closeChildEnds : List Pipe → Call Unit
  | [] => .ret ()
  | pipe :: pipes => do
    match pipe with
    | ⟨some _, some child⟩ => Prog.lift (close child)
    | _ => .ret ()
    closeChildEnds pipes

/-- The handle of the call. -/
def readHandle : Act (Option Handle) := fun w _ => some (w.handle, w)

/-- `processx_c_connection_create()`. -/
def cConnectionCreate (fd : ℕ) : Act Bool := fun w c =>
  match c with
  | .ok => some (true, { w with connections := fd :: w.connections })
  | .fail => some (false, w)
  | _ => none

/-- `processx__create_connection()`. -/
def createConnection (member : Member) (fd : ℕ) : Call Unit := do
  let ok ← Prog.lift (cConnectionCreate fd)
  if !ok then .throw (.connection member) else .ret ()

/-- The same, if there is a descriptor. -/
def createIfOpen (member : Member) : Option ℕ → Call Unit
  | none => .ret ()
  | some fd => createConnection member fd

/-- The connections of the pty, which is the standard input and output of the handle then. -/
def createPtyConnections : Option ℕ → Call Unit
  | none => .ret ()
  | some fd => do
    Prog.lift (setFd 0 fd)
    createConnection .ptyStdin fd
    Prog.lift (setFd 1 fd)
    createConnection .ptyStdout fd

/-- `processx__create_connections()`. -/
def createConnections : Call Unit := do
  let handle ← Prog.lift readHandle
  match handle with
  | none => .ret ()
  | some h => do
    createIfOpen .stdin (h.fds 0)
    createIfOpen .stdout (h.fds 1)
    createIfOpen .stderr (h.fds 2)
    createPtyConnections h.ptyfd

/-- `processx_exec()` behind `child_add()`, for the ends of the signal pipe and `pipes`. The caller
passes three connections at least. -/
def finishExec (r wr : ℕ) (pipes : List Pipe) : Call Unit := do
  Prog.lift (close wr)
  let answer ← Prog.lift readErrno
  match answer with
  | none => .throw .read
  | some execErrorno => do
    Prog.lift (close r)
    closeChildEnds (pipes.take 3)
    createConnections
    if execErrorno = 0 then .ret () else .throw .exec

/-- `processx_exec()` from `fork()` on. -/
def startChild (r wr : ℕ) (main : Option ℕ) (pipes : List Pipe) : Call Unit := do
  let forked ← Prog.lift sysCall
  if !forked then do
    closeEach (r :: wr :: main.toList)
    .throw .fork
  else do
    Prog.lift (openPtyChild main)
    let added ← Prog.lift sysCall
    if !added then do
      closeEach [r, wr]
      .throw .childAdd
    else finishExec r wr pipes

/-- `processx_exec()`, as far as it is about descriptors of the parent. -/
def processxExec (connections : List Output) (filenos : ℕ → ℕ) (pty : Bool) : Call Unit := do
  let signalPipe ← Prog.lift openPair
  match signalPipe with
  | none => .throw .pipe
  | some (r, wr) => do
    let made ← Prog.lift makeHandle
    if !made then .throw .handle
    else do
      let main ← openMain pty
      Prog.lift clearFds
      let pipes ← openSlots filenos 0 connections
      startChild r wr main pipes

/-- The descriptor that the finalizer of the handle closes. -/
def World.childFd (w : World) : Option ℕ := w.handle.bind Handle.ptyChildFd

/-- **Nothing leaks.** Every descriptor that the call has opened is closed, or the handle or a
connection object owns it. -/
def World.NoLeak (w : World) : Prop :=
  ∀ fd e, w.table.entry fd = some e → e.file = .call →
    w.childFd = some fd ∨ fd ∈ w.connections

/-- The exits that leak nothing: before anything is open; at `fork()`, if there is no socket pair;
at the child list, if there is no pty either; and at the last steps, where all descriptors have
owners except for those of socket pairs behind the standard streams. -/
def LeavesNothing (connections : List Output) (pty : Bool) : Step → Prop
  | .pipe => True
  | .handle | .pty | .socketpair _ | .read => False
  | .fork => .str "|" ∉ connections
  | .childAdd => pty = false ∧ .str "|" ∉ connections
  | .connection member => member = .ptyStdout ∧ .str "|" ∉ connections.drop 3
  | .exec => .str "|" ∉ connections.drop 3

/-- The state of a call: the handle, the descriptors that the call has open, and those of its
connection objects. -/
structure At (handle : Option Handle) (numbers connections : List ℕ) (w : World) : Prop where
  handle : w.handle = handle
  holds : w.table.Holds (· = .call) numbers
  connections : w.connections = connections

variable {handle : Option Handle} {numbers numbers' connections : List ℕ} {w : World}

/-- The order of the descriptors does not matter. -/
theorem At.perm (h : At handle numbers connections w) (hperm : numbers.Perm numbers') :
    At handle numbers' connections w := ⟨h.handle, h.holds.perm hperm, h.connections⟩

/-- A new descriptor. -/
theorem At.opened (h : At handle numbers connections w) :
    At handle (w.newFd :: numbers) connections w.opened :=
  ⟨h.handle, h.holds.openFile rfl, h.connections⟩

/-- A descriptor that is closed. -/
theorem At.close {fd : ℕ} (h : At handle (fd :: numbers) connections w) :
    At handle numbers connections { w with table := w.table.close fd } :=
  ⟨h.handle, h.holds.close, h.connections⟩

/-- What the others do changes nothing. -/
theorem kept_at (handle : Option Handle) (numbers connections : List ℕ) :
    Kept World.move (fun _ => True) (At handle numbers connections) where
  move := by
    intro w m w' hw hmove
    cases m with
    | openOther =>
      obtain rfl := Option.some.inj hmove
      exact ⟨hw.handle, hw.holds.openFile_other (by decide), hw.connections⟩
    | closeOther fd =>
      rw [World.move] at hmove
      split at hmove
      · obtain rfl := Option.some.inj hmove
        rename_i hentry
        exact ⟨hw.handle, hw.holds.close_other hentry (by simp), hw.connections⟩
      · cases hmove
  safe _ _ := trivial

/-- Nothing leaks if and only if every open descriptor of the call has an owner. -/
theorem At.noLeak_iff (h : At handle numbers connections w) :
    w.NoLeak ↔ ∀ fd ∈ numbers, handle.bind Handle.ptyChildFd = some fd ∨ fd ∈ connections := by
  unfold World.NoLeak World.childFd
  rw [h.handle, h.connections]
  constructor
  · intro hleak fd hfd
    obtain ⟨e, hentry, hcall⟩ := (h.holds.mem_iff fd).mp hfd
    exact hleak fd e hentry hcall
  · intro howned fd e hentry hcall
    apply howned
    exact (h.holds.mem_iff fd).mpr ⟨e, hentry, hcall⟩

/-- While there are no connections, two descriptors are too many for the handle. -/
theorem At.leak {a b : ℕ} (h : At handle numbers [] w) (hsub : [a, b].Sublist numbers) :
    ¬w.NoLeak := by
  have hne : a ≠ b := by simpa using h.holds.nodup.sublist hsub
  intro hleak
  have howned := h.noLeak_iff.mp hleak
  have hfirst := (howned a (hsub.subset (by simp))).resolve_right List.not_mem_nil
  have hsecond := (howned b (hsub.subset (by simp))).resolve_right List.not_mem_nil
  rw [hfirst] at hsecond
  exact hne (Option.some.inj hsecond)

/-- The other side of the pty has its owner: the rest needs connections. -/
theorem At.noLeak_rest_iff {h : Handle} {rest : List ℕ}
    (hat : At (some h) (h.ptyChildFd.toList ++ rest) connections w) :
    w.NoLeak ↔ ∀ fd ∈ rest, fd ∈ connections := by
  have hnodup := (List.nodup_append.mp hat.holds.nodup).2.2
  rw [hat.noLeak_iff]
  constructor
  · intro howned fd hfd
    apply (howned fd (List.mem_append_right _ hfd)).resolve_left
    intro hchild
    exact hnodup fd (Option.mem_toList.mpr hchild) fd hfd rfl
  · intro hrest fd hfd
    rcases List.mem_append.mp hfd with hchild | hmem
    · exact Or.inl (Option.mem_toList.mp hchild)
    · exact Or.inr (hrest fd hmem)

/-- What holds where a program returns, and where it throws. -/
def Ends {α : Type} (Q : α → World → Prop) (E : Step → World → Prop) :
    Except Step α → World → Prop
  | .ok a => Q a
  | .error step => E step

/-- A triple for all runs of a program. -/
abbrev Spec {α : Type} (P : World → Prop) (p : Call α) (Q : α → World → Prop)
    (E : Step → World → Prop) : Prop :=
  Ensures World.move (fun _ => True) P p (Ends Q E)

variable {α β : Type} {P : World → Prop} {Q : α → World → Prop} {E E' : Step → World → Prop}

/-- One program after another. -/
theorem Spec.bind {p : Call β} {f : β → Call α} {R : β → World → Prop} (hp : Spec P p R E')
    (hf : ∀ b, Spec (R b) (f b) Q E) (he : ∀ step w, E' step w → E step w) :
    Spec P (p >>= f) Q E := Ensures.bind hp hf he

/-- A program that returns. -/
theorem At.ret {a : α} (h : ∀ w, At handle numbers connections w → Q a w) :
    Spec (At handle numbers connections) (.ret a) Q E := .ret (kept_at ..) h

/-- A program that throws. -/
theorem At.throw {step : Step} (h : ∀ w, At handle numbers connections w → E step w) :
    Spec (At handle numbers connections) (.throw step : Call α) Q E := .throw (kept_at ..) h

/-- Another order of the descriptors. -/
theorem At.reorder {p : Call α} (hperm : numbers.Perm numbers')
    (h : Spec (At handle numbers' connections) p Q E) :
    Spec (At handle numbers connections) p Q E :=
  h.conseq (fun _ hw => hw.perm hperm) fun _ _ hw => hw

/-- A call that opens and closes nothing. -/
theorem sysCall_spec {f : Bool → Call α}
    (hf : ∀ ok, Spec (At handle numbers connections) (f ok) Q E) :
    Spec (At handle numbers connections) (Prog.lift sysCall >>= f) Q E := by
  apply Ensures.step (kept_at ..) (fun _ => At handle numbers connections) _ hf
  intro w c r w' hw h
  cases c <;> cases h <;> exact hw

/-- `close()`. -/
theorem close_spec {fd : ℕ} {f : Unit → Call α}
    (hf : Spec (At handle numbers connections) (f ()) Q E) :
    Spec (At handle (fd :: numbers) connections) (Prog.lift (close fd) >>= f) Q E := by
  apply Ensures.step (kept_at ..) (fun _ => At handle numbers connections) _ fun _ => hf
  rintro w c r w' hw ⟨⟩
  exact hw.close

/-- `pipe()` and `socketpair()`: two descriptors more, or none. -/
theorem openPair_spec {f : Option (ℕ × ℕ) → Call α}
    (hnone : Spec (At handle numbers connections) (f none) Q E)
    (hsome : ∀ a b, Spec (At handle (a :: b :: numbers) connections) (f (some (a, b))) Q E) :
    Spec (At handle numbers connections) (Prog.lift openPair >>= f) Q E := by
  apply Ensures.step (kept_at ..) fun made => made.elim (At handle numbers connections)
    fun pair => At handle (pair.1 :: pair.2 :: numbers) connections
  · intro w c made w' hw h
    cases c <;> cases h
    · exact hw.opened.opened.perm (List.Perm.swap ..)
    · exact hw
  · rintro (_ | ⟨a, b⟩)
    · exact hnone
    · exact hsome a b

/-- A field of the handle. -/
theorem setFd_spec {h : Handle} {i fd : ℕ} {f : Unit → Call α}
    (hf : Spec (At (some (h.setFd i fd)) numbers connections) (f ()) Q E) :
    Spec (At (some h) numbers connections) (Prog.lift (setFd i fd) >>= f) Q E := by
  apply Ensures.step (kept_at ..) (fun _ => At (some (h.setFd i fd)) numbers connections) _
    fun _ => hf
  rintro w c r w' hw ⟨⟩
  exact ⟨by simp [hw.handle], hw.holds, hw.connections⟩

/-- Closing descriptors, the first ones of the list. -/
theorem closeEach_spec (fds : List ℕ) :
    Spec (At handle (fds ++ numbers) connections) (closeEach fds)
      (fun _ => At handle numbers connections) (fun _ _ => False) := by
  induction fds with
  | nil => exact At.ret fun w hw => hw
  | cons fd fds ih => exact close_spec ih

/-- The calls on the pty: it stays open if all of them succeed. -/
theorem prepareMain_spec (fd calls : ℕ) :
    Spec (At handle (fd :: numbers) connections) (prepareMain fd calls)
      (fun main => At handle (main.toList ++ numbers) connections) (fun _ _ => False) := by
  induction calls with
  | zero => exact At.ret fun w hw => hw
  | succ calls ih =>
    apply sysCall_spec
    rintro (_ | _)
    · exact close_spec (At.ret fun w hw => hw)
    · exact ih

/-- `processx__pty_main_open()`: its failures leave nothing behind. -/
theorem ptyMainOpen_spec :
    Spec (At handle numbers connections) ptyMainOpen
      (fun main => At handle (main.toList ++ numbers) connections) (fun _ _ => False) := by
  apply Ensures.step (kept_at ..) fun main => At handle (main.toList ++ numbers) connections
  · intro w c main w' hw h
    cases c <;> cases h
    · exact hw.opened
    · exact hw
  · rintro (_ | fd)
    · exact At.ret fun w hw => hw
    · exact prepareMain_spec fd 4

/-- The pty of the call, if it is asked for. -/
theorem openMain_spec (pty : Bool) :
    Spec (At handle numbers connections) (openMain pty)
      (fun main w => main.isSome = pty ∧ At handle (main.toList ++ numbers) connections w)
      (fun step w => step = .pty ∧ At handle numbers connections w) := by
  cases pty with
  | false => exact At.ret fun w hw => ⟨rfl, hw⟩
  | true =>
    apply Spec.bind ptyMainOpen_spec
    · rintro (_ | fd)
      · exact At.throw fun w hw => ⟨rfl, hw⟩
      · exact At.ret fun w hw => ⟨rfl, hw⟩
    · exact fun _ _ h => h.elim

/-- Both ends of a socket pair. -/
def ends : Pipe → List ℕ
  | ⟨some parent, some child⟩ => [parent, child]
  | _ => []

/-- What the loop makes of a slot: a socket pair for `"|"`, and nothing for the parent else. -/
def Made (output : Output) (pipe : Pipe) : Prop :=
  if output = .str "|" then ∃ parent child, pipe = ⟨some parent, some child⟩
  else pipe.parent = none

/-- The handle after the slots from `i` on. -/
def Handle.setFds (h : Handle) : ℕ → List Pipe → Handle
  | _, [] => h
  | i, pipe :: pipes => (pipe.parent.elim h (h.setFd i)).setFds (i + 1) pipes

/-- Setting a descriptor of a handle leaves that of its terminal alone. -/
@[simp] theorem Handle.setFd_ptyChildFd (h : Handle) (i fd : ℕ) :
    (h.setFd i fd).ptyChildFd = h.ptyChildFd := rfl

/-- The loop over the connections: it throws at a socket pair, and holds what it held then. -/
theorem openSlots_spec (filenos : ℕ → ℕ) (outputs : List Output) :
    ∀ (i : ℕ) (h : Handle) (numbers : List ℕ),
      Spec (At (some h) numbers []) (openSlots filenos i outputs)
        (fun pipes w => List.Forall₂ Made outputs pipes ∧
          At (some (h.setFds i pipes)) (pipes.flatMap ends ++ numbers) [] w)
        (fun step w => (∃ k, step = .socketpair k) ∧
          ∃ h' numbers', numbers.Sublist numbers' ∧ At (some h') numbers' [] w) := by
  induction outputs with
  | nil => exact fun i h numbers => At.ret fun w hw => ⟨.nil, hw⟩
  | cons output outputs ih =>
    intro i h numbers
    -- the rest of the loop, once the slot is done
    have hrest : ∀ (pipe : Pipe), Made output pipe →
        Spec (At (some (pipe.parent.elim h (h.setFd i))) (ends pipe ++ numbers) [])
          (do
            let pipes ← openSlots filenos (i + 1) outputs
            .ret (pipe :: pipes))
          (fun pipes w => List.Forall₂ Made (output :: outputs) pipes ∧
            At (some (h.setFds i pipes)) (pipes.flatMap ends ++ numbers) [] w)
          (fun step w => (∃ k, step = .socketpair k) ∧
            ∃ h' numbers', numbers.Sublist numbers' ∧ At (some h') numbers' [] w) := by
      intro pipe hmade
      apply Spec.bind (ih (i + 1) _ _)
      · intro pipes
        apply Ensures.of_fact
        intro hpipes
        apply At.ret
        intro w hw
        refine ⟨.cons hmade hpipes, hw.perm ?_⟩
        rw [List.flatMap_cons, ← List.append_assoc]
        exact List.perm_append_comm.append_right numbers
      · rintro step w ⟨hstep, h', numbers', hsub, hat⟩
        exact ⟨hstep, h', numbers', (List.sublist_append_right ..).trans hsub, hat⟩
    cases output with
    | null => exact hrest ⟨none, none⟩ (by simp [Made])
    | connection => exact hrest ⟨none, some (filenos i)⟩ (by simp [Made])
    | str name =>
      rw [openSlots]
      dsimp only
      split
      · rename_i hname
        apply openPair_spec
        · exact At.throw fun w hw => ⟨⟨i, rfl⟩, h, numbers, List.Sublist.refl _, hw⟩
        · intro parent child
          apply setFd_spec
          exact hrest ⟨some parent, some child⟩ (by simp [Made, hname])
      · rename_i hname
        split
        · exact hrest ⟨none, none⟩ (by simp [Made, hname])
        · split
          · exact hrest ⟨none, some i⟩ (by simp [Made, hname])
          · exact hrest ⟨none, none⟩ (by simp [Made, hname])

/-- There are ends if and only if a `"|"` was asked for. -/
theorem flatMap_ends_eq_nil_iff {outputs : List Output} {pipes : List Pipe}
    (h : List.Forall₂ Made outputs pipes) :
    pipes.flatMap ends = [] ↔ .str "|" ∉ outputs := by
  induction h with
  | nil => simp
  | @cons output pipe outputs pipes hmade _ ih =>
    rw [List.flatMap_cons, List.append_eq_nil_iff, ih, List.mem_cons, not_or]
    apply and_congr_left'
    unfold Made at hmade
    split at hmade
    · rename_i hbar
      obtain ⟨parent, child, rfl⟩ := hmade
      simp [ends, hbar]
    · rename_i hbar
      obtain ⟨parent, child⟩ := pipe
      obtain rfl : parent = none := hmade
      simp [ends, Ne.symm hbar]

/-- The ends come in pairs. -/
theorem exists_ends {pipes : List Pipe} (h : pipes.flatMap ends ≠ []) :
    ∃ parent child, [parent, child].Sublist (pipes.flatMap ends) := by
  induction pipes with
  | nil => exact absurd rfl h
  | cons pipe pipes ih =>
    rw [List.flatMap_cons] at h ⊢
    obtain ⟨_ | parent, _ | child⟩ := pipe
    · exact ih h
    · exact ih h
    · exact ih h
    · exact ⟨parent, child, List.sublist_append_left ..⟩

/-- Socket pairs without connections are too many for the handle. -/
theorem At.noLeak_ends_iff {outputs : List Output} {pipes : List Pipe}
    (hmade : List.Forall₂ Made outputs pipes) (h : At handle (pipes.flatMap ends) [] w) :
    w.NoLeak ↔ .str "|" ∉ outputs := by
  rw [← flatMap_ends_eq_nil_iff hmade]
  constructor
  · intro hleak
    by_contra hends
    obtain ⟨parent, child, hsub⟩ := exists_ends hends
    exact h.leak hsub hleak
  · intro hnil
    rw [h.noLeak_iff, hnil]
    exact nofun

/-- The ends of the child are closed. -/
theorem closeChildEnds_spec {outputs : List Output} {pipes : List Pipe}
    (hmade : List.Forall₂ Made outputs pipes) :
    Spec (At handle (pipes.flatMap ends ++ numbers) connections) (closeChildEnds pipes)
      (fun _ => At handle (pipes.filterMap Pipe.parent ++ numbers) connections)
      (fun _ _ => False) := by
  induction hmade generalizing numbers with
  | nil => exact At.ret fun w hw => hw
  | @cons output pipe outputs pipes hslot _ ih =>
    unfold Made at hslot
    split at hslot
    · obtain ⟨parent, child, rfl⟩ := hslot
      apply At.reorder (List.Perm.swap ..)
      apply close_spec
      apply At.reorder List.perm_middle.symm
      apply ih.conseq (fun _ hw => hw)
      rintro (step | _) w hw
      · exact hw
      · exact hw.perm List.perm_middle
    · obtain ⟨parent, child⟩ := pipe
      obtain rfl : parent = none := hslot
      exact ih

/-- A connection, if there is a descriptor for it. -/
theorem createIfOpen_spec (member : Member) (fd : Option ℕ) :
    Spec (At handle numbers connections) (createIfOpen member fd)
      (fun _ => At handle numbers (fd.toList ++ connections))
      (fun step w => step = .connection member ∧ ∃ n, fd = some n ∧
        At handle numbers connections w) := by
  cases fd with
  | none => exact At.ret fun w hw => hw
  | some fd =>
    apply Ensures.step (kept_at ..) fun ok =>
      At handle numbers (if ok then fd :: connections else connections)
    · intro w c ok w' hw h
      cases c <;> cases h
      · exact ⟨hw.handle, hw.holds, congrArg (fd :: ·) hw.connections⟩
      · exact hw
    · rintro (_ | _)
      · exact At.throw fun w hw => ⟨rfl, fd, rfl, hw⟩
      · exact At.ret fun w hw => hw

/-- The connections of the pty. Once the first one is there, the pty has an owner. -/
theorem createPtyConnections_spec (h : Handle) (main : Option ℕ) :
    Spec (At (some h) numbers connections) (createPtyConnections main)
      (fun _ w => ∃ h' : Handle, h'.ptyChildFd = h.ptyChildFd ∧ ∃ connections' : List ℕ,
        (∀ fd, fd ∈ connections' ↔ fd ∈ main.toList ++ connections) ∧
          At (some h') numbers connections' w)
      (fun step w => ∃ h' : Handle, h'.ptyChildFd = h.ptyChildFd ∧ ∃ n, main = some n ∧
        (step = .connection .ptyStdin ∧ At (some h') numbers connections w ∨
          step = .connection .ptyStdout ∧ At (some h') numbers (n :: connections) w)) := by
  cases main with
  | none => exact At.ret fun w hw => ⟨h, rfl, connections, fun _ => Iff.rfl, hw⟩
  | some n =>
    apply setFd_spec
    apply Spec.bind (createIfOpen_spec .ptyStdin (some n))
    · intro _
      apply setFd_spec
      apply (createIfOpen_spec .ptyStdout (some n)).conseq (fun _ hw => hw)
      rintro (step | _) w hw
      · obtain ⟨rfl, _, _, hat⟩ := hw
        exact ⟨_, by simp, n, rfl, Or.inr ⟨rfl, hat⟩⟩
      · exact ⟨_, by simp, _, by simp, hw⟩
    · rintro step w ⟨rfl, _, _, hat⟩
      exact ⟨_, by simp, n, rfl, Or.inl ⟨rfl, hat⟩⟩

/-- What needs a connection: the pty, the ends of the parent for the standard streams, and the
socket pairs behind them, which do not get one. -/
def Handle.toOwn (h : Handle) (others : List ℕ) : List ℕ :=
  h.ptyfd.toList ++
    ((h.fds 0).toList ++ ((h.fds 1).toList ++ ((h.fds 2).toList ++ others)))

/-- What a call holds when it makes the connections: that, and the other side of the pty. -/
def Handle.before (h : Handle) (others : List ℕ) : List ℕ :=
  h.ptyChildFd.toList ++ h.toOwn others

/-- A descriptor without a connection leaks. -/
theorem At.leak_toOwn {h h' : Handle} {others : List ℕ} {fd : ℕ}
    (hat : At (some h') (h.before others) connections w) (hchild : h'.ptyChildFd = h.ptyChildFd)
    (hfd : fd ∈ h.toOwn others) (hnot : fd ∉ connections) : ¬w.NoLeak := by
  rw [Handle.before, ← hchild] at hat
  intro hleak
  exact hnot (hat.noLeak_rest_iff.mp hleak fd hfd)

/-- With a connection for each descriptor of the handle, only the other socket pairs are left. -/
theorem At.noLeak_toOwn_iff {h h' : Handle} {others : List ℕ}
    (hat : At (some h') (h.before others) connections w) (hchild : h'.ptyChildFd = h.ptyChildFd)
    (howned : ∀ fd, fd ∈ connections ↔ fd ∈ h.ptyfd.toList ++
      ((h.fds 2).toList ++ ((h.fds 1).toList ++ (h.fds 0).toList))) :
    w.NoLeak ↔ others = [] := by
  have hnodup := (List.nodup_append.mp hat.holds.nodup).2.1
  rw [Handle.before, ← hchild] at hat
  rw [hat.noLeak_rest_iff]
  simp only [Handle.toOwn, List.nodup_append, howned, List.mem_append] at hnodup ⊢
  constructor
  · intro hall
    apply List.eq_nil_iff_forall_not_mem.mpr
    intro fd hfd
    grind
  · rintro rfl fd hfd
    grind

/-- **The connections.** If one of them fails, everything has an owner only if it is the second
one of the pty. -/
theorem createConnections_spec (h : Handle) (others : List ℕ) :
    Spec (At (some h) (h.before others) []) createConnections
      (fun _ w => ∃ h' connections,
        (∀ w, At (some h') (h.before others) connections w → (w.NoLeak ↔ others = [])) ∧
          At (some h') (h.before others) connections w)
      (fun step w => ∃ member, step = .connection member ∧
        (w.NoLeak ↔ member = .ptyStdout ∧ others = [])) := by
  have hleak : ∀ {h' : Handle} {connections : List ℕ} {member : Member} {w : World} (fd : ℕ),
      member ≠ .ptyStdout → At (some h') (h.before others) connections w →
      h'.ptyChildFd = h.ptyChildFd → fd ∈ h.toOwn others →
      ((h.toOwn others).Nodup → fd ∉ connections) →
      (w.NoLeak ↔ member = .ptyStdout ∧ others = []) := by
    intro h' connections member w fd hmember hat hchild hfd hnot
    have hnodup := (List.nodup_append.mp hat.holds.nodup).2.1
    exact iff_of_false (hat.leak_toOwn hchild hfd (hnot hnodup)) fun heq => hmember heq.1
  apply Ensures.step (kept_at ..) fun handle w =>
    handle = some h ∧ At (some h) (h.before others) [] w
  · rintro w c r w' hw ⟨⟩
    exact ⟨hw.handle, hw⟩
  intro handle
  apply Ensures.of_fact
  rintro rfl
  apply Spec.bind (createIfOpen_spec .stdin (h.fds 0))
  · intro _
    apply Spec.bind (createIfOpen_spec .stdout (h.fds 1))
    · intro _
      apply Spec.bind (createIfOpen_spec .stderr (h.fds 2))
      · intro _
        apply (createPtyConnections_spec h h.ptyfd).conseq (fun _ hw => hw)
        rintro (step | _) w hw
        · obtain ⟨h', hchild, fd, hfd, ⟨rfl, hat⟩ | ⟨rfl, hat⟩⟩ := hw
          · refine ⟨.ptyStdin, rfl, hleak fd nofun hat hchild ?_ ?_⟩
            · simp [Handle.toOwn, hfd]
            · simp only [Handle.toOwn, hfd, List.nodup_append]
              grind
          · refine ⟨.ptyStdout, rfl, ?_⟩
            rw [hat.noLeak_toOwn_iff hchild (by simp [hfd]), eq_self_iff_true, true_and]
        · obtain ⟨h', hchild, connections, hmem, hat⟩ := hw
          refine ⟨h', connections, fun w hat => ?_, hat⟩
          exact hat.noLeak_toOwn_iff hchild (by simpa using hmem)
      · rintro step w ⟨rfl, fd, hfd, hat⟩
        refine ⟨.stderr, rfl, hleak fd nofun hat rfl ?_ ?_⟩
        · simp [Handle.toOwn, hfd]
        · simp only [Handle.toOwn, hfd, List.nodup_append]
          grind
    · rintro step w ⟨rfl, fd, hfd, hat⟩
      refine ⟨.stdout, rfl, hleak fd nofun hat rfl ?_ ?_⟩
      · simp [Handle.toOwn, hfd]
      · simp only [Handle.toOwn, hfd, List.nodup_append]
        grind
  · rintro step w ⟨rfl, fd, hfd, hat⟩
    refine ⟨.stdin, rfl, hleak fd nofun hat rfl ?_ fun _ => List.not_mem_nil⟩
    simp [Handle.toOwn, hfd]

/-- Setting one number leaves the others alone. -/
theorem Handle.setFd_fds_of_ne (h : Handle) {i n : ℕ} (fd : ℕ) (hne : n ≠ i) :
    (h.setFd i fd).fds n = h.fds n := if_neg fun heq => hne heq.1

/-- The number of a standard stream is the end of the parent of its slot. -/
theorem Handle.setFds_fds (h : Handle) (i : ℕ) (pipes : List Pipe) {n : ℕ} (hn : n < 3) :
    (h.setFds i pipes).fds n =
      if n < i then h.fds n else ((pipes[n - i]?).bind Pipe.parent).or (h.fds n) := by
  induction pipes generalizing h i with
  | nil => simp [Handle.setFds]
  | cons pipe pipes ih =>
    rw [Handle.setFds, ih]
    rcases lt_trichotomy n i with hlt | rfl | hgt
    · rw [if_pos (by omega), if_pos hlt]
      cases pipe.parent with
      | none => rfl
      | some fd => exact h.setFd_fds_of_ne fd (by omega)
    · rw [if_pos (by omega), if_neg (by omega), Nat.sub_self, List.getElem?_cons_zero]
      cases hparent : pipe.parent with
      | none => simp [hparent]
      | some fd => simp [hparent, Handle.setFd, hn]
    · rw [if_neg (by omega), if_neg (by omega)]
      obtain ⟨k, rfl⟩ : ∃ k, n = i + 1 + k := ⟨n - (i + 1), by omega⟩
      rw [show i + 1 + k - (i + 1) = k by omega, show i + 1 + k - i = k + 1 by omega,
        List.getElem?_cons_succ]
      cases pipe.parent with
      | none => rfl
      | some fd => rw [Option.elim_some, Handle.setFd_fds_of_ne h fd (by omega)]

/-- The ends of the parent that get a connection. -/
theorem filterMap_take_parent (pipes : List Pipe) :
    (pipes.take 3).filterMap Pipe.parent =
      ((pipes[0]?).bind Pipe.parent).toList ++ (((pipes[1]?).bind Pipe.parent).toList ++
        ((pipes[2]?).bind Pipe.parent).toList) := by
  match pipes with
  | [] => rfl
  | [a] => cases h : a.parent <;> simp [h]
  | [a, b] => cases ha : a.parent <;> cases hb : b.parent <;> simp [ha, hb]
  | a :: b :: c :: rest =>
    cases ha : a.parent <;> cases hb : b.parent <;> cases hc : c.parent <;> simp [ha, hb, hc]

/-- The exits behind the child list. -/
theorem finishExec_spec {outputs : List Output} {pipes : List Pipe} (pty : Bool) (h : Handle)
    {r wr : ℕ} (hmade : List.Forall₂ Made outputs pipes)
    (hfds : ∀ n < 3, h.fds n = (pipes[n]?).bind Pipe.parent) :
    Spec (At (some h) (wr :: r :: (h.ptyChildFd.toList ++ (h.ptyfd.toList ++
        pipes.flatMap ends))) []) (finishExec r wr pipes) (fun _ _ => True)
      (fun step w => w.NoLeak ↔ LeavesNothing outputs pty step) := by
  have hothers := flatMap_ends_eq_nil_iff (List.forall₂_drop 3 hmade)
  apply close_spec
  apply Ensures.step (kept_at ..) fun _ => At (some h) (r :: (h.ptyChildFd.toList ++
    (h.ptyfd.toList ++ pipes.flatMap ends))) []
  · intro w c answer w' hw hread
    cases c <;> cases hread <;> exact hw
  rintro (_ | execErrorno)
  · apply At.throw
    intro w hw
    have hrest := (hw.perm List.perm_middle.symm).noLeak_rest_iff
    exact iff_of_false (fun hleak => List.not_mem_nil (hrest.mp hleak r (by simp))) nofun
  · apply close_spec
    have hperm : (h.ptyChildFd.toList ++ (h.ptyfd.toList ++ pipes.flatMap ends)).Perm
        ((pipes.take 3).flatMap ends ++ (h.ptyChildFd.toList ++ (h.ptyfd.toList ++
          (pipes.drop 3).flatMap ends))) := by
      rw [List.perm_iff_count]
      intro fd
      have hsplit : pipes.flatMap ends = (pipes.take 3).flatMap ends ++
          (pipes.drop 3).flatMap ends := by
        rw [← List.flatMap_append, List.take_append_drop]
      simp only [hsplit, List.count_append]
      omega
    have hbefore : ((pipes.take 3).filterMap Pipe.parent ++ (h.ptyChildFd.toList ++
        (h.ptyfd.toList ++ (pipes.drop 3).flatMap ends))).Perm
        (h.before ((pipes.drop 3).flatMap ends)) := by
      rw [List.perm_iff_count]
      intro fd
      rw [filterMap_take_parent, ← hfds 0 (by omega), ← hfds 1 (by omega), ← hfds 2 (by omega)]
      simp only [Handle.before, Handle.toOwn, List.count_append]
      omega
    apply At.reorder hperm
    apply Spec.bind (closeChildEnds_spec (List.forall₂_take 3 hmade))
    · intro _
      apply At.reorder hbefore
      apply Spec.bind (createConnections_spec h _)
      · intro _
        apply Ensures.of_exists
        intro h'
        apply Ensures.of_exists
        intro connections
        apply Ensures.of_fact
        intro hleak
        split
        · exact At.ret fun _ _ => trivial
        · apply At.throw
          intro w hw
          exact (hleak w hw).trans hothers
      · rintro step w ⟨member, rfl, hiff⟩
        rw [hiff, hothers]
        exact Iff.rfl
    · exact fun _ _ hfalse => hfalse.elim

/-- The exits from `fork()` on. -/
theorem startChild_spec {outputs : List Output} {pipes : List Pipe} {main : Option ℕ} (h : Handle)
    {r wr : ℕ} (hmade : List.Forall₂ Made outputs pipes)
    (hfds : ∀ n < 3, h.fds n = (pipes[n]?).bind Pipe.parent) :
    Spec (At (some h) (r :: wr :: (main.toList ++ pipes.flatMap ends)) [])
      (startChild r wr main pipes) (fun _ _ => True)
      (fun step w => w.NoLeak ↔ LeavesNothing outputs main.isSome step) := by
  apply sysCall_spec
  rintro (_ | _)
  · apply Spec.bind (closeEach_spec (r :: wr :: main.toList))
    · intro _
      apply At.throw
      intro w hw
      exact hw.noLeak_ends_iff hmade
    · exact fun _ _ hfalse => hfalse.elim
  · apply Ensures.step (kept_at ..) fun _ w => ∃ child : Option ℕ,
      At (some ⟨h.fds, main, child⟩)
        (child.toList ++ (r :: wr :: (main.toList ++ pipes.flatMap ends))) [] w
    · intro w c r' w' hw hopen
      cases main with
      | none =>
        cases hopen
        exact ⟨none, by simp [hw.handle], hw.holds, hw.connections⟩
      | some fd =>
        cases c <;> cases hopen
        · exact ⟨some w.newFd, by simp [hw.handle], hw.opened.holds, hw.connections⟩
        · exact ⟨none, by simp [hw.handle], hw.holds, hw.connections⟩
    · intro _
      apply Ensures.of_exists
      intro child
      apply sysCall_spec
      have hperm : (child.toList ++ (r :: wr :: (main.toList ++ pipes.flatMap ends))).Perm
          (r :: wr :: (child.toList ++ (main.toList ++ pipes.flatMap ends))) :=
        List.perm_middle.trans (List.perm_middle.cons r)
      rintro (_ | _)
      · apply At.reorder hperm
        apply Spec.bind (closeEach_spec [r, wr])
        · intro _
          apply At.throw
          intro w hw
          apply hw.noLeak_rest_iff.trans (List.subset_nil.trans _)
          rw [List.append_eq_nil_iff, flatMap_ends_eq_nil_iff hmade]
          cases main <;> simp [LeavesNothing]
        · exact fun _ _ hfalse => hfalse.elim
      · apply At.reorder (hperm.trans (List.Perm.swap ..))
        exact finishExec_spec main.isSome ⟨h.fds, main, child⟩ hmade hfds

/-- All exits of a start. -/
theorem processxExec_spec (outputs : List Output) (filenos : ℕ → ℕ) (pty : Bool) :
    Spec (At none [] []) (processxExec outputs filenos pty) (fun _ _ => True)
      (fun step w => w.NoLeak ↔ LeavesNothing outputs pty step) := by
  apply openPair_spec
  · apply At.throw
    intro w hw
    rw [hw.noLeak_iff]
    exact iff_of_true nofun trivial
  intro r wr
  apply Ensures.step (kept_at ..) fun made =>
    At (if made then some .cleared else none) [r, wr] []
  · intro w c made w' hw hmake
    cases c <;> cases hmake
    · exact ⟨rfl, hw.holds, hw.connections⟩
    · exact hw
  rintro (_ | _)
  · apply At.throw
    intro w hw
    exact iff_of_false (hw.leak (List.Sublist.refl _)) id
  · apply Spec.bind (openMain_spec pty)
    · intro main
      apply Ensures.of_fact
      rintro rfl
      apply Ensures.step (kept_at ..) fun _ =>
        At (some ⟨fun _ => none, some 0, some 0⟩) (main.toList ++ [r, wr]) []
      · rintro w c u w' hw ⟨⟩
        exact ⟨by simp [hw.handle, Handle.cleared], hw.holds, hw.connections⟩
      intro _
      apply Spec.bind (openSlots_spec filenos outputs 0 _ _)
      · intro pipes
        apply Ensures.of_fact
        intro hmade
        have hperm : (pipes.flatMap ends ++ (main.toList ++ [r, wr])).Perm
            (r :: wr :: (main.toList ++ pipes.flatMap ends)) := by
          rw [List.perm_iff_count]
          intro fd
          simp only [List.count_append, List.count_cons, List.count_nil]
          omega
        apply At.reorder hperm
        apply startChild_spec _ hmade
        intro n hn
        rw [Handle.setFds_fds _ 0 pipes hn, if_neg n.not_lt_zero, Nat.sub_zero, Option.or_none]
      · rintro step w ⟨⟨k, rfl⟩, h, numbers, hsub, hw⟩
        exact iff_of_false (hw.leak ((List.sublist_append_right ..).trans hsub)) id
    · rintro step w ⟨rfl, hw⟩
      exact iff_of_false (hw.leak (List.Sublist.refl _)) id

/-- Before a call, none of its descriptors is open. -/
theorem at_start (table : Table Unit) : At none [] [] (.start table) where
  handle := rfl
  holds := by
    constructor
    · exact List.nodup_nil
    · intro fd
      apply iff_of_false List.not_mem_nil
      rintro ⟨e, hentry, hcall⟩
      rw [World.start, Table.entry_map] at hentry
      obtain ⟨_, _, rfl⟩ := Option.map_eq_some_iff.mp hentry
      cases hcall
  connections := rfl

/-- **Failed starts.** A start that throws leaks none of its descriptors if and only if it has
failed at a step that leaves nothing behind. -/
theorem failed_start_leaks_nothing_iff (connections : List Output) (filenos : ℕ → ℕ) (pty : Bool)
    (table : Table Unit) {step : Step} {w : World}
    (hrun : Runs World.move (processxExec connections filenos pty) (.start table)
      (some (.error step)) w) :
    w.NoLeak ↔ LeavesNothing connections pty step := by
  have hends := processxExec_spec connections filenos pty _ _ w (at_start table) hrun
  exact hends.2 _ rfl

/-- A table in which the standard streams are open. -/
def standardStreams : Table Unit where
  entry n := if n < 3 then some ⟨(), false⟩ else none
  bound := 3
  entry_of_bound_le _ hn := if_neg (by omega)

/-- A program that cannot be executed, with three pipes: the connections own what is open. -/
theorem failed_exec_leaks_nothing :
    ∃ w, Runs World.move (processxExec [.str "|", .str "|", .str "|"] id false)
        (.start standardStreams) (some (.error .exec)) w ∧ w.connections = [9, 7, 5] ∧
      (w.NoLeak ↔ LeavesNothing [.str "|", .str "|", .str "|"] false .exec) := by
  have hrun : ∃ w, Runs World.move (processxExec [.str "|", .str "|", .str "|"] id false)
      (.start standardStreams) (some (.error .exec)) w ∧ w.connections = [9, 7, 5] :=
    exists_run_of_drive (([.ok, .ok, .ok, .ok, .ok, .ok, .ok, .ok, .ok, .ok, .ok, .ok, .ok,
      .errno (-2), .ok, .ok, .ok, .ok, .ok, .ok, .ok, .ok] : List Choice).map .act)
      World.connections (by decide)
  obtain ⟨w, hrun, hconnections⟩ := hrun
  exact ⟨w, hrun, hconnections, failed_start_leaks_nothing_iff _ id false standardStreams hrun⟩

/-- Two starts that leak: no pty can be opened, so that the signal pipe stays open, and `fork()`
fails, so that the socket pairs of the standard output do. -/
theorem failed_start_leaks :
    (∃ w, Runs World.move (processxExec [.null, .null, .null] id true) (.start standardStreams)
      (some (.error .pty)) w ∧ ¬w.NoLeak) ∧
    ∃ w, Runs World.move (processxExec [.null, .str "|", .null] id false) (.start standardStreams)
      (some (.error .fork)) w ∧ ¬w.NoLeak := by
  have hpty : ∃ w, Runs World.move (processxExec [.null, .null, .null] id true)
      (.start standardStreams) (some (.error .pty)) w ∧
      (w.table.entry 3, w.childFd, w.connections) = (some ⟨.call, false⟩, some 0, []) :=
    exists_run_of_drive (([.ok, .ok, .fail] : List Choice).map .act)
      (fun w : World => (w.table.entry 3, w.childFd, w.connections)) (by decide)
  have hfork : ∃ w, Runs World.move (processxExec [.null, .str "|", .null] id false)
      (.start standardStreams) (some (.error .fork)) w ∧
      (w.table.entry 5, w.childFd, w.connections) = (some ⟨.call, false⟩, some 0, []) :=
    exists_run_of_drive (([.ok, .ok, .ok, .ok, .ok, .fail, .ok, .ok] : List Choice).map .act)
      (fun w : World => (w.table.entry 5, w.childFd, w.connections)) (by decide)
  have hleak : ∀ {w : World} {fd : ℕ}, fd ≠ 0 →
      (w.table.entry fd, w.childFd, w.connections) = (some ⟨.call, false⟩, some 0, []) →
      ¬w.NoLeak := by
    intro w fd hfd hseen hleak
    simp only [Prod.mk.injEq] at hseen
    obtain ⟨hentry, hchild, hconnections⟩ := hseen
    rcases hleak fd _ hentry rfl with hzero | hmem
    · rw [hchild] at hzero
      exact hfd (Option.some.inj hzero).symm
    · rw [hconnections] at hmem
      exact List.not_mem_nil hmem
  obtain ⟨w, hrun, hseen⟩ := hpty
  obtain ⟨w', hrun', hseen'⟩ := hfork
  exact ⟨⟨w, hrun, hleak (by decide) hseen⟩, w', hrun', hleak (by decide) hseen'⟩

end Processx.FailedStart
